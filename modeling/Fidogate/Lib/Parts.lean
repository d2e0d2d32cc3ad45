/-
# `Fidogate.Lib.Parts` — a list taken apart where a part is full

The elements are collected in a part; when it is full and another element
comes, the part is put out and the next one begins.  `parts` gives the parts
that were put out, and the last one, which is what is left.
-/
import Mathlib.Data.List.Basic
import Mathlib.Tactic.Common

namespace Parts

variable {α : Type*} (full : List α → Bool)

/-- The full parts and the last one; the part at hand comes first. -/
def parts : List α → List α → List (List α) × List α
  | part, [] => ([], part)
  | part, c :: s =>
      if full part then (part :: (parts [c] s).1, (parts [c] s).2) else parts (part ++ [c]) s

/-- All parts. -/
def pieces (s : List α) : List (List α) := (parts full [] s).1 ++ [(parts full [] s).2]

variable {full}

theorem parts_full {part : List α} (h : full part = true) (c : α) (s : List α) :
    parts full part (c :: s) = (part :: (parts full [c] s).1, (parts full [c] s).2) := by
  rw [parts, if_pos h]

theorem parts_cons {part : List α} (h : full part = false) (c : α) (s : List α) :
    parts full part (c :: s) = parts full (part ++ [c]) s := by
  rw [parts, if_neg (by rw [h]; exact Bool.false_ne_true)]

theorem flatten_parts : ∀ part s : List α,
    (parts full part s).1.flatten ++ (parts full part s).2 = part ++ s
  | part, [] => (List.append_nil part).symm
  | part, c :: s => by
      rw [parts]
      split
      · rw [List.flatten_cons, List.append_assoc, flatten_parts [c] s, List.singleton_append]
      · rw [flatten_parts (part ++ [c]) s, List.append_assoc, List.singleton_append]

/-- The last part ends as the list does. -/
theorem getLast?_parts : ∀ part s : List α,
    (parts full part s).2.getLast? = (part ++ s).getLast?
  | part, [] => by rw [List.append_nil, parts]
  | part, c :: s => by
      rw [parts]
      split
      · rw [getLast?_parts [c] s, List.singleton_append, List.getLast?_append,
          List.getLast?_eq_some_getLast (List.cons_ne_nil c s), Option.some_or]
      · rw [getLast?_parts (part ++ [c]) s, List.append_assoc, List.singleton_append]

/-- What holds of one element, and of a part that is not full with one more,
holds of the last part. -/
theorem parts_induct {P : List α → Prop} (hone : ∀ c, P [c])
    (hmore : ∀ part c, P part → full part = false → P (part ++ [c])) :
    ∀ part s : List α, P part → P (parts full part s).2
  | _, [], h => h
  | part, c :: s, h => by
      rw [parts]
      split
      · exact parts_induct hone hmore [c] s (hone c)
      · next hfull =>
          exact parts_induct hone hmore (part ++ [c]) s
            (hmore part c h (Bool.eq_false_iff.mpr hfull))

end Parts

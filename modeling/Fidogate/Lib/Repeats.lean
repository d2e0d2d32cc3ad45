/-
# `Fidogate.Lib.Repeats` — a list without the repeats of its neighbours

`List.destutter (· ≠ ·)` keeps one of each run of equal elements.  Here it is
followed as the list grows at its end, the way a line is written.  A list some
of whose elements are dropped is the same without its repeats just where of
each run one is kept (`destutter_kept_iff`).
-/
import Mathlib.Data.List.Destutter

namespace Repeats

variable {α : Type*} [DecidableEq α]

theorem getLast?_destutter' : ∀ (l : List α) (a : α),
    (l.destutter' (· ≠ ·) a).getLast? = (a :: l).getLast?
  | [], _ => rfl
  | b :: l, a => by
      rw [List.destutter'_cons]
      split
      · rw [List.getLast?_cons_cons, ← getLast?_destutter' l b]
        cases h : l.destutter' (· ≠ ·) b with
        | nil => exact absurd h (List.destutter'_ne_nil _ _)
        | cons c l' => rfl
      · next h =>
          rw [getLast?_destutter' l a, not_not.mp h]
          rfl

theorem destutter'_concat : ∀ (l : List α) (a b : α), (l ++ [b]).destutter' (· ≠ ·) a =
    if (a :: l).getLast? = some b then l.destutter' (· ≠ ·) a
    else l.destutter' (· ≠ ·) a ++ [b]
  | [], a, b => by
      show (if a ≠ b then [a, b] else [a]) = if some a = some b then [a] else [a] ++ [b]
      by_cases h : a = b <;> simp [h]
  | c :: l, a, b => by
      rw [List.cons_append, List.destutter'_cons, List.destutter'_cons, List.getLast?_cons_cons]
      split
      · rw [destutter'_concat l c b]
        split <;> rfl
      · next h =>
          rw [destutter'_concat l a b, not_not.mp h]

@[simp] theorem getLast?_destutter (l : List α) : (l.destutter (· ≠ ·)).getLast? = l.getLast? := by
  cases l with
  | nil => rfl
  | cons a l => exact getLast?_destutter' l a

theorem destutter_concat (l : List α) (b : α) : (l ++ [b]).destutter (· ≠ ·) =
    if l.getLast? = some b then l.destutter (· ≠ ·) else l.destutter (· ≠ ·) ++ [b] := by
  cases l with
  | nil => rfl
  | cons a l => exact destutter'_concat l a b

theorem mem_destutter {l : List α} {a : α} : a ∈ l.destutter (· ≠ ·) ↔ a ∈ l := by
  refine ⟨fun h => (l.destutter_sublist _).subset h, ?_⟩
  induction l using List.reverseRecOn with
  | nil => exact fun h => h
  | append_singleton l b ih =>
      intro h
      rw [destutter_concat]
      split
      · next hb =>
          rcases List.mem_append.mp h with h | h
          · exact ih h
          · cases List.mem_singleton.mp h
            exact ih (List.mem_of_getLast? hb)
      · rcases List.mem_append.mp h with h | h
        · exact List.mem_append_left _ (ih h)
        · exact List.mem_append_right _ h

/-! ## What is kept of each run -/

/-- The elements kept. -/
def kept (l : List (α × Bool)) : List α := (l.filter Prod.snd).map Prod.fst

/-- Of the run of `a` that goes on in the list one is kept, or was if `k`, and
one of each run behind it. -/
def runsKept (a : α) (k : Bool) : List (α × Bool) → Bool
  | [] => k
  | (b, j) :: l => if b = a then runsKept a (k || j) l else k && runsKept b j l

omit [DecidableEq α] in
@[simp] theorem kept_nil : kept ([] : List (α × Bool)) = [] := rfl

omit [DecidableEq α] in
theorem kept_cons (a : α) (k : Bool) (l : List (α × Bool)) :
    kept ((a, k) :: l) = (if k then [a] else []) ++ kept l := by
  cases k <;> rfl

omit [DecidableEq α] in
theorem kept_append (l l' : List (α × Bool)) : kept (l ++ l') = kept l ++ kept l' := by
  rw [kept, List.filter_append, List.map_append]
  rfl

theorem destutter_cons_self (a : α) (l : List α) :
    (a :: a :: l).destutter (· ≠ ·) = (a :: l).destutter (· ≠ ·) := by
  rw [List.destutter_cons_cons, if_neg (not_not.mpr rfl)]
  rfl

theorem destutter_cons_ne {a b : α} (h : a ≠ b) (l : List α) :
    (a :: b :: l).destutter (· ≠ ·) = a :: (b :: l).destutter (· ≠ ·) := by
  rw [List.destutter_cons_cons, if_pos h]
  rfl

/-- An element that is nowhere behind it stays in front. -/
theorem destutter_cons_of_not_mem {a : α} {l : List α} (h : a ∉ l) :
    (a :: l).destutter (· ≠ ·) = a :: l.destutter (· ≠ ·) := by
  cases l with
  | nil => rfl
  | cons b l => exact destutter_cons_ne (List.ne_of_not_mem_cons h) l

theorem head?_destutter (a : α) (l : List α) : ((a :: l).destutter (· ≠ ·)).head? = some a := by
  induction l generalizing a with
  | nil => rfl
  | cons b l ih =>
      by_cases h : a = b
      · subst h
        rw [destutter_cons_self]
        exact ih a
      · rw [destutter_cons_ne h]
        rfl

/-- Dropping elements makes no more runs. -/
theorem length_destutter_le {l l' : List α} (h : l.Sublist l') :
    (l.destutter (· ≠ ·)).length ≤ (l'.destutter (· ≠ ·)).length :=
  (List.isChain_destutter (· ≠ ·) l).length_le_length_destutter_ne
    ((List.destutter_sublist (· ≠ ·) l).trans h)

omit [DecidableEq α] in
theorem kept_sublist (l : List (α × Bool)) : (kept l).Sublist (l.map Prod.fst) :=
  List.filter_sublist.map Prod.fst

/-- An element in front of another run is compared with the run alone. -/
theorem destutter_cons_iff {a b : α} (h : a ≠ b) {l m : List α} (hl : l.Sublist (b :: m)) :
    (a :: l).destutter (· ≠ ·) = a :: (b :: m).destutter (· ≠ ·) ↔
      l.destutter (· ≠ ·) = (b :: m).destutter (· ≠ ·) := by
  cases l with
  | nil =>
      refine ⟨fun he => ?_, fun he => ?_⟩
      · exact absurd (List.cons.inj he).2.symm (by simp)
      · exact absurd he.symm (by simp)
  | cons c l =>
      by_cases hac : a = c
      · subst hac
        have hlen := length_destutter_le hl
        refine ⟨fun he => ?_, fun he => ?_⟩
        · rw [destutter_cons_self] at he
          rw [he, List.length_cons] at hlen
          omega
        · have hhead := congrArg List.head? he
          rw [head?_destutter, head?_destutter] at hhead
          exact absurd (Option.some.inj hhead) h
      · rw [destutter_cons_ne hac]
        exact ⟨fun he => (List.cons.inj he).2, fun he => by rw [he]⟩

/-- The list kept is the same without its repeats just where of each run one
is kept. -/
theorem destutter_kept_iff (l : List (α × Bool)) (a : α) (k : Bool) :
    (kept ((a, k) :: l)).destutter (· ≠ ·) = (a :: l.map Prod.fst).destutter (· ≠ ·) ↔
      runsKept a k l = true := by
  induction l generalizing a k with
  | nil => cases k <;> simp [kept, runsKept]
  | cons p l ih =>
      obtain ⟨b, j⟩ := p
      rw [runsKept, List.map_cons]
      by_cases hab : b = a
      · subst hab
        rw [if_pos rfl, ← ih, destutter_cons_self]
        cases k with
        | false => rw [Bool.false_or]; rfl
        | true =>
            cases j with
            | false => rfl
            | true =>
                show (b :: b :: kept l).destutter (· ≠ ·) = _ ↔ (b :: kept l).destutter (· ≠ ·) = _
                rw [destutter_cons_self]
      · rw [if_neg hab, Bool.and_eq_true, ← ih, destutter_cons_ne (Ne.symm hab)]
        have hsub : (kept ((b, j) :: l)).Sublist (b :: l.map Prod.fst) := kept_sublist _
        cases k with
        | true =>
            rw [kept_cons, if_pos rfl]
            refine (destutter_cons_iff (Ne.symm hab) hsub).trans ?_
            exact ⟨fun h => ⟨rfl, h⟩, fun h => h.2⟩
        | false =>
            refine ⟨fun h => ?_, fun h => absurd h.1 (by decide)⟩
            have hlen := length_destutter_le hsub
            have hdrop : kept ((a, false) :: (b, j) :: l) = kept ((b, j) :: l) := rfl
            rw [hdrop] at h
            rw [h, List.length_cons] at hlen
            omega

end Repeats

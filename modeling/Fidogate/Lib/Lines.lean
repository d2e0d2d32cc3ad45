/-
# `Fidogate.Lib.Lines` — a list cut behind each end of a line

The lines keep their ends; only the last one may be without.  Appending to a
list whose last line is complete appends to its lines, and changing the first
element of a line changes no other line.
-/
import Mathlib.Data.List.Basic

namespace Lines

variable {α : Type*} [DecidableEq α] (e : α)

/-- The lines, `e` being the end of one. -/
def lines : List α → List (List α)
  | [] => []
  | c :: s =>
      if c = e then [e] :: lines s
      else
        match lines s with
        | [] => [[c]]
        | l :: ls => (c :: l) :: ls

/-- The last line is complete, if there is one. -/
def Ends (s : List α) : Prop := ∀ c ∈ s.getLast?, c = e

instance (s : List α) : Decidable (Ends e s) := by
  unfold Ends
  infer_instance

variable {e}

theorem lines_end (s : List α) : lines e (e :: s) = [e] :: lines e s := by
  rw [lines, if_pos rfl]

theorem lines_eq_nil : ∀ {s : List α}, lines e s = [] → s = []
  | [], _ => rfl
  | c :: s, h => by
      rw [lines] at h
      split at h
      · cases h
      · split at h <;> cases h

/-- The first line begins with the first element. -/
theorem lines_cons {c : α} (hc : c ≠ e) (s : List α) :
    ∃ l ls, lines e (c :: s) = (c :: l) :: ls ∧ ∀ d, d ≠ e → lines e (d :: s) = (d :: l) :: ls := by
  cases hs : lines e s with
  | nil =>
      refine ⟨[], [], by rw [lines, if_neg hc, hs], fun d hd => by rw [lines, if_neg hd, hs]⟩
  | cons l ls =>
      exact ⟨l, ls, by rw [lines, if_neg hc, hs], fun d hd => by rw [lines, if_neg hd, hs]⟩

theorem flatten_lines : ∀ s : List α, (lines e s).flatten = s
  | [] => rfl
  | c :: s => by
      have ih := flatten_lines s
      rw [lines]
      split
      · next hc => rw [List.flatten_cons, ih, hc, List.singleton_append]
      · split
        · next hs =>
            rw [lines_eq_nil hs]
            rfl
        · next l ls hs =>
            rw [hs] at ih
            exact congrArg (c :: ·) ih

/-- Behind a complete line there are lines of their own. -/
theorem lines_append : ∀ {s : List α}, Ends e s → ∀ t, lines e (s ++ t) = lines e s ++ lines e t
  | [], _, _ => rfl
  | [c], h, t => by
      obtain rfl := h c rfl
      rw [List.singleton_append, lines_end, lines_end]
      rfl
  | c :: d :: s, h, t => by
      have ih := lines_append (s := d :: s) (by rwa [Ends, List.getLast?_cons_cons] at h) t
      rw [List.cons_append]
      by_cases hc : c = e
      · rw [hc, lines_end, lines_end, ih]
        rfl
      · cases hs : lines e (d :: s) with
        | nil => cases lines_eq_nil hs
        | cons l ls =>
            have hs' : lines e (c :: d :: s) = (c :: l) :: ls := by rw [lines, if_neg hc, hs]
            rw [lines, if_neg hc, ih, hs, hs']
            rfl

theorem lines_line {w : List α} (h : e ∉ w) : lines e (w ++ [e]) = [w ++ [e]] := by
  induction w with
  | nil => exact lines_end []
  | cons c w ih =>
      have hc : c ≠ e := fun hc => h (hc ▸ List.mem_cons_self)
      rw [List.cons_append, lines, if_neg hc, ih fun hw => h (List.mem_cons_of_mem c hw)]

theorem lines_rest {w : List α} (h : e ∉ w) (hne : w ≠ []) : lines e w = [w] := by
  induction w with
  | nil => exact absurd rfl hne
  | cons c w ih =>
      have hc : c ≠ e := fun hc => h (hc ▸ List.mem_cons_self)
      rw [lines, if_neg hc]
      cases w with
      | nil => rfl
      | cons d w => rw [ih (fun hw => h (List.mem_cons_of_mem c hw)) (List.cons_ne_nil d w)]

omit [DecidableEq α] in
theorem ends_append_end (w : List α) : Ends e (w ++ [e]) := by
  intro c hc
  rw [List.getLast?_append, List.getLast?_singleton, Option.some_or] at hc
  exact (Option.some.inj hc).symm

/-- The lines of a list whose last line is complete. -/
theorem mem_lines : ∀ {s : List α}, Ends e s → ∀ l ∈ lines e s, ∃ w, e ∉ w ∧ l = w ++ [e]
  | [], _ => fun l hl => (nomatch hl)
  | c :: s, h => by
      have hs : Ends e s := by
        cases s with
        | nil => exact fun d hd => (nomatch hd)
        | cons d s => rwa [Ends, List.getLast?_cons_cons] at h
      have ih := mem_lines hs
      rw [lines]
      split
      · intro l hl
        obtain rfl | hl := List.mem_cons.mp hl
        · exact ⟨[], List.not_mem_nil, rfl⟩
        · exact ih l hl
      · next hc =>
          split
          · next hnil =>
              rw [lines_eq_nil hnil] at h
              exact absurd (h c rfl) hc
          · next l₀ ls hcons =>
              rw [hcons] at ih
              intro l hl
              obtain rfl | hl := List.mem_cons.mp hl
              · obtain ⟨w, hw, rfl⟩ := ih l₀ List.mem_cons_self
                refine ⟨c :: w, fun h => ?_, rfl⟩
                exact (List.mem_cons.mp h).elim (fun heq => hc heq.symm) hw
              · exact ih l (List.mem_cons_of_mem l₀ hl)

/-- Complete lines are the lines of what they make together. -/
theorem lines_flatten : ∀ {ls : List (List α)}, (∀ l ∈ ls, ∃ w, e ∉ w ∧ l = w ++ [e]) →
    lines e ls.flatten = ls
  | [], _ => rfl
  | l :: ls, h => by
      obtain ⟨w, hw, rfl⟩ := h l List.mem_cons_self
      rw [List.flatten_cons, lines_append (ends_append_end w), lines_line hw,
        lines_flatten fun l hl => h l (List.mem_cons_of_mem _ hl)]
      rfl

end Lines

/-
# `Fidogate.Lib.Rules` — the first rule that applies decides

A program tries rules one after the other on what it has, until one says that
it applied.  Where a rule that does not apply leaves everything as it is
(`Decides`), the outcome is that of the first rule that applies, and there is no
other way for anything to change.
-/
import Mathlib.Data.List.Basic

namespace Rules

variable {δ ρ : Type*}

/-- The rules are tried until one applies. -/
def tryRules (step : δ → ρ → δ × Bool) (d : δ) : List ρ → δ × Bool
  | [] => (d, false)
  | r :: rs =>
      if (step d r).2 then ((step d r).1, true) else tryRules step (step d r).1 rs

/-- What the first rule that applies makes of it. -/
def decided (applies : δ → ρ → Bool) (outcome : δ → ρ → δ) (rs : List ρ) (d : δ) : Option δ :=
  (rs.find? (applies d)).map (outcome d)

/-- A step is a rule that applies, or changes nothing. -/
def Decides (step : δ → ρ → δ × Bool) (applies : δ → ρ → Bool) (outcome : δ → ρ → δ)
    (d : δ) : Prop :=
  ∀ r, step d r = if applies d r then (outcome d r, true) else (d, false)

variable {step : δ → ρ → δ × Bool} {applies : δ → ρ → Bool} {outcome : δ → ρ → δ} {d : δ}

theorem decided_cons (r : ρ) (rs : List ρ) :
    decided applies outcome (r :: rs) d =
      if applies d r then some (outcome d r) else decided applies outcome rs d := by
  unfold decided
  cases h : applies d r with
  | true => rw [List.find?_cons_of_pos h]; rfl
  | false => rw [List.find?_cons_of_neg (Bool.eq_false_iff.mp h)]; rfl

theorem decided_map (g : δ → δ) (rs : List ρ) :
    decided applies (fun d r => g (outcome d r)) rs d = (decided applies outcome rs d).map g :=
  (Option.map_map g (outcome d) _).symm

/-- Trying the rules is asking the first that applies. -/
theorem Decides.tryRules_eq (h : Decides step applies outcome d) :
    ∀ rs : List ρ, tryRules step d rs =
      ((decided applies outcome rs d).getD d, (decided applies outcome rs d).isSome)
  | [] => rfl
  | r :: rs => by
      have ih := h.tryRules_eq rs
      rw [tryRules, h r, decided_cons]
      cases applies d r with
      | true => rfl
      | false => exact ih

/-- What is decided is the outcome of a rule of the list that applies. -/
theorem mem_of_decided {rs : List ρ} {d' : δ} (h : decided applies outcome rs d = some d') :
    ∃ r ∈ rs, applies d r = true ∧ outcome d r = d' := by
  obtain ⟨r, hr, rfl⟩ := Option.map_eq_some_iff.mp h
  exact ⟨r, List.mem_of_find?_eq_some hr, List.find?_some hr, rfl⟩

/-- It is decided where a rule of the list applies. -/
theorem isSome_decided {rs : List ρ} :
    (decided applies outcome rs d).isSome = true ↔ ∃ r ∈ rs, applies d r = true := by
  rw [decided, Option.isSome_map, List.find?_isSome]

/-- The rules behind one that applies have no effect. -/
theorem decided_append {r : ρ} (hr : applies d r = true) (pre post : List ρ) :
    decided applies outcome (pre ++ r :: post) d = decided applies outcome (pre ++ [r]) d := by
  induction pre with
  | nil => rw [List.nil_append, List.nil_append, decided_cons, decided_cons, if_pos hr, if_pos hr]
  | cons q pre ih => rw [List.cons_append, List.cons_append, decided_cons, decided_cons, ih]

end Rules

/-
# `Fidogate.Lib.Refine` — a machine that answers as its specification does

A machine may fail, and gives an answer at each step.  Its specification
always answers.  Where a relation between their states is kept by a step, and
the answers are the same, they are the same along every run.
-/
import Fidogate.Lib.Run
import Mathlib.Algebra.Order.Ring.Nat

namespace Refine

variable {σ α ι ο : Type*}

/-- The answers along a run, and the last state. -/
def run (step : σ → ι → Option (ο × σ)) : σ → List ι → Option (List ο × σ)
  | s, [] => some ([], s)
  | s, i :: is =>
      (step s i).bind fun r => (run step r.2 is).map fun r' => (r.1 :: r'.1, r'.2)

/-- The state of the specification after a step. -/
def next (spec : α → ι → ο × α) (a : α) (i : ι) : α := (spec a i).2

/-- The answers of the specification. -/
def answers (spec : α → ι → ο × α) : α → List ι → List ο
  | _, [] => []
  | a, i :: is => (spec a i).1 :: answers spec (next spec a i) is

/-- A step of the machine, from a state that stands for one of the
specification, answers as the specification does and keeps to it. -/
def Simulates (step : σ → ι → Option (ο × σ)) (spec : α → ι → ο × α) (rel : σ → α → Prop)
    (ok : α → ι → Prop) : Prop :=
  ∀ s a i, rel s a → ok a i →
    ∃ s', step s i = some ((spec a i).1, s') ∧ rel s' (next spec a i)

variable {step : σ → ι → Option (ο × σ)} {spec : α → ι → ο × α} {rel : σ → α → Prop}
  {ok : α → ι → Prop}

/-- The answers of a run are those of the specification. -/
theorem Simulates.run (h : Simulates step spec rel ok) : ∀ {s : σ} {a : α} {is : List ι},
    rel s a → Run.Met (next spec) ok a is →
      ∃ s', Refine.run step s is = some (answers spec a is, s') ∧
        rel s' (Run.run (next spec) a is)
  | s, a, [], hrel, _ => ⟨s, rfl, hrel⟩
  | s, a, i :: is, hrel, hmet => by
      obtain ⟨s₁, hstep, hrel₁⟩ := h s a i hrel hmet.1
      obtain ⟨s', hrun, hrel'⟩ := h.run hrel₁ hmet.2
      refine ⟨s', ?_, hrel'⟩
      rw [Refine.run, hstep, Option.bind_some, hrun, Option.map_some, answers]

end Refine

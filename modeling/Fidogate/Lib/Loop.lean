/-
# `Fidogate.Lib.Loop` — loops whose rounds may have no outcome

A round of a loop comes to another state from which the next round begins, or
to the state in which the loop is left, or has no outcome (`none`).  A loop
whose rounds go down in a well-founded order ends one way or the other, and it
is left just where no state on its way is one without an outcome.
-/
import Mathlib.Order.WellFounded

namespace Loop

variable {σ : Type*}

/-- What a round comes to. -/
inductive Round (σ : Type*)
  | again (s : σ)
  | leave (s : σ)

/-- The loop for some rounds: `none` if they do not suffice, `some none` if a
round has no outcome. -/
def loop (body : σ → Option (Round σ)) : Nat → σ → Option (Option σ)
  | 0, _ => none
  | n + 1, s =>
      match body s with
      | none => some none
      | some (.leave t) => some (some t)
      | some (.again t) => loop body n t

/-- The second state begins a round on the way from the first one. -/
inductive Reach (body : σ → Option (Round σ)) : σ → σ → Prop
  | start (s : σ) : Reach body s s
  | again {s t u : σ} : body s = some (.again t) → Reach body t u → Reach body s u

variable {body : σ → Option (Round σ)} {s t : σ}

/-- What each round keeps holds in every state on the way. -/
theorem Reach.invariant {I : σ → Prop} (hI : ∀ t u, I t → body t = some (.again u) → I u)
    (hr : Reach body s t) (hs : I s) : I t := by
  induction hr with
  | start => exact hs
  | again hstep _ ih => exact ih (hI _ _ hs hstep)

/-- A loop that is left has a last round. -/
theorem last_of_loop : ∀ {n : Nat} {s : σ}, loop body n s = some (some t) →
    ∃ u, Reach body s u ∧ body u = some (.leave t)
  | n + 1, s, h => by
      rw [loop] at h
      cases hb : body s with
      | none =>
          rw [hb] at h
          cases h
      | some r =>
          cases r with
          | leave u =>
              rw [hb] at h
              cases h
              exact ⟨s, .start s, hb⟩
          | again u =>
              rw [hb] at h
              obtain ⟨v, hv, hlast⟩ := last_of_loop h
              exact ⟨v, .again hb hv, hlast⟩

/-- A loop that goes down ends. -/
theorem exists_loop {r : σ → σ → Prop} (hr : WellFounded r) {I : σ → Prop}
    (hI : ∀ t u, I t → body t = some (.again u) → I u)
    (hdown : ∀ t u, I t → body t = some (.again u) → r u t) (s : σ) (hs : I s) :
    ∃ n o, loop body n s = some o := by
  induction s using hr.induction with
  | h s ih =>
      cases hb : body s with
      | none => exact ⟨1, none, by rw [loop, hb]⟩
      | some x =>
          cases x with
          | leave u => exact ⟨1, some u, by rw [loop, hb]⟩
          | again u =>
              obtain ⟨n, o, hn⟩ := ih u (hdown s u hs hb) (hI s u hs hb)
              exact ⟨n + 1, o, by rw [loop, hb]; exact hn⟩

/-- A loop that ends is left just where every round has an outcome. -/
theorem left_iff : ∀ {n : Nat} {s : σ} {o : Option σ}, loop body n s = some o →
    (o ≠ none ↔ ∀ t, Reach body s t → body t ≠ none)
  | n + 1, s, o, h => by
      rw [loop] at h
      cases hb : body s with
      | none =>
          rw [hb] at h
          cases h
          exact iff_of_false (fun h => h rfl) fun h => h s (.start s) hb
      | some x =>
          have hout : body s ≠ none := by
            rw [hb]
            exact Option.some_ne_none x
          cases x with
          | leave u =>
              rw [hb] at h
              cases h
              refine iff_of_true (Option.some_ne_none u) fun t ht => ?_
              cases ht with
              | start => exact hout
              | again hstep _ =>
                  rw [hb] at hstep
                  cases hstep
          | again u =>
              rw [hb] at h
              rw [left_iff h]
              constructor
              · intro hu t ht
                cases ht with
                | start => exact hout
                | again hstep hr =>
                    rw [hb] at hstep
                    cases hstep
                    exact hu t hr
              · exact fun hs t ht => hs t (.again hb ht)

end Loop

/-
# `Fidogate.Lib.Run` — runs of a machine and what holds along them

A machine is a step function on its states.  A run is a list of inputs; `Met`
says that each of them meets a condition in the state it arrives in.
-/
import Mathlib.Data.List.Basic

namespace Run

variable {σ ε : Type*}

/-- The state after a list of inputs. -/
def run (step : σ → ε → σ) (s : σ) (es : List ε) : σ := es.foldl step s

/-- Each input meets the condition in the state it arrives in. -/
def Met (step : σ → ε → σ) (ok : σ → ε → Prop) : σ → List ε → Prop
  | _, [] => True
  | s, e :: es => ok s e ∧ Met step ok (step s e) es

instance decMet (step : σ → ε → σ) (ok : σ → ε → Prop) [∀ s e, Decidable (ok s e)] :
    ∀ (s : σ) (es : List ε), Decidable (Met step ok s es)
  | _, [] => isTrue trivial
  | s, e :: es =>
      match (inferInstance : Decidable (ok s e)), decMet step ok (step s e) es with
      | isTrue h, isTrue h' => isTrue ⟨h, h'⟩
      | isFalse h, _ => isFalse fun hm => h hm.1
      | _, isFalse h => isFalse fun hm => h hm.2

variable {step : σ → ε → σ} {ok : σ → ε → Prop}

@[simp] theorem run_nil (s : σ) : run step s [] = s := rfl

@[simp] theorem run_cons (s : σ) (e : ε) (es : List ε) :
    run step s (e :: es) = run step (step s e) es := rfl

theorem run_append (s : σ) (es es' : List ε) :
    run step s (es ++ es') = run step (run step s es) es' :=
  List.foldl_append

theorem met_append {s : σ} : ∀ {es es' : List ε}, Met step ok s (es ++ es') ↔
    Met step ok s es ∧ Met step ok (run step s es) es'
  | [], es' => by simp [Met]
  | e :: es, es' => by
      rw [List.cons_append, Met, met_append, Met, run_cons, and_assoc]

theorem met_of_forall (h : ∀ s e, ok s e) : ∀ {s : σ} (es : List ε), Met step ok s es
  | _, [] => trivial
  | s, e :: es => ⟨h s e, met_of_forall h es⟩

/-- What each step that meets the condition keeps holds after every run whose
steps all meet it. -/
theorem run_induct {P : σ → Prop} (hstep : ∀ s e, P s → ok s e → P (step s e)) :
    ∀ {s : σ} (es : List ε), P s → Met step ok s es → P (run step s es)
  | _, [], hs, _ => hs
  | s, e :: es, hs, hm => run_induct hstep es (hstep s e hs hm.1) hm.2

/-- What the inputs of such a run meet besides. -/
theorem met_imp {P : σ → Prop} {ok' : σ → ε → Prop} (hstep : ∀ s e, P s → ok s e → P (step s e))
    (hok : ∀ s e, P s → ok s e → ok' s e) :
    ∀ {s : σ} (es : List ε), P s → Met step ok s es → Met step ok' s es
  | _, [], _, _ => trivial
  | s, e :: es, hs, hm =>
      ⟨hok s e hs hm.1, met_imp hstep hok es (hstep s e hs hm.1) hm.2⟩

/-- A run with an input that does not meet the condition has a first part, in
whose last state it arrives. -/
theorem exists_of_not_met : ∀ {s : σ} {es : List ε}, ¬ Met step ok s es →
    ∃ before e after, es = before ++ e :: after ∧ ¬ ok (run step s before) e
  | _, [], h => absurd trivial h
  | s, e :: es, h => by
      by_cases he : ok s e
      · obtain ⟨before, e', after, hes, hok⟩ := exists_of_not_met fun hm => h ⟨he, hm⟩
        exact ⟨e :: before, e', after, by rw [hes]; rfl, hok⟩
      · exact ⟨[], e, es, rfl, he⟩

/-- What every step keeps holds after every run. -/
theorem run_invariant {P : σ → Prop} (hstep : ∀ s e, P s → P (step s e)) {s : σ}
    (es : List ε) (hs : P s) : P (run step s es) := by
  induction es generalizing s with
  | nil => exact hs
  | cons e es ih => exact ih (hstep s e hs)

/-- Where a step that does not meet the condition loses what no later step
brings back, what holds at the end tells that all steps met it. -/
theorem run_iff_met {I P : σ → Prop} (hI : ∀ s e, I s → I (step s e))
    (hlost : ∀ s e, I s → ¬ P s → ¬ P (step s e))
    (hstep : ∀ s e, I s → P s → (P (step s e) ↔ ok s e)) :
    ∀ {s : σ} (es : List ε), I s → P s → (P (run step s es) ↔ Met step ok s es)
  | _, [], _, hP => ⟨fun _ => trivial, fun _ => hP⟩
  | s, e :: es, hs, hP => by
      rw [run_cons, Met, ← hstep s e hs hP]
      by_cases he : P (step s e)
      · rw [run_iff_met hI hlost hstep es (hI s e hs) he]
        exact ⟨fun h => ⟨he, h⟩, fun h => h.2⟩
      · refine ⟨fun h => ?_, fun h => absurd h.1 he⟩
        have hend : I (run step (step s e) es) ∧ ¬ P (run step (step s e) es) :=
          run_invariant (P := fun s => I s ∧ ¬ P s)
            (fun s e h => ⟨hI s e h.1, hlost s e h.1 h.2⟩) es ⟨hI s e hs, he⟩
        exact absurd h hend.2

/-- Where a step keeps what holds exactly if it meets the condition, it holds
all along a run exactly if all its steps meet it.  `may` is what the inputs
are promised to be. -/
theorem all_run_iff_met {P : σ → Prop} {may : σ → ε → Prop}
    (hstep : ∀ s e, P s → may s e → (P (step s e) ↔ ok s e)) :
    ∀ {s : σ} (es : List ε), P s → Met step may s es →
      ((∀ es', es' <+: es → P (run step s es')) ↔ Met step ok s es)
  | s, [], hP, _ => by
      refine ⟨fun _ => trivial, fun _ es' hes' => ?_⟩
      rw [List.prefix_nil.mp hes']
      exact hP
  | s, e :: es, hP, hmay => by
      rw [Met, ← hstep s e hP hmay.1]
      constructor
      · intro hall
        have hnext : P (step s e) := hall [e] ⟨es, rfl⟩
        refine ⟨hnext, (all_run_iff_met hstep es hnext hmay.2).mp fun es' hes' => ?_⟩
        exact hall (e :: es') (List.cons_prefix_cons.mpr ⟨rfl, hes'⟩)
      · rintro ⟨hnext, hmet⟩ es' hes'
        rcases List.prefix_cons_iff.mp hes' with rfl | ⟨es'', rfl, hes''⟩
        · exact hP
        · exact (all_run_iff_met hstep es hnext hmay.2).mpr hmet es'' hes''

end Run

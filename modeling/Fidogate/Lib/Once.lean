/-
# `Fidogate.Lib.Once` — a record of keys makes each output happen once

A machine keeps a record of the keys it has put out.  If a step records just
what it puts out, and puts out only what is not recorded yet (`Keeps`), then
over a run no key is put out twice, and one that ends up in the record has
been put out once.
-/
import Fidogate.Lib.Run
import Mathlib.Data.List.Nodup

namespace Once

variable {σ ε κ : Type*} (step : σ → ε → σ) (hist : σ → List κ) (out : σ → ε → Option κ)

/-- The keys put out along a run, in their order. -/
def outs : σ → List ε → List κ
  | _, [] => []
  | s, e :: es => (out s e).toList ++ outs (step s e) es

/-- The step records what it puts out, and that was not recorded before. -/
structure Keeps (s : σ) (e : ε) : Prop where
  recorded : hist (step s e) = (out s e).toList ++ hist s
  fresh : ∀ k, out s e = some k → k ∉ hist s

variable {step hist out} {ok : σ → ε → Prop} (hok : ∀ s e, ok s e → Keeps step hist out s e)

include hok

/-- The record is what has been put out, and what was there before. -/
theorem hist_run : ∀ {s : σ} (es : List ε), Run.Met step ok s es →
    hist (Run.run step s es) = (outs step out s es).reverse ++ hist s
  | _, [], _ => rfl
  | s, e :: es, hm => by
      rw [Run.run_cons, hist_run es hm.2, (hok s e hm.1).recorded, outs, List.reverse_append,
        List.append_assoc]
      cases out s e <;> rfl

theorem not_mem_hist_of_mem_outs : ∀ {s : σ} (es : List ε), Run.Met step ok s es →
    ∀ k ∈ outs step out s es, k ∉ hist s
  | _, [], _, k, hk => by cases hk
  | s, e :: es, hm, k, hk => by
      rcases List.mem_append.mp hk with h | h
      · exact (hok s e hm.1).fresh k (Option.mem_toList.mp h)
      · intro hs
        have h' := not_mem_hist_of_mem_outs es hm.2 k h
        rw [(hok s e hm.1).recorded] at h'
        exact h' (List.mem_append_right _ hs)

/-- No key is put out twice. -/
theorem outs_nodup : ∀ {s : σ} (es : List ε), Run.Met step ok s es →
    (outs step out s es).Nodup
  | _, [], _ => List.nodup_nil
  | s, e :: es, hm => by
      rw [outs]
      cases ho : out s e with
      | none => exact outs_nodup es hm.2
      | some k =>
          refine List.nodup_cons.mpr ⟨?_, outs_nodup es hm.2⟩
          intro hk
          have h := not_mem_hist_of_mem_outs hok es hm.2 k hk
          rw [(hok s e hm.1).recorded, ho] at h
          exact h List.mem_cons_self

/-- A key that is recorded at the end, and was not at the start, was put out
once. -/
theorem count_outs [BEq κ] [LawfulBEq κ] {s : σ} {es : List ε} (hm : Run.Met step ok s es) {k : κ}
    (hs : k ∉ hist s) (hk : k ∈ hist (Run.run step s es)) : (outs step out s es).count k = 1 := by
  rw [hist_run hok es hm] at hk
  rcases List.mem_append.mp hk with h | h
  · exact List.count_eq_one_of_mem (outs_nodup hok es hm) (List.mem_reverse.mp h)
  · exact absurd h hs

theorem hist_subset_run {s : σ} {es : List ε} (hm : Run.Met step ok s es) {k : κ}
    (hk : k ∈ hist s) : k ∈ hist (Run.run step s es) := by
  rw [hist_run hok es hm]
  exact List.mem_append_right _ hk

/-- Of an input that puts its key out unless it is recorded already, the key
is put out once. -/
theorem count_outs_of_arrival [BEq κ] [LawfulBEq κ] {s : σ} {es₁ es₂ : List ε} {e : ε}
    (hm : Run.Met step ok s (es₁ ++ e :: es₂)) {k : κ} (hs : k ∉ hist s)
    (he : k ∉ hist (Run.run step s es₁) → out (Run.run step s es₁) e = some k) :
    (outs step out s (es₁ ++ e :: es₂)).count k = 1 := by
  obtain ⟨-, h2⟩ := Run.met_append.mp hm
  refine count_outs hok hm hs ?_
  rw [Run.run_append, Run.run_cons]
  refine hist_subset_run hok h2.2 ?_
  rw [(hok _ e h2.1).recorded]
  by_cases hk : k ∈ hist (Run.run step s es₁)
  · exact List.mem_append_right _ hk
  · rw [he hk]
    exact List.mem_append_left _ List.mem_cons_self

end Once

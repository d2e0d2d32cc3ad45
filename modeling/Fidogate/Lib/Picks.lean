/-
# `Fidogate.Lib.Picks` — one key after another, with a record of those done

Work is grouped by a key: each round takes the first key the record does not
show, and puts it there.  A record may show more than was put into it (`hides`):
then keys are passed over, unless none is hidden by one that came before it
(`forall_mem_picks_iff`).
-/
import Mathlib.Data.List.Basic
import Mathlib.Data.List.Forall2
import Mathlib.Data.List.Induction
import Mathlib.Data.List.Nodup

namespace Picks

variable {κ : Type*} (hides : κ → κ → Bool)

/-- The record shows the key. -/
def shows (done : List κ) (k : κ) : Bool := done.any (hides · k)

/-- The rounds, as long as there is a key that is not shown. -/
def rounds (ks : List κ) : Nat → List κ → List κ
  | 0, _ => []
  | n + 1, done =>
      match ks.find? fun k => ! shows hides done k with
      | none => []
      | some k => k :: rounds ks n (done ++ [k])

/-- A key is put into the record if it does not show it. -/
def pick (done : List κ) (k : κ) : List κ := if shows hides done k then done else done ++ [k]

/-- The keys that are picked. -/
def picks (ks : List κ) : List κ := ks.foldl (pick hides) []

/-- No key is hidden by another that came before it came first. -/
def NoneHidden (ks : List κ) : Prop :=
  ∀ ks₁ k ks₂, ks = ks₁ ++ k :: ks₂ → k ∉ ks₁ → ∀ a ∈ ks₁, hides a k = false

variable {hides} {ks done : List κ} {k : κ}

theorem shows_append {done' : List κ} :
    shows hides (done ++ done') k = (shows hides done k || shows hides done' k) :=
  List.any_append

/-- A key that is shown makes no difference. -/
theorem rounds_cons_shown : ∀ {n : Nat} {done : List κ}, shows hides done k = true →
    rounds hides (k :: ks) n done = rounds hides ks n done
  | 0, _, _ => rfl
  | n + 1, done, h => by
      rw [rounds, rounds, List.find?_cons_of_neg (by rw [h]; decide)]
      split
      · rfl
      · next a _ =>
          have hmore : shows hides (done ++ [a]) k = true := by
            rw [shows_append, h, Bool.true_or]
          rw [rounds_cons_shown hmore]

/-- The rounds take the keys in the order they come first. -/
theorem foldl_pick (hrefl : ∀ k, hides k k = true) : ∀ {ks : List κ} {n : Nat} (done : List κ),
    ks.length < n → ks.foldl (pick hides) done = done ++ rounds hides ks n done
  | [], 0, _, h => absurd h (Nat.not_lt_zero _)
  | [], _ + 1, done, _ => (List.append_nil done).symm
  | _ :: _, 0, _, h => absurd h (Nat.not_lt_zero _)
  | k :: ks, n + 1, done, h => by
      rw [List.foldl_cons, pick]
      cases hk : shows hides done k with
      | true => rw [if_pos rfl, rounds_cons_shown hk, foldl_pick hrefl done (Nat.lt_of_succ_lt h)]
      | false =>
          have hself : shows hides (done ++ [k]) k = true := by
            rw [shows_append, hk, Bool.false_or, shows, List.any_cons, hrefl, Bool.true_or]
          have hround : rounds hides (k :: ks) (n + 1) done =
              k :: rounds hides (k :: ks) n (done ++ [k]) := by
            rw [rounds, List.find?_cons_of_pos (by rw [hk]; rfl)]
          rw [if_neg Bool.false_ne_true, foldl_pick hrefl (done ++ [k]) (Nat.lt_of_succ_lt_succ h),
            hround, rounds_cons_shown hself, List.append_assoc, List.singleton_append]

theorem picks_eq_rounds (hrefl : ∀ k, hides k k = true) {n : Nat} (h : ks.length < n) :
    picks hides ks = rounds hides ks n [] :=
  foldl_pick hrefl [] h

theorem rounds_of_shown (h : ∀ k ∈ ks, shows hides done k = true) :
    ∀ n : Nat, rounds hides ks n done = []
  | 0 => rfl
  | n + 1 => by
      have hnone : (ks.find? fun k => ! shows hides done k) = none := by
        refine List.find?_eq_none.mpr fun k hk => ?_
        rw [h k hk]
        decide
      rw [rounds, hnone]

theorem rounds_add (m : Nat) : ∀ (n : Nat) (done : List κ), rounds hides ks (n + m) done =
    rounds hides ks n done ++ rounds hides ks m (done ++ rounds hides ks n done)
  | 0, done => by rw [Nat.zero_add, rounds, List.nil_append, List.append_nil]
  | n + 1, done => by
      rw [Nat.add_right_comm, rounds, rounds]
      cases hfind : ks.find? fun k => ! shows hides done k with
      | none =>
          have hshown : ∀ k ∈ ks, shows hides done k = true := by
            intro k hk
            have hnot := List.find?_eq_none.mp hfind k hk
            simpa using hnot
          rw [List.append_nil, rounds_of_shown hshown, List.nil_append]
      | some k =>
          dsimp only
          rw [rounds_add m n, List.append_assoc done, List.singleton_append, List.cons_append]

/-- Rounds after which every key is shown are all of them. -/
theorem rounds_eq_picks (hrefl : ∀ k, hides k k = true) {n : Nat}
    (h : ∀ k ∈ ks, shows hides (rounds hides ks n []) k = true) :
    rounds hides ks n [] = picks hides ks := by
  have hmore := @rounds_add κ hides ks (ks.length + 1) n []
  rw [List.nil_append, rounds_of_shown h, List.append_nil] at hmore
  rw [← hmore, picks_eq_rounds hrefl (n := n + (ks.length + 1)) (by omega)]

theorem picks_concat (ks : List κ) (k : κ) :
    picks hides (ks ++ [k]) = pick hides (picks hides ks) k :=
  List.foldl_append

theorem picks_subset : picks hides ks ⊆ ks := by
  induction ks using List.reverseRecOn with
  | nil => exact fun _ h => h
  | append_singleton ks a ih =>
      intro k hk
      rw [picks_concat, pick] at hk
      split at hk
      · exact List.mem_append_left _ (ih hk)
      · rcases List.mem_append.mp hk with hk | hk
        · exact List.mem_append_left _ (ih hk)
        · exact List.mem_append_right _ hk

/-- No key is picked again. -/
theorem nodup_picks (hrefl : ∀ k, hides k k = true) (ks : List κ) : (picks hides ks).Nodup := by
  induction ks using List.reverseRecOn with
  | nil => exact List.nodup_nil
  | append_singleton ks a ih =>
      rw [picks_concat, pick]
      split
      · exact ih
      · next h =>
          have hnew : a ∉ picks hides ks := fun ha => h (List.any_eq_true.mpr ⟨a, ha, hrefl a⟩)
          rw [← List.concat_eq_append]
          exact ih.concat hnew

theorem noneHidden_concat : NoneHidden hides (ks ++ [k]) ↔
    NoneHidden hides ks ∧ (k ∉ ks → ∀ a ∈ ks, hides a k = false) := by
  constructor
  · intro h
    refine ⟨?_, fun hk => h ks k [] rfl hk⟩
    intro ks₁ b ks₂ hks
    refine h ks₁ b (ks₂ ++ [k]) ?_
    rw [hks, List.append_assoc, List.cons_append]
  · rintro ⟨hks, hk⟩ ks₁ b ks₂ heq
    rcases List.eq_nil_or_concat ks₂ with rfl | ⟨ks₂', c, rfl⟩
    · obtain ⟨rfl, hb⟩ := List.append_inj' heq rfl
      obtain rfl := List.singleton_inj.mp hb
      exact hk
    · rw [List.concat_eq_append, ← List.cons_append, ← List.append_assoc] at heq
      obtain ⟨rfl, -⟩ := List.append_inj' heq rfl
      exact hks ks₁ b ks₂' rfl

/-- The record shows all the keys in the end. -/
theorem shows_picks (hrefl : ∀ k, hides k k = true) (hk : k ∈ ks) :
    shows hides (picks hides ks) k = true := by
  induction ks using List.reverseRecOn with
  | nil => cases hk
  | append_singleton ks a ih =>
      have hself : shows hides (pick hides (picks hides ks) a) a = true := by
        rw [pick]
        split
        · next h => exact h
        · rw [shows_append, Bool.or_eq_true]
          exact Or.inr (List.any_eq_true.mpr ⟨a, List.mem_singleton_self a, hrefl a⟩)
      rw [picks_concat]
      rcases List.mem_append.mp hk with hk | hk
      · rw [pick]
        split
        · exact ih hk
        · rw [shows_append, ih hk, Bool.true_or]
      · rw [List.mem_singleton.mp hk]
        exact hself

/-- All keys are picked just where none is hidden. -/
theorem forall_mem_picks_iff (hrefl : ∀ k, hides k k = true) (ks : List κ) :
    (∀ k ∈ ks, k ∈ picks hides ks) ↔ NoneHidden hides ks := by
  induction ks using List.reverseRecOn with
  | nil => simp [NoneHidden]
  | append_singleton ks k ih =>
      have hsub : picks hides ks ⊆ ks := picks_subset
      rw [noneHidden_concat, ← ih, picks_concat, pick]
      constructor
      · intro h
        have hold : ∀ a ∈ ks, a ∈ picks hides ks := by
          intro a ha
          have hmem := h a (List.mem_append_left _ ha)
          split at hmem
          · exact hmem
          · next hnot =>
              rcases List.mem_append.mp hmem with hmem | hmem
              · exact hmem
              · obtain rfl := List.mem_singleton.mp hmem
                exact absurd (shows_picks hrefl ha) hnot
        refine ⟨hold, ?_⟩
        intro hk a ha
        have hlast := h k (List.mem_append_right _ (List.mem_singleton_self k))
        split at hlast
        · exact absurd (hsub hlast) hk
        · next hnot =>
            rw [Bool.not_eq_true, shows, List.any_eq_false] at hnot
            exact Bool.eq_false_iff.mpr (hnot a (hold a ha))
      · rintro ⟨hold, hk⟩ b hb
        have hpick : ∀ a ∈ picks hides ks,
            a ∈ if shows hides (picks hides ks) k then picks hides ks else picks hides ks ++ [k] := by
          intro a ha
          split
          · exact ha
          · exact List.mem_append_left _ ha
        rcases List.mem_append.mp hb with hb | hb
        · exact hpick b (hold b hb)
        · obtain rfl := List.mem_singleton.mp hb
          by_cases hmem : b ∈ ks
          · exact hpick b (hold b hmem)
          · have hnot : shows hides (picks hides ks) b = false :=
              List.any_eq_false.mpr fun a ha =>
                Bool.eq_false_iff.mp (hk hmem a (hsub ha))
            rw [if_neg (by rw [hnot]; decide)]
            exact List.mem_append_right _ (List.mem_singleton_self b)

/-! ## One thing for each -/

theorem exists_of_forall₂ {α β : Type*} {R : α → β → Prop} {l : List α} {l' : List β}
    (h : List.Forall₂ R l l') : (∀ a ∈ l, ∃ b ∈ l', R a b) ∧ ∀ b ∈ l', ∃ a ∈ l, R a b := by
  induction h with
  | nil => exact ⟨fun _ h => (nomatch h), fun _ h => (nomatch h)⟩
  | cons hab _ ih =>
      refine ⟨List.forall_mem_cons.mpr ⟨⟨_, List.mem_cons_self, hab⟩, fun a ha => ?_⟩,
        List.forall_mem_cons.mpr ⟨⟨_, List.mem_cons_self, hab⟩, fun b hb => ?_⟩⟩
      · obtain ⟨b, hb, h⟩ := ih.1 a ha
        exact ⟨b, List.mem_cons_of_mem _ hb, h⟩
      · obtain ⟨a, ha, h⟩ := ih.2 b hb
        exact ⟨a, List.mem_cons_of_mem _ ha, h⟩

theorem pairwise_of_forall₂ {α β : Type*} {R : α → β → Prop} {S : β → β → Prop} {l : List α}
    {l' : List β} (h : List.Forall₂ R l l') (hl : l.Nodup)
    (hs : ∀ a ∈ l, ∀ a' ∈ l, ∀ b b', a ≠ a' → R a b → R a' b' → S b b') : l'.Pairwise S := by
  induction h with
  | nil => exact .nil
  | cons hab hrest ih =>
      obtain ⟨hnot, hnodup⟩ := List.nodup_cons.mp hl
      refine .cons ?_ (ih hnodup fun a ha a' ha' => hs a (List.mem_cons_of_mem _ ha) a'
        (List.mem_cons_of_mem _ ha'))
      intro b' hb'
      obtain ⟨a', ha', hab'⟩ := (exists_of_forall₂ hrest).2 b' hb'
      exact hs _ List.mem_cons_self a' (List.mem_cons_of_mem _ ha') _ b'
        (fun heq => hnot (heq ▸ ha')) hab hab'

end Picks

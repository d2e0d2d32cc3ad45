/-
# `Fidogate.Lib.Removal` — taking elements out of a list by their keys

Each key of a list takes out the first element that has it (`removeKeys`).
What is left are the elements whose keys are not meant to go just where each
key that is meant to go is given as often as the list has it, and no other
key is (`removeKeys_eq_filter_iff`).
-/
import Mathlib.Data.List.Count

namespace Removal

variable {α κ : Type*} [DecidableEq κ] (key : α → κ)

/-- The first element with the key is taken out. -/
def removeKey (l : List α) (k : κ) : List α := l.eraseP (key · = k)

/-- One key after the other. -/
def removeKeys (l : List α) (ks : List κ) : List α := ks.foldl (removeKey key) l

/-- How often a key is in a list. -/
def times (l : List α) (k : κ) : Nat := l.countP (key · = k)

variable {key} {l : List α} {ks : List κ}

theorem times_cons (a : α) (l : List α) (k : κ) :
    times key (a :: l) k = times key l k + if key a = k then 1 else 0 := by
  rw [times, List.countP_cons, ← times]
  simp

theorem removeKeys_nil (ks : List κ) : removeKeys key ([] : List α) ks = [] := by
  induction ks with
  | nil => rfl
  | cons k ks ih => exact ih

/-- Seen from the list: an element goes if its key is there, and takes one of
them with it. -/
theorem removeKeys_cons (a : α) : ∀ (l : List α) (ks : List κ), removeKeys key (a :: l) ks =
    if key a ∈ ks then removeKeys key l (ks.erase (key a)) else a :: removeKeys key l ks
  | l, [] => by rw [if_neg List.not_mem_nil]; rfl
  | l, k :: ks => by
      have ih := removeKeys_cons a (removeKey key l k) ks
      change removeKeys key (removeKey key (a :: l) k) ks = _
      by_cases h : key a = k
      · have hfirst : removeKey key (a :: l) k = l :=
          List.eraseP_cons_of_pos (by simpa using h)
        rw [hfirst, if_pos (h ▸ List.mem_cons_self), h, List.erase_cons_head]
      · have hrest : removeKey key (a :: l) k = a :: removeKey key l k :=
          List.eraseP_cons_of_neg (by simpa using h)
        have hne : (k == key a) = false := beq_eq_false_iff_ne.mpr (Ne.symm h)
        rw [hrest, ih]
        by_cases hmem : key a ∈ ks
        · rw [if_pos hmem, if_pos (List.mem_cons_of_mem k hmem), List.erase_cons, hne,
            if_neg Bool.false_ne_true]
          rfl
        · rw [if_neg hmem, if_neg fun hm => (List.mem_cons.mp hm).elim h hmem]
          rfl

theorem removeKeys_sublist : ∀ (l : List α) (ks : List κ), (removeKeys key l ks).Sublist l
  | _, [] => List.Sublist.refl _
  | l, k :: ks => (removeKeys_sublist (removeKey key l k) ks).trans List.eraseP_sublist

/-- The condition under which just the keys that are meant to go are gone. -/
def Complete (key : α → κ) (del : κ → Bool) (l : List α) (ks : List κ) : Prop :=
  ∀ a ∈ l, if del (key a) then times key l (key a) ≤ ks.count (key a) else key a ∉ ks

variable {del : κ → Bool} {a : α}

theorem complete_cons_mem (h : key a ∈ ks) : Complete key del (a :: l) ks ↔
    del (key a) = true ∧ Complete key del l (ks.erase (key a)) := by
  -- an element with another key does not see the difference
  have hother : ∀ b : α, key b ≠ key a →
      ((if del (key b) then times key (a :: l) (key b) ≤ ks.count (key b) else key b ∉ ks) ↔
        if del (key b) then times key l (key b) ≤ (ks.erase (key a)).count (key b)
        else key b ∉ ks.erase (key a)) := by
    intro b hb
    rw [times_cons, if_neg (Ne.symm hb), Nat.add_zero, List.count_erase_of_ne hb,
      List.mem_erase_of_ne hb]
  have hpos := List.count_pos_iff.mpr h
  constructor
  · intro hc
    have ha := hc a List.mem_cons_self
    have hdel : del (key a) = true := by
      by_contra hdel
      rw [if_neg hdel] at ha
      exact ha h
    refine ⟨hdel, fun b hb => ?_⟩
    by_cases hba : key b = key a
    · rw [hba, if_pos hdel, List.count_erase_self]
      rw [if_pos hdel, times_cons, if_pos rfl] at ha
      omega
    · exact (hother b hba).mp (hc b (List.mem_cons_of_mem a hb))
  · rintro ⟨hdel, hc⟩ b hb
    by_cases hba : key b = key a
    · rw [hba, if_pos hdel, times_cons, if_pos rfl]
      by_cases hmem : ∃ c ∈ l, key c = key a
      · obtain ⟨c, hc', hca⟩ := hmem
        have hc := hc c hc'
        rw [hca, if_pos hdel, List.count_erase_self] at hc
        omega
      · have hnone : times key l (key a) = 0 :=
          List.countP_eq_zero.mpr fun c hc' hca => hmem ⟨c, hc', by simpa using hca⟩
        omega
    · obtain rfl | hb := List.mem_cons.mp hb
      · exact absurd rfl hba
      · exact (hother b hba).mpr (hc b hb)

theorem complete_cons_not_mem (h : key a ∉ ks) : Complete key del (a :: l) ks ↔
    del (key a) = false ∧ Complete key del l ks := by
  constructor
  · intro hc
    have hdel : del (key a) = false := by
      by_contra hdel
      have ha := hc a List.mem_cons_self
      rw [if_pos (by simpa using hdel), times_cons, if_pos rfl, List.count_eq_zero.mpr h] at ha
      omega
    refine ⟨hdel, fun b hb => ?_⟩
    have hb := hc b (List.mem_cons_of_mem a hb)
    split
    · next hdb =>
        rw [if_pos hdb, times_cons] at hb
        omega
    · next hdb => rwa [if_neg hdb] at hb
  · rintro ⟨hdel, hc⟩ b hb
    obtain rfl | hb := List.mem_cons.mp hb
    · rw [if_neg (by rw [hdel]; exact Bool.false_ne_true)]
      exact h
    · have hb' := hc b hb
      split
      · next hdb =>
          have hne : key a ≠ key b := fun he => by
            rw [he, hdb] at hdel
            cases hdel
          rwa [if_pos hdb, times_cons, if_neg hne] at *
      · next hdb => rwa [if_neg hdb] at hb'

/-- What is left are the elements whose keys are not meant to go. -/
theorem removeKeys_eq_filter_iff : ∀ {l : List α} {ks : List κ},
    removeKeys key l ks = l.filter (fun a => ! del (key a)) ↔ Complete key del l ks
  | [], ks => ⟨fun _ a ha => absurd ha List.not_mem_nil, fun _ => removeKeys_nil ks⟩
  | a :: l, ks => by
      rw [removeKeys_cons]
      by_cases h : key a ∈ ks
      · rw [if_pos h, complete_cons_mem h, ← removeKeys_eq_filter_iff]
        cases hdel : del (key a) with
        | true =>
            rw [List.filter_cons_of_neg (by simp [hdel])]
            exact ⟨fun he => ⟨rfl, he⟩, fun he => he.2⟩
        | false =>
            rw [List.filter_cons_of_pos (by simp [hdel])]
            refine ⟨fun he => ?_, fun he => nomatch he.1⟩
            -- one element with this key is gone, so not all of them are left
            have hle : (removeKeys key l (ks.erase (key a))).countP (key · = key a) ≤
                l.countP (key · = key a) := (removeKeys_sublist l _).countP_le
            have hall : (l.filter fun b => ! del (key b)).countP (key · = key a) =
                l.countP (key · = key a) := by
              rw [List.countP_filter]
              refine List.countP_congr fun b _ => ?_
              simp only [Bool.and_eq_true, decide_eq_true_eq, Bool.not_eq_true',
                and_iff_left_iff_imp]
              exact fun hb => hb ▸ hdel
            rw [he, List.countP_cons_of_pos (by simp), hall] at hle
            omega
      · rw [if_neg h, complete_cons_not_mem h]
        cases hdel : del (key a) with
        | true =>
            rw [List.filter_cons_of_neg (by simp [hdel])]
            refine ⟨fun he => ?_, fun he => nomatch he.1⟩
            have hmem : a ∈ l.filter fun b => ! del (key b) := he ▸ List.mem_cons_self
            have := (List.mem_filter.mp hmem).2
            rw [hdel] at this
            cases this
        | false =>
            rw [List.filter_cons_of_pos (by simp [hdel]), ← removeKeys_eq_filter_iff]
            exact ⟨fun he => ⟨rfl, (List.cons.inj he).2⟩, fun he => congrArg (a :: ·) he.2⟩

end Removal

/-
# `Fidogate.Lib.Sweep` — going through a list, entry by entry

Each entry of a list becomes a list of entries and sends out messages.
`Swept` says so of a relation, and `sweep` computes it for a function that can
also stop and leave the rest of the list alone.  Where entries and messages
have a key, what becomes of the only entry with its key is read off that entry
(`Swept.only`, `sweep_only`).
-/
import Mathlib.Data.List.Basic

namespace Sweep

variable {α β κ : Type*}

/-- Each entry became a list of entries and sent out messages. -/
inductive Swept (R : α → List α → List β → Prop) : List α → List α → List β → Prop
  | nil : Swept R [] [] []
  | cons {p : α} {ps qs qss : List α} {rs rss : List β} : R p qs rs → Swept R ps qss rss →
      Swept R (p :: ps) (qs ++ qss) (rs ++ rss)

/-- Go through a list; where there is no result, stop. -/
def sweep (f : α → Option (List α × List β)) : List α → List α × List β
  | [] => ([], [])
  | p :: ps =>
      match f p with
      | none => (p :: ps, [])
      | some r => (r.1 ++ (sweep f ps).1, r.2 ++ (sweep f ps).2)

/-- What an entry becomes where the list is gone through up to it. -/
def alone (f : α → Option (List α × List β)) (p : α) : List α × List β := (f p).getD ([p], [])

/-- The relation keeps the keys of the entries and sends them out. -/
def Keyed (key : α → κ) (out : β → κ) (R : α → List α → List β → Prop) : Prop :=
  ∀ p qs rs, R p qs rs → (∀ q ∈ qs, key q = key p) ∧ ∀ r ∈ rs, out r = key p

section

variable {R R' : α → List α → List β → Prop}

theorem Swept.mono (hR : ∀ p qs rs, R p qs rs → R' p qs rs) {ps qss : List α} {rss : List β}
    (h : Swept R ps qss rss) : Swept R' ps qss rss := by
  induction h with
  | nil => exact .nil
  | cons hr _ ih => exact .cons (hR _ _ _ hr) ih

/-- Nothing is done where each entry may stay as it is. -/
theorem Swept.refl (hR : ∀ p, R p [p] []) : ∀ ps : List α, Swept R ps ps []
  | [] => .nil
  | p :: ps => .cons (hR p) (Swept.refl hR ps)

theorem sweep_swept (f : α → Option (List α × List β)) : ∀ ps : List α,
    Swept (fun p qs rs => f p = some (qs, rs) ∨ qs = [p] ∧ rs = []) ps (sweep f ps).1 (sweep f ps).2
  | [] => .nil
  | p :: ps => by
      have ih := sweep_swept f ps
      rw [sweep]
      cases hf : f p with
      | none => exact Swept.refl (fun p => Or.inr ⟨rfl, rfl⟩) (p :: ps)
      | some r => exact .cons (Or.inl hf) ih

end

section

variable [DecidableEq κ] {key : α → κ} {out : β → κ} {k : κ}

/-- The entries with the key. -/
def keyed (key : α → κ) (k : κ) (ps : List α) : List α := ps.filter fun p => key p = k

@[simp] theorem keyed_nil : keyed key k [] = [] := rfl

@[simp] theorem keyed_append (ps qs : List α) :
    keyed key k (ps ++ qs) = keyed key k ps ++ keyed key k qs := List.filter_append ps qs

theorem keyed_cons (p : α) (ps : List α) :
    keyed key k (p :: ps) = if key p = k then p :: keyed key k ps else keyed key k ps := by
  unfold keyed
  rw [List.filter_cons]
  simp only [decide_eq_true_eq]

theorem mem_keyed {p : α} {ps : List α} : p ∈ keyed key k ps ↔ p ∈ ps ∧ key p = k := by
  unfold keyed
  rw [List.mem_filter, decide_eq_true_eq]

theorem keyed_eq_self {ps : List α} (h : ∀ p ∈ ps, key p = k) : keyed key k ps = ps :=
  List.filter_eq_self.mpr fun p hp => decide_eq_true (h p hp)

theorem keyed_eq_nil {ps : List α} (h : ∀ p ∈ ps, key p ≠ k) : keyed key k ps = [] :=
  List.filter_eq_nil_iff.mpr fun p hp => by
    rw [decide_eq_true_eq]
    exact h p hp

/-- What comes of one entry has the key, or none of it has. -/
theorem Keyed.step {R : α → List α → List β → Prop} (hR : Keyed key out R) {p : α} {qs : List α}
    {rs : List β} (h : R p qs rs) :
    keyed key k qs = (if key p = k then qs else []) ∧
      keyed out k rs = if key p = k then rs else [] := by
  obtain ⟨hqs, hrs⟩ := hR p qs rs h
  split
  · next hp =>
      exact ⟨keyed_eq_self fun q hq => (hqs q hq).trans hp,
        keyed_eq_self fun r h => (hrs r h).trans hp⟩
  · next hp =>
      exact ⟨keyed_eq_nil fun q hq hk => hp ((hqs q hq).symm.trans hk),
        keyed_eq_nil fun r h hk => hp ((hrs r h).symm.trans hk)⟩

theorem Swept.without {R : α → List α → List β → Prop} (hR : Keyed key out R) {ps qss : List α}
    {rss : List β} (h : Swept R ps qss rss) (hp : keyed key k ps = []) :
    keyed key k qss = [] ∧ keyed out k rss = [] := by
  induction h with
  | nil => exact ⟨rfl, rfl⟩
  | cons hr _ ih =>
      rw [keyed_cons] at hp
      split at hp
      · cases hp
      · next hk =>
          obtain ⟨hqs, hrs⟩ := ih hp
          obtain ⟨hq, hr⟩ := hR.step (k := k) hr
          rw [if_neg hk] at hq hr
          rw [keyed_append, keyed_append, hqs, hrs, hq, hr]
          exact ⟨rfl, rfl⟩

/-- The only entry with the key is gone through as the relation says. -/
theorem Swept.only {R : α → List α → List β → Prop} (hR : Keyed key out R) {ps qss : List α}
    {rss : List β} (h : Swept R ps qss rss) {p : α} (hp : keyed key k ps = [p]) :
    R p (keyed key k qss) (keyed out k rss) := by
  induction h with
  | nil => cases hp
  | cons hr hs ih =>
      rw [keyed_cons] at hp
      obtain ⟨hq, hr'⟩ := hR.step (k := k) hr
      rw [keyed_append, keyed_append, hq, hr']
      split at hp
      · next hk =>
          obtain ⟨rfl, hrest⟩ := List.cons.inj hp
          obtain ⟨hqs, hrs⟩ := hs.without hR hrest
          rw [if_pos hk, if_pos hk, hqs, hrs, List.append_nil, List.append_nil]
          exact hr
      · next hk =>
          rw [if_neg hk, if_neg hk, List.nil_append, List.nil_append]
          exact ih hp

/-- The list is gone through up to the entries with the key. -/
def reached (key : α → κ) (k : κ) (f : α → Option (List α × List β)) (ps : List α) : Bool :=
  (ps.takeWhile fun p => key p ≠ k).all fun p => (f p).isSome

/-- What becomes of the only entry with the key, and what is sent out for it. -/
theorem sweep_only {f : α → Option (List α × List β)}
    (hf : Keyed key out fun p qs rs => f p = some (qs, rs)) : ∀ {ps : List α} {p : α},
    keyed key k ps = [p] →
    (keyed key k (sweep f ps).1, keyed out k (sweep f ps).2) =
      if reached key k f ps then alone f p else ([p], [])
  | [], p, hp => by cases hp
  | a :: ps, p, hp => by
      have hR : Keyed key out fun p qs rs => f p = some (qs, rs) ∨ qs = [p] ∧ rs = [] := by
        rintro a qs rs (h | ⟨rfl, rfl⟩)
        · exact hf a qs rs h
        · exact ⟨fun q hq => congrArg key (List.mem_singleton.mp hq), fun r h => by cases h⟩
      rw [keyed_cons] at hp
      split at hp
      · next hk =>
          obtain ⟨rfl, hrest⟩ := List.cons.inj hp
          have hreached : reached key k f (a :: ps) = true := by
            unfold reached
            rw [List.takeWhile_cons_of_neg (by simpa using hk)]
            rfl
          obtain ⟨hqs, hrs⟩ := (sweep_swept f ps).without hR hrest
          rw [if_pos hreached, alone, sweep]
          cases h : f a with
          | none =>
              dsimp only
              rw [keyed_cons, if_pos hk, hrest]
              rfl
          | some r =>
              obtain ⟨hq, hr⟩ := hf.step (k := k) h
              rw [if_pos hk] at hq hr
              dsimp only
              rw [keyed_append, keyed_append, hqs, hrs, hq, hr, List.append_nil, List.append_nil]
              rfl
      · next hk =>
          have ih := sweep_only hf hp
          have htake : reached key k f (a :: ps) = ((f a).isSome && reached key k f ps) := by
            unfold reached
            rw [List.takeWhile_cons_of_pos (by simpa using hk), List.all_cons]
          rw [htake, sweep]
          cases h : f a with
          | none =>
              dsimp only
              rw [keyed_cons, if_neg hk, hp]
              rfl
          | some r =>
              obtain ⟨hq, hr⟩ := hf.step (k := k) h
              rw [if_neg hk] at hq hr
              dsimp only
              rw [keyed_append, keyed_append, hq, hr, List.nil_append, List.nil_append, ih]
              rfl

end

end Sweep

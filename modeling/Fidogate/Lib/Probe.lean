/-
# `Fidogate.Lib.Probe` — a table with open addressing

A table has room for one value at each place.  An entry goes to the first
vacant place of the probe sequence of its hash, and nothing is ever taken
out.  Looking for a hash goes along the same sequence up to the first vacant
place.  An entry is met there, and in front of it only entries that were put
in before.
-/
import Mathlib.Algebra.Order.Ring.Nat
import Mathlib.Data.List.Basic
import Mathlib.Logic.Function.Basic

namespace Probe

variable {η ν : Type*}

/-- What is at a place. -/
abbrev Table (ν : Type*) := ℕ → Option ν

/-- `n` is the first index of the sequence whose place is vacant. -/
structure Vacant (t : Table ν) (s : ℕ → ℕ) (n : ℕ) : Prop where
  here : t (s n) = none
  before : ∀ j < n, t (s j) ≠ none

/-- The values in front of the index `n`, from the index `i` on. -/
def path (t : Table ν) (s : ℕ → ℕ) (i n : ℕ) : List ν :=
  (List.range' i (n - i)).filterMap (t ∘ s)

/-- The sequence comes behind any place. -/
def Spread (s : ℕ → ℕ) : Prop := ∀ k, ∃ i, k ≤ s i

/-- The table some entries make, each put in behind those in front of it. -/
inductive Built (seq : η → ℕ → ℕ) : Table ν → List (η × ν) → Prop
  | empty : Built seq (fun _ => none) []
  | insert {t : Table ν} {es : List (η × ν)} {h : η} {n : ℕ} (v : ν) :
      Built seq t es → Vacant t (seq h) n →
      Built seq (Function.update t (seq h n) (some v)) (es ++ [(h, v)])

theorem Vacant.unique {t : Table ν} {s : ℕ → ℕ} {m n : ℕ} (hm : Vacant t s m)
    (hn : Vacant t s n) : m = n := by
  rcases lt_trichotomy m n with h | h | h
  · exact absurd hm.here (hn.before m h)
  · exact h
  · exact absurd hn.here (hm.before n h)

/-- A sequence with a vacant place has a first one. -/
theorem exists_vacant_of_none {t : Table ν} {s : ℕ → ℕ} {n : ℕ} (h : t (s n) = none) :
    ∃ m ≤ n, Vacant t s m := by
  induction n using Nat.strong_induction_on with
  | _ n ih =>
      by_cases hb : ∃ j < n, t (s j) = none
      · obtain ⟨j, hj, hnone⟩ := hb
        obtain ⟨m, hm, hv⟩ := ih j hj hnone
        exact ⟨m, hm.trans hj.le, hv⟩
      · exact ⟨n, le_rfl, h, fun j hj hnone => hb ⟨j, hj, hnone⟩⟩

variable {seq : η → ℕ → ℕ} {t : Table ν} {es : List (η × ν)}

/-- A value in the table is one that was put in. -/
theorem Built.mem_of_eq_some (hb : Built seq t es) {p : ℕ} {v : ν} (h : t p = some v) :
    v ∈ es.map Prod.snd := by
  induction hb with
  | empty => cases h
  | @insert t es g n w _ _ ih =>
      rw [List.map_append, List.mem_append]
      by_cases hp : p = seq g n
      · rw [hp, Function.update_self] at h
        exact .inr (List.mem_singleton.mpr (Option.some.inj h).symm)
      · rw [Function.update_of_ne hp] at h
        exact .inl (ih h)

/-- Behind some place the table is vacant. -/
theorem Built.exists_bound (hb : Built seq t es) : ∃ b, ∀ p, b ≤ p → t p = none := by
  induction hb with
  | empty => exact ⟨0, fun p _ => rfl⟩
  | @insert t es g n w _ _ ih =>
      obtain ⟨b, hbound⟩ := ih
      refine ⟨max b (seq g n + 1), fun p hp => ?_⟩
      have hne : p ≠ seq g n := by omega
      rw [Function.update_of_ne hne]
      exact hbound p (by omega)

/-- A sequence that comes behind any place comes to a vacant one. -/
theorem Built.exists_vacant (hb : Built seq t es) {s : ℕ → ℕ} (hs : Spread s) :
    ∃ n, Vacant t s n := by
  obtain ⟨b, hbound⟩ := hb.exists_bound
  obtain ⟨i, hi⟩ := hs b
  obtain ⟨n, -, hn⟩ := exists_vacant_of_none (hbound _ hi)
  exact ⟨n, hn⟩

/-- What was in the table stays where it was. -/
theorem Built.keeps {h : η} {n p : ℕ} {v w : ν} (hv : Vacant t (seq h) n) (hp : t p = some w) :
    Function.update t (seq h n) (some v) p = some w := by
  have hne : p ≠ seq h n := by
    intro he
    rw [he, hv.here] at hp
    cases hp
  rw [Function.update_of_ne hne, hp]

theorem path_cons {s : ℕ → ℕ} {i n : ℕ} (hin : i < n) {v : ν} (hv : t (s i) = some v) :
    path t s i n = v :: path t s (i + 1) n := by
  have hlen : n - i = (n - (i + 1)) + 1 := by omega
  rw [path, hlen, List.range'_succ, List.filterMap_cons_some (f := t ∘ s) hv, path]

theorem path_self (t : Table ν) (s : ℕ → ℕ) (n : ℕ) : path t s n n = [] := by
  rw [path, Nat.sub_self]
  rfl

/-- Two tables that agree in front of an index have the same path to it. -/
theorem path_congr {t t' : Table ν} {s : ℕ → ℕ} {i n : ℕ} (h : ∀ j < n, t (s j) = t' (s j)) :
    path t s i n = path t' s i n := by
  refine List.filterMap_congr fun j hj => h j ?_
  have := List.mem_range'_1.mp hj
  omega

theorem path_append (t : Table ν) (s : ℕ → ℕ) {i m n : ℕ} (him : i ≤ m) (hmn : m ≤ n) :
    path t s i m ++ path t s m n = path t s i n := by
  have hlen : n - i = (m - i) + (n - m) := by omega
  have hm : m = i + 1 * (m - i) := by omega
  rw [path, path, path, ← List.filterMap_append, hlen, List.range'_append_1.symm]
  congr 3
  omega

theorem mem_of_mem_path {s : ℕ → ℕ} {i n : ℕ} {v : ν} (h : v ∈ path t s i n) :
    ∃ p, t p = some v := by
  obtain ⟨j, -, hj⟩ := List.mem_filterMap.mp h
  exact ⟨s j, hj⟩

/-- One more entry leaves the path of a hash as it is, or adds the entry to
it and what was already behind it. -/
theorem Vacant.insert {g : η} {m n : ℕ} {h : η} {v : ν} (hm : Vacant t (seq g) m)
    (hn : Vacant t (seq h) n) {n' : ℕ}
    (hn' : Vacant (Function.update t (seq g m) (some v)) (seq h) n') :
    n ≤ n' ∧ ∀ j < n, Function.update t (seq g m) (some v) (seq h j) = t (seq h j) := by
  have hold : ∀ j < n, Function.update t (seq g m) (some v) (seq h j) = t (seq h j) := by
    intro j hj
    obtain ⟨w, hw⟩ := Option.ne_none_iff_exists'.mp (hn.before j hj)
    rw [hw]
    exact Built.keeps hm hw
  refine ⟨Nat.not_lt.mp fun hlt => ?_, hold⟩
  have := hn'.here
  rw [hold n' hlt] at this
  exact hn.before n' hlt this

/-- An entry is on the path of its hash, and the path in front of it is what
it was when the entry was put in. -/
theorem Built.path_split (hb : Built seq t es) {before after : List (η × ν)} {h : η} {v : ν}
    (hes : es = before ++ (h, v) :: after) {n : ℕ} (hn : Vacant t (seq h) n)
    (hs : Spread (seq h)) :
    ∃ (front back : List ν), path t (seq h) 0 n = front ++ v :: back ∧
      ∀ w ∈ front, w ∈ before.map Prod.snd := by
  induction hb generalizing after n with
  | empty => exact absurd hes (by simp)
  | @insert t es g m w hb hm ih =>
      obtain rfl | ⟨after', e, rfl⟩ := List.eq_nil_or_concat after
      · obtain ⟨rfl, he⟩ := List.append_inj' hes rfl
        obtain ⟨rfl, rfl⟩ := Prod.mk.inj (List.singleton_inj.mp he)
        obtain ⟨hle, hold⟩ := Vacant.insert hm hm hn
        have hlt : m < n := by
          refine lt_of_le_of_ne hle fun he => ?_
          have := hn.here
          rw [← he, Function.update_self] at this
          cases this
        refine ⟨path t (seq g) 0 m,
          path (Function.update t (seq g m) (some w)) (seq g) (m + 1) n, ?_, fun x hx => ?_⟩
        · rw [← path_append _ _ (Nat.zero_le m) hlt.le, path_congr hold,
            path_cons hlt (Function.update_self ..)]
        · obtain ⟨p, hp⟩ := mem_of_mem_path hx
          exact hb.mem_of_eq_some hp
      · rw [List.concat_eq_append, ← List.cons_append, ← List.append_assoc] at hes
        obtain ⟨hes', -⟩ := List.append_inj' hes rfl
        obtain ⟨n₀, hn₀⟩ := hb.exists_vacant hs
        obtain ⟨front, back, hpath, hfront⟩ := ih hes' hn₀
        obtain ⟨hle, hold⟩ := Vacant.insert hm hn₀ hn
        refine ⟨front, back ++ path (Function.update t (seq g m) (some w)) (seq h) n₀ n, ?_, hfront⟩
        rw [← path_append _ _ (Nat.zero_le n₀) hle, path_congr hold, hpath]
        simp

/-- Of the entries the first one that passes a test is the first value on the
path of its hash that passes it. -/
theorem Built.find?_path (hb : Built seq t es) {before after : List (η × ν)} {h : η} {v : ν}
    (hes : es = before ++ (h, v) :: after) {n : ℕ} (hn : Vacant t (seq h) n)
    (hs : Spread (seq h)) {p : ν → Bool} (hv : p v = true)
    (hbefore : ∀ w ∈ before.map Prod.snd, p w = false) :
    (path t (seq h) 0 n).find? p = some v := by
  obtain ⟨front, back, hpath, hfront⟩ := hb.path_split hes hn hs
  have hnone : front.find? p = none := by
    rw [List.find?_eq_none]
    intro w hw
    rw [hbefore w (hfront w hw)]
    exact Bool.false_ne_true
  rw [hpath, List.find?_append, hnone, Option.none_or, List.find?_cons_of_pos hv]

/-- A value on a path is one that was put in. -/
theorem Built.mem_of_mem_path (hb : Built seq t es) {s : ℕ → ℕ} {i n : ℕ} {v : ν}
    (h : v ∈ path t s i n) : v ∈ es.map Prod.snd := by
  obtain ⟨p, hp⟩ := Probe.mem_of_mem_path h
  exact hb.mem_of_eq_some hp

end Probe

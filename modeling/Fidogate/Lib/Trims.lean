/-
# `Fidogate.Lib.Trims` — texts trimmed at their ends and cut in front

`dropWhile` and `rdropWhile` take elements off the ends of a text: what is
left does not begin, or end, with one of them.  A text that was cut is in
front of the whole one, and elements the rest of the text does not have are
read in its first part.
-/
import Mathlib.Data.List.DropRight
import Mathlib.Data.List.Infix
import Mathlib.Tactic.Common

namespace Trims

open scoped List

/-! ## Trimming -/

section

variable {α : Type*} {p : α → Bool} {c : α}

theorem dropWhile_head (s : List α) : ∀ c ∈ (s.dropWhile p).head?, p c = false := by
  intro c hc
  have h := List.head?_dropWhile_not p s
  rw [Option.mem_def.mp hc] at h
  exact h

theorem dropWhile_of_head {s : List α} (h : ∀ c ∈ s.head?, p c = false) : s.dropWhile p = s := by
  cases s with
  | nil => rfl
  | cons c s =>
      rw [List.dropWhile_cons_of_neg]
      rw [h c rfl]
      exact Bool.false_ne_true

/-- Nothing is trimmed if and only if there is nothing to trim. -/
theorem dropWhile_eq_iff {s : List α} : s.dropWhile p = s ↔ ∀ c ∈ s.head?, p c = false :=
  ⟨fun h c hc => dropWhile_head s c (h.symm ▸ hc), dropWhile_of_head⟩

theorem rdropWhile_last (s : List α) : ∀ c ∈ (s.rdropWhile p).getLast?, p c = false := by
  intro c hc
  rw [List.rdropWhile, List.getLast?_reverse] at hc
  exact dropWhile_head s.reverse c hc

theorem rdropWhile_of_last {s : List α} (h : ∀ c ∈ s.getLast?, p c = false) :
    s.rdropWhile p = s := by
  rw [List.rdropWhile, dropWhile_of_head, List.reverse_reverse]
  rwa [List.head?_reverse]

/-- What can be trimmed at the end does not change the result. -/
theorem rdropWhile_append {b : List α} (hb : ∀ c ∈ b, p c = true) (s : List α) :
    (s ++ b).rdropWhile p = s.rdropWhile p := by
  rw [List.rdropWhile, List.reverse_append,
    List.dropWhile_append_of_pos fun c hc => hb c (List.mem_reverse.mp hc), List.rdropWhile]

/-- The text behind an element that stays is not trimmed in front. -/
theorem dropWhile_append_cons (hc : p c = false) (s t : List α) :
    (s ++ c :: t).dropWhile p = s.dropWhile p ++ c :: t := by
  rw [List.dropWhile_append]
  split
  · next h0 =>
      rw [List.isEmpty_iff.mp h0, List.nil_append]
      exact dropWhile_of_head fun d hd => Option.mem_some.mp hd ▸ hc
  · rfl

theorem mem_dropWhile (hp : p c = false) {s : List α} (h : c ∈ s) : c ∈ s.dropWhile p := by
  rw [← List.takeWhile_append_dropWhile (p := p) (l := s)] at h
  refine (List.mem_append.mp h).resolve_left fun h' => ?_
  rw [List.mem_takeWhile_imp h'] at hp
  cases hp

theorem mem_rdropWhile (hp : p c = false) {s : List α} (h : c ∈ s) : c ∈ s.rdropWhile p :=
  List.mem_reverse.mpr (mem_dropWhile hp (List.mem_reverse.mpr h))

end

/-! ## Cutting -/

section

variable {α : Type*} {a b c : α}

/-- An element the rest does not have is read in the first part. -/
theorem length_lt_of_front {p u v : List α} (h : p ++ [c] <+: u ++ v) (hv : c ∉ v) :
    p.length < u.length := by
  by_contra hle
  rw [Nat.not_lt] at hle
  obtain ⟨t, ht⟩ := h
  have hu : u <+: p := List.prefix_of_prefix_length_le (List.prefix_append u v)
    ⟨[c] ++ t, by rw [← List.append_assoc, ht]⟩ hle
  obtain ⟨q, rfl⟩ := hu
  rw [List.append_assoc, List.append_assoc] at ht
  exact hv (List.append_cancel_left ht ▸ by simp)

/-- A front without the element ends before it. -/
theorem length_le_of_front {p u v : List α} (h : p <+: u ++ c :: v) (hp : c ∉ p) :
    p.length ≤ u.length := by
  by_contra hbeyond
  have hlen : (u ++ [c]).length ≤ p.length := by
    rw [List.length_append, List.length_singleton]
    exact Nat.not_le.mp hbeyond
  have hin : u ++ [c] <+: p := List.prefix_of_prefix_length_le ⟨v, by simp⟩ h hlen
  exact hp (hin.subset (List.mem_append_right u (List.mem_singleton_self c)))

/-- Both texts are cut at the first such element. -/
theorem front_cut {x p x' q : List α} (h : x ++ c :: p <+: x' ++ c :: q) (hx : c ∉ x)
    (hx' : c ∉ x') : x = x' ∧ p <+: q := by
  obtain ⟨t, ht⟩ := h
  rw [List.append_assoc, List.cons_append] at ht
  rcases List.append_eq_append_iff.mp ht with ⟨y, hy, htail⟩ | ⟨y, hy, htail⟩
  · cases y with
    | nil =>
        rw [List.append_nil] at hy
        exact ⟨hy.symm, t, (List.cons.inj htail).2⟩
    | cons d y =>
        rw [hy, ← (List.cons.inj htail).1] at hx'
        exact absurd (List.mem_append_right x List.mem_cons_self) hx'
  · cases y with
    | nil =>
        rw [List.append_nil] at hy
        exact ⟨hy, t, (List.cons.inj htail).2.symm⟩
    | cons d y =>
        rw [hy, ← (List.cons.inj htail).1] at hx
        exact absurd (List.mem_append_right x' List.mem_cons_self) hx

/-! ## Pairs -/

/-- No second element of the pair stands behind the first part. -/
theorem pair_append {u v : List α} (hb : b ∉ v) : [a, b] <+ u ++ v ↔ [a, b] <+ u := by
  refine ⟨fun hsub => ?_, fun hsub => hsub.trans (List.sublist_append_left u v)⟩
  obtain ⟨l₁, l₂, hl, h1, h2⟩ := List.sublist_append_iff.mp hsub
  cases List.eq_nil_or_concat' l₂ with
  | inl h0 =>
      rw [h0, List.append_nil] at hl
      exact hl ▸ h1
  | inr hc =>
      obtain ⟨l, d, rfl⟩ := hc
      have hd : b = d := by
        have hlast := congrArg List.getLast? hl
        rw [← List.append_assoc, List.getLast?_concat] at hlast
        exact Option.some.inj hlast
      exact absurd (h2.subset (List.mem_append_right l (hd ▸ List.mem_singleton_self d))) hb

/-- A first element behind which there is no second one. -/
theorem not_pair {u v : List α} (ha : a ∉ u) (hb : b ∉ v) : ¬ [a, b] <+ u ++ a :: v := by
  intro hsub
  obtain ⟨l₁, l₂, hl, h1, h2⟩ := List.sublist_append_iff.mp hsub
  cases l₁ with
  | nil =>
      rw [List.nil_append] at hl
      rw [← hl, List.cons_sublist_cons] at h2
      exact hb (h2.subset List.mem_cons_self)
  | cons d l =>
      obtain ⟨rfl, -⟩ := List.cons.inj hl
      exact ha (h1.subset List.mem_cons_self)

theorem pair_of_append (u v w : List α) : [a, b] <+ u ++ a :: (v ++ b :: w) := by
  have hb : [b] <+ v ++ b :: w :=
    List.singleton_sublist.mpr (List.mem_append_right v List.mem_cons_self)
  exact (hb.cons_cons a).trans (List.sublist_append_right u _)

/-- Only the elements of its kind count for a pair. -/
theorem pair_filter {p : α → Bool} (ha : p a = true) (hb : p b = true) (s : List α) :
    [a, b] <+ s ↔ [a, b] <+ s.filter p := by
  refine ⟨fun h => ?_, fun h => h.trans List.filter_sublist⟩
  have hf := h.filter p
  rwa [List.filter_eq_self.mpr] at hf
  intro c hc
  rcases List.mem_cons.mp hc with rfl | hc
  · exact ha
  · exact List.mem_singleton.mp hc ▸ hb

end

end Trims

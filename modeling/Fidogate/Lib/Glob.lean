/-
# `Fidogate.Lib.Glob` — patterns with stars, and going back to the last one

A pattern is a list of tokens: one element that passes a test, or a star for
any number of elements.  A matcher goes through the text, and at a mismatch
goes back to the last star and tries it one element further on.  No earlier
star has to be tried again: what a later place of it would find, the star that
was reached since finds as well.
-/
import Mathlib.Algebra.Order.Ring.Nat
import Mathlib.Data.List.Infix

namespace Glob

variable {α : Type*}

inductive Tok (α : Type*)
  | one (p : α → Bool)
  | star

/-- The tokens match the text. -/
inductive Matches : List (Tok α) → List α → Prop
  | nil : Matches [] []
  | one {p : α → Bool} {a : α} {ts : List (Tok α)} {as : List α} :
      p a = true → Matches ts as → Matches (.one p :: ts) (a :: as)
  | skip {ts : List (Tok α)} {as : List α} : Matches ts as → Matches (.star :: ts) as
  | more {ts : List (Tok α)} {a : α} {as : List α} :
      Matches (.star :: ts) as → Matches (.star :: ts) (a :: as)

theorem matches_nil_iff {as : List α} : Matches [] as ↔ as = [] := by
  constructor
  · intro h
    cases h
    rfl
  · rintro rfl
    exact .nil

theorem matches_one_iff {p : α → Bool} {ts : List (Tok α)} {as : List α} :
    Matches (.one p :: ts) as ↔ ∃ a bs, as = a :: bs ∧ p a = true ∧ Matches ts bs := by
  constructor
  · intro h
    cases h with
    | one hp h => exact ⟨_, _, rfl, hp, h⟩
  · rintro ⟨a, bs, rfl, hp, h⟩
    exact .one hp h

theorem matches_one_cons_iff {p : α → Bool} {ts : List (Tok α)} {a : α} {as : List α} :
    Matches (.one p :: ts) (a :: as) ↔ p a = true ∧ Matches ts as := by
  rw [matches_one_iff]
  constructor
  · rintro ⟨a, bs, he, hp, h⟩
    cases he
    exact ⟨hp, h⟩
  · rintro ⟨hp, h⟩
    exact ⟨a, as, rfl, hp, h⟩

theorem not_matches_one_nil {p : α → Bool} {ts : List (Tok α)} : ¬ Matches (.one p :: ts) [] := by
  intro h
  obtain ⟨_, _, he, -⟩ := matches_one_iff.mp h
  cases he

theorem Matches.star_append {ts : List (Tok α)} {bs : List α} (h : Matches (.star :: ts) bs) :
    ∀ as : List α, Matches (.star :: ts) (as ++ bs)
  | [] => h
  | _ :: as => .more (h.star_append as)

/-- A star takes what is in front of some rest. -/
theorem matches_star_iff {ts : List (Tok α)} {as : List α} :
    Matches (.star :: ts) as ↔ ∃ r, r <:+ as ∧ Matches ts r := by
  constructor
  · intro h
    generalize hts : Tok.star :: ts = ts' at h
    induction h with
    | nil => cases hts
    | one _ _ _ => cases hts
    | skip h _ =>
        cases hts
        exact ⟨_, List.suffix_rfl, h⟩
    | more _ ih =>
        obtain ⟨r, hr, h⟩ := ih hts
        exact ⟨r, hr.trans (List.suffix_cons _ _), h⟩
  · rintro ⟨r, ⟨w, rfl⟩, h⟩
    exact (Matches.skip h).star_append w

/-- Tokens for one element each take as many elements. -/
theorem matches_ones_append {ts : List (Tok α)} : ∀ {seg : List (α → Bool)} {as : List α},
    Matches (seg.map .one ++ ts) as → ∃ w r, as = w ++ r ∧ w.length = seg.length ∧ Matches ts r
  | [], as, h => ⟨[], as, rfl, rfl, h⟩
  | p :: seg, as, h => by
      obtain ⟨a, bs, rfl, -, h⟩ := matches_one_iff.mp h
      obtain ⟨w, r, rfl, hlen, h⟩ := matches_ones_append h
      exact ⟨a :: w, r, rfl, congrArg (· + 1) hlen, h⟩

/-! ## The last star -/

/-- What a matcher remembers of the last star: the text and the tokens behind
it.  Since then it has taken one element for each token. -/
structure Since (s : List α) (ts : List (Tok α)) (q : List α × List (Tok α)) : Prop where
  taken : ∃ (seg : List (α → Bool)) (w : List α), q.1 = w ++ s ∧ q.2 = seg.map .one ++ ts ∧
    w.length = seg.length
  rest : q.2 ≠ []

/-- The star finds a place further on. -/
def Later (q : List α × List (Tok α)) : Prop :=
  ∃ r, r <:+ q.1 ∧ r.length < q.1.length ∧ r ≠ [] ∧ Matches q.2 r

theorem Since.refl {ts : List (Tok α)} (h : ts ≠ []) (s : List α) : Since s ts (s, ts) :=
  ⟨⟨[], [], rfl, rfl, rfl⟩, h⟩

/-- One more element is taken. -/
theorem Since.next {p : α → Bool} {a : α} {s : List α} {ts : List (Tok α)}
    {q : List α × List (Tok α)} (h : Since (a :: s) (.one p :: ts) q) : Since s ts q := by
  obtain ⟨⟨seg, w, hs, hts, hlen⟩, hrest⟩ := h
  refine ⟨⟨seg ++ [p], w ++ [a], ?_, ?_, ?_⟩, hrest⟩
  · rw [hs, List.append_assoc, List.singleton_append]
  · rw [hts, List.map_append, List.append_assoc]
    rfl
  · rw [List.length_append, List.length_append, hlen]
    rfl

/-- Going on to the next place. -/
theorem later_cons {a b : α} {s : List α} {ts : List (Tok α)} :
    Later (a :: b :: s, ts) ↔ Matches ts (b :: s) ∨ Later (b :: s, ts) := by
  constructor
  · rintro ⟨r, hr, hlt, hne, h⟩
    rcases List.suffix_cons_iff.mp hr with rfl | hr
    · exact absurd hlt (Nat.lt_irrefl _)
    · rcases Nat.lt_or_eq_of_le hr.length_le with hlt' | heq
      · exact .inr ⟨r, hr, hlt', hne, h⟩
      · exact .inl (hr.eq_of_length heq ▸ h)
  · rintro (h | ⟨r, hr, hlt, hne, h⟩)
    · exact ⟨b :: s, List.suffix_cons _ _, Nat.lt_succ_self _, List.cons_ne_nil _ _, h⟩
    · exact ⟨r, hr.trans (List.suffix_cons _ _), hlt.trans (Nat.lt_succ_self _), hne, h⟩

/-- There is no further place in a text with less than two elements. -/
theorem not_later {s : List α} {ts : List (Tok α)} (h : s.length < 2) : ¬ Later (s, ts) := by
  rintro ⟨r, -, hlt, hne, -⟩
  have := List.length_pos_iff.mpr hne
  dsimp only at hlt
  omega

/-- What a star finds at a later place, the next star finds where it is
reached first. -/
theorem Since.star {s : List α} {ts : List (Tok α)} {q : List α × List (Tok α)}
    (h : Since s (.star :: ts) q) (hlater : Later q) : Matches (.star :: ts) s := by
  obtain ⟨⟨seg, w, hs, hts, hlen⟩, -⟩ := h
  obtain ⟨r, hr, hlt, -, hm⟩ := hlater
  rw [hts] at hm
  obtain ⟨w', r', rfl, hlen', hm'⟩ := matches_ones_append hm
  obtain ⟨t, ht⟩ := hr
  rw [hs] at ht hlt
  -- The rest at the later place is a rest of the text at hand.
  have hrest : r' <:+ w ++ s := ⟨t ++ w', by rw [List.append_assoc]; exact ht⟩
  have hle : r'.length ≤ s.length := by
    simp only [List.length_append] at hlt
    omega
  have hsuf : r' <:+ s := List.suffix_of_suffix_length_le hrest (List.suffix_append w s) hle
  obtain ⟨u, rfl⟩ := hsuf
  exact hm'.star_append u

/-- Where the text is at its end and one more element is needed, there is no
later place. -/
theorem Since.short {p : α → Bool} {ts : List (Tok α)} {q : List α × List (Tok α)}
    (h : Since [] (.one p :: ts) q) : ¬ Later q := by
  obtain ⟨⟨seg, w, hs, hts, hlen⟩, -⟩ := h
  rintro ⟨r, -, hlt, -, hm⟩
  rw [hts] at hm
  obtain ⟨w', r', rfl, hlen', -⟩ := matches_ones_append hm
  rw [hs, List.length_append, List.length_append] at hlt
  simp only [List.length_nil] at hlt
  omega

/-- A star tries the place where it is reached, and the later ones. -/
theorem matches_star_iff_later {s : List α} {ts : List (Tok α)} (hts : ts ≠ []) :
    Matches (.star :: ts) s ↔ Matches ts s ∨ Later (s, ts) := by
  constructor
  · intro h
    obtain ⟨r, hr, hm⟩ := matches_star_iff.mp h
    rcases Nat.lt_or_eq_of_le hr.length_le with hlt | heq
    · by_cases hne : r = []
      · subst hne
        cases ts with
        | nil => exact absurd rfl hts
        | cons t ts =>
            cases t with
            | one p => exact absurd hm not_matches_one_nil
            | star => exact .inl (List.append_nil s ▸ hm.star_append s)
      · exact .inr ⟨r, hr, hlt, hne, hm⟩
    · exact .inl (hr.eq_of_length heq ▸ hm)
  · rintro (h | ⟨r, hr, -, -, h⟩)
    · exact .skip h
    · exact matches_star_iff.mpr ⟨r, hr, h⟩

end Glob

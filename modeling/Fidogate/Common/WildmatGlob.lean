/-
# `Fidogate.Common.WildmatGlob` — wildmat.c: what a pattern matches

A pattern is read as a list of tokens, and `wildmatch` finds a match exactly
if there is one: going back to the last star only is enough.
-/
import Fidogate.Common.Wildmat
import Fidogate.Lib.Glob

namespace Fidogate

open Bytes Glob

/-- The test of a set, behind `[` and `^`. -/
def wildSetTest (ic reverse : Bool) (p : Str) (c : UInt8) : Bool :=
  ((wildSet ic c none false p).map fun r => r.1 != reverse).getD false

/-- The pattern behind a set. -/
def wildSetRest (p : Str) : Str := ((wildSet false nul none false p).map Prod.snd).getD []

/-- The tokens of a pattern; a set that is not closed, and a backslash at the
end, match no byte. -/
def wildToksLoop (ic : Bool) : Nat → Str → List (Tok UInt8)
  | 0, _ => []
  | _, [] => []
  | n + 1, x :: p =>
      if x == 63 then .one (fun _ => true) :: wildToksLoop ic n p
      else if x == 42 then .star :: wildToksLoop ic n p
      else if x == 91 then
        let reverse := p.head? == some 94
        let p := if reverse then p.tail else p
        .one (wildSetTest ic reverse p) :: wildToksLoop ic n (wildSetRest p)
      else
        match (if x == backslash then p else x :: p) with
        | [] => [.one fun _ => false]
        | y :: p => .one (charEq · y ic) :: wildToksLoop ic n p

def wildToks (ic : Bool) (p : Str) : List (Tok UInt8) := wildToksLoop ic p.length p

/-! ## Reading the tokens -/

/-- What is behind a set does not depend on the byte that is looked for. -/
theorem wildSet_rest (ic ic' : Bool) (c c' : UInt8) : ∀ (p : Str) (last last' : Option UInt8)
    (m m' : Bool), (wildSet ic c last m p).map Prod.snd = (wildSet ic' c' last' m' p).map Prod.snd
  | [], _, _, _, _ => by rw [wildSet, wildSet]
  | x :: p, last, last', m, m' => by
      unfold wildSet
      by_cases hclose : (x == 93) = true
      · simp only [hclose, if_true, Option.map_some]
      · by_cases hrange : (x == 45) = true
        · simp only [hclose, hrange, if_true]
          cases p with
          | nil => rfl
          | cons y p => exact wildSet_rest ic ic' c c' p _ _ _ _
        · simp only [hclose, hrange]
          exact wildSet_rest ic ic' c c' p _ _ _ _

theorem wildSet_length {ic : Bool} {c : UInt8} : ∀ {p : Str} {last : Option UInt8} {m : Bool}
    {r : Bool × Str}, wildSet ic c last m p = some r → r.2.length < p.length
  | [], _, _, _, h => by
      rw [wildSet] at h
      cases h
  | x :: p, last, m, r, h => by
      unfold wildSet at h
      split at h
      · cases h
        exact Nat.lt_succ_self _
      · split at h
        · cases p with
          | nil => cases h
          | cons y p => exact (wildSet_length h).trans ((Nat.lt_succ_self _).trans (Nat.lt_succ_self _))
        · exact (wildSet_length h).trans (Nat.lt_succ_self _)

theorem length_wildSetRest (p : Str) : (wildSetRest p).length ≤ p.length := by
  rw [wildSetRest]
  cases h : wildSet false nul none false p with
  | none => exact Nat.zero_le _
  | some r => exact (wildSet_length h).le

/-- A set at the byte `c`. -/
theorem wildSet_eq (ic : Bool) (c : UInt8) (p : Str) : wildSet ic c none false p = none ∨
    ∃ m, wildSet ic c none false p = some (m, wildSetRest p) := by
  have hrest := wildSet_rest ic false c nul p none none false false
  cases h : wildSet ic c none false p with
  | none => exact .inl rfl
  | some r =>
      rw [h, Option.map_some] at hrest
      exact .inr ⟨r.1, by rw [wildSetRest, ← hrest, Option.getD_some]⟩

/-- Enough rounds for the length of the pattern. -/
theorem wildToksLoop_eq (ic : Bool) : ∀ {n m : Nat} {p : Str}, p.length ≤ n → p.length ≤ m →
    wildToksLoop ic n p = wildToksLoop ic m p
  | 0, 0, _, _, _ => rfl
  | 0, _ + 1, [], _, _ => rfl
  | _ + 1, 0, [], _, _ => rfl
  | _ + 1, _ + 1, [], _, _ => rfl
  | 0, _, _ :: _, h, _ => absurd h (Nat.not_succ_le_zero _)
  | _, 0, _ :: _, _, h => absurd h (Nat.not_succ_le_zero _)
  | n + 1, m + 1, x :: p, hn, hm => by
      have hn := Nat.le_of_succ_le_succ hn
      have hm := Nat.le_of_succ_le_succ hm
      rw [wildToksLoop, wildToksLoop]
      have htail : ∀ b : Bool, (wildSetRest (if b then p.tail else p)).length ≤ p.length := by
        intro b
        refine (length_wildSetRest _).trans ?_
        split
        · rw [List.length_tail]
          exact Nat.sub_le _ _
        · exact Nat.le_refl _
      dsimp only
      rw [wildToksLoop_eq ic hn hm, wildToksLoop_eq ic ((htail _).trans hn) ((htail _).trans hm)]
      by_cases hq : (x == backslash) = true
      · simp only [hq, if_true]
        cases p with
        | nil => rfl
        | cons y p =>
            dsimp only
            rw [wildToksLoop_eq ic (Nat.le_of_succ_le hn) (Nat.le_of_succ_le hm)]
      · simp only [hq, Bool.false_eq_true, if_false]
        rw [wildToksLoop_eq ic hn hm]

/-- The tokens of a pattern, one at a time. -/
theorem wildToks_cons (ic : Bool) (x : UInt8) (p : Str) : wildToks ic (x :: p) =
    if x == 63 then .one (fun _ => true) :: wildToks ic p
    else if x == 42 then .star :: wildToks ic p
    else if x == 91 then
      .one (wildSetTest ic (p.head? == some 94) (if p.head? == some 94 then p.tail else p)) ::
        wildToks ic (wildSetRest (if p.head? == some 94 then p.tail else p))
    else
      match (if x == backslash then p else x :: p) with
      | [] => [.one fun _ => false]
      | y :: p => .one (charEq · y ic) :: wildToks ic p := by
  have htail : (wildSetRest (if p.head? == some 94 then p.tail else p)).length ≤ p.length := by
    refine (length_wildSetRest _).trans ?_
    split
    · rw [List.length_tail]
      exact Nat.sub_le _ _
    · exact Nat.le_refl _
  rw [wildToks, List.length_cons, wildToksLoop]
  dsimp only
  rw [wildToksLoop_eq ic htail (Nat.le_refl _)]
  by_cases hq : (x == backslash) = true
  · simp only [hq, if_true]
    cases p with
    | nil => rfl
    | cons y p =>
        dsimp only
        rw [wildToksLoop_eq ic (show p.length ≤ (y :: p).length from Nat.le_succ _) (Nat.le_refl _)]
        rfl
  · simp only [hq]
    rfl

theorem wildToks_ne_nil (ic : Bool) {p : Str} (h : p ≠ []) : wildToks ic p ≠ [] := by
  obtain ⟨x, p, rfl⟩ := List.exists_cons_of_ne_nil h
  rw [wildToks_cons]
  split
  · exact List.cons_ne_nil _ _
  · split
    · exact List.cons_ne_nil _ _
    · split
      · exact List.cons_ne_nil _ _
      · split <;> exact List.cons_ne_nil _ _

/-! ## The matcher -/

/-- The state of a matcher, with the tokens of the patterns. -/
def tokState (ic : Bool) (q : Str × Str) : Str × List (Tok UInt8) := (q.1, wildToks ic q.2)

/-- The places from which the text may still be tried. -/
def triesLeft (s : Str) : Option (Str × Str) → Nat
  | none => s.length + 1
  | some q => q.1.length

/-- `BackTrack` in the loop. -/
def backTrack (ic : Bool) (n : Nat) : Option (Str × Str) → Bool
  | some (_ :: c :: s', p') => wildmatchLoop ic n (c :: s') p' (some (c :: s', p'))
  | _ => false

/-- The set in the loop. -/
def trySet (ic : Bool) (n : Nat) (s p : Str) (saved : Option (Str × Str)) : Bool :=
  match s, wildSet ic (s.headD nul) none false (if p.head? == some 94 then p.tail else p) with
  | _ :: s, some (matched, p') =>
      if matched == (p.head? == some 94) then backTrack ic n saved
      else wildmatchLoop ic n s p' saved
  | _, _ => backTrack ic n saved

theorem wildmatchLoop_cons (ic : Bool) (n : Nat) (s : Str) (x : UInt8) (p : Str)
    (saved : Option (Str × Str)) : wildmatchLoop ic (n + 1) s (x :: p) saved =
      if x == 63 then
        match s with
        | [] => false
        | _ :: s => wildmatchLoop ic n s p saved
      else if x == 42 then
        if p.isEmpty then true else wildmatchLoop ic n s p (some (s, p))
      else if x == 91 then trySet ic n s p saved
      else
        match (if x == backslash then p else x :: p), s with
        | x :: p, c :: s =>
            if charEq c x ic then wildmatchLoop ic n s p saved else backTrack ic n saved
        | _, _ => backTrack ic n saved := by
  rw [wildmatchLoop.eq_def]
  rfl

/-- What the matcher finds from a state on. -/
def Finds (ic : Bool) (s p : Str) (saved : Option (Str × Str)) : Prop :=
  Matches (wildToks ic p) s ∨ ∃ q ∈ saved, Later (tokState ic q)

/-- A state between two rounds, in a text and pattern of which `k` bytes are
the most of a pattern. -/
structure Matching (ic : Bool) (k : Nat) (s p : Str) (saved : Option (Str × Str)) : Prop where
  pattern : p.length ≤ k
  savedPattern : ∀ q ∈ saved, q.2.length ≤ k
  since : ∀ q ∈ saved, Since s (wildToks ic p) (tokState ic q)

/-- Rounds that are enough. -/
def roundsLeft (k : Nat) (s p : Str) (saved : Option (Str × Str)) : Nat :=
  p.length + (k + 2) * triesLeft s saved

/-- Another byte of the text is taken. -/
theorem Matching.next {ic : Bool} {k : Nat} {c x : UInt8} {s p rest : Str}
    {saved : Option (Str × Str)} {t : UInt8 → Bool} (h : Matching ic k (c :: s) (x :: p) saved)
    (htoks : wildToks ic (x :: p) = .one t :: wildToks ic rest) (hle : rest.length ≤ p.length) :
    Matching ic k s rest saved ∧
      roundsLeft k s rest saved < roundsLeft k (c :: s) (x :: p) saved := by
  refine ⟨⟨hle.trans (Nat.le_of_succ_le h.pattern), h.savedPattern, fun q hq => ?_⟩, ?_⟩
  · have hs := h.since q hq
    rw [htoks] at hs
    exact hs.next
  · rw [roundsLeft, roundsLeft, List.length_cons]
    have : (k + 2) * triesLeft s saved ≤ (k + 2) * triesLeft (c :: s) saved := by
      refine Nat.mul_le_mul_left _ ?_
      cases saved with
      | none => exact Nat.le_succ _
      | some q => exact Nat.le_refl _
    omega

section Loop

variable {ic : Bool} {k n : Nat}
  (ih : ∀ {s p : Str} {saved : Option (Str × Str)}, Matching ic k s p saved →
    roundsLeft k s p saved < n → (wildmatchLoop ic n s p saved = true ↔ Finds ic s p saved))

include ih

/-- Going back finds what a later place of the last star finds. -/
theorem backTrack_iff {s p : Str} {saved : Option (Str × Str)} (h : Matching ic k s p saved)
    (hr : roundsLeft k s p saved < n + 1) :
    backTrack ic n saved = true ↔ ∃ q ∈ saved, Later (tokState ic q) := by
  have hnone : ∀ {saved : Option (Str × Str)}, backTrack ic n saved = false →
      (∀ q ∈ saved, q.1.length < 2) →
        (backTrack ic n saved = true ↔ ∃ q ∈ saved, Later (tokState ic q)) := by
    intro saved hb hshort
    rw [hb]
    refine ⟨fun h => absurd h Bool.false_ne_true, ?_⟩
    rintro ⟨q, hq, hl⟩
    exact absurd hl (not_later (hshort q hq))
  rcases saved with _ | ⟨_ | ⟨b, _ | ⟨c, s'⟩⟩, p'⟩
  · exact hnone rfl fun q hq => absurd hq (Option.not_mem_none q)
  · exact hnone rfl fun q hq => Option.some.inj hq ▸ Nat.two_pos
  · exact hnone rfl fun q hq => Option.some.inj hq ▸ Nat.lt_succ_self 1
  · have hle : p'.length ≤ k := h.savedPattern _ rfl
    have hnext : Matching ic k (c :: s') p' (some (c :: s', p')) :=
      ⟨hle, fun q hq => Option.some.inj hq ▸ hle,
        fun q hq => Option.some.inj hq ▸ Since.refl (h.since _ rfl).rest _⟩
    have hrounds : roundsLeft k (c :: s') p' (some (c :: s', p')) < n := by
      simp only [roundsLeft, triesLeft, List.length_cons] at hr ⊢
      rw [show s'.length + 1 + 1 = (s'.length + 1) + 1 from rfl, Nat.mul_add _ (s'.length + 1)] at hr
      omega
    have hlater : Later (b :: c :: s', wildToks ic p') ↔
        Matches (wildToks ic p') (c :: s') ∨ Later (c :: s', wildToks ic p') := later_cons
    rw [backTrack, ih hnext hrounds, Finds]
    constructor
    · rintro (hm | ⟨q, hq, hl⟩)
      · exact ⟨_, rfl, hlater.mpr (.inl hm)⟩
      · obtain rfl := Option.some.inj hq
        exact ⟨_, rfl, hlater.mpr (.inr hl)⟩
    · rintro ⟨q, hq, hl⟩
      obtain rfl := Option.some.inj hq
      exact (hlater.mp hl).imp id fun hl => ⟨_, rfl, hl⟩

omit ih in
/-- At the end of the text nothing is found where one more byte is needed. -/
theorem not_finds_nil {x : UInt8} {p : Str} {saved : Option (Str × Str)} {t : UInt8 → Bool}
    {ts : List (Tok UInt8)} (h : Matching ic k [] (x :: p) saved)
    (htoks : wildToks ic (x :: p) = .one t :: ts) : ¬ Finds ic [] (x :: p) saved := by
  rintro (hm | ⟨q, hq, hl⟩)
  · rw [htoks] at hm
    exact not_matches_one_nil hm
  · have hs := h.since q hq
    rw [htoks] at hs
    exact hs.short hl

/-- A backslash at the end of the pattern matches no byte. -/
theorem quoteEnd_iff {s : Str} {x : UInt8} {p : Str} {saved : Option (Str × Str)}
    (h : Matching ic k s (x :: p) saved) (hr : roundsLeft k s (x :: p) saved < n + 1)
    (htoks : wildToks ic (x :: p) = [.one fun _ => false]) :
    backTrack ic n saved = true ↔ Finds ic s (x :: p) saved := by
  rw [backTrack_iff ih h hr, Finds, htoks, or_iff_right]
  rw [matches_one_iff]
  rintro ⟨a, bs, -, hf, -⟩
  exact Bool.false_ne_true hf

/-- At a star the place at hand is the one to go back to. -/
theorem star_iff {s : Str} {x : UInt8} {p : Str} {saved : Option (Str × Str)}
    (h : Matching ic k s (x :: p) saved) (hr : roundsLeft k s (x :: p) saved < n + 1)
    (htoks : wildToks ic (x :: p) = .star :: wildToks ic p) :
    (if p.isEmpty = true then true else wildmatchLoop ic n s p (some (s, p))) = true ↔
      Finds ic s (x :: p) saved := by
  have hfinds : Finds ic s (x :: p) saved ↔ Matches (.star :: wildToks ic p) s := by
    rw [Finds, htoks]
    refine ⟨fun hf => hf.elim id ?_, .inl⟩
    rintro ⟨q, hq, hl⟩
    have hs := h.since q hq
    rw [htoks] at hs
    exact hs.star hl
  rw [hfinds]
  split
  · next hnil =>
      rw [List.isEmpty_iff.mp hnil]
      refine iff_of_true rfl ?_
      have := (Matches.skip (α := UInt8) Matches.nil).star_append s
      rwa [List.append_nil] at this
  · next hne =>
      have hp : p ≠ [] := fun he => hne (List.isEmpty_iff.mpr he)
      have hle : p.length ≤ k := Nat.le_of_succ_le h.pattern
      have hnext : Matching ic k s p (some (s, p)) :=
        ⟨hle, fun q hq => Option.some.inj hq ▸ hle,
          fun q hq => Option.some.inj hq ▸ Since.refl (wildToks_ne_nil ic hp) s⟩
      have hplaces : s.length ≤ triesLeft s saved := by
        cases saved with
        | none => exact Nat.le_succ _
        | some q =>
            obtain ⟨⟨seg, w, hq, -, -⟩, -⟩ := h.since q rfl
            have hq' : q.1 = w ++ s := hq
            rw [triesLeft, hq', List.length_append]
            exact Nat.le_add_left _ _
      have hrounds : roundsLeft k s p (some (s, p)) < n := by
        rw [roundsLeft, List.length_cons] at hr
        have hle' := Nat.mul_le_mul_left (k + 2) hplaces
        show p.length + (k + 2) * s.length < n
        omega
      rw [ih hnext hrounds, Finds, matches_star_iff_later (wildToks_ne_nil ic hp)]
      refine or_congr_right ⟨?_, fun hl => ⟨_, rfl, hl⟩⟩
      rintro ⟨q, hq, hl⟩
      obtain rfl := Option.some.inj hq
      exact hl

/-- A byte is tried against a token for one byte. -/
theorem oneByte_iff {c x : UInt8} {s p rest : Str} {saved : Option (Str × Str)}
    {t : UInt8 → Bool} (h : Matching ic k (c :: s) (x :: p) saved)
    (hr : roundsLeft k (c :: s) (x :: p) saved < n + 1)
    (htoks : wildToks ic (x :: p) = .one t :: wildToks ic rest) (hle : rest.length ≤ p.length) :
    (if t c = true then wildmatchLoop ic n s rest saved else backTrack ic n saved) = true ↔
      Finds ic (c :: s) (x :: p) saved := by
  rw [Finds, htoks, matches_one_cons_iff]
  split
  · next ht =>
      obtain ⟨hnext, hrounds⟩ := h.next htoks hle
      rw [ih hnext (by omega), Finds, and_iff_right ht]
  · next ht =>
      rw [backTrack_iff ih h hr]
      exact ⟨.inr, fun hf => hf.resolve_left fun hm => ht hm.1⟩

/-- A byte is tried against a set. -/
theorem set_iff {s : Str} {x : UInt8} {p : Str} {saved : Option (Str × Str)}
    (h : Matching ic k s (x :: p) saved) (hr : roundsLeft k s (x :: p) saved < n + 1)
    (htoks : wildToks ic (x :: p) = .one (wildSetTest ic (p.head? == some 94)
      (if p.head? == some 94 then p.tail else p)) ::
        wildToks ic (wildSetRest (if p.head? == some 94 then p.tail else p))) :
    trySet ic n s p saved = true ↔ Finds ic s (x :: p) saved := by
  have hle : (wildSetRest (if p.head? == some 94 then p.tail else p)).length ≤ p.length := by
    refine (length_wildSetRest _).trans ?_
    split
    · rw [List.length_tail]
      exact Nat.sub_le _ _
    · exact Nat.le_refl _
  cases s with
  | nil => exact (backTrack_iff ih h hr).trans ⟨.inr, fun hf => absurd hf (not_finds_nil h htoks)⟩
  | cons c s =>
      rw [← oneByte_iff ih h hr htoks hle, trySet.eq_def, wildSetTest]
      dsimp only [List.headD_cons]
      rcases wildSet_eq ic c (if p.head? == some 94 then p.tail else p) with hw | ⟨m, hw⟩
      · rw [hw]
        exact Iff.rfl
      · rw [hw]
        dsimp only [Option.map_some, Option.getD_some]
        cases m <;> cases p.head? == some 94 <;> exact Iff.rfl

end Loop

/-- The loop finds a match exactly if there is one, at the place at hand or at
a later one of the last star. -/
theorem wildmatchLoop_iff {ic : Bool} {k : Nat} : ∀ {n : Nat} {s p : Str}
    {saved : Option (Str × Str)}, Matching ic k s p saved → roundsLeft k s p saved < n →
      (wildmatchLoop ic n s p saved = true ↔ Finds ic s p saved)
  | 0, _, _, _, _, hr => absurd hr (Nat.not_lt_zero _)
  | n + 1, s, [], saved, h, hr => by
      have ih := @wildmatchLoop_iff ic k n
      cases s with
      | nil => exact ⟨fun _ => .inl .nil, fun _ => by rw [wildmatchLoop.eq_def]; rfl⟩
      | cons c s =>
          have hno : ¬ Matches (wildToks ic []) (c :: s) := fun hm => by cases hm
          rw [Finds, or_iff_right hno, ← backTrack_iff ih h hr, wildmatchLoop.eq_def]
          rfl
  | n + 1, s, x :: p, saved, h, hr => by
      have ih := @wildmatchLoop_iff ic k n
      have htoks := wildToks_cons ic x p
      rw [wildmatchLoop_cons]
      by_cases hany : (x == 63) = true
      · -- any byte, which has to be there
        rw [if_pos hany] at htoks ⊢
        cases s with
        | nil => exact ⟨fun hf => absurd hf Bool.false_ne_true, fun hf =>
            absurd hf (not_finds_nil h htoks)⟩
        | cons c s => exact oneByte_iff ih h hr htoks (Nat.le_refl _)
      · rw [if_neg hany] at htoks ⊢
        by_cases hstar : (x == 42) = true
        · -- a star: later places of the one before need not be tried any more
          rw [if_pos hstar] at htoks ⊢
          exact star_iff ih h hr htoks
        · rw [if_neg hstar] at htoks ⊢
          by_cases hset : (x == 91) = true
          · rw [if_pos hset] at htoks ⊢
            exact set_iff ih h hr htoks
          · -- a byte that stands for itself, quoted or not
            rw [if_neg hset] at htoks ⊢
            generalize hq : (if (x == backslash) = true then p else x :: p) = q at htoks ⊢
            have hlen : q.length ≤ p.length + 1 := by
              rw [← hq]
              split
              · exact Nat.le_succ _
              · exact Nat.le_refl _
            cases q with
            | nil => exact quoteEnd_iff ih h hr htoks
            | cons y q =>
                cases s with
                | nil =>
                    exact (backTrack_iff ih h hr).trans ⟨.inr, fun hf =>
                      absurd hf (not_finds_nil h htoks)⟩
                | cons c s => exact oneByte_iff ih h hr htoks (Nat.le_of_succ_le_succ hlen)

/-- `wildmatch` is true exactly if the tokens of the pattern match the text. -/
theorem wildmatch_iff (s p : Str) (ic : Bool) :
    wildmatch s p ic = true ↔ Matches (wildToks ic p) s := by
  have hstart : Matching ic p.length s p none :=
    ⟨Nat.le_refl _, fun q hq => absurd hq (Option.not_mem_none q),
      fun q hq => absurd hq (Option.not_mem_none q)⟩
  have hrounds : roundsLeft p.length s p none < (s.length + 2) * (p.length + 2) := by
    rw [roundsLeft, triesLeft, Nat.mul_comm (s.length + 2), show s.length + 2 = s.length + 1 + 1
      from rfl, Nat.mul_add _ (s.length + 1)]
    omega
  rw [wildmatch, wildmatchLoop_iff hstart hrounds, Finds]
  refine ⟨fun hf => hf.resolve_right ?_, .inl⟩
  rintro ⟨q, hq, -⟩
  cases hq

end Fidogate

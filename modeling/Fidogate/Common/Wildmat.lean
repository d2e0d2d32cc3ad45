/-
# `Fidogate.Common.Wildmat` — wildmat.c: shell-style patterns

The pattern is matched from left to right; a mismatch goes back to the last
`*` (42) seen and tries it one byte further on; `?` (63) is any byte, `[` (91)
opens a set, `-` (45) a range in it and `^` (94) turns it round.  Where the source would read past
the end of a malformed pattern there is no match here.
-/
import Fidogate.Common.Strtok

namespace Fidogate

open Bytes

/-- `char_eq`. -/
def charEq (c1 c2 : UInt8) (ic : Bool) : Bool :=
  if ic then toUpper c1 == toUpper c2 else c1 == c2

/-- The value of a `char` as an `int`. -/
def signedChar (c : UInt8) : Int := if c < 128 then c.toNat else c.toNat - 256

/-- `char_range`: no lower bound where a set starts with `-`. -/
def charRange (c : UInt8) (c1 : Option UInt8) (c2 : UInt8) (ic : Bool) : Bool :=
  let fold := fun c => signedChar (if ic then toUpper c else c)
  match c1 with
  | none => false
  | some c1 => fold c1 ≤ fold c && fold c ≤ fold c2

/-- The set `[...]`: whether the byte is in it, and the pattern behind. -/
def wildSet (ic : Bool) (c : UInt8) : Option UInt8 → Bool → Str → Option (Bool × Str)
  | _, _, [] => none
  | last, matched, x :: p =>
      if x == 93 then some (matched, p)
      else if x == 45 then
        match p with
        | [] => none
        | y :: p => wildSet ic c (some y) (matched || charRange c last y ic) p
      else wildSet ic c (some x) (matched || charEq c x ic) p

/-- `wildmatch` on a string and a pattern, with the string and the pattern to
go back to.  Each byte of the string is tried against each of the pattern. -/
def wildmatchLoop (ic : Bool) : Nat → Str → Str → Option (Str × Str) → Bool
  | 0, _, _, _ => false
  | n + 1, s, p, saved =>
      let backTrack := fun _ : Unit =>
        match saved with
        | some (_ :: c :: s', p') => wildmatchLoop ic n (c :: s') p' (some (c :: s', p'))
        | _ => false
      match p with
      | [] => if s.isEmpty then true else backTrack ()
      | x :: p =>
          if x == 63 then
            match s with
            | [] => false
            | _ :: s => wildmatchLoop ic n s p saved
          else if x == 42 then
            if p.isEmpty then true else wildmatchLoop ic n s p (some (s, p))
          else if x == 91 then
            let reverse := p.head? == some 94
            match s, wildSet ic (s.headD nul) none false (if reverse then p.tail else p) with
            | _ :: s, some (matched, p) =>
                if matched == reverse then backTrack () else wildmatchLoop ic n s p saved
            | _, _ => backTrack ()
          else
            match (if x == backslash then p else x :: p), s with
            | x :: p, c :: s => if charEq c x ic then wildmatchLoop ic n s p saved else backTrack ()
            | _, _ => backTrack ()

/-- `wildmatch` with `ic` TRUE or FALSE. -/
def wildmatch (s p : Str) (ic : Bool) : Bool :=
  wildmatchLoop ic ((s.length + 2) * (p.length + 2)) s p none

/-- `is_wildcard`. -/
def isWildcard (s : Str) : Bool := s.any fun c => (lit "*?[").contains c

/-! ## Patterns without a wildcard -/

/-- A byte that stands for itself in a pattern. -/
def plainByte (c : UInt8) : Bool := ! (lit "*?[\\").contains c

theorem plainByte_ne {c : UInt8} (h : plainByte c = true) :
    c ≠ 63 ∧ c ≠ 42 ∧ c ≠ 91 ∧ c ≠ backslash := by
  have key : ∀ c : UInt8, plainByte c = true → c ≠ 63 ∧ c ≠ 42 ∧ c ≠ 91 ∧ c ≠ backslash :=
    forall_byte (by decide +kernel)
  exact key c h

/-- A pattern of plain bytes is compared byte by byte. -/
theorem wildmatchLoop_plain : ∀ (n : Nat) (s p : Str), p.length < n →
    (∀ c ∈ p, plainByte c = true) → wildmatchLoop true n s p none = strieq s p
  | 0, _, _, hn, _ => absurd hn (Nat.not_lt_zero _)
  | n + 1, s, [], _, _ => by
      unfold wildmatchLoop
      cases s with
      | nil => rfl
      | cons c s => rfl
  | n + 1, [], x :: p, _, hp => by
      obtain ⟨h1, h2, h3, h4⟩ := plainByte_ne (hp x List.mem_cons_self)
      unfold wildmatchLoop
      simp only [beq_iff_eq, h1, h2, h3, h4, if_false]
      rfl
  | n + 1, c :: s, x :: p, hn, hp => by
      obtain ⟨h1, h2, h3, h4⟩ := plainByte_ne (hp x List.mem_cons_self)
      have ih := wildmatchLoop_plain n s p (Nat.lt_of_succ_lt_succ hn)
        fun d hd => hp d (List.mem_cons_of_mem _ hd)
      unfold wildmatchLoop
      simp only [beq_iff_eq, h1, h2, h3, h4, if_false, ih]
      rw [Bool.eq_iff_iff, strieq_iff_upper, List.map_cons, List.map_cons, List.cons_eq_cons,
        ← strieq_iff_upper]
      cases hc : charEq c x true with
      | false =>
          have hne : toUpper c ≠ toUpper x := by
            intro h
            rw [charEq, if_pos rfl, h, beq_self_eq_true] at hc
            cases hc
          simp [hne]
      | true =>
          have heq : toUpper c = toUpper x := beq_iff_eq.mp hc
          simp [heq]

theorem wildmatch_plain {p : Str} (hp : ∀ c ∈ p, plainByte c = true) (s : Str) :
    wildmatch s p true = strieq s p := by
  refine wildmatchLoop_plain _ s p ?_ hp
  have h : 2 * (p.length + 2) ≤ (s.length + 2) * (p.length + 2) :=
    Nat.mul_le_mul_right _ (Nat.le_add_left 2 s.length)
  omega

theorem isWildcard_of_plain {p : Str} (hp : ∀ c ∈ p, plainByte c = true) :
    isWildcard p = false := by
  refine List.any_eq_false.mpr ?_
  intro c hc h
  have key : ∀ c : UInt8, plainByte c = true → (lit "*?[").contains c = false :=
    forall_byte (by decide +kernel)
  rw [key c (hp c hc)] at h
  cases h

example : wildmatch (lit "FIDO.TEST") (lit "fido.*s[a-t]") true = true := by decide +kernel

/-! ## The length of what matches -/

/-- Bytes of a pattern that stand for one byte each. -/
def wildBytes (p : Str) : Nat := p.countP (· != 42)

/-- No set and no quoted byte in a pattern. -/
def NoSets (p : Str) : Prop := ∀ c ∈ p, c ≠ 91 ∧ c ≠ backslash

/-- The way back to the last star. -/
theorem backTrack_length {ic : Bool} {n : Nat} {saved : Option (Str × Str)}
    (h : (match saved with
      | some (_ :: c :: s', p') => wildmatchLoop ic n (c :: s') p' (some (c :: s', p'))
      | _ => false) = true)
    (hagain : ∀ (s p : Str), NoSets p → wildmatchLoop ic n s p (some (s, p)) = true →
      wildBytes p ≤ s.length)
    (hsaved : ∀ q ∈ saved, NoSets q.2) : ∃ q ∈ saved, wildBytes q.2 ≤ q.1.length := by
  rcases saved with _ | ⟨_ | ⟨b, _ | ⟨c, s'⟩⟩, p'⟩
  · cases h
  · cases h
  · cases h
  · exact ⟨(b :: c :: s', p'), rfl, Nat.le_succ_of_le (hagain _ _ (hsaved _ rfl) h)⟩

/-- A text that matches has a byte for each of them, be it the text at hand or
the one to go back to. -/
theorem wildmatchLoop_length {ic : Bool} : ∀ (n : Nat) (s p : Str) (saved : Option (Str × Str)),
    NoSets p → (∀ q ∈ saved, NoSets q.2) → wildmatchLoop ic n s p saved = true →
    wildBytes p ≤ s.length ∨ ∃ q ∈ saved, wildBytes q.2 ≤ q.1.length
  | 0, _, _, _, _, _, h => by
      rw [wildmatchLoop] at h
      cases h
  | n + 1, s, p, saved, hp, hsaved, h => by
      have hagain : ∀ (s p : Str), NoSets p → wildmatchLoop ic n s p (some (s, p)) = true →
          wildBytes p ≤ s.length := by
        intro s p hp h
        rcases wildmatchLoop_length n s p (some (s, p)) hp (by rintro _ ⟨⟩; exact hp) h with
          h | ⟨_, ⟨⟩, h⟩
        · exact h
        · exact h
      rw [wildmatchLoop.eq_def] at h
      dsimp only at h
      cases p with
      | nil => exact Or.inl (Nat.zero_le _)
      | cons x p =>
          dsimp only at h
          have htail : NoSets p := fun c hc => hp c (List.mem_cons_of_mem _ hc)
          obtain ⟨hset, hquote⟩ := hp x List.mem_cons_self
          have hcount : wildBytes (x :: p) ≤ wildBytes p + 1 := by
            rw [wildBytes, List.countP_cons]
            split
            · exact Nat.le_refl _
            · exact Nat.le_succ _
          have hstep : ∀ {c : UInt8} {s : Str}, wildmatchLoop ic n s p saved = true →
              wildBytes (x :: p) ≤ (c :: s).length ∨
                ∃ q ∈ saved, wildBytes q.2 ≤ q.1.length := by
            intro c s h
            rcases wildmatchLoop_length n s p saved htail hsaved h with h | h
            · exact Or.inl (hcount.trans (Nat.succ_le_succ h))
            · exact Or.inr h
          by_cases hany : x = 63
          · -- any byte
            rw [if_pos (by simpa using hany)] at h
            cases s with
            | nil => cases h
            | cons c s => exact hstep h
          · rw [if_neg (by simpa using hany)] at h
            by_cases hstar : x = 42
            · -- a star: the text at hand is the one to go back to
              rw [if_pos (by simpa using hstar)] at h
              have hsame : wildBytes (x :: p) = wildBytes p := by
                rw [hstar, wildBytes, List.countP_cons_of_neg (by decide), ← wildBytes]
              rw [hsame]
              split at h
              · next hnil =>
                  rw [List.isEmpty_iff.mp hnil]
                  exact Or.inl (Nat.zero_le _)
              · exact Or.inl (hagain s p htail h)
            · -- a byte that stands for itself
              rw [if_neg (by simpa using hstar), if_neg (by simpa using hset),
                if_neg (by simpa using hquote)] at h
              cases s with
              | nil => exact Or.inr (backTrack_length h hagain hsaved)
              | cons c s =>
                  dsimp only at h
                  split at h
                  · exact hstep h
                  · exact Or.inr (backTrack_length h hagain hsaved)

theorem wildmatch_length {s p : Str} {ic : Bool} (hp : NoSets p) (h : wildmatch s p ic = true) :
    wildBytes p ≤ s.length := by
  rcases wildmatchLoop_length _ s p none hp (by rintro _ ⟨⟩) h with h | ⟨_, ⟨⟩, -⟩
  exact h

end Fidogate

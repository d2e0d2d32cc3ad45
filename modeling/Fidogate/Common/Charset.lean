/-
# `Fidogate.Common.Charset` — charset.c: is it UTF-8?

The check goes from one lead byte to the next, and stops at the length it is
given or at a NUL in front of it.  The byte at the length is read before the
length is looked at, so it may be any byte.
-/
import Fidogate.Lib.Utf8
import Mathlib.Data.List.GetD
import Mathlib.Data.List.TakeWhile

namespace Fidogate

open Bytes

/-! ## The check -/

/-- `utf8_check_start`: the length of the sequence, unless the state is `ERR`. -/
def utf8CheckStart (c : UInt8) : Option Nat :=
  if c &&& 0x80 = 0 then some 1
  else if c &&& 0xc0 = 0xc0 ∧ c &&& 0x20 = 0 then some 2
  else if c &&& 0xe0 = 0xe0 ∧ c &&& 0x10 = 0 then some 3
  else if c &&& 0xf0 = 0xf0 ∧ c &&& 0x08 = 0 then some 4
  else none

/-- `utf8_check_rest_byte` -/
def utf8CheckRestByte (c : UInt8) : Bool := c &&& 0x80 == 0x80 && c &&& 0x40 == 0

/-- The end of the string; what is behind `s` reads as the NUL behind it. -/
def utf8AtEnd (s : Str) (len i : Nat) : Bool := s.getD i nul == nul || i == len

/-- `utf8_check_rest_bytes` -/
def utf8CheckRestBytes (s : Str) (len : Nat) : Nat → Nat → Bool
  | _, 0 => true
  | i, num + 1 =>
      if utf8AtEnd s len i then false
      else if ! utf8CheckRestByte (s.getD i nul) then false
      else utf8CheckRestBytes s len (i + 1) num

/-- The states of `charset_is_valid_utf8` from `START_SEQ` on; `none` if the
rounds do not suffice. -/
def utf8Loop (s : Str) (len : Nat) : Nat → Nat → Option Bool
  | 0, _ => none
  | n + 1, i =>
      if utf8AtEnd s len i then some true
      else
        match utf8CheckStart (s.getD i nul) with
        | none => some false
        | some num =>
            if ! utf8CheckRestBytes s len (i + 1) (num - 1) then some false
            else utf8Loop s len n (i + 1 + (num - 1))

/-- `charset_is_valid_utf8` -/
def charsetIsValidUtf8 (s : Str) (len : Nat) : Option Bool := utf8Loop s len (len + 1) 0

/-! ## The form of UTF-8 -/

theorem utf8CheckStart_eq (c : UInt8) : utf8CheckStart c = (Utf8.announced c).map (· + 1) :=
  forall_byte (P := fun c => utf8CheckStart c = (Utf8.announced c).map (· + 1))
    (by decide +kernel) c

theorem utf8CheckRestByte_iff (c : UInt8) : utf8CheckRestByte c = true ↔ Utf8.Continuation c :=
  forall_byte (P := fun c => utf8CheckRestByte c = true ↔ Utf8.Continuation c)
    (by decide +kernel) c

section

variable {s : Str} {len i : Nat}

/-- The text that is checked. -/
def checkedText (s : Str) (len : Nat) : Str := cstr (s.take len)

theorem checkedText_prefix (s : Str) (len : Nat) : checkedText s len <+: s :=
  (List.takeWhile_prefix _).trans (List.take_prefix len s)

theorem getD_checkedText (h : i < (checkedText s len).length) :
    s.getD i nul = (checkedText s len)[i] := by
  have hpre := checkedText_prefix s len
  rw [List.getD_eq_getElem _ _ (Nat.lt_of_lt_of_le h hpre.length_le)]
  exact (hpre.getElem h).symm

/-- The check sees the end where the text ends. -/
theorem utf8AtEnd_iff (h : i ≤ (checkedText s len).length) :
    utf8AtEnd s len i = true ↔ i = (checkedText s len).length := by
  have hlen : (checkedText s len).length ≤ len :=
    Nat.le_trans (List.takeWhile_prefix _).length_le (List.length_take_le len s)
  rw [utf8AtEnd, Bool.or_eq_true, beq_iff_eq, beq_iff_eq]
  constructor
  · intro hend
    by_contra hne
    have hi : i < (checkedText s len).length := Nat.lt_of_le_of_ne h hne
    rcases hend with hnul | hi'
    · rw [getD_checkedText hi] at hnul
      have hmem := List.mem_takeWhile_imp (List.getElem_mem hi)
      rw [hnul] at hmem
      exact absurd hmem (by decide)
    · omega
  · rintro rfl
    have hsplit : checkedText s len ++ (s.take len).dropWhile (· != nul) = s.take len :=
      List.takeWhile_append_dropWhile
    have hstop := List.head?_dropWhile_not (· != nul) (s.take len)
    revert hsplit hstop
    generalize checkedText s len = t at hlen
    cases (s.take len).dropWhile (· != nul) with
    | nil =>
        intro hsplit _
        rw [List.append_nil] at hsplit
        rw [hsplit, List.length_take]
        rcases Nat.le_total len s.length with hle | hle
        · exact Or.inr (Nat.min_eq_left hle)
        · rw [Nat.min_eq_right hle, List.getD_eq_default _ _ (Nat.le_refl _)]
          exact Or.inl rfl
    | cons c rest =>
        intro hsplit hstop
        refine Or.inl ?_
        have hs : s = t ++ (c :: rest ++ s.drop len) := by
          rw [← List.append_assoc, hsplit, List.take_append_drop]
        rw [hs, List.getD_append_right _ _ _ _ (Nat.le_refl _), Nat.sub_self]
        simpa using hstop

/-- The bytes behind a lead byte. -/
theorem utf8CheckRestBytes_iff : ∀ (num : Nat) {i : Nat}, i ≤ (checkedText s len).length →
    (utf8CheckRestBytes s len i num = true ↔ num ≤ ((checkedText s len).drop i).length ∧
      ∀ d ∈ ((checkedText s len).drop i).take num, Utf8.Continuation d)
  | 0, _, _ => by simp [utf8CheckRestBytes]
  | num + 1, i, h => by
      rw [utf8CheckRestBytes]
      by_cases hend : utf8AtEnd s len i = true
      · rw [if_pos hend, (utf8AtEnd_iff h).mp hend, List.drop_length]
        simp
      · have hi : i < (checkedText s len).length :=
          Nat.lt_of_le_of_ne h fun he => hend ((utf8AtEnd_iff h).mpr he)
        have ih := utf8CheckRestBytes_iff num (Nat.succ_le_of_lt hi)
        rw [if_neg hend, List.drop_eq_getElem_cons hi, List.take_succ_cons, List.forall_mem_cons,
          List.length_cons, Nat.succ_le_succ_iff, ← utf8CheckRestByte_iff, ← getD_checkedText hi]
        cases utf8CheckRestByte (s.getD i nul) with
        | false => simp
        | true => simpa using ih

/-- The check ends, and says whether the rest of the text has the form. -/
theorem utf8Loop_iff : ∀ (n : Nat) {i : Nat}, i ≤ (checkedText s len).length →
    (checkedText s len).length < i + n →
    ∃ b, utf8Loop s len n i = some b ∧ (b = true ↔ Utf8.Formed ((checkedText s len).drop i))
  | 0, _, h, hn => absurd hn (Nat.not_lt.mpr h)
  | n + 1, i, h, hn => by
      rw [utf8Loop]
      by_cases hend : utf8AtEnd s len i = true
      · refine ⟨true, if_pos hend, fun _ => ?_, fun _ => rfl⟩
        rw [(utf8AtEnd_iff h).mp hend, List.drop_length]
        exact Utf8.formed_nil
      · have hi : i < (checkedText s len).length :=
          Nat.lt_of_le_of_ne h fun he => hend ((utf8AtEnd_iff h).mpr he)
        rw [if_neg hend, utf8CheckStart_eq, List.drop_eq_getElem_cons hi, Utf8.formed_cons,
          ← getD_checkedText hi]
        cases Utf8.announced (s.getD i nul) with
        | none =>
            refine ⟨false, rfl, iff_of_false Bool.false_ne_true ?_⟩
            rintro ⟨_, h, -⟩
            cases h
        | some m =>
            rw [Option.map_some]
            dsimp only
            rw [Nat.add_sub_cancel]
            have hrest := utf8CheckRestBytes_iff m (Nat.succ_le_of_lt hi)
            by_cases hok : utf8CheckRestBytes s len (i + 1) m = true
            · obtain ⟨hm, hcont⟩ := hrest.mp hok
              rw [List.length_drop] at hm
              have hnext : i + 1 + m ≤ (checkedText s len).length := by omega
              obtain ⟨b, hb, hform⟩ := utf8Loop_iff n hnext (by omega)
              refine ⟨b, ?_, hform.trans ?_⟩
              · rw [hok]
                exact hb
              · rw [← List.drop_drop]
                constructor
                · exact fun h => ⟨m, rfl, hrest.mp hok, h⟩
                · rintro ⟨k, hk, -, h⟩
                  cases hk
                  exact h
            · refine ⟨false, ?_, iff_of_false Bool.false_ne_true ?_⟩
              · rw [Bool.not_eq_true] at hok
                rw [hok]
                rfl
              rintro ⟨k, hk, hbytes, -⟩
              cases hk
              exact absurd (hrest.mpr hbytes) hok

end

/-- The check says yes just where the text up to its length or a NUL is made of
lead bytes and the continuation bytes they announce. -/
theorem charsetIsValidUtf8_iff (s : Str) (len : Nat) : ∃ b, charsetIsValidUtf8 s len = some b ∧
    (b = true ↔ Utf8.Formed (cstr (s.take len))) := by
  have hlen : (checkedText s len).length ≤ len :=
    Nat.le_trans (List.takeWhile_prefix _).length_le (List.length_take_le len s)
  exact utf8Loop_iff (len + 1) (Nat.zero_le _) (by omega)

end Fidogate

/-
# `Fidogate.Lib.Crc` — a shift register with feedback

A register of `w` bits is shifted to the right, and where a one falls out the
polynomial is added.  Adding is exclusive or, so the register is linear; with
the highest bit of the polynomial set it loses nothing.  So bits that are fed
to it one by one leave different states, where they differ only in a piece
that is not longer than the register.
-/
import Mathlib.Algebra.Order.Ring.Nat
import Mathlib.Data.List.Basic
import Mathlib.Logic.Function.Iterate

namespace Crc

variable {w : ℕ} (poly : BitVec w)

/-- One shift. -/
def shift (c : BitVec w) : BitVec w :=
  if c.getLsbD 0 then (c >>> 1) ^^^ poly else c >>> 1

/-- A bit at the low end of a register. -/
def low (w : ℕ) (b : Bool) : BitVec w := (BitVec.ofBool b).setWidth w

/-- One bit is fed. -/
def feed (c : BitVec w) (b : Bool) : BitVec w := shift poly (c ^^^ low w b)

/-- Bits are fed one after the other. -/
def feeds (c : BitVec w) (bs : List Bool) : BitVec w := bs.foldl (feed poly) c

/-- Bits side by side, the first one lowest. -/
def word (w : ℕ) : List Bool → BitVec w
  | [] => 0
  | b :: bs => low w b ^^^ (word w bs <<< 1)

theorem getLsbD_low (b : Bool) {i : ℕ} (hi : i < w) : (low w b).getLsbD i = (b && i == 0) := by
  rw [low, BitVec.getLsbD_setWidth, BitVec.getLsbD_ofBool]
  cases i <;> simp [hi]

theorem getLsbD_word : ∀ (bs : List Bool) {i : ℕ}, i < w →
    (word w bs).getLsbD i = bs.getD i false
  | [], i, _ => by rw [word]; simp
  | b :: bs, 0, h => by
      rw [word, BitVec.getLsbD_xor, getLsbD_low b h]
      simp
  | b :: bs, i + 1, h => by
      rw [word, BitVec.getLsbD_xor, getLsbD_low b h, BitVec.getLsbD_shiftLeft,
        Nat.add_sub_cancel, getLsbD_word bs (Nat.lt_of_succ_lt h)]
      simp [h]

theorem shift_xor (a b : BitVec w) : shift poly (a ^^^ b) = shift poly a ^^^ shift poly b := by
  unfold shift
  rw [BitVec.getLsbD_xor, BitVec.ushiftRight_xor_distrib]
  cases a.getLsbD 0 <;> cases b.getLsbD 0
  · rfl
  · simp only [Bool.false_xor, Bool.false_eq_true, if_true, if_false, BitVec.xor_assoc]
  · simp only [Bool.xor_false, Bool.false_eq_true, if_true, if_false]
    rw [BitVec.xor_assoc, BitVec.xor_assoc, BitVec.xor_comm (b >>> 1)]
  · simp only [Bool.xor_self, Bool.false_eq_true, if_true, if_false]
    rw [BitVec.xor_assoc, ← BitVec.xor_assoc poly, BitVec.xor_comm poly, BitVec.xor_assoc (b >>> 1),
      BitVec.xor_self, BitVec.xor_zero]

theorem iterate_shift_xor (n : ℕ) (a b : BitVec w) :
    (shift poly)^[n] (a ^^^ b) = (shift poly)^[n] a ^^^ (shift poly)^[n] b := by
  induction n generalizing a b with
  | zero => rfl
  | succ n ih => rw [Function.iterate_succ_apply, shift_xor, ih, ← Function.iterate_succ_apply,
      ← Function.iterate_succ_apply]

/-- Where no one falls out, the register is only shifted. -/
theorem shift_shiftLeft {x : BitVec w} (h : x.getLsbD (w - 1) = false) :
    shift poly (x <<< 1) = x := by
  have hlow : (x <<< 1).getLsbD 0 = false := by simp
  rw [shift, hlow, if_neg Bool.false_ne_true]
  refine BitVec.eq_of_getLsbD_eq fun i hi => ?_
  rw [BitVec.getLsbD_ushiftRight, BitVec.getLsbD_shiftLeft]
  by_cases hlast : 1 + i < w
  · simp [hlast]
  · have : i = w - 1 := by omega
    rw [this, h]
    simp [show ¬ 1 + (w - 1) < w by omega]

/-- Shifting back what was shifted up. -/
theorem iterate_shift_shiftLeft : ∀ (n : ℕ) {x : BitVec w},
    (∀ i, w ≤ i + n → x.getLsbD i = false) → (shift poly)^[n] (x <<< n) = x
  | 0, x, _ => by rw [BitVec.shiftLeft_zero]; rfl
  | n + 1, x, h => by
      have hhigh : (x <<< n).getLsbD (w - 1) = false := by
        rw [BitVec.getLsbD_shiftLeft, h _ (by omega), Bool.and_false]
      rw [BitVec.shiftLeft_add, Function.iterate_succ_apply, shift_shiftLeft poly hhigh]
      exact iterate_shift_shiftLeft n fun i hi => h i (by omega)

/-- `n` shifts at once: the low `n` bits leave what a table has for them, and
the others move down. -/
theorem iterate_shift_split (n : ℕ) (x : BitVec w) :
    (shift poly)^[n] x = (shift poly)^[n] ((x.setWidth n).setWidth w) ^^^ (x >>> n) := by
  have hx : x = (x.setWidth n).setWidth w ^^^ ((x >>> n) <<< n) := by
    refine BitVec.eq_of_getLsbD_eq fun i hi => ?_
    rw [BitVec.getLsbD_xor, BitVec.getLsbD_setWidth, BitVec.getLsbD_setWidth,
      BitVec.getLsbD_shiftLeft, BitVec.getLsbD_ushiftRight]
    by_cases hn : i < n
    · simp [hi, hn]
    · simp [hi, hn, Nat.add_sub_cancel' (Nat.not_lt.mp hn)]
  have hback : (shift poly)^[n] ((x >>> n) <<< n) = x >>> n := by
    refine iterate_shift_shiftLeft poly n fun i hi => ?_
    rw [BitVec.getLsbD_ushiftRight, BitVec.getLsbD_of_ge x _ (by omega)]
  calc (shift poly)^[n] x
      = (shift poly)^[n] ((x.setWidth n).setWidth w ^^^ ((x >>> n) <<< n)) := by rw [← hx]
    _ = (shift poly)^[n] ((x.setWidth n).setWidth w) ^^^ (x >>> n) := by
        rw [iterate_shift_xor, hback]

/-- Bits that are not more than the register are fed as one word. -/
theorem feeds_eq : ∀ {bs : List Bool} (c : BitVec w), bs.length ≤ w →
    feeds poly c bs = (shift poly)^[bs.length] (c ^^^ word w bs)
  | [], c, _ => by
      rw [word]
      exact (BitVec.xor_zero).symm
  | b :: bs, c, h => by
      rw [List.length_cons] at h
      have hhigh : (word w bs).getLsbD (w - 1) = false := by
        rw [getLsbD_word bs (by omega), List.getD_eq_getElem?_getD,
          List.getElem?_eq_none (by omega), Option.getD_none]
      have ih : feeds poly (feed poly c b) bs =
          (shift poly)^[bs.length] (feed poly c b ^^^ word w bs) :=
        feeds_eq (feed poly c b) (by omega)
      rw [show feeds poly c (b :: bs) = feeds poly (feed poly c b) bs from rfl, ih, word,
        List.length_cons, Function.iterate_succ_apply, ← BitVec.xor_assoc, shift_xor,
        shift_shiftLeft poly hhigh]
      rfl

section Injective

variable {poly} (hw : 0 < w) (hpoly : poly.getLsbD (w - 1) = true)

include hw hpoly

theorem shift_injective : Function.Injective (shift poly) := by
  have hzero : ∀ x : BitVec w, shift poly x = 0 → x = 0 := by
    intro x hx
    have hlow : x.getLsbD 0 = false := by
      by_contra hone
      rw [Bool.not_eq_false] at hone
      rw [shift, if_pos hone] at hx
      have := congrArg (BitVec.getLsbD · (w - 1)) hx
      simp only [BitVec.getLsbD_xor, BitVec.getLsbD_ushiftRight, hpoly] at this
      rw [BitVec.getLsbD_of_ge x _ (by omega)] at this
      simp at this
    rw [shift, hlow, if_neg Bool.false_ne_true] at hx
    refine BitVec.eq_of_getLsbD_eq fun i hi => ?_
    cases i with
    | zero => rw [hlow]; simp
    | succ i =>
        have := congrArg (BitVec.getLsbD · i) hx
        simp only [BitVec.getLsbD_ushiftRight] at this
        rw [Nat.add_comm, this]
        simp
  intro a b hab
  have hx := hzero (a ^^^ b) (by rw [shift_xor, hab, BitVec.xor_self]; rfl)
  exact BitVec.xor_eq_zero_iff.mp hx

theorem feed_injective (b : Bool) : Function.Injective fun c => feed poly c b := by
  intro c d h
  have := shift_injective hw hpoly h
  exact (BitVec.xor_left_inj _).mp this

theorem feeds_injective (bs : List Bool) : Function.Injective fun c => feeds poly c bs := by
  induction bs with
  | nil => exact fun c d h => h
  | cons b bs ih => exact fun c d h => feed_injective hw hpoly b (ih h)

/-- A piece that is not longer than the register is not taken for another one,
whatever is in front of it and behind it. -/
theorem feeds_burst {front back bs es : List Bool} (hlen : bs.length = es.length)
    (hle : bs.length ≤ w) (hne : bs ≠ es) (c : BitVec w) :
    feeds poly c (front ++ bs ++ back) ≠ feeds poly c (front ++ es ++ back) := by
  intro h
  rw [feeds, feeds, List.foldl_append, List.foldl_append, List.foldl_append (l := front ++ es)] at h
  rw [List.foldl_append] at h
  have hpiece := feeds_injective hw hpoly back h
  have hword : feeds poly (front.foldl (feed poly) c) bs = feeds poly (front.foldl (feed poly) c) es :=
    hpiece
  rw [feeds_eq poly _ hle, feeds_eq poly _ (hlen ▸ hle), hlen] at hword
  have hxor := (shift_injective hw hpoly).iterate _ hword
  have heq : word w bs = word w es := (BitVec.xor_right_inj _).mp hxor
  refine hne (List.ext_getElem hlen fun i hi hi' => ?_)
  have := congrArg (BitVec.getLsbD · i) heq
  simp only [getLsbD_word _ (hi.trans_le hle), List.getD_eq_getElem?_getD,
    List.getElem?_eq_getElem hi, List.getElem?_eq_getElem hi', Option.getD_some] at this
  exact this

end Injective

end Crc

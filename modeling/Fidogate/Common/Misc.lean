/-
# `Fidogate.Common.Misc` — misc.c: the bounded string helpers

`str_append`, `str_append2` and `str_copy2` to `str_copy5` on a destination of
`n` bytes.  The loops stop at `n` bytes and the terminator goes behind what they
have stored, so that a text of `n` bytes or more has it written behind the
destination.  `str_append` takes its room through an `int`.
-/
import Fidogate.Lib.Buffer

namespace Fidogate

open Bytes Buffer

/-! ## The helpers -/

/-- `for (p = s; *p && i < n; p++, i++) d[i] = *p;`: the destination and `i`; an `int` that
would pass its largest value has no outcome. -/
def copyLoop (n : Nat) : Str → Str → Nat → Option (Str × Nat)
  | [], d, i => some (d, i)
  | c :: p, d, i =>
      if i < n then
        (write d i c).bind fun d => if i < INT_MAX then copyLoop n p d (i + 1) else none
      else some (d, i)

/-- `d[i++] = 0;` -/
def endString (d : Str) (i : Nat) : Option Str :=
  (write d i nul).bind fun d => if i < INT_MAX then some d else none

/-- A size kept in an `int` and used as an index; a negative one is outside. -/
def intIndex (x : Nat) : Option Nat :=
  if x % 2 ^ 32 ≤ INT_MAX then some (x % 2 ^ 32) else none

/-- A size kept in an `int` and handed on as a size: a negative one is a large size. -/
def intSize (x : Nat) : Nat :=
  if x % 2 ^ 32 ≤ INT_MAX then x % 2 ^ 32 else x % 2 ^ 32 + (2 ^ 64 - 2 ^ 32)

/-- `strlen` of what is in a buffer. -/
def bufLen (d : Str) : Option Nat := if nul ∈ d then some (cstr d).length else none

/-- `str_append` -/
def strAppend (d : Str) (n : Nat) (s : Str) : Option Str := do
  let len ← bufLen d
  let max := intSize (n - len - 1)
  let d ← writes d len (s.take max ++ [nul])
  write d (n - 1) nul

/-- `str_append2` -/
def strAppend2 (d : Str) (n : Nat) (s1 s2 : Str) : Option Str := do
  let len ← bufLen d
  let sz ← intIndex len
  let (d, sz) ← copyLoop n s1 d sz
  let (d, sz) ← copyLoop n s2 d sz
  endString d sz

/-- `str_copy2` -/
def strCopy2 (d : Str) (n : Nat) (s1 s2 : Str) : Option Str := do
  let (d, i) ← copyLoop n s1 d 0
  let (d, i) ← copyLoop n s2 d i
  endString d i

/-- `str_copy3` -/
def strCopy3 (d : Str) (n : Nat) (s1 s2 s3 : Str) : Option Str := do
  let (d, i) ← copyLoop n s1 d 0
  let (d, i) ← copyLoop n s2 d i
  let (d, i) ← copyLoop n s3 d i
  endString d i

/-- `str_copy4` -/
def strCopy4 (d : Str) (n : Nat) (s1 s2 s3 s4 : Str) : Option Str := do
  let (d, i) ← copyLoop n s1 d 0
  let (d, i) ← copyLoop n s2 d i
  let (d, i) ← copyLoop n s3 d i
  let (d, i) ← copyLoop n s4 d i
  endString d i

/-- `str_copy5` -/
def strCopy5 (d : Str) (n : Nat) (s1 s2 s3 s4 s5 : Str) : Option Str := do
  let (d, i) ← copyLoop n s1 d 0
  let (d, i) ← copyLoop n s2 d i
  let (d, i) ← copyLoop n s3 d i
  let (d, i) ← copyLoop n s4 d i
  let (d, i) ← copyLoop n s5 d i
  endString d i

/-! ## The loops are one -/

theorem copyLoop_full {n i : Nat} (h : n ≤ i) (p d : Str) : copyLoop n p d i = some (d, i) := by
  cases p with
  | nil => rfl
  | cons c p => rw [copyLoop, if_neg (Nat.not_lt.mpr h)]

/-- The next loop goes on where one ended, also where that one was full. -/
theorem copyLoop_append (n : Nat) : ∀ (p q d : Str) (i : Nat),
    copyLoop n (p ++ q) d i = (copyLoop n p d i).bind fun r => copyLoop n q r.1 r.2
  | [], _, _, _ => rfl
  | c :: p, q, d, i => by
      rw [List.cons_append, copyLoop, copyLoop]
      by_cases hi : i < n
      · rw [if_pos hi, if_pos hi, Option.bind_assoc]
        congr 1
        funext d
        split
        · exact copyLoop_append n p q d (i + 1)
        · rfl
      · rw [if_neg hi, if_neg hi]
        exact (copyLoop_full (Nat.not_lt.mp hi) q d).symm

/-- All loops and the terminator, from a place on. -/
def copyFrom (d : Str) (n i : Nat) (t : Str) : Option Str :=
  (copyLoop n t d i).bind fun r => endString r.1 r.2

theorem strCopy2_eq (d : Str) (n : Nat) (s1 s2 : Str) :
    strCopy2 d n s1 s2 = copyFrom d n 0 [s1, s2].flatten := by
  simp only [copyFrom, List.flatten_cons, copyLoop_append, Option.bind_assoc]
  rfl

theorem strCopy3_eq (d : Str) (n : Nat) (s1 s2 s3 : Str) :
    strCopy3 d n s1 s2 s3 = copyFrom d n 0 [s1, s2, s3].flatten := by
  simp only [copyFrom, List.flatten_cons, copyLoop_append, Option.bind_assoc]
  rfl

theorem strCopy4_eq (d : Str) (n : Nat) (s1 s2 s3 s4 : Str) :
    strCopy4 d n s1 s2 s3 s4 = copyFrom d n 0 [s1, s2, s3, s4].flatten := by
  simp only [copyFrom, List.flatten_cons, copyLoop_append, Option.bind_assoc]
  rfl

theorem strCopy5_eq (d : Str) (n : Nat) (s1 s2 s3 s4 s5 : Str) :
    strCopy5 d n s1 s2 s3 s4 s5 = copyFrom d n 0 [s1, s2, s3, s4, s5].flatten := by
  simp only [copyFrom, List.flatten_cons, copyLoop_append, Option.bind_assoc]
  rfl

theorem strAppend2_eq (d : Str) (n : Nat) (s1 s2 : Str) :
    strAppend2 d n s1 s2 =
      (bufLen d).bind fun len => (intIndex len).bind fun sz =>
        copyFrom d n sz [s1, s2].flatten := by
  simp only [copyFrom, List.flatten_cons, copyLoop_append, Option.bind_assoc]
  rfl

/-! ## What the loops leave -/

/-- Where the text fits, it stands in the destination and `i` behind it. -/
theorem copyLoop_fits (n : Nat) : ∀ (p done gone rest : Str), gone.length = p.length →
    done.length + p.length ≤ n → done.length + p.length ≤ INT_MAX →
    copyLoop n p (done ++ gone ++ rest) done.length =
      some (done ++ p ++ rest, done.length + p.length)
  | [], done, gone, rest, hg, _, _ => by
      obtain rfl := List.length_eq_zero_iff.mp hg
      rfl
  | c :: p, done, [], rest, hg, _, _ => absurd hg (by simp)
  | c :: p, done, o :: gone, rest, hg, hn, hi => by
      rw [List.length_cons] at hn hi
      have hdone : (done ++ [c]).length = done.length + 1 := List.length_append
      have ih := copyLoop_fits n p (done ++ [c]) gone rest (Nat.succ.inj hg) (by omega) (by omega)
      rw [hdone, List.append_assoc, List.append_assoc, List.append_assoc] at ih
      rw [copyLoop, if_pos (by omega), List.append_assoc, List.cons_append, write_append,
        Option.bind_some, if_pos (by omega)]
      rw [show done ++ c :: (gone ++ rest) = done ++ ([c] ++ (gone ++ rest)) from rfl, ih]
      simp only [List.append_assoc, List.length_cons, Option.some.injEq, Prod.mk.injEq,
        List.cons_append, List.nil_append, true_and]
      omega

/-- A loop that ends below `n` has stored its whole text. -/
theorem copyLoop_index {n : Nat} : ∀ {p d d' : Str} {i i' : Nat},
    copyLoop n p d i = some (d', i') → i' < n → i' = i + p.length
  | [], d, d', i, i', h, _ => by
      cases h
      rfl
  | c :: p, d, d', i, i', h, hlt => by
      rw [copyLoop] at h
      split at h
      · obtain ⟨d1, _, h1⟩ := Option.bind_eq_some_iff.mp h
        split at h1
        · have := copyLoop_index h1 hlt
          rw [List.length_cons]
          omega
        · cases h1
      · cases h
        contradiction

theorem length_copyLoop {n : Nat} : ∀ {p d d' : Str} {i i' : Nat},
    copyLoop n p d i = some (d', i') → d'.length = d.length
  | [], d, d', i, i', h => by
      cases h
      rfl
  | c :: p, d, d', i, i', h => by
      rw [copyLoop] at h
      split at h
      · obtain ⟨d1, hw, h1⟩ := Option.bind_eq_some_iff.mp h
        split at h1
        · exact (length_copyLoop h1).trans (length_write hw)
        · cases h1
      · cases h
        rfl

theorem length_cstr_le : ∀ a b : Str, (cstr (a ++ nul :: b)).length ≤ a.length
  | [], _ => Nat.le_refl _
  | c :: a, b => by
      by_cases hc : c = nul
      · rw [hc, List.cons_append, cstr_nul_cons]
        exact Nat.zero_le _
      · rw [List.cons_append, cstr_cons hc]
        exact Nat.succ_le_succ (length_cstr_le a b)

/-- The string ends at the terminator or before it. -/
theorem of_endString {d d' : Str} {i : Nat} (h : endString d i = some d') :
    i < d.length ∧ i < INT_MAX ∧ (cstr d').length ≤ i := by
  obtain ⟨d1, hw, h1⟩ := Option.bind_eq_some_iff.mp h
  rw [write] at hw
  split at hw
  next hlt =>
    obtain rfl := Option.some.inj hw
    split at h1
    next hint =>
      obtain rfl := Option.some.inj h1
      refine ⟨hlt, hint, ?_⟩
      rw [List.set_eq_take_append_cons_drop, if_pos hlt]
      exact (length_cstr_le _ _).trans (List.length_take_le _ _)
    · cases h1
  · cases hw

/-- From a place on, the text is copied as it should be exactly where it leaves a byte of
the destination, and an `int` can count it. -/
theorem copyFrom_right_iff {d t : Str} {i : Nat} (hi : i ≤ d.length) (hd : nul ∉ d.take i)
    (ht : nul ∉ t) :
    (∃ d', copyFrom d d.length i t = some d' ∧
        cstr d' = (d.take i ++ t).take (d.length - 1)) ↔
      i + t.length < d.length ∧ i + t.length < INT_MAX := by
  have hlen : (d.take i).length = i := by rw [List.length_take, Nat.min_eq_left hi]
  constructor
  · rintro ⟨d', h, -⟩
    obtain ⟨⟨d1, i1⟩, hl, he⟩ := Option.bind_eq_some_iff.mp h
    obtain ⟨h1, h2, -⟩ := of_endString he
    rw [length_copyLoop hl] at h1
    obtain rfl := copyLoop_index hl h1
    exact ⟨h1, h2⟩
  · rintro ⟨hn, hint⟩
    obtain ⟨o, old, ho⟩ := List.exists_cons_of_ne_nil
      (l := d.drop (i + t.length)) (by rw [Ne, List.drop_eq_nil_iff]; omega)
    have hsplit : d.take i ++ (d.drop i).take t.length ++ o :: old = d := by
      rw [← ho, ← List.drop_drop, List.append_assoc, List.take_append_drop,
        List.take_append_drop]
    have hgone : ((d.drop i).take t.length).length = t.length := by
      rw [List.length_take, List.length_drop]
      omega
    have hloop := copyLoop_fits d.length t (d.take i) ((d.drop i).take t.length) (o :: old) hgone
      (by omega) (by omega)
    rw [hsplit, hlen] at hloop
    have hend : endString (d.take i ++ t ++ o :: old) (i + t.length) =
        some (d.take i ++ t ++ nul :: old) := by
      have hat : i + t.length = (d.take i ++ t).length := by rw [List.length_append, hlen]
      rw [endString, hat, write_append, Option.bind_some, if_pos (by omega)]
    refine ⟨_, by rw [copyFrom, hloop, Option.bind_some]; exact hend, ?_⟩
    have hfit : (d.take i ++ t).length ≤ d.length - 1 := by
      rw [List.length_append, hlen]
      omega
    rw [cstr_append_nul (by simp [hd, ht]), List.take_of_length_le hfit]

/-! ## Appending -/

theorem exists_cstr_append {d : Str} (h : nul ∈ d) : ∃ old, d = cstr d ++ nul :: old := by
  obtain ⟨a, old, rfl, ha⟩ := List.eq_append_cons_of_mem h
  exact ⟨old, by rw [cstr_append_nul ha]⟩

/-- What `str_append` stores when the room lets `m` bytes through. -/
def appendMax (d : Str) (m : Nat) (s : Str) : Option Str :=
  (writes d (cstr d).length (s.take m ++ [nul])).bind fun b => write b (d.length - 1) nul

theorem strAppend_eq {d : Str} (h : nul ∈ d) (s : Str) :
    strAppend d d.length s = appendMax d (intSize (d.length - (cstr d).length - 1)) s := by
  simp only [strAppend, bufLen, if_pos h, Option.bind_eq_bind, Option.bind_some]
  rfl

theorem writes_append_cons {done x rest b : Str} {c : UInt8}
    (h : writes (done ++ rest) done.length (x ++ [c]) = some b) :
    done.length + x.length < (done ++ rest).length ∧ b = done ++ x ++ c :: rest.drop (x.length + 1)
    := by
  rw [writes] at h
  split at h
  next hle =>
    obtain rfl := Option.some.inj h
    rw [@List.length_append _ x, List.length_singleton] at hle ⊢
    refine ⟨by omega, ?_⟩
    rw [List.take_left, List.drop_length_add_append]
    simp
  · cases h

/-- The NUL in the last place changes nothing of a string that ends before it or there. -/
theorem cstr_write_last {s old : Str} {i : Nat} (hs : nul ∉ s) (hle : s.length ≤ i)
    (hi : i < (s ++ nul :: old).length) :
    ∃ b, write (s ++ nul :: old) i nul = some b ∧ cstr b = s := by
  obtain ⟨b, hb, -⟩ := exists_write hi nul
  refine ⟨b, hb, ?_⟩
  rcases Nat.eq_or_lt_of_le hle with rfl | hlt
  · rw [write_append] at hb
    obtain rfl := Option.some.inj hb
    exact cstr_append_nul hs old
  · exact cstr_write_behind hs hlt hb

/-- Where the destination has a byte left behind them, the bytes let through are stored. -/
theorem appendMax_fits {d s : Str} {m : Nat} (hd : nul ∈ d) (hs : nul ∉ s)
    (hfit : (cstr d).length + min m s.length < d.length) :
    ∃ d', appendMax d m s = some d' ∧ cstr d' = cstr d ++ s.take m := by
  obtain ⟨old, hold⟩ := exists_cstr_append hd
  have hk : (s.take m).length = min m s.length := List.length_take
  have hnul : nul ∉ cstr d ++ s.take m := by
    rw [List.mem_append]
    exact not_or_intro (nul_notMem_cstr d) fun h => hs (List.mem_of_mem_take h)
  obtain ⟨b, hw, hbl⟩ := exists_writes (b := d) (i := (cstr d).length) (s := s.take m ++ [nul])
    (by rw [List.length_append, hk, List.length_singleton]; omega)
  have hw' : writes (cstr d ++ nul :: old) (cstr d).length (s.take m ++ [nul]) = some b := by
    rwa [← hold]
  obtain ⟨-, rfl⟩ := writes_append_cons hw'
  obtain ⟨d', hd', hs'⟩ := cstr_write_last (i := d.length - 1) hnul
    (by rw [List.length_append]; omega) (by rw [hbl]; omega)
  exact ⟨d', by rw [appendMax, hw, Option.bind_some, hd'], hs'⟩

theorem appendMax_room {d s d' : Str} {m : Nat} (h : appendMax d m s = some d') :
    (cstr d).length + min m s.length < d.length := by
  obtain ⟨b, hw, -⟩ := Option.bind_eq_some_iff.mp h
  rw [writes] at hw
  split at hw
  next hle =>
    rw [List.length_append, List.length_take, List.length_singleton] at hle
    omega
  · cases hw

/-- `str_append` does what it should exactly where the `int` lets as much through as there is
room for. -/
theorem strAppend_right_iff {d s : Str} (hd : nul ∈ d) (hs : nul ∉ s) :
    (∃ d', strAppend d d.length s = some d' ∧
        cstr d' = (cstr d ++ s).take (d.length - 1)) ↔
      min (intSize (d.length - (cstr d).length - 1)) s.length =
        min (d.length - (cstr d).length - 1) s.length := by
  have hlt : (cstr d).length < d.length := by
    obtain ⟨old, hold⟩ := exists_cstr_append hd
    rw [hold, cstr_append_nul (nul_notMem_cstr d), List.length_append, List.length_cons]
    omega
  have hcut : (cstr d ++ s).take (d.length - 1) =
      cstr d ++ s.take (d.length - (cstr d).length - 1) := by
    rw [← List.take_length_add_append]
    congr 1
    omega
  rw [strAppend_eq hd, hcut]
  constructor
  · rintro ⟨d', h, he⟩
    obtain ⟨b, hb, hs'⟩ := appendMax_fits hd hs (appendMax_room h)
    rw [h] at hb
    obtain rfl := Option.some.inj hb
    rw [he] at hs'
    exact (List.take_eq_take_iff.mp (List.append_cancel_left hs')).symm
  · intro h
    obtain ⟨d', hd', hs'⟩ := appendMax_fits hd hs (by rw [h]; omega)
    exact ⟨d', hd', by rw [hs', List.take_eq_take_iff.mpr h]⟩

/-! ## Every call -/

/-- A call of one of the helpers. -/
inductive StrCall
  | append (s : Str)
  | append2 (s1 s2 : Str)
  | copy2 (s1 s2 : Str)
  | copy3 (s1 s2 s3 : Str)
  | copy4 (s1 s2 s3 s4 : Str)
  | copy5 (s1 s2 s3 s4 s5 : Str)

namespace StrCall

/-- The call on a destination of `n` bytes. -/
def run (d : Str) (n : Nat) : StrCall → Option Str
  | append s => strAppend d n s
  | append2 s1 s2 => strAppend2 d n s1 s2
  | copy2 s1 s2 => strCopy2 d n s1 s2
  | copy3 s1 s2 s3 => strCopy3 d n s1 s2 s3
  | copy4 s1 s2 s3 s4 => strCopy4 d n s1 s2 s3 s4
  | copy5 s1 s2 s3 s4 s5 => strCopy5 d n s1 s2 s3 s4 s5

def sources : StrCall → List Str
  | append s => [s]
  | append2 s1 s2 => [s1, s2]
  | copy2 s1 s2 => [s1, s2]
  | copy3 s1 s2 s3 => [s1, s2, s3]
  | copy4 s1 s2 s3 s4 => [s1, s2, s3, s4]
  | copy5 s1 s2 s3 s4 s5 => [s1, s2, s3, s4, s5]

def isAppend : StrCall → Bool
  | append _ => true
  | append2 _ _ => true
  | _ => false

/-- The concatenation the call is for. -/
def intended (d : Str) (c : StrCall) : Str :=
  (if c.isAppend then cstr d else []) ++ c.sources.flatten

/-- All writes are inside, and the string is what fits of the concatenation. -/
def Right (d : Str) (c : StrCall) : Prop :=
  ∃ d', c.run d d.length = some d' ∧ cstr d' = (c.intended d).take (d.length - 1)

/-- The room for what `str_append` adds, as an `int` and back. -/
def RoomCounted (room len : Nat) : Prop :=
  room ≤ INT_MAX ∨ len ≤ room % 2 ^ 32 ∨ INT_MAX < room % 2 ^ 32 ∧ len ≤ room ∨
    2 ^ 64 - 2 ^ 31 ≤ room

/-- Where a call does what it should. -/
def Fits (d : Str) : StrCall → Prop
  | append s => nul ∈ d ∧ RoomCounted (d.length - (cstr d).length - 1) s.length
  | c => (c.isAppend = true → nul ∈ d) ∧ (c.intended d).length < d.length ∧
      (c.intended d).length < INT_MAX

theorem roomCounted_iff {room len : Nat} (h : room < 2 ^ 64) :
    min (intSize room) len = min room len ↔ RoomCounted room len := by
  unfold RoomCounted intSize INT_MAX
  split <;> omega

/-- A copy of its sources from the first byte on. -/
theorem right_copy_iff {d : Str} {c : StrCall} (hc : c.isAppend = false)
    (hrun : c.run d d.length = copyFrom d d.length 0 c.sources.flatten)
    (hs : nul ∉ c.sources.flatten) :
    c.Right d ↔ (c.isAppend = true → nul ∈ d) ∧ (c.intended d).length < d.length ∧
      (c.intended d).length < INT_MAX := by
  have h := copyFrom_right_iff (d := d) (Nat.zero_le _) (List.not_mem_nil) hs
  rw [List.take_zero, Nat.zero_add] at h
  have hin : c.intended d = [] ++ c.sources.flatten := by
    rw [intended, hc]
    rfl
  rw [Right, hrun, hin, List.nil_append, hc]
  exact h.trans (and_iff_right fun h => absurd h (by decide)).symm

/-- An index that is not the length, but what an `int` has of it, counts no text that long. -/
theorem append2_iff {d t : Str} (hd : nul ∈ d) (ht : nul ∉ t) :
    (∃ d', ((intIndex (cstr d).length).bind fun sz => copyFrom d d.length sz t) = some d' ∧
        cstr d' = (cstr d ++ t).take (d.length - 1)) ↔
      (cstr d ++ t).length < d.length ∧ (cstr d ++ t).length < INT_MAX := by
  obtain ⟨old, hold⟩ := exists_cstr_append hd
  have htake : d.take (cstr d).length = cstr d := by
    conv_lhs => rw [hold, cstr_append_nul (nul_notMem_cstr d), List.take_left]
  have hle : (cstr d).length < d.length := by
    rw [hold, cstr_append_nul (nul_notMem_cstr d), List.length_append, List.length_cons]
    omega
  rw [List.length_append]
  by_cases hint : (cstr d).length ≤ INT_MAX
  · have hsmall : (cstr d).length % 2 ^ 32 = (cstr d).length :=
      Nat.mod_eq_of_lt (hint.trans_lt (by decide))
    have h := copyFrom_right_iff hle.le (by rw [htake]; exact nul_notMem_cstr d) ht
    rw [htake] at h
    rw [intIndex, hsmall, if_pos hint, Option.bind_some, h]
  · refine iff_of_false ?_ (by omega)
    rintro ⟨d', h, he⟩
    obtain ⟨sz, -, h⟩ := Option.bind_eq_some_iff.mp h
    obtain ⟨r, -, h⟩ := Option.bind_eq_some_iff.mp h
    obtain ⟨-, h1, h2⟩ := of_endString h
    rw [he, List.length_take, List.length_append] at h2
    omega

theorem nul_notMem_flatten {ss : List Str} (h : ∀ s ∈ ss, nul ∉ s) : nul ∉ ss.flatten := by
  intro hm
  obtain ⟨s, hs, hc⟩ := List.mem_flatten.mp hm
  exact h s hs hc

/-- A text of as many bytes as the destination has leaves none for the terminator. -/
theorem copy2_full :
    ¬ ∀ (d : Str) (c : StrCall), nul ∈ d → (∀ s ∈ c.sources, nul ∉ s) → c.Right d := by
  intro h
  obtain ⟨d', hd', -⟩ := h [120, nul] (copy2 (lit "a") (lit "b")) (by decide) (by decide)
  have hnone : (copy2 (lit "a") (lit "b")).run [120, nul] 2 = none := by decide
  exact nomatch hnone.symm.trans hd'

/-- A call does what it should exactly where the text leaves a byte for the terminator and an
`int` can count it; `str_append` where the `int` has its room. -/
theorem strCall_right_iff (d : Str) (hd : d.length < 2 ^ 64) (c : StrCall)
    (hs : ∀ s ∈ c.sources, nul ∉ s) : c.Right d ↔ c.Fits d := by
  have ht := nul_notMem_flatten hs
  cases c with
  | append s =>
    by_cases hnul : nul ∈ d
    · have h := (strAppend_right_iff hnul (hs s (List.mem_singleton_self s))).trans
        (roomCounted_iff (by omega))
      have hin : (append s).intended d = cstr d ++ s := congrArg (cstr d ++ ·) (List.append_nil s)
      rw [Right, hin]
      exact h.trans (and_iff_right hnul).symm
    · refine iff_of_false ?_ fun h => hnul h.1
      rintro ⟨d', h, -⟩
      simp [run, strAppend, bufLen, hnul] at h
  | append2 s1 s2 =>
    by_cases hnul : nul ∈ d
    · have hrun : run d d.length (append2 s1 s2) =
          (intIndex (cstr d).length).bind fun sz => copyFrom d d.length sz [s1, s2].flatten := by
        rw [run, strAppend2_eq, bufLen, if_pos hnul, Option.bind_some]
      rw [Right, hrun]
      exact (append2_iff hnul ht).trans (and_iff_right fun _ => hnul).symm
    · refine iff_of_false ?_ fun h => hnul (h.1 rfl)
      rintro ⟨d', h, -⟩
      simp [run, strAppend2, bufLen, hnul] at h
  | copy2 s1 s2 => exact right_copy_iff rfl (strCopy2_eq d d.length s1 s2) ht
  | copy3 s1 s2 s3 => exact right_copy_iff rfl (strCopy3_eq d d.length s1 s2 s3) ht
  | copy4 s1 s2 s3 s4 => exact right_copy_iff rfl (strCopy4_eq d d.length s1 s2 s3 s4) ht
  | copy5 s1 s2 s3 s4 s5 => exact right_copy_iff rfl (strCopy5_eq d d.length s1 s2 s3 s4 s5) ht

/-- The terminator is written behind a text that fills the buffer. -/
example : strCopy2 (lit "wxyz") 4 (lit "ab") (lit "cd") = none := by
  decide +kernel

theorem right_copy3 : (copy3 (lit "a") (lit "b") (lit "c")).Right (lit "wxyz") :=
  (strCall_right_iff (lit "wxyz") (by decide) (copy3 (lit "a") (lit "b") (lit "c")) (by decide)).mpr
    ⟨fun h => absurd h (by decide), by decide, by decide⟩

end StrCall

end Fidogate

/-
# `Fidogate.Lib.Bytes` — byte strings as a C program sees them

A C string is the list of its bytes before the terminating NUL, so the
functions below never meet a NUL inside their argument unless a caller put
one there.  Character classes are those of the "C" locale: a byte from 128
up is never a digit, a letter or white space.
-/
import Mathlib.Algebra.Order.Ring.Int
import Mathlib.Data.List.Basic
import Mathlib.Tactic.Common

namespace Bytes

/-- A string of bytes. -/
abbrev Str := List UInt8

/-- By name, for what decides whether a string is in a list. -/
instance : LawfulBEq Str := inferInstanceAs (LawfulBEq (List UInt8))

/-- The bytes of a literal. -/
def lit (s : String) : Str := s.toList.map Char.toUInt8

/-! ## Named bytes -/

abbrev nul : UInt8 := 0
abbrev soh : UInt8 := 1
abbrev stx : UInt8 := 2
abbrev tab : UInt8 := 9
abbrev lf : UInt8 := 10
abbrev cr : UInt8 := 13
abbrev sp : UInt8 := 32
abbrev dquote : UInt8 := 34
abbrev backslash : UInt8 := 92

/-! ## Character classes -/

/-- SPACE, TAB, CR, LF. -/
def isSpace (c : UInt8) : Bool := c == sp || c == tab || c == cr || c == lf

def isDigit (c : UInt8) : Bool := 48 ≤ c && c ≤ 57

def isUpper (c : UInt8) : Bool := 65 ≤ c && c ≤ 90

def isLower (c : UInt8) : Bool := 97 ≤ c && c ≤ 122

def isAlpha (c : UInt8) : Bool := isUpper c || isLower c

def toLower (c : UInt8) : UInt8 := if isUpper c then c + 32 else c

def toUpper (c : UInt8) : UInt8 := if isLower c then c - 32 else c

/-- Equality of strings ignoring case. -/
def strieq (a b : Str) : Bool := a.map toLower == b.map toLower

/-- `p` is a prefix of `s`. -/
def hasPrefix (p s : Str) : Bool := p.isPrefixOf s

/-- `p` is a prefix of `s`, ignoring case. -/
def hasPrefixI (p s : Str) : Bool := (p.map toLower).isPrefixOf (s.map toLower)

theorem hasPrefix_iff {p s : Str} : hasPrefix p s = true ↔ ∃ t, p ++ t = s :=
  List.isPrefixOf_iff_prefix

/-- A statement about a byte is one about the numbers below 256. -/
theorem forall_byte {P : UInt8 → Prop} (h : ∀ n : Fin 256, P (UInt8.ofFin n)) (c : UInt8) : P c :=
  h c.toFin

/-- A statement about the bytes of a text is checked byte by byte. -/
theorem forall_mem_of_all {P : UInt8 → Prop} [DecidablePred P] {s : Str}
    (h : (s.all fun c => decide (P c)) = true) : ∀ c ∈ s, P c := by
  intro c hc
  exact of_decide_eq_true (List.all_eq_true.mp h c hc)

/-! ## Letter case -/

theorem takeWhile_not_mem {c : UInt8} {a : Str} (ha : c ∉ a) (b : Str) :
    (a ++ c :: b).takeWhile (· != c) = a ∧ (a ++ c :: b).dropWhile (· != c) = c :: b := by
  have hall : ∀ d ∈ a, (d != c) = true := fun d hd => bne_iff_ne.mpr fun h => ha (h ▸ hd)
  rw [List.takeWhile_append_of_pos hall, List.dropWhile_append_of_pos hall,
    List.takeWhile_cons_of_neg (by simp), List.dropWhile_cons_of_neg (by simp), List.append_nil]
  exact ⟨rfl, rfl⟩

theorem strieq_iff {a b : Str} : strieq a b = true ↔ a.map toLower = b.map toLower :=
  beq_iff_eq

theorem strieq_length {a b : Str} (h : strieq a b = true) : a.length = b.length := by
  simpa using congrArg List.length (strieq_iff.mp h)

theorem strieq_trans {a b c : Str} (h1 : strieq a b = true) (h2 : strieq b c = true) :
    strieq a c = true :=
  strieq_iff.mpr ((strieq_iff.mp h1).trans (strieq_iff.mp h2))

theorem strieq_symm {a b : Str} (h : strieq a b = true) : strieq b a = true :=
  strieq_iff.mpr (strieq_iff.mp h).symm

theorem strieq_refl (a : Str) : strieq a a = true := strieq_iff.mpr rfl

theorem strieq_comm (a b : Str) : strieq a b = strieq b a := Bool.beq_comm

theorem strieq_append {a b c d : Str} (h1 : strieq a b = true) (h2 : strieq c d = true) :
    strieq (a ++ c) (b ++ d) = true := by
  rw [strieq_iff] at *
  rw [List.map_append, List.map_append, h1, h2]

theorem hasPrefixI_iff {p s : Str} : hasPrefixI p s = true ↔ strieq (s.take p.length) p = true := by
  rw [hasPrefixI, List.isPrefixOf_iff_prefix, List.prefix_iff_eq_take, strieq_iff,
    List.length_map, ← List.map_take]
  exact eq_comm

theorem hasPrefixI_length {p s : Str} (h : hasPrefixI p s = true) : p.length ≤ s.length := by
  have := strieq_length (hasPrefixI_iff.mp h)
  rw [List.length_take] at this
  omega

theorem hasPrefixI_congr {p s t : Str} (h : strieq s t = true) :
    hasPrefixI p s = hasPrefixI p t := by
  rw [hasPrefixI, hasPrefixI, strieq_iff.mp h]

/-- A byte that is no letter has no other case. -/
theorem toLower_eq_of_not_alpha {c d : UInt8} (hc : isAlpha c = false)
    (h : toLower d = toLower c) : d = c := by
  have key : ∀ c : UInt8, (isAlpha c = false → toLower c = c) ∧
      (isAlpha c = true → isAlpha (toLower c) = true) :=
    forall_byte (by decide +kernel)
  have hcc := (key c).1 hc
  cases hd : isAlpha d with
  | false => rw [← (key d).1 hd, h, hcc]
  | true =>
      have := (key d).2 hd
      rw [h, hcc, hc] at this
      exact absurd this (by simp)

/-- The last change of case is the one that counts. -/
theorem letterCase (c : UInt8) : toLower (toUpper c) = toLower c ∧
    toUpper (toLower c) = toUpper c ∧ toLower (toLower c) = toLower c :=
  forall_byte (P := fun c => toLower (toUpper c) = toLower c ∧ toUpper (toLower c) = toUpper c ∧
    toLower (toLower c) = toLower c) (by decide +kernel) c

theorem toLower_toUpper (c : UInt8) : toLower (toUpper c) = toLower c := (letterCase c).1

theorem toUpper_toLower (c : UInt8) : toUpper (toLower c) = toUpper c := (letterCase c).2.1

theorem toLower_toLower (c : UInt8) : toLower (toLower c) = toLower c := (letterCase c).2.2

/-- Names are the same in one case where they are in the other. -/
theorem strieq_iff_upper {a b : Str} : strieq a b = true ↔ a.map toUpper = b.map toUpper := by
  rw [strieq_iff]
  have key : ∀ {f g : UInt8 → UInt8}, (∀ c, f (g c) = f c) →
      a.map g = b.map g → a.map f = b.map f := by
    intro f g hfg h
    have h := congrArg (List.map f) h
    rwa [List.map_map, List.map_map, show f ∘ g = f from funext hfg] at h
  exact ⟨key toUpper_toLower, key toLower_toUpper⟩

/-! ## Decimal numbers -/

/-- The decimal digits of `n`, as `%d` prints them. -/
def putDec (n : Nat) : Str := (Nat.toDigits 10 n).map Char.toUInt8

/-- The value `val * 10 + digit ...` of a run of digits. -/
def getDec (val : Nat) (ds : Str) : Nat :=
  ds.foldl (fun v c => v * 10 + (c.toNat - 48)) val

theorem toUInt8_toNat_of_isDigit {c : Char} (h : c.isDigit = true) :
    c.toUInt8.toNat = c.toNat := by
  have hc : c.toNat ≤ 57 := by
    simp only [Char.isDigit, Bool.and_eq_true, decide_eq_true_eq, ge_iff_le] at h
    exact UInt32.le_iff_toNat_le.mp h.2
  show c.val.toUInt8.toNat = c.val.toNat
  rw [UInt32.toNat_toUInt8]
  have : c.val.toNat ≤ 57 := hc
  omega

theorem isDigit_toUInt8 {c : Char} (h : c.isDigit = true) : isDigit c.toUInt8 = true := by
  have hn := toUInt8_toNat_of_isDigit h
  simp only [Char.isDigit, Bool.and_eq_true, decide_eq_true_eq, ge_iff_le] at h
  have h1 : 48 ≤ c.toNat := UInt32.le_iff_toNat_le.mp h.1
  have h2 : c.toNat ≤ 57 := UInt32.le_iff_toNat_le.mp h.2
  simp only [isDigit, Bool.and_eq_true, decide_eq_true_eq, UInt8.le_iff_toNat_le]
  rw [hn]
  exact ⟨h1, h2⟩

theorem isDigit_of_mem_putDec {n : Nat} {c : UInt8} (h : c ∈ putDec n) : isDigit c = true := by
  obtain ⟨d, hd, rfl⟩ := List.mem_map.mp h
  exact isDigit_toUInt8 (Nat.isDigit_of_mem_toDigits (by decide) (by decide) hd)

theorem putDec_ne_nil (n : Nat) : putDec n ≠ [] := by
  simp [putDec, Nat.toDigits_ne_nil]

theorem getDec_map_toUInt8 : ∀ (ds : List Char) (v : Nat), (∀ c ∈ ds, c.isDigit = true) →
    getDec v (ds.map Char.toUInt8) = Nat.ofDigitChars 10 ds v
  | [], v, _ => by simp [getDec, Nat.ofDigitChars_nil]
  | c :: ds, v, h => by
      have hc := toUInt8_toNat_of_isDigit (h c List.mem_cons_self)
      have ih := getDec_map_toUInt8 ds (v * 10 + (c.toNat - 48))
        (fun d hd => h d (List.mem_cons_of_mem _ hd))
      rw [Nat.ofDigitChars_cons, Nat.mul_comm 10 v]
      simpa [getDec, hc] using ih

/-- Reading the printed number gives the number. -/
theorem getDec_putDec (n : Nat) : getDec 0 (putDec n) = n := by
  rw [putDec, getDec_map_toUInt8]
  · exact Nat.ofDigitChars_ten_toDigits
  · exact fun c hc => Nat.isDigit_of_mem_toDigits (by decide) (by decide) hc

theorem length_putDec_le_iff {n k : Nat} (hk : 0 < k) : (putDec n).length ≤ k ↔ n < 10 ^ k := by
  rw [putDec, List.length_map, Nat.length_toDigits_le_iff (by decide) hk]

theorem getDec_lt : ∀ {ds : Str} (v : Nat), (∀ c ∈ ds, isDigit c = true) →
    getDec v ds < (v + 1) * 10 ^ ds.length
  | [], v, _ => by simp [getDec]
  | c :: ds, v, h => by
      have hc : c.toNat - 48 ≤ 9 := by
        have key : ∀ c : UInt8, isDigit c = true → c.toNat - 48 ≤ 9 :=
          forall_byte (by decide +kernel)
        exact key c (h c List.mem_cons_self)
      have ih := getDec_lt (v * 10 + (c.toNat - 48)) fun d hd => h d (List.mem_cons_of_mem c hd)
      calc getDec v (c :: ds) = getDec (v * 10 + (c.toNat - 48)) ds := rfl
        _ < (v * 10 + (c.toNat - 48) + 1) * 10 ^ ds.length := ih
        _ ≤ ((v + 1) * 10) * 10 ^ ds.length := Nat.mul_le_mul_right _ (by omega)
        _ = (v + 1) * 10 ^ (c :: ds).length := by
            rw [List.length_cons, Nat.pow_succ, Nat.mul_assoc, Nat.mul_comm 10]

theorem length_putDec_le {m n : Nat} (h : m ≤ n) : (putDec m).length ≤ (putDec n).length := by
  have hpos : 0 < (putDec n).length := List.length_pos_iff.mpr (putDec_ne_nil n)
  rw [length_putDec_le_iff hpos]
  exact Nat.lt_of_le_of_lt h ((length_putDec_le_iff hpos).mp (Nat.le_refl _))

/-- `%d`. -/
def putInt (n : Int) : Str := if n < 0 then 45 :: putDec n.natAbs else putDec n.natAbs

/-- `%0wd`. -/
def putIntZ (w : Nat) (n : Int) : Str :=
  if n < 0 then
    45 :: (List.replicate (w - 1 - (putDec n.natAbs).length) 48 ++ putDec n.natAbs)
  else List.replicate (w - (putDec n.natAbs).length) 48 ++ putDec n.natAbs

theorem getDec_replicate_zero : ∀ (k : Nat) (ds : Str),
    getDec 0 (List.replicate k 48 ++ ds) = getDec 0 ds
  | 0, _ => rfl
  | k + 1, ds => getDec_replicate_zero k ds

theorem getDec_putIntZ (w n : Nat) : getDec 0 (putIntZ w n) = n := by
  rw [putIntZ, if_neg (by omega), getDec_replicate_zero, Int.natAbs_natCast, getDec_putDec]

/-- `%wd`. -/
def putIntW (w : Nat) (n : Int) : Str :=
  List.replicate (w - (putInt n).length) sp ++ putInt n

/-! ## Buffers

A fixed `char[]` keeps what was in it behind the place where a new string
ends, and a reader that stops early leaves its bytes without a terminator.
`b` is the whole array as far as it was ever written; everything behind it is
zero. -/

/-- The string that starts at the beginning of the buffer. -/
def cstr (b : Str) : Str := b.takeWhile (· != nul)

/-- Overwrite the front of the buffer. -/
def overwrite (b p : Str) : Str := p ++ b.drop p.length

/-- Overwrite the front of the buffer and terminate the string. -/
def store (b p : Str) : Str := overwrite b (p ++ [nul])

theorem cstr_store {b p : Str} (h : nul ∉ p) : cstr (store b p) = p := by
  have hp : ∀ c ∈ p, (c != nul) = true := fun c hc =>
    bne_iff_ne.mpr (fun e => h (e ▸ hc))
  simp only [cstr, store, overwrite, List.append_assoc, List.singleton_append]
  rw [List.takeWhile_append_of_pos hp]
  simp

end Bytes

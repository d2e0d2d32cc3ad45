/-
# `Fidogate.Common.Hex` — crc32.c, and hexadecimal numbers

The CRC of a text, and numbers printed with `%lx` and read with `sscanf`.
-/
import Fidogate.Common.Strtok

namespace Fidogate

open Bytes

/-! ## The checksum -/

/-- One bit of the CRC. -/
def crcBit (c : UInt32) : UInt32 := if c &&& 1 == 1 then (c >>> 1) ^^^ 0xEDB88320 else c >>> 1

/-- `crc32_compute`, the table worked out bit by bit. -/
def crc32Compute (crc : UInt32) (s : Str) : UInt32 :=
  s.foldl (fun crc c => (crcBit ∘ crcBit ∘ crcBit ∘ crcBit ∘ crcBit ∘ crcBit ∘ crcBit ∘ crcBit)
    (crc ^^^ c.toUInt32)) crc

/-- `%08lx`. -/
def putHex8 (n : UInt32) : Str :=
  let ds := (Nat.toDigits 16 n.toNat).map Char.toUInt8
  List.replicate (8 - ds.length) 48 ++ ds

/-! ## Hexadecimal numbers -/

/-- The value of a hexadecimal digit. -/
def hexDigit (c : UInt8) : Option Nat :=
  if isDigit c then some (c.toNat - 48)
  else if 65 ≤ c ∧ c ≤ 70 then some (c.toNat - 55)
  else if 97 ≤ c ∧ c ≤ 102 then some (c.toNat - 87)
  else none

/-- The value of hexadecimal digits behind `v`. -/
def getHex (v : Nat) (ds : Str) : Nat := ds.foldl (fun v c => v * 16 + (hexDigit c).getD 0) v

/-- Without the `0x`, which counts if a digit follows. -/
def skip0x : Str → Str
  | 48 :: x :: d :: s =>
      if (x == 120 || x == 88) && (hexDigit d).isSome then d :: s else 48 :: x :: d :: s
  | s => s

/-- `%lx` of `sscanf` behind the sign. -/
def scanHexDigits (s : Str) : Option Nat :=
  match (skip0x s).takeWhile fun c => (hexDigit c).isSome with
  | [] => none
  | ds => some (min (getHex 0 ds) (2 ^ 64 - 1))

/-- `%lx` of `sscanf`; no value where it stores none. -/
def scanHex (s : Str) : Option Nat :=
  match s.dropWhile (fun c => isSpace c || c == 11 || c == 12) with
  | 45 :: s => (scanHexDigits s).map fun v => (2 ^ 64 - v) % 2 ^ 64
  | 43 :: s => scanHexDigits s
  | s => scanHexDigits s

theorem getHex_append (v : Nat) (ds es : Str) : getHex v (ds ++ es) = getHex (getHex v ds) es :=
  List.foldl_append

theorem hexDigit_digitChar {d : Nat} (h : d < 16) :
    hexDigit (toUpper d.digitChar.toUInt8) = some d := by
  have key : ∀ d < 16, hexDigit (toUpper (Nat.digitChar d).toUInt8) = some d := by decide +kernel
  exact key d h

theorem hexDigit_toUpper (c : UInt8) : hexDigit (toUpper c) = hexDigit c :=
  forall_byte (P := fun c => hexDigit (toUpper c) = hexDigit c) (by decide +kernel) c

theorem getHex_toUpper : ∀ (ds : Str) (v : Nat), getHex v (ds.map toUpper) = getHex v ds
  | [], _ => rfl
  | c :: ds, v => by
      have ih := getHex_toUpper ds (v * 16 + (hexDigit c).getD 0)
      rwa [List.map_cons, getHex, List.foldl_cons, hexDigit_toUpper, ← getHex]

/-- The digits of a number in capital letters. -/
def hexText (n : Nat) : Str := (Nat.toDigits 16 n).map fun c => toUpper c.toUInt8

theorem hexText_of_le {n : Nat} (h : 16 ≤ n) :
    hexText n = hexText (n / 16) ++ [toUpper (Nat.digitChar (n % 16)).toUInt8] := by
  rw [hexText, Nat.toDigits_of_base_le (by decide) h, List.map_append]
  rfl

theorem hexText_of_lt {n : Nat} (h : n < 16) : hexText n = [toUpper n.digitChar.toUInt8] := by
  rw [hexText, Nat.toDigits_of_lt_base h]
  rfl

theorem getHex_hexText (n : Nat) : getHex 0 (hexText n) = n ∧
    ∀ c ∈ hexText n, (hexDigit c).isSome = true := by
  induction n using Nat.strongRecOn with
  | ind n ih =>
      rcases Nat.lt_or_ge n 16 with h | h
      · rw [hexText_of_lt h]
        refine ⟨?_, fun c hc => ?_⟩
        · rw [getHex, List.foldl_cons, List.foldl_nil, hexDigit_digitChar h]
          simp
        · rw [List.mem_singleton.mp hc, hexDigit_digitChar h]
          rfl
      · obtain ⟨hv, hds⟩ := ih (n / 16) (by omega)
        have hd : n % 16 < 16 := Nat.mod_lt n (by decide)
        rw [hexText_of_le h]
        refine ⟨?_, fun c hc => ?_⟩
        · rw [getHex_append, hv, getHex, List.foldl_cons, List.foldl_nil, hexDigit_digitChar hd,
            Option.getD_some]
          omega
        · rcases List.mem_append.mp hc with hc | hc
          · exact hds c hc
          · rw [List.mem_singleton.mp hc, hexDigit_digitChar hd]
            rfl

theorem hexDigit_plain {c : UInt8} (h : (hexDigit c).isSome = true) :
    (isSpace c || c == 11 || c == 12) = false ∧ c ≠ 45 ∧ c ≠ 43 ∧ c ≠ 120 ∧ c ≠ 88 ∧ c ≠ nul := by
  have key : ∀ c : UInt8, (hexDigit c).isSome = true →
      (isSpace c || c == 11 || c == 12) = false ∧ c ≠ 45 ∧ c ≠ 43 ∧ c ≠ 120 ∧ c ≠ 88 ∧ c ≠ nul :=
    forall_byte (by decide +kernel)
  exact key c h

/-- `%08lX`. -/
def putHexU8 (n : Nat) : Str :=
  let ds := (Nat.toDigits 16 n).map fun c => toUpper c.toUInt8
  List.replicate (8 - ds.length) 48 ++ ds

theorem getHex_replicate_zero (k : Nat) (ds : Str) :
    getHex 0 (List.replicate k 48 ++ ds) = getHex 0 ds := by
  induction k with
  | zero => rfl
  | succ k ih => exact ih

theorem hexDigit_putHexU8 {n : Nat} : ∀ c ∈ putHexU8 n, (hexDigit c).isSome = true := by
  intro c hc
  rcases List.mem_append.mp hc with hc | hc
  · rw [List.eq_of_mem_replicate hc]
    rfl
  · exact (getHex_hexText n).2 c hc

theorem skip0x_of_digits : ∀ {ds : Str}, (∀ c ∈ ds, (hexDigit c).isSome = true) → skip0x ds = ds
  | [], _ => rfl
  | [_], _ => by unfold skip0x; split <;> simp_all
  | c :: x :: ds, h => by
      obtain ⟨-, -, -, h120, h88, -⟩ :=
        hexDigit_plain (h x (List.mem_cons_of_mem _ List.mem_cons_self))
      unfold skip0x
      split
      · next x' d s' heq =>
          obtain ⟨rfl, rfl, rfl⟩ : c = 48 ∧ x = x' ∧ ds = d :: s' := by simpa using heq
          rw [beq_eq_false_iff_ne.mpr h120, beq_eq_false_iff_ne.mpr h88]
          rfl
      · rfl

/-- The printed number is read back. -/
theorem scanHex_putHexU8 {n : Nat} (h : n < 2 ^ 64) : scanHex (putHexU8 n) = some n := by
  have hds := @hexDigit_putHexU8 n
  have hv : getHex 0 (putHexU8 n) = n := by
    rw [putHexU8, getHex_replicate_zero]
    exact (getHex_hexText n).1
  have hne : putHexU8 n ≠ [] := by
    rw [putHexU8]
    simp [Nat.toDigits_ne_nil]
  generalize putHexU8 n = ds at hds hv hne
  have hdigits : scanHexDigits ds = some n := by
    rw [scanHexDigits, skip0x_of_digits hds, List.takeWhile_eq_self_iff.mpr hds]
    cases ds with
    | nil => exact absurd rfl hne
    | cons c ds =>
        dsimp only
        rw [hv, Nat.min_eq_left (by omega)]
  cases ds with
  | nil => exact absurd rfl hne
  | cons c ds =>
      obtain ⟨hspace, h45, h43, -⟩ := hexDigit_plain (hds c List.mem_cons_self)
      rw [scanHex, List.dropWhile_cons_of_neg (by rw [hspace]; decide)]
      split
      · next heq => exact absurd (List.cons.inj heq).1 h45
      · next heq => exact absurd (List.cons.inj heq).1 h43
      · exact hdigits

end Fidogate

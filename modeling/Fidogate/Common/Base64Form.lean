/-
# `Fidogate.Common.Base64Form` — mime.c: which texts are base64

`mime_b64_decode` in its buffer, and what it takes for base64.  Padding is one
more digit to the decoder: it is refused only where a digit follows it in the
last two places of a group.
-/
import Fidogate.Common.MimeBase64

namespace Fidogate

open Bytes

/-! ## From a buffer -/

/-- The value of the next character; reading from `len` on has no outcome. -/
def b64Next (src : Str) (len i : Nat) (k : Nat → Option (Option Str)) : Option (Option Str) :=
  if len ≤ i then none
  else
    match src[i]? with
    | none => none
    | some c =>
        match mimeB64toint c with
        | none => some none
        | some v => k v

/-- The loop of `mime_b64_decode`, with what is in front of `d`; `none` too if
the rounds do not suffice. -/
def mimeB64DecodeLoop (src : Str) (len : Nat) : Nat → Nat → Str → Option (Option Str)
  | 0, _, _ => none
  | n + 1, i, d =>
      if len ≤ i then some (some d)
      else
        b64Next src len i fun v1 => b64Next src len (i + 1) fun v2 =>
        b64Next src len (i + 2) fun v3 => b64Next src len (i + 3) fun v4 =>
          let o1 := UInt8.ofNat (v1 <<< 2 ||| v2 >>> 4)
          let o2 := UInt8.ofNat ((v2 <<< 4) &&& 0xf0 ||| v3 >>> 2)
          let o3 := UInt8.ofNat ((v3 <<< 6) &&& 0xc0 ||| v4)
          if v3 < 0x40 then
            if v4 < 0x40 then mimeB64DecodeLoop src len n (i + 4) (d ++ [o1, o2, o3])
            else mimeB64DecodeLoop src len n (i + 4) (d ++ [o1, o2])
          else if v4 < 0x40 then some none
          else mimeB64DecodeLoop src len n (i + 4) (d ++ [o1])

/-- `mime_b64_decode`; `some none` is its error. -/
def mimeB64DecodeBuf (src : Str) (len : Nat) : Option (Option Str) :=
  if len % 4 ≠ 0 then some none else mimeB64DecodeLoop src len (len / 4 + 1) 0 []

theorem b64Next_eq {src : Str} {len i : Nat} {c : UInt8} {s : Str}
    (h : (src.take len).drop i = c :: s) (k : Nat → Option (Option Str)) :
    b64Next src len i k = (match mimeB64toint c with | none => some none | some v => k v) := by
  have hat : (src.take len)[i]? = some c := by
    rw [← List.head?_drop, h]
    rfl
  rw [List.getElem?_take] at hat
  split at hat
  · next hi => rw [b64Next, if_neg (Nat.not_le.mpr hi), hat]
  · cases hat

theorem drop_succ_of_eq {l s : Str} {i : Nat} {c : UInt8} (h : l.drop i = c :: s) :
    l.drop (i + 1) = s := by
  rw [← List.tail_drop, h, List.tail_cons]

/-- The decoder stops, and has not read behind the text. -/
theorem mimeB64DecodeLoop_eq {src : Str} {len : Nat} (h : len ≤ src.length) : ∀ (n : Nat) {i : Nat}
    (d : Str), i ≤ len → (len - i) % 4 = 0 → len - i < 4 * n →
    mimeB64DecodeLoop src len n i d = some ((mimeB64Decode ((src.take len).drop i)).map (d ++ ·))
  | 0, _, _, _, _, hn => absurd hn (Nat.not_lt_zero _)
  | n + 1, i, d, hi, hmod, hn => by
      have hlen : ((src.take len).drop i).length = len - i := by
        rw [List.length_drop, List.length_take_of_le h]
      rw [mimeB64DecodeLoop]
      rcases Nat.eq_or_lt_of_le hi with rfl | hlt
      · rw [if_pos (Nat.le_refl i), List.drop_eq_nil_of_le (by rw [List.length_take_of_le h])]
        simp [mimeB64Decode]
      · rw [if_neg (Nat.not_le.mpr hlt)]
        rcases hs : (src.take len).drop i with _ | ⟨a, _ | ⟨b, _ | ⟨c, _ | ⟨e, s⟩⟩⟩⟩
        all_goals rw [hs] at hlen; simp only [List.length_cons, List.length_nil] at hlen
        · omega
        · omega
        · omega
        · omega
        · have hb := drop_succ_of_eq hs
          have hc := drop_succ_of_eq hb
          have he := drop_succ_of_eq hc
          have hnext := drop_succ_of_eq he
          have ih := fun o => mimeB64DecodeLoop_eq h n (i := i + 4) (d ++ o) (by omega)
            (by omega) (by omega)
          rw [hnext] at ih
          rw [b64Next_eq hs, mimeB64Decode]
          cases mimeB64toint a with
          | none => rfl
          | some v1 =>
          dsimp only
          rw [b64Next_eq hb]
          cases mimeB64toint b with
          | none => rfl
          | some v2 =>
          dsimp only
          rw [b64Next_eq hc]
          cases mimeB64toint c with
          | none => rfl
          | some v3 =>
          dsimp only
          rw [b64Next_eq he]
          cases mimeB64toint e with
          | none => rfl
          | some v4 =>
          simp only [Option.bind_eq_bind, Option.bind_some, ih]
          split
          · split <;> cases mimeB64Decode s <;> simp
          · split
            · rfl
            · cases mimeB64Decode s <;> simp

theorem length_of_mimeB64Decode : ∀ {s t : Str}, mimeB64Decode s = some t → s.length % 4 = 0
  | [], _, _ => rfl
  | [_], _, h => by cases h
  | [_, _], _, h => by cases h
  | [_, _, _], _, h => by cases h
  | a :: b :: c :: d :: s, t, h => by
      cases hs : mimeB64Decode s with
      | none =>
          simp [mimeB64Decode, hs] at h
      | some t' =>
          have ih := length_of_mimeB64Decode hs
          simp only [List.length_cons]
          omega

theorem mimeB64DecodeBuf_eq {src : Str} {len : Nat} (h : len ≤ src.length) :
    mimeB64DecodeBuf src len = some (mimeB64Decode (src.take len)) := by
  rw [mimeB64DecodeBuf]
  by_cases hmod : len % 4 = 0
  · rw [if_neg (not_not.mpr hmod), mimeB64DecodeLoop_eq h _ _ (Nat.zero_le _) hmod (by omega),
      List.drop_zero]
    cases mimeB64Decode (src.take len) <;> rfl
  · rw [if_pos hmod]
    cases hdec : mimeB64Decode (src.take len) with
    | none => rfl
    | some t =>
        have hlen := length_of_mimeB64Decode hdec
        rw [List.length_take_of_le h] at hlen
        exact absurd hlen hmod

/-! ## The form of base64 -/

/-- The alphabet. -/
def IsB64Digit (c : UInt8) : Prop := isAlpha c ∨ isDigit c ∨ c = 43 ∨ c = 47

instance (c : UInt8) : Decidable (IsB64Digit c) :=
  inferInstanceAs (Decidable (isAlpha c ∨ isDigit c ∨ c = 43 ∨ c = 47))

/-- Groups of four, with padding at the end of the last one only. -/
inductive Base64 : Str → Prop
  | nil : Base64 []
  | group {a b c d : UInt8} {s : Str} : IsB64Digit a → IsB64Digit b → IsB64Digit c →
      IsB64Digit d → Base64 s → Base64 (a :: b :: c :: d :: s)
  | pad {a b c : UInt8} : IsB64Digit a → IsB64Digit b → IsB64Digit c → Base64 [a, b, c, 61]
  | padTwo {a b : UInt8} : IsB64Digit a → IsB64Digit b → Base64 [a, b, 61, 61]

/-- The text is no sequence of groups of digits and padding, or a digit follows
padding in the last two places of a group. -/
def B64Refused : Str → Prop
  | [] => False
  | a :: b :: c :: d :: s =>
      (∃ e ∈ [a, b, c, d], ¬ IsB64Digit e ∧ e ≠ 61) ∨ (c = 61 ∧ d ≠ 61) ∨ B64Refused s
  | _ => True

/-- Padding stands in the first two places of a group, or in front of another
group, or for bits that are not zero. -/
def B64Loose : Str → Prop
  | a :: b :: c :: d :: s =>
      a = 61 ∨ b = 61 ∨ d = 61 ∧ (s ≠ [] ∨
        if c = 61 then (mimeB64toint b).getD 0 % 16 ≠ 0 else (mimeB64toint c).getD 0 % 4 ≠ 0) ∨
      B64Loose s
  | _ => False

instance decidableB64Loose : ∀ s : Str, Decidable (B64Loose s)
  | a :: b :: c :: d :: s =>
      have := decidableB64Loose s
      inferInstanceAs (Decidable (a = 61 ∨ b = 61 ∨ d = 61 ∧ (s ≠ [] ∨
        if c = 61 then (mimeB64toint b).getD 0 % 16 ≠ 0 else (mimeB64toint c).getD 0 % 4 ≠ 0) ∨
        B64Loose s))
  | [] | [_] | [_, _] | [_, _, _] => isFalse id

/-- A digit has a value below 64 and is the letter of it. -/
theorem digit_iff (c : UInt8) : IsB64Digit c ↔
    c ≠ 61 ∧ ∃ v : Fin 64, mimeB64toint c = some v.val ∧ mimeInttob64 v.val = c := by
  have key : IsB64Digit c ↔ c ≠ 61 ∧ ∃ v ∈ mimeB64toint c, v < 64 ∧ mimeInttob64 v = c :=
    forall_byte (P := fun c => IsB64Digit c ↔
      c ≠ 61 ∧ ∃ v ∈ mimeB64toint c, v < 64 ∧ mimeInttob64 v = c) (by decide +kernel) c
  rw [key]
  refine and_congr_right fun _ => ⟨?_, ?_⟩
  · rintro ⟨v, hv, hlt, hc⟩
    exact ⟨⟨v, hlt⟩, hv, hc⟩
  · rintro ⟨v, hv, hc⟩
    exact ⟨v.val, hv, v.isLt, hc⟩

theorem toint_none_iff (c : UInt8) : mimeB64toint c = none ↔ ¬ IsB64Digit c ∧ c ≠ 61 :=
  forall_byte (P := fun c => mimeB64toint c = none ↔ ¬ IsB64Digit c ∧ c ≠ 61)
    (by decide +kernel) c

theorem toint_lt_iff {c : UInt8} {v : Nat} (h : mimeB64toint c = some v) : v < 0x40 ↔ c ≠ 61 := by
  have key : ∀ c : UInt8, ∀ w ∈ mimeB64toint c, w < 0x40 ↔ c ≠ 61 := fun c =>
    forall_byte (P := fun c => ∀ w ∈ mimeB64toint c, w < 0x40 ↔ c ≠ 61) (by decide +kernel) c
  exact key c v h

/-- When a text is refused. -/
theorem b64Refused_iff : ∀ s : Str, B64Refused s ↔ mimeB64Decode s = none
  | [] => by simp [B64Refused, mimeB64Decode]
  | [_] => by simp [B64Refused, mimeB64Decode]
  | [_, _] => by simp [B64Refused, mimeB64Decode]
  | [_, _, _] => by simp [B64Refused, mimeB64Decode]
  | a :: b :: c :: d :: s => by
      have ih := b64Refused_iff s
      rw [B64Refused, mimeB64Decode, ih]
      simp only [← toint_none_iff, List.mem_cons, List.not_mem_nil, or_false, exists_eq_or_imp,
        exists_eq_left]
      cases mimeB64toint a with
      | none => simp
      | some v1 =>
      cases mimeB64toint b with
      | none => simp
      | some v2 =>
      cases hc : mimeB64toint c with
      | none => simp
      | some v3 =>
      cases hd : mimeB64toint d with
      | none => simp
      | some v4 =>
      simp only [Option.bind_eq_bind, Option.bind_some, toint_lt_iff hc, toint_lt_iff hd]
      by_cases hc : c = 61 <;> by_cases hd : d = 61 <;> cases mimeB64Decode s <;> simp [hc, hd]

/-! ## Back to the text -/

theorem mimeInttob64_and (a : Nat) : mimeInttob64 (a &&& 0x3f) = mimeInttob64 a := by
  rw [mimeInttob64, Nat.and_assoc, Nat.and_self]
  rfl

/-- The letters for three bytes, by the bits of two of them. -/
theorem letter_eq (a b : UInt8) :
    mimeInttob64 (a.toNat >>> 2) = mimeInttob64 (a.toNat / 4) ∧
      mimeInttob64 (a.toNat <<< 4 ||| b.toNat >>> 4) =
        mimeInttob64 (a.toNat % 4 * 16 + b.toNat / 16) ∧
      mimeInttob64 (a.toNat <<< 2 ||| b.toNat >>> 6) =
        mimeInttob64 (a.toNat % 16 * 4 + b.toNat / 64) ∧
      mimeInttob64 a.toNat = mimeInttob64 (a.toNat % 64) := by
  obtain ⟨h1, h2, h3, h4⟩ := sixBits a b
  refine ⟨?_, ?_, ?_, ?_⟩
  · rw [← mimeInttob64_and, h1]
  · rw [← mimeInttob64_and, h2]
  · rw [← mimeInttob64_and, h3]
  · rw [← mimeInttob64_and, h4]

section

variable {a b c : UInt8} {v1 v2 v3 v4 : Nat}

theorem encodeChunk_three (h2 : v2 < 64) (h3 : v3 < 64) (h4 : v4 < 64)
    (ha : a.toNat = v1 * 4 + v2 / 16) (hb : b.toNat = v2 % 16 * 16 + v3 / 4)
    (hc : c.toNat = v3 % 4 * 64 + v4) : mimeB64EncodeChunk [a, b, c] =
      [mimeInttob64 v1, mimeInttob64 v2, mimeInttob64 v3, mimeInttob64 v4] := by
  obtain ⟨l1, l2, -, -⟩ := letter_eq a b
  obtain ⟨-, -, l3, -⟩ := letter_eq b c
  obtain ⟨-, -, -, l4⟩ := letter_eq c c
  have e1 : a.toNat / 4 = v1 := by omega
  have e2 : a.toNat % 4 * 16 + b.toNat / 16 = v2 := by omega
  have e3 : b.toNat % 16 * 4 + c.toNat / 64 = v3 := by omega
  have e4 : c.toNat % 64 = v4 := by omega
  rw [mimeB64EncodeChunk, l1, l2, l3, l4, e1, e2, e3, e4]

theorem encodeChunk_two (h2 : v2 < 64) (h3 : v3 < 64) (hcut : v3 % 4 = 0)
    (ha : a.toNat = v1 * 4 + v2 / 16) (hb : b.toNat = v2 % 16 * 16 + v3 / 4) :
    mimeB64EncodeChunk [a, b] = [mimeInttob64 v1, mimeInttob64 v2, mimeInttob64 v3, 61] := by
  obtain ⟨l1, l2, -, -⟩ := letter_eq a b
  obtain ⟨-, -, l3, -⟩ := letter_eq b 0
  have e1 : a.toNat / 4 = v1 := by omega
  have e2 : a.toNat % 4 * 16 + b.toNat / 16 = v2 := by omega
  have e3 : b.toNat % 16 * 4 + (0 : UInt8).toNat / 64 = v3 := by
    rw [UInt8.toNat_zero]
    omega
  rw [e3] at l3
  have hzero : b.toNat <<< 2 ||| (0 : UInt8).toNat >>> 6 = b.toNat <<< 2 := Nat.or_zero _
  rw [mimeB64EncodeChunk, l1, l2, e1, e2, ← l3, hzero]

theorem encodeChunk_one (h2 : v2 < 64) (hcut : v2 % 16 = 0) (ha : a.toNat = v1 * 4 + v2 / 16) :
    mimeB64EncodeChunk [a] = [mimeInttob64 v1, mimeInttob64 v2, 61, 61] := by
  obtain ⟨l1, l2, -, -⟩ := letter_eq a 0
  have e1 : a.toNat / 4 = v1 := by omega
  have e2 : a.toNat % 4 * 16 + (0 : UInt8).toNat / 16 = v2 := by
    rw [UInt8.toNat_zero]
    omega
  rw [e2] at l2
  have hzero : a.toNat <<< 4 ||| (0 : UInt8).toNat >>> 4 = a.toNat <<< 4 := Nat.or_zero _
  rw [mimeB64EncodeChunk, l1, e1, ← l2, hzero]

end

/-- What is put together out of the values of digits. -/
theorem toNat_decoded {v w : Nat} (hv : v < 64) (hw : w < 64) :
    (UInt8.ofNat (v <<< 2 ||| w >>> 4)).toNat = v * 4 + w / 16 ∧
      (UInt8.ofNat ((v <<< 4) &&& 0xf0 ||| w >>> 2)).toNat = v % 16 * 16 + w / 4 ∧
      (UInt8.ofNat ((v <<< 6) &&& 0xc0 ||| w)).toNat = v % 4 * 64 + w := by
  obtain ⟨h1, h2, h3⟩ := eightBits hv hw
  rw [h1, h2, h3]
  simp only [UInt8.toNat_ofNat']
  omega

/-- A letter that is no padding has a value, and is the letter of it. -/
theorem letter_of_toint {c : UInt8} {v : Nat} (hv : mimeB64toint c = some v) (hc : c ≠ 61) :
    IsB64Digit c ∧ v < 64 ∧ mimeInttob64 v = c := by
  have hd : IsB64Digit c := by
    by_contra hd
    rw [(toint_none_iff c).mpr ⟨hd, hc⟩] at hv
    cases hv
  obtain ⟨-, w, hw, hlet⟩ := (digit_iff c).mp hd
  cases hv.symm.trans hw
  exact ⟨hd, w.isLt, hlet⟩

/-- What is accepted, and is not loose, is base64, and the codes of its bytes. -/
theorem codes_of_mimeB64Decode : ∀ {s t : Str}, mimeB64Decode s = some t → ¬ B64Loose s →
    Base64 s ∧ b64Codes t = s
  | [], _, h, _ => by
      cases h
      exact ⟨.nil, rfl⟩
  | [_], _, h, _ => by cases h
  | [_, _], _, h, _ => by cases h
  | [_, _, _], _, h, _ => by cases h
  | a :: b :: c :: d :: s, t, h, hl => by
      rw [B64Loose, not_or, not_or, not_or] at hl
      obtain ⟨ha, hb, hpad, hls⟩ := hl
      rw [mimeB64Decode] at h
      cases ha' : mimeB64toint a with
      | none => simp [ha'] at h
      | some v1 =>
      cases hb' : mimeB64toint b with
      | none => simp [ha', hb'] at h
      | some v2 =>
      cases hc' : mimeB64toint c with
      | none => simp [ha', hb', hc'] at h
      | some v3 =>
      cases hd' : mimeB64toint d with
      | none => simp [ha', hb', hc', hd'] at h
      | some v4 =>
      simp only [ha', hb', hc', hd', Option.bind_eq_bind, Option.bind_some, toint_lt_iff hc',
        toint_lt_iff hd'] at h
      obtain ⟨da, la, ea⟩ := letter_of_toint ha' ha
      obtain ⟨db, lb, eb⟩ := letter_of_toint hb' hb
      have o1 := (toNat_decoded la lb).1
      by_cases hd61 : d = 61
      · -- padding, so the group is the last one
        subst hd61
        rw [and_iff_right rfl, not_or, not_not] at hpad
        obtain ⟨rfl, hcut⟩ := hpad
        rw [mimeB64Decode] at h
        by_cases hc61 : c = 61
        · subst hc61
          rw [if_pos rfl, not_not, hb', Option.getD_some] at hcut
          rw [if_neg (not_not.mpr rfl), if_neg (not_not.mpr rfl), Option.bind_some] at h
          cases h
          rw [b64Codes_chunk (Nat.le_of_ble_eq_true rfl), encodeChunk_one lb hcut o1, ea, eb]
          exact ⟨.padTwo da db, rfl⟩
        · obtain ⟨dc, lc, ec⟩ := letter_of_toint hc' hc61
          rw [if_neg hc61, not_not, hc', Option.getD_some] at hcut
          rw [if_pos hc61, if_neg (not_not.mpr rfl), Option.bind_some] at h
          cases h
          rw [b64Codes_chunk (Nat.le_of_ble_eq_true rfl),
            encodeChunk_two lb lc hcut o1 (toNat_decoded lb lc).2.1, ea, eb, ec]
          exact ⟨.pad da db dc, rfl⟩
      · obtain ⟨dd, ld, ed⟩ := letter_of_toint hd' hd61
        by_cases hc61 : c = 61
        · simp [hc61, hd61] at h
        · obtain ⟨dc, lc, ec⟩ := letter_of_toint hc' hc61
          cases hs : mimeB64Decode s with
          | none => simp [hc61, hd61, hs] at h
          | some t' =>
              obtain ⟨hform, hcodes⟩ := codes_of_mimeB64Decode hs hls
              rw [if_pos hc61, if_pos hd61, hs, Option.bind_some] at h
              cases h
              rw [b64Codes, encodeChunk_three lb lc ld o1 (toNat_decoded lb lc).2.1
                (toNat_decoded lc ld).2.2, hcodes, ea, eb, ec, ed]
              exact ⟨.group da db dc dd hform, rfl⟩

theorem digit_of_inttob64 (a : Nat) : IsB64Digit (mimeInttob64 a) := by
  have key : ∀ v : Fin 64, IsB64Digit (mimeInttob64 v.val) := by decide +kernel
  rw [← mimeInttob64_and]
  exact key ⟨a &&& 0x3f, Nat.lt_of_le_of_lt Nat.and_le_right (by decide)⟩

theorem not_refused_of_base64 {s : Str} (h : Base64 s) : ¬ B64Refused s := by
  induction h with
  | nil => exact id
  | group ha hb hc hd _ ih =>
      rintro (⟨e, he, hno, -⟩ | ⟨rfl, -⟩ | hs)
      · simp only [List.mem_cons, List.not_mem_nil, or_false] at he
        rcases he with rfl | rfl | rfl | rfl <;> exact hno ‹_›
      · exact absurd hc (by decide)
      · exact ih hs
  | pad ha hb hc =>
      rintro (⟨e, he, hno, hpad⟩ | ⟨-, hd⟩ | hs)
      · simp only [List.mem_cons, List.not_mem_nil, or_false] at he
        rcases he with rfl | rfl | rfl | rfl
        · exact hno ha
        · exact hno hb
        · exact hno hc
        · exact hpad rfl
      · exact hd rfl
      · exact hs
  | padTwo ha hb =>
      rintro (⟨e, he, hno, hpad⟩ | ⟨-, hd⟩ | hs)
      · simp only [List.mem_cons, List.not_mem_nil, or_false] at he
        rcases he with rfl | rfl | rfl | rfl
        · exact hno ha
        · exact hno hb
        · exact hpad rfl
        · exact hpad rfl
      · exact hd rfl
      · exact hs

theorem inttob64_ne_pad (a : Nat) : mimeInttob64 a ≠ 61 :=
  ((digit_iff _).mp (digit_of_inttob64 a)).1

/-- The codes of bytes are never loose. -/
theorem not_loose_codes : ∀ t : Str, ¬ B64Loose (b64Codes t)
  | [] => id
  | [a] => by
      obtain ⟨-, h, -, -⟩ := sixBits a 0
      have hzero : a.toNat <<< 4 ||| (0 : UInt8).toNat >>> 4 = a.toNat <<< 4 := Nat.or_zero _
      rw [hzero, UInt8.toNat_zero] at h
      rw [b64Codes_chunk (Nat.le_of_ble_eq_true rfl), mimeB64EncodeChunk, B64Loose,
        mimeB64toint_inttob64, if_pos rfl, h]
      rintro (h | h | ⟨-, h | h⟩ | h)
      · exact inttob64_ne_pad _ h
      · exact inttob64_ne_pad _ h
      · exact h rfl
      · exact h (by rw [Option.getD_some]; omega)
      · exact h
  | [a, b] => by
      obtain ⟨-, -, h, -⟩ := sixBits b 0
      have hzero : b.toNat <<< 2 ||| (0 : UInt8).toNat >>> 6 = b.toNat <<< 2 := Nat.or_zero _
      rw [hzero, UInt8.toNat_zero] at h
      rw [b64Codes_chunk (Nat.le_of_ble_eq_true rfl), mimeB64EncodeChunk, B64Loose,
        if_neg (inttob64_ne_pad _), mimeB64toint_inttob64, h]
      rintro (h | h | ⟨-, h | h⟩ | h)
      · exact inttob64_ne_pad _ h
      · exact inttob64_ne_pad _ h
      · exact h rfl
      · exact h (by rw [Option.getD_some]; omega)
      · exact h
  | a :: b :: c :: t => by
      rintro (h | h | ⟨h, -⟩ | h)
      · exact inttob64_ne_pad _ h
      · exact inttob64_ne_pad _ h
      · exact inttob64_ne_pad _ h
      · exact not_loose_codes t h

/-! ## What is taken for base64 -/

/-- Base64 is accepted, and nothing else, and the result is the one text whose
codes are given. -/
def DecodesBase64 (src : Str) (len : Nat) : Prop :=
  ∃ r, mimeB64DecodeBuf src len = some r ∧ (r.isSome = true ↔ Base64 (src.take len)) ∧
    ∀ t ∈ r, ∀ u, b64Codes u = src.take len ↔ u = t

/-- The decoder is right on what it refuses, and on what has no padding out of
place. -/
theorem decodesBase64_iff {src : Str} {len : Nat} (h : len ≤ src.length) :
    DecodesBase64 src len ↔ B64Refused (src.take len) ∨ ¬ B64Loose (src.take len) := by
  rw [DecodesBase64, mimeB64DecodeBuf_eq h]
  by_cases href : B64Refused (src.take len)
  · refine iff_of_true ⟨none, ?_, ?_, fun t ht => by cases ht⟩ (Or.inl href)
    · rw [(b64Refused_iff _).mp href]
    · exact iff_of_false Bool.false_ne_true fun hform => not_refused_of_base64 hform href
  · obtain ⟨t, ht⟩ := Option.ne_none_iff_exists'.mp (mt (b64Refused_iff _).mpr href)
    rw [or_iff_right href, ht]
    constructor
    · rintro ⟨_, hr, -, hcodes⟩
      cases hr
      have heq : b64Codes t = src.take len := (hcodes t rfl t).mpr rfl
      rw [← heq]
      exact not_loose_codes t
    · intro hl
      obtain ⟨hform, hcodes⟩ := codes_of_mimeB64Decode ht hl
      refine ⟨some t, rfl, iff_of_true rfl hform, ?_⟩
      intro t' ht' u
      cases ht'
      constructor
      · intro hu
        have hdec := mimeB64Decode_codes u
        rw [hu, ht] at hdec
        exact (Option.some.inj hdec).symm
      · rintro rfl
        exact hcodes

theorem decodesBase64_man : DecodesBase64 (lit "TWFu") 4 :=
  (decodesBase64_iff (by decide)).mpr (Or.inr (by decide))

/-- Four times the padding is accepted. -/
theorem decodesBase64_pads : ¬ DecodesBase64 (lit "====") 4 := by
  rintro ⟨r, hr, hform, -⟩
  obtain rfl : some [4] = r := Option.some.inj hr
  cases hform.mp rfl with
  | group ha => exact absurd ha (by decide)
  | pad ha => exact absurd ha (by decide)
  | padTwo ha => exact absurd ha (by decide)

end Fidogate

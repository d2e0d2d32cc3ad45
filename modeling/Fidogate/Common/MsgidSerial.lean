/-
# `Fidogate.Common.MsgidSerial` — msgid.c: the serials of the parts of a message

The serial of a generated MSGID is the CRC of the Message-ID with the part
number added in an `unsigned long`, printed with `%08lx` behind the quoted
Message-ID in one buffer.  Two things go past the eight digits: the sum, where
the long has more than 32 bits, and the buffer, which leaves no room for the
serial behind a Message-ID with many quotes.
-/
import Fidogate.Common.Msgid

namespace Fidogate

open Bytes

/-! ## `%08lx` -/

/-- `%08lx`. -/
def serialHex (n : Nat) : Str :=
  let hex := (Nat.toDigits 16 n).map Char.toUInt8
  List.replicate (8 - hex.length) 48 ++ hex

theorem getHex_serialHex (n : Nat) : getHex 0 (serialHex n) = n := by
  have hup : hexText n = ((Nat.toDigits 16 n).map Char.toUInt8).map toUpper := by
    rw [hexText, List.map_map]
    rfl
  rw [serialHex, getHex_replicate_zero, ← getHex_toUpper, ← hup]
  exact (getHex_hexText n).1

theorem isXDigit_serialHex {n : Nat} {c : UInt8} (h : c ∈ serialHex n) : isXDigit c = true := by
  rcases List.mem_append.mp h with hc | hc
  · rw [List.eq_of_mem_replicate hc]
    rfl
  · obtain ⟨d, hd, rfl⟩ := List.mem_map.mp hc
    rw [isXDigit, ← hexDigit_toUpper]
    exact (getHex_hexText n).2 _ (List.mem_map_of_mem hd)

theorem length_serialHex (n : Nat) :
    (serialHex n).length = max 8 (Nat.toDigits 16 n).length := by
  rw [serialHex, List.length_append, List.length_replicate, List.length_map]
  omega

theorem length_serialHex_eq_iff (n : Nat) : (serialHex n).length = 8 ↔ n < 2 ^ 32 := by
  have hdigits := @Nat.length_toDigits_le_iff 16 n 8 (by decide) (by decide)
  rw [length_serialHex]
  omega

/-- Of nine digits the last is cut off. -/
theorem serialHex_take {n : Nat} (h : 2 ^ 32 ≤ n) (h' : n < 2 ^ 36) :
    (serialHex n).take 8 = serialHex (n / 16) := by
  have hlen : (Nat.toDigits 16 (n / 16)).length = 8 := by
    have hle := Nat.length_toDigits_le_iff (b := 16) (n := n / 16) (k := 8) (by decide) (by decide)
    have hgt := Nat.length_toDigits_le_iff (b := 16) (n := n / 16) (k := 7) (by decide) (by decide)
    omega
  have hdiv : serialHex (n / 16) = (Nat.toDigits 16 (n / 16)).map Char.toUInt8 := by
    rw [serialHex, List.length_map, hlen]
    rfl
  have hsplit : serialHex n = (Nat.toDigits 16 (n / 16)).map Char.toUInt8 ++
      [(Nat.digitChar (n % 16)).toUInt8] := by
    rw [serialHex, Nat.toDigits_of_base_le (by decide) (by omega), List.map_append,
      List.length_append, List.length_map, hlen]
    rfl
  rw [hsplit, hdiv, List.take_left' (by rw [List.length_map, hlen])]

theorem serialHex_inj {m n : Nat} : serialHex m = serialHex n ↔ m = n := by
  constructor
  · intro h
    rw [← getHex_serialHex m, h, getHex_serialHex]
  · exact congrArg serialHex

/-! ## The serial of a MSGID -/

/-- What stands behind the last space of a MSGID. -/
def msgidSerial (msgid : Str) : Str := (afterLast sp msgid).getD msgid

/-- Exactly eight hexadecimal digits. -/
def IsSerial (s : Str) : Prop := s.length = 8 ∧ ∀ c ∈ s, isXDigit c = true

/-- What stands in front of the serial. -/
def serialFront (o : MsgidOptions) (id : Str) : Str :=
  if o.noFidoStyleMsgid && ! o.xFlagsM then
    let q := msgidFts9Quote id (id.length + 21)
    if q = [] then [] else q ++ [sp]
  else if o.forReply then id ++ [sp]
  else []

/-- The room that is left for the serial. -/
def serialRoom (o : MsgidOptions) (id : Str) : Nat :=
  id.length + 21 - (serialFront o id).length - 1

/-- The CRC of the Message-ID and the area. -/
def serialCrc (area : Option Str) (id : Str) : Nat :=
  (crc32Compute (crc32Compute 0xFFFFFFFF id) (area.getD []) ^^^ 0xFFFFFFFF).toNat

theorem serialCrc_lt (area : Option Str) (id : Str) : serialCrc area id < 2 ^ 32 :=
  UInt32.toNat_lt _

theorem newMsgid_split {o : MsgidOptions} (ho : o.split = true) (part : Nat) (area : Option Str)
    (id : Str) : newMsgid o part area id =
      serialFront o id ++ (serialHex (serialCrc area id + (part - 1))).take (serialRoom o id) := by
  rw [newMsgid, if_pos ho]
  rfl

theorem sp_notMem_serialHex {n : Nat} : sp ∉ serialHex n := fun h =>
  absurd (isXDigit_serialHex h) (by decide)

theorem msgidSerial_newMsgid {o : MsgidOptions} (ho : o.split = true) (part : Nat)
    (area : Option Str) (id : Str) : msgidSerial (newMsgid o part area id) =
      (serialHex (serialCrc area id + (part - 1))).take (serialRoom o id) := by
  rw [newMsgid_split ho]
  generalize hs : (serialHex (serialCrc area id + (part - 1))).take (serialRoom o id) = s
  have hsp : sp ∉ s := by
    rw [← hs]
    exact fun h => sp_notMem_serialHex (List.mem_of_mem_take h)
  have hbehind : ∀ u, msgidSerial (u ++ [sp] ++ s) = s := by
    intro u
    rw [msgidSerial, List.append_assoc, List.singleton_append, afterLast_append hsp]
    rfl
  have hnone : msgidSerial ([] ++ s) = s := by
    rw [msgidSerial, List.nil_append, afterLast, if_neg (by simpa using hsp)]
    rfl
  unfold serialFront
  dsimp only
  split
  · split
    · exact hnone
    · exact hbehind _
  · split
    · exact hbehind _
    · exact hnone

/-! ## The room for it -/

theorem length_fts9Loop_le : ∀ (s : Str) (room : Nat),
    min room (s.length + s.count dquote) ≤ (fts9Loop room s).length
  | [], room => by simp
  | c :: s, 0 => by simp
  | c :: s, room + 1 => by
      have ih := length_fts9Loop_le s
      rw [fts9Loop, List.length_cons, List.count_cons]
      split
      · have := ih (room - 1)
        simp only [List.length_cons]
        omega
      · have := ih room
        rw [List.length_cons]
        omega

/-- The quotes that are doubled in front of the serial. -/
def serialQuotes (o : MsgidOptions) (id : Str) : Nat :=
  if o.noFidoStyleMsgid && ! o.xFlagsM then id.count dquote else 0

/-- Each quote takes one of the places; with nine of them there is room for exactly eight
digits. -/
theorem serialRoom_quotes (o : MsgidOptions) (id : Str) :
    (serialQuotes o id ≤ 8 → 9 ≤ serialRoom o id) ∧
      (serialQuotes o id = 9 → serialRoom o id = 8) ∧
      (10 ≤ serialQuotes o id → serialRoom o id ≤ 7) := by
  unfold serialQuotes serialRoom serialFront
  dsimp only
  split
  · by_cases hq : (id.contains sp || id.contains dquote) = true
    · have htext : msgidFts9Quote id (id.length + 21) =
          dquote :: fts9Loop (id.length + 17) id ++ [dquote] := by
        rw [msgidFts9Quote, if_pos hq]
        rfl
      have hlen : ((dquote :: fts9Loop (id.length + 17) id ++ [dquote]) ++ [sp]).length =
          (fts9Loop (id.length + 17) id).length + 3 := by
        simp
      have hle := length_fts9Loop_le id (id.length + 17)
      have hfits := fts9Loop_fits id (id.length + 17)
      rw [length_doubled] at hfits
      rw [htext, if_neg (by simp), hlen]
      refine ⟨fun h => ?_, fun h => ?_, fun h => ?_⟩
      · rw [hfits (by omega), length_doubled]
        omega
      · rw [hfits (by omega), length_doubled]
        omega
      · omega
    · have hdq : dquote ∉ id := by
        intro h
        simp [h] at hq
      have hcount : id.count dquote = 0 := List.count_eq_zero.mpr hdq
      have htext : (msgidFts9Quote id (id.length + 21)).length = id.length := by
        rw [msgidFts9Quote, if_neg hq, fts9Loop_fits id _ (by rw [length_doubled]; omega),
          length_doubled, hcount, Nat.add_zero]
      have hle : (if msgidFts9Quote id (id.length + 21) = [] then []
          else msgidFts9Quote id (id.length + 21) ++ [sp]).length ≤ id.length + 1 := by
        split
        · exact Nat.zero_le _
        · rw [List.length_append, htext, List.length_singleton]
      rw [hcount]
      omega
  · have hle : (if o.forReply = true then id ++ [sp] else []).length ≤ id.length + 1 := by
      split
      · rw [List.length_append, List.length_singleton]
      · exact Nat.zero_le _
    omega

/-! ## The parts of a message -/

/-- A Message-ID that gets a MSGID of its own: `<id@host>`, and none of FIDOGATE's forms. -/
def getsSerial (messageId : Str) : Bool :=
  match (afterLast 60 messageId).bind (splitFirst 64) with
  | none => false
  | some (id, s) => s.contains 62 && ! hasPrefix (lit "funpack") id &&
      ! hasPrefix (lit "NOMSGID_") id && ! hasPrefix (lit "MSGID_") id

theorem sMsgidRfcToFido_serial {o : MsgidOptions} (ho : o.split = true) {messageId : Str}
    (h : getsSerial messageId = true) (cf : InetConfig) (part : Nat) (area : Option Str) :
    sMsgidRfcToFido cf o messageId part area =
      some (newMsgid o part area (wholeId messageId)) := by
  unfold getsSerial at h
  split at h
  · cases h
  next id s hs =>
    obtain ⟨t, ht, hid⟩ := Option.bind_eq_some_iff.mp hs
    simp only [Bool.and_eq_true, Bool.not_eq_true'] at h
    obtain ⟨⟨⟨hgt, h1⟩, h2⟩, h3⟩ := h
    unfold sMsgidRfcToFido
    rw [ht]
    simp only [Option.bind_eq_bind, Option.bind_some]
    rw [hid]
    simp only [Option.bind_some]
    rw [splitFirst, if_pos hgt]
    simp only [Option.bind_some]
    rw [h1, h2, h3, ho]
    rfl

/-- The parts `1..n` of a message have serials of eight digits, no two of them the same. -/
structure SerialsRight (cf : InetConfig) (o : MsgidOptions) (messageId : Str) (area : Option Str)
    (n : Nat) : Prop where
  digits : ∀ part, 1 ≤ part → part ≤ n → ∀ msgid,
    sMsgidRfcToFido cf o messageId part area = some msgid → IsSerial (msgidSerial msgid)
  distinct : ∀ part part', 1 ≤ part → part < part' → part' ≤ n → ∀ msgid msgid',
    sMsgidRfcToFido cf o messageId part area = some msgid →
    sMsgidRfcToFido cf o messageId part' area = some msgid' → msgidSerial msgid ≠ msgidSerial msgid'

/-- At most nine quotes are doubled, and the last part's number added to the CRC is below 2^32;
with nine quotes it may be 2^32, where the last digit is cut off, if the other parts are above
what remains. -/
def SerialsFit (quotes crc n : Nat) : Prop :=
  quotes ≤ 9 ∧ (crc + n ≤ 2 ^ 32 ∨ quotes = 9 ∧ crc + n = 2 ^ 32 + 1 ∧ 2 ^ 28 < crc)

/-- The room lets eight digits through. -/
theorem isSerial_take_iff {room n : Nat} :
    IsSerial ((serialHex n).take room) ↔ room = 8 ∨ 9 ≤ room ∧ n < 2 ^ 32 := by
  have hds : ∀ c ∈ (serialHex n).take room, isXDigit c = true := fun c hc =>
    isXDigit_serialHex (List.mem_of_mem_take hc)
  rw [IsSerial, and_iff_left hds, List.length_take, ← length_serialHex_eq_iff, length_serialHex]
  omega

/-- A number as it stands in eight places. -/
def eightPlaces (n : Nat) : Nat := if n < 2 ^ 32 then n else n / 16

theorem serialHex_take_eight {n : Nat} (h : n < 2 ^ 36) :
    (serialHex n).take 8 = serialHex (eightPlaces n) := by
  unfold eightPlaces
  split
  next hlt =>
    exact List.take_of_length_le (by rw [(length_serialHex_eq_iff n).mpr hlt])
  next hge => exact serialHex_take (Nat.not_lt.mp hge) h

/-- In eight places the numbers from `crc` on stay apart up to 2^32, which falls on 2^28. -/
theorem eightPlaces_distinct_iff {crc n : Nat} (hcrc : crc < 2 ^ 32) :
    (∀ part part', 1 ≤ part → part < part' → part' ≤ n →
        eightPlaces (crc + (part - 1)) ≠ eightPlaces (crc + (part' - 1))) ↔
      crc + n ≤ 2 ^ 32 ∨ crc + n = 2 ^ 32 + 1 ∧ 2 ^ 28 < crc := by
  constructor
  · intro h
    by_contra hno
    rcases Nat.lt_or_ge (2 ^ 32 + 1) (crc + n) with hbig | hsmall
    · refine h (2 ^ 32 - crc + 1) (2 ^ 32 - crc + 2) (by omega) (by omega) (by omega) ?_
      rw [eightPlaces, eightPlaces, if_neg (by omega), if_neg (by omega)]
      omega
    · refine h (2 ^ 28 - crc + 1) (2 ^ 32 - crc + 1) (by omega) (by omega) (by omega) ?_
      rw [eightPlaces, eightPlaces, if_pos (by omega), if_neg (by omega)]
      omega
  · intro h part part' h1 hlt hle
    unfold eightPlaces
    split <;> split <;> omega

section

variable {o : MsgidOptions} {messageId : Str}

/-- The serials by the room they have. -/
theorem serialsRight_iff_room (ho : o.split = true) (h : getsSerial messageId = true)
    (cf : InetConfig) (area : Option Str) (n : Nat) :
    SerialsRight cf o messageId area n ↔
      (∀ part, 1 ≤ part → part ≤ n → IsSerial ((serialHex (serialCrc area (wholeId messageId) +
        (part - 1))).take (serialRoom o (wholeId messageId)))) ∧
      ∀ part part', 1 ≤ part → part < part' → part' ≤ n →
        (serialHex (serialCrc area (wholeId messageId) + (part - 1))).take
            (serialRoom o (wholeId messageId)) ≠
          (serialHex (serialCrc area (wholeId messageId) + (part' - 1))).take
            (serialRoom o (wholeId messageId)) := by
  constructor
  · rintro ⟨hd, hne⟩
    refine ⟨fun part h1 hle => ?_, fun part part' h1 hlt hle => ?_⟩
    · rw [← msgidSerial_newMsgid ho]
      exact hd part h1 hle _ (sMsgidRfcToFido_serial ho h cf part area)
    · rw [← msgidSerial_newMsgid ho, ← msgidSerial_newMsgid ho]
      exact hne part part' h1 hlt hle _ _ (sMsgidRfcToFido_serial ho h cf part area)
        (sMsgidRfcToFido_serial ho h cf part' area)
  · rintro ⟨hd, hne⟩
    refine ⟨fun part h1 hle msgid hm => ?_, fun part part' h1 hlt hle msgid msgid' hm hm' => ?_⟩
    · rw [sMsgidRfcToFido_serial ho h] at hm
      obtain rfl := Option.some.inj hm
      rw [msgidSerial_newMsgid ho]
      exact hd part h1 hle
    · rw [sMsgidRfcToFido_serial ho h] at hm hm'
      obtain rfl := Option.some.inj hm
      obtain rfl := Option.some.inj hm'
      rw [msgidSerial_newMsgid ho, msgidSerial_newMsgid ho]
      exact hne part part' h1 hlt hle

/-- The sum of the CRC and a part number needs nine digits, and the serial is no longer one. -/
theorem serialsRight_nine : ¬ SerialsRight fidoInet ⟨false, true, false, false⟩
    (lit "<llmllmnnonjh@a>") none 2 := by
  intro h
  have := (h.digits 2 (by decide) (by decide) (lit "100000000") (by decide +kernel)).1
  exact absurd this (by decide)

/-- The serials of a split message are eight digits each and distinct exactly where the buffer
and eight digits have room for them. -/
theorem serialsRight_iff (ho : o.split = true) (h : getsSerial messageId = true)
    (cf : InetConfig) (area : Option Str) {n : Nat} (hn : 1 ≤ n) (hn' : n < 2 ^ 32) :
    SerialsRight cf o messageId area n ↔
      SerialsFit (serialQuotes o (wholeId messageId)) (serialCrc area (wholeId messageId)) n := by
  have hcrc := serialCrc_lt area (wholeId messageId)
  obtain ⟨h8, h9, h10⟩ := serialRoom_quotes o (wholeId messageId)
  rw [serialsRight_iff_room ho h]
  generalize serialCrc area (wholeId messageId) = crc at hcrc
  generalize serialRoom o (wholeId messageId) = room at h8 h9 h10
  generalize serialQuotes o (wholeId messageId) = quotes at h8 h9 h10
  unfold SerialsFit
  simp only [isSerial_take_iff]
  rcases Nat.lt_trichotomy quotes 9 with hlt | heq | hgt
  · have hroom := h8 (by omega)
    constructor
    · rintro ⟨hd, -⟩
      have := hd n hn (Nat.le_refl n)
      omega
    · intro hfit
      refine ⟨fun part h1 hle => by omega, fun part part' h1 hlt' hle heq => ?_⟩
      rw [List.take_of_length_le, List.take_of_length_le, serialHex_inj] at heq
      · omega
      · rw [(length_serialHex_eq_iff _).mpr (by omega)]
        omega
      · rw [(length_serialHex_eq_iff _).mpr (by omega)]
        omega
  · have hroom := h9 heq
    have hdist := eightPlaces_distinct_iff (n := n) hcrc
    have hcut : ∀ part part', 1 ≤ part → part < part' → part' ≤ n →
        ((serialHex (crc + (part - 1))).take room ≠ (serialHex (crc + (part' - 1))).take room ↔
          eightPlaces (crc + (part - 1)) ≠ eightPlaces (crc + (part' - 1))) := by
      intro part part' h1 hlt hle
      rw [hroom, serialHex_take_eight (by omega), serialHex_take_eight (by omega), Ne,
        serialHex_inj]
    constructor
    · rintro ⟨-, hne⟩
      have := hdist.mp fun part part' h1 hlt hle =>
        (hcut part part' h1 hlt hle).mp (hne part part' h1 hlt hle)
      omega
    · intro hfit
      refine ⟨fun _ _ _ => .inl hroom, fun part part' h1 hlt hle => ?_⟩
      exact (hcut part part' h1 hlt hle).mpr (hdist.mpr (by omega) part part' h1 hlt hle)
  · have hroom := h10 (by omega)
    refine iff_of_false (fun hr => ?_) (by omega)
    have := hr.1 1 (Nat.le_refl 1) hn
    omega

theorem serialsRight_short : SerialsRight fidoInet ⟨false, true, false, false⟩
    (lit "<a@b>") none 3 :=
  (serialsRight_iff rfl (by decide) fidoInet none (by decide) (by decide)).mpr
    ⟨by decide, .inl (by decide +kernel)⟩

end

end Fidogate

/-
# `Fidogate.Packet.Header` — a packet header is read as it was written

The reader takes its words from fixed places; each is found behind the fields
the writer puts in front of it (`word_skip`).  The writer fills in the fields
that do not come from the user itself.
-/
import Fidogate.Packet.RoundTrip
import Mathlib.Data.List.GetD

namespace Fidogate

open Bytes

/-! ## Words and bytes -/

theorem word_skip {l : Str} {n : Nat} (h : l.length = n) (s : Str) (i : Nat) :
    word (l ++ s) (i + n) = word s i := by
  subst h
  unfold word
  rw [List.getD_append_right _ _ _ _ (by omega), List.getD_append_right _ _ _ _ (by omega),
    Nat.add_sub_cancel, Nat.add_right_comm, Nat.add_sub_cancel]

theorem byte_skip {l : Str} {n : Nat} (h : l.length = n) (s : Str) (i : Nat) :
    byte (l ++ s) (i + n) = byte s i := by
  subst h
  unfold byte
  rw [List.getD_append_right _ _ _ _ (by omega), Nat.add_sub_cancel]

theorem byte_putc {v : Int} (h : 0 ≤ v ∧ v < 256) (s : Str) : byte (putc v :: s) 0 = v := by
  unfold byte
  rw [List.getD_cons_zero, putc_toNat]
  exact Int.emod_eq_of_lt h.1 h.2

theorem byte_add (v : Int) (s : Str) (i : Nat) : byte (pktPutInt16 v ++ s) (i + 2) = byte s i := rfl

theorem word_pair (a b : UInt8) (s : Str) (i : Nat) : word (a :: b :: s) (i + 2) = word s i := rfl

theorem byte_succ (a : UInt8) (s : Str) (i : Nat) : byte (a :: s) (i + 1) = byte s i := rfl

theorem word_padded (p s : Str) (i : Nat) :
    word (pktPutStringPadded p PKT_MAXPASSWD ++ s) (i + 8) = word s i :=
  word_skip (length_pktPutStringPadded p PKT_MAXPASSWD) s i

theorem byte_padded (p s : Str) (i : Nat) :
    byte (pktPutStringPadded p PKT_MAXPASSWD ++ s) (i + 8) = byte s i :=
  byte_skip (length_pktPutStringPadded p PKT_MAXPASSWD) s i

/-- The two bytes of the swapped word are those of the word, swapped. -/
theorem capSwap_bytes {w : Int} (h : 0 ≤ w ∧ w < 65536) :
    capSwap w % 256 * 256 + capSwap w / 256 % 256 = w := by
  have key : ∀ r q : Int, 0 ≤ r ∧ r < 256 → 0 ≤ q ∧ q < 256 →
      (r * 256 + q) % 256 = q ∧ (r * 256 + q) / 256 % 256 = r := by
    intro r q hr hq
    constructor
    · omega
    · omega
  obtain ⟨hlow, hhigh⟩ := key (w % 256) (w / 256 % 256) (by omega) (by omega)
  rw [capSwap, hlow, hhigh]
  omega

/-! ## The password -/

/-- A password that fits is read up to its padding. -/
theorem cstr_pktPutStringPadded {s : Str} (h : nul ∉ s) {n : Nat} (hn : s.length ≤ n) :
    cstr (pktPutStringPadded s n) = s := by
  have hs : ∀ c ∈ s, (c != nul) = true := by
    intro c hc
    exact bne_iff_ne.mpr fun he => h (he ▸ hc)
  unfold cstr pktPutStringPadded
  rw [List.take_of_length_le hn, List.takeWhile_append_of_pos hs]
  cases n - s.length with
  | zero => rw [List.replicate_zero, List.takeWhile_nil, List.append_nil]
  | succ k => rw [List.replicate_succ, List.takeWhile_cons_of_neg (by decide), List.append_nil]

/-! ## The header -/

/-- The C library's calendar at the time of a packet: `localtime` counts the
days of a month from 1, and `mktime` goes back from its fields. -/
structure LocalTime (ck : Clock) (mktime : Tm → Int) (pkt : Packet) : Prop
    extends PacketFits ck pkt where
  day : (ck.localtime pkt.time).mday ≠ 0
  inverse : mktime { ck.localtime pkt.time with wday := -1, yday := -1, isdst := false } = pkt.time

/-- What the fields of a packet header hold. -/
structure HdrFits (p : Packet) : Prop where
  srcZone : 1 ≤ p.src.zone ∧ p.src.zone ≤ 65535
  dstZone : 1 ≤ p.dst.zone ∧ p.dst.zone ≤ 65535
  srcNet : 0 ≤ p.src.net ∧ p.src.net ≤ 65534
  dstNet : 0 ≤ p.dst.net ∧ p.dst.net ≤ 65534
  srcNode : 0 ≤ p.src.node ∧ p.src.node ≤ 65534
  dstNode : 0 ≤ p.dst.node ∧ p.dst.node ≤ 65534
  srcPoint : 0 ≤ p.src.point ∧ p.src.point ≤ 65535
  dstPoint : 0 ≤ p.dst.point ∧ p.dst.point ≤ 65535
  passwd : nul ∉ p.passwd ∧ p.passwd.length ≤ PKT_MAXPASSWD

/-- The packet a header is read back as. -/
def Packet.onWire (p : Packet) : Packet :=
  { p with src := { p.src with domain := [] }, dst := { p.dst with domain := [] }, psd := [] }

/-- The words of a header that was written. -/
structure HdrWords (tm : Tm) (p : Packet) (h : Str) : Prop where
  node : word h 0 = p.src.node ∧ word h 2 = p.dst.node
  day : word h 4 = tm.year + 1900 ∧ word h 6 = tm.mon ∧ word h 8 = tm.mday
  time : word h 10 = tm.hour ∧ word h 12 = tm.min ∧ word h 14 = tm.sec
  rate : word h 16 = p.baud ∧ word h 18 = p.version
  net : word h 20 = p.src.net ∧ word h 22 = p.dst.net
  product : byte h 24 = p.productL ∧ byte h 25 = p.revMaj
  passwd : cstr ((h.drop 26).take PKT_MAXPASSWD) = p.passwd
  zone : word h 34 = p.src.zone ∧ word h 36 = p.dst.zone
  swap : byte h 40 * 256 + byte h 41 = p.capword
  revision : byte h 42 = p.productH ∧ byte h 43 = p.revMin
  capword : word h 44 = p.capword
  zone' : word h 46 = p.src.zone ∧ word h 48 = p.dst.zone
  point : word h 50 = p.src.point ∧ word h 52 = p.dst.point

section

variable {ck : Clock} {mktime : Tm → Int} {major minor defzone : Int} {pkt : Packet}

theorem hdrWords_pktPutHdrRaw (hcal : PacketFits ck pkt) (h : HdrFits pkt)
    (hbaud : 0 ≤ pkt.baud ∧ pkt.baud < 65536) (hversion : 0 ≤ pkt.version ∧ pkt.version < 65536)
    (hproduct : (0 ≤ pkt.productL ∧ pkt.productL < 256) ∧ 0 ≤ pkt.productH ∧ pkt.productH < 256)
    (hrev : (0 ≤ pkt.revMaj ∧ pkt.revMaj < 256) ∧ 0 ≤ pkt.revMin ∧ pkt.revMin < 256)
    (hcap : 0 ≤ pkt.capword ∧ pkt.capword < 65536) :
    HdrWords (ck.localtime pkt.time) pkt (pktPutHdrRaw ck pkt) := by
  obtain ⟨hy, hmo, hd, hh, hmi, hs⟩ := hcal
  obtain ⟨hz, hz', hn, hn', ho, ho', hp, hp', hpw⟩ := h
  have hswap : ∀ (v : Int) (s : Str), byte (pktPutInt16 v ++ s) 0 = v % 256 ∧
      byte (pktPutInt16 v ++ s) 1 = v / 256 % 256 := fun v s => ⟨putc_toNat v, putc_toNat _⟩
  have hdrop : ∀ (v : Int) (s : Str) (i : Nat), (pktPutInt16 v ++ s).drop (i + 2) = s.drop i :=
    fun _ _ _ => rfl
  unfold pktPutHdrRaw
  constructor
  case passwd =>
    have hlen := length_pktPutStringPadded pkt.passwd PKT_MAXPASSWD
    simp only [List.append_assoc, List.cons_append, List.nil_append, hdrop, List.drop_succ_cons,
      List.drop_zero]
    rw [List.take_left' hlen]
    exact cstr_pktPutStringPadded hpw.1 hpw.2
  case swap =>
    simp only [List.append_assoc, List.cons_append, List.nil_append, byte_add, byte_succ, byte_padded,
      hswap, capSwap_bytes hcap]
  all_goals
    simp only [List.append_assoc, List.cons_append, List.nil_append, word_add, word_zero, word_pair,
      word_padded, byte_add, byte_succ, byte_padded, byte_putc hproduct.1, byte_putc hproduct.2,
      byte_putc hrev.1, byte_putc hrev.2, true_and]
  all_goals omega

/-- Whatever the fields `pkt_fill_hdr` fills in were before, the header is read
back with the addresses, the password and the time of the packet, and with the
product code and the version the writer put there. -/
theorem pktGetHdr_pktPutHdr (hcal : LocalTime ck mktime pkt) (h : HdrFits pkt)
    (hmajor : 0 ≤ major ∧ major < 256) (hminor : 0 ≤ minor ∧ minor < 256) (rest : Str) :
    pktGetHdr ck mktime defzone (pktPutHdr ck major minor pkt ++ rest) =
      (OK, some (pktFillHdr major minor pkt).onWire, rest) := by
  obtain ⟨hok, hrest⟩ := pktGetHdr_put hcal.toPacketFits mktime defzone major minor rest
  have hcal' : PacketFits ck (pktFillHdr major minor pkt) := by
    obtain ⟨hy, hmo, hd, hh, hmi, hs⟩ := hcal.toPacketFits
    exact ⟨hy, hmo, hd, hh, hmi, hs⟩
  have hfits : HdrFits (pktFillHdr major minor pkt) := by
    obtain ⟨hz, hz', hn, hn', ho, ho', hp, hp', hpw⟩ := h
    exact ⟨hz, hz', hn, hn', ho, ho', hp, hp', hpw⟩
  have hbaud : 0 ≤ (0 : Int) ∧ (0 : Int) < 65536 := by decide
  have hversion : 0 ≤ PKT_VERSION ∧ PKT_VERSION < 65536 := by decide
  have hproduct : (0 ≤ PRODUCT_CODE ∧ PRODUCT_CODE < 256) ∧ 0 ≤ (0 : Int) ∧ (0 : Int) < 256 := by
    decide
  have hcap : 0 ≤ (1 : Int) ∧ (1 : Int) < 65536 := by decide
  have hw := hdrWords_pktPutHdrRaw hcal' hfits hbaud hversion hproduct ⟨hmajor, hminor⟩ hcap
  have hlen := length_pktPutHdr ck major minor pkt
  have hnot : ¬ (pktPutHdr ck major minor pkt ++ rest).length < PKT_HDRLEN := by
    rw [List.length_append, hlen]
    omega
  refine Prod.ext hok (Prod.ext ?_ hrest)
  unfold pktGetHdr
  rw [if_neg hnot, ← hlen, List.take_left]
  dsimp only
  change HdrWords _ _ (pktPutHdr ck major minor pkt) at hw
  generalize pktPutHdr ck major minor pkt = hdr at hw
  obtain ⟨⟨hn0, hn2⟩, ⟨h4, h6, h8⟩, ⟨h10, h12, h14⟩, ⟨h16, h18⟩, ⟨h20, h22⟩, ⟨h24, h25⟩, hpass,
    ⟨h34, h36⟩, hswap, ⟨h42, h43⟩, h44, ⟨h46, h48⟩, h50, h52⟩ := hw
  rw [hn0, hn2, h4, h6, h8, h10, h12, h14, h16, h18, h20, h22, h24, h25, hpass, h34, h36, hswap, h42,
    h43, h44, h46, h48, h50, h52]
  have hcw : (pktFillHdr major minor pkt).capword = 1 := rfl
  have hone : ((1 : Int) != 0) = true := by decide
  have hsame : ((1 : Int) == 1) = true := by decide
  have hsrc : ((pktFillHdr major minor pkt).src.zone != 0) = true := by
    have := hfits.srcZone
    exact bne_iff_ne.mpr (by omega)
  have hdst : ((pktFillHdr major minor pkt).dst.zone != 0) = true := by
    have := hfits.dstZone
    exact bne_iff_ne.mpr (by omega)
  have hnet : ((pktFillHdr major minor pkt).src.net == 65535) = false := by
    have := hfits.srcNet
    exact beq_eq_false_iff_ne.mpr (by omega)
  have hmday : ((ck.localtime pkt.time).mday == 0) = false := beq_eq_false_iff_ne.mpr hcal.day
  have hyear : (ck.localtime pkt.time).year + 1900 - 1900 = (ck.localtime pkt.time).year :=
    Int.add_sub_cancel _ _
  have htime : (decide (1900 ≤ (ck.localtime pkt.time).year + 1900) &&
      decide ((ck.localtime pkt.time).year + 1900 ≤ 2099) &&
      decide ((ck.localtime pkt.time).mon ≤ 11) && decide ((ck.localtime pkt.time).mday ≤ 31) &&
      decide ((ck.localtime pkt.time).hour ≤ 23) && decide ((ck.localtime pkt.time).min ≤ 59) &&
      decide ((ck.localtime pkt.time).sec ≤ 59)) = true := by
    obtain ⟨hy, hmo, hd, hh, hmi, hs⟩ := hcal.toPacketFits
    simp only [Bool.and_eq_true, decide_eq_true_eq]
    omega
  have hstamp : (pktFillHdr major minor pkt).time = pkt.time := rfl
  have hinverse := hcal.inverse
  simp only [hstamp, hcw, hone, hsame, hsrc, hdst, hnet, hmday, hyear, htime, hinverse, Bool.and_self,
    if_true, Bool.false_eq_true, if_false]
  rfl

end

/-- A packet of a point, at a time of 2001 in a program whose clock is UTC. -/
def pointPacket (productL : Int) : Packet :=
  { src := ⟨2, 5020, 400, 7, lit "fidonet"⟩, dst := ⟨65535, 65534, 0, 65535, []⟩, time := 1000000000
    baud := 9600, version := 39, productL := productL, productH := 2, revMin := 3, revMaj := 4
    passwd := lit "secret!8", capword := 0, psd := [] }

theorem pointPacket_local (productL : Int) :
    LocalTime utcClock (fun _ => 1000000000) (pointPacket productL) := by
  have hfits : PacketFits utcClock (pointPacket 0) := by
    constructor <;> decide +kernel
  obtain ⟨hy, hmo, hd, hh, hmi, hs⟩ := hfits
  exact ⟨⟨hy, hmo, hd, hh, hmi, hs⟩, (show (gmtime 1000000000).mday ≠ 0 by decide +kernel), rfl⟩

theorem pointPacket_fits (productL : Int) : HdrFits (pointPacket productL) := by
  have hfits : HdrFits (pointPacket 0) := by
    constructor <;> decide +kernel
  obtain ⟨hz, hz', hn, hn', ho, ho', hp, hp', hpw⟩ := hfits
  exact ⟨hz, hz', hn, hn', ho, ho', hp, hp', hpw⟩

theorem pktGetHdr_pktPutHdr_point :
    pktGetHdr utcClock (fun _ => 1000000000) 2 (pktPutHdr utcClock 5 12 (pointPacket 1) ++ lit "rest") =
      (OK, some (pktFillHdr 5 12 (pointPacket 1)).onWire, lit "rest") :=
  pktGetHdr_pktPutHdr (pointPacket_local 1) (pointPacket_fits 1) (by decide) (by decide) (lit "rest")

/-- The product code is not that of the packet. -/
theorem pktGetHdr_product : ¬ ∀ (ck : Clock) (mktime : Tm → Int) (defzone major minor : Int)
    (pkt : Packet), LocalTime ck mktime pkt → HdrFits pkt →
    0 ≤ major ∧ major < 256 → 0 ≤ minor ∧ minor < 256 →
    ∃ p, pktGetHdr ck mktime defzone (pktPutHdr ck major minor pkt) = (OK, some p, []) ∧
      nodeEq p.src pkt.src = true ∧ nodeEq p.dst pkt.dst = true ∧ p.passwd = pkt.passwd ∧
      p.time = pkt.time ∧ p.productL = pkt.productL ∧ p.productH = pkt.productH ∧
      p.version = pkt.version := by
  intro h
  obtain ⟨p, hp, -, -, -, -, hproduct, -⟩ := h utcClock (fun _ => 1000000000) 2 5 12 (pointPacket 1)
    (pointPacket_local 1) (pointPacket_fits 1) (by decide) (by decide)
  have hread : ((pktGetHdr utcClock (fun _ => 1000000000) 2
      (pktPutHdr utcClock 5 12 (pointPacket 1))).2.1.map Packet.productL) = some PRODUCT_CODE := by
    decide +kernel
  rw [hp, Option.map_some, hproduct] at hread
  revert hread
  decide

end Fidogate

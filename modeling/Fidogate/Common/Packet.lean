/-
# `Fidogate.Common.Packet` — packet.c: packet and message headers

A file open for reading is the list of its bytes still to come, one open for
writing the list of those already written, so a writer is the bytes it puts
out.  `getc` at the end of the file gives EOF again and again.
-/
import Fidogate.Common.Node
import Fidogate.Common.Parsedate

namespace Fidogate

open Bytes

def ERROR : Int := -1
def OK : Int := 0
def MSG_TYPE : Int := 2
def MSG_END : Int := 0
def MSG_DIRECT : Int := 0x400
def PKT_VERSION : Int := 2

def MSG_MAXDATE : Nat := 20
def MSG_MAXNAME : Nat := 36
def MSG_MAXSUBJ : Nat := 72
def NAMEBUFSIZE : Nat := MSG_MAXNAME * 4
def SUBJBUFSIZE : Nat := MSG_MAXNAME * 4
def PKT_MAXPASSWD : Nat := 8
def PRODUCT_CODE : Int := 0xfe

/-- `Message`: what a message header holds. -/
structure Message where
  nodeFrom : Node
  nodeTo : Node
  nodeOrig : Node
  attr : Int
  cost : Int
  date : Int
  tz : Option Str
  nameTo : Str
  nameFrom : Str
  subject : Str
  area : Option Str
  deriving DecidableEq, Repr

/-- `Packet`: what a packet header holds; `time` stands behind `localtime`. -/
structure Packet where
  src : Node
  dst : Node
  time : Int
  baud : Int
  version : Int
  productL : Int
  productH : Int
  revMin : Int
  revMaj : Int
  passwd : Str
  capword : Int
  psd : Str
  deriving DecidableEq, Repr

/-! ## Numbers and strings -/

/-- The byte `putc` writes for an `int`. -/
def putc (v : Int) : UInt8 := UInt8.ofNat (v % 256).toNat

/-- `pkt_put_int16`. -/
def pktPutInt16 (v : Int) : Str := [putc v, putc (v / 256)]

/-- `pkt_get_int16`. -/
def pktGetInt16 : Str → Int × Str
  | [] => (ERROR, [])
  | [_] => (ERROR, [])
  | c :: c' :: fp => ((c.toNat : Int) + 256 * c'.toNat, fp)

/-- `pkt_put_string`. -/
def pktPutString (s : Str) : Str := s ++ [nul]

/-- `pkt_put_string_padded`. -/
def pktPutStringPadded (s : Str) (n : Nat) : Str :=
  s.take n ++ List.replicate (n - s.length) nul

/-- `pkt_get_string`: the string, the number of bytes read and the rest of the
file.  A string that does not fit is cut to `nbytes - 1` bytes; where exactly
`nbytes - 1` bytes come before the NUL the terminator in the last place of the
buffer is the one that was always there. -/
def pktGetString (fp : Str) (nbytes : Nat) : Str × Nat × Str :=
  let s := fp.takeWhile (· != nul)
  let rest := fp.drop s.length
  (s.take (nbytes - 1), s.length + (if rest = [] then 0 else 1), rest.drop 1)

/-- `pkt_put_date`; the date -1 stands for the current time (which the source
moves on by two seconds where it is the same as for the message before). -/
def pktPutDate (ck : Clock) (t : Int) (tz : Option Str) : Str :=
  pktPutString (dateTz ck DATE_FTS_0001 (if t == -1 then ck.time else t) tz)

/-- `pkt_get_date`. -/
def pktGetDate (ck : Clock) (fp : Str) : Int × Str :=
  if fp.length < MSG_MAXDATE then (ERROR, [])
  else (parsedate ck (cstr (fp.take MSG_MAXDATE)), fp.drop MSG_MAXDATE)

/-! ## Message header -/

/-- `READ_MSG_FIELD` : the field, whether it kept to its limit, the rest. -/
def readMsgField (fp : Str) (size limit : Nat) (strict : Bool) : Option (Str × Str) :=
  let r := pktGetString fp size
  if limit < r.2.1 && strict then none else some (r.1, r.2.2)

/-- `pkt_get_msg_hdr` into a message whose nodes the caller cleared; `none` is
its error return, a field over its limit in strict mode. -/
def pktGetMsgHdr (ck : Clock) (strict : Bool) (msg : Message) (fp : Str) :
    Option (Message × Str) :=
  let fromNode := pktGetInt16 fp
  let toNode := pktGetInt16 fromNode.2
  let fromNet := pktGetInt16 toNode.2
  let toNet := pktGetInt16 fromNet.2
  let attr := pktGetInt16 toNet.2
  let cost := pktGetInt16 attr.2
  let date := pktGetDate ck cost.2
  let nodeFrom := { msg.nodeFrom with node := fromNode.1, net := fromNet.1 }
  let nodeTo := { msg.nodeTo with node := toNode.1, net := toNet.1 }
  match readMsgField date.2 NAMEBUFSIZE MSG_MAXNAME strict with
  | none => none
  | some (nameTo, fp) =>
      match readMsgField fp NAMEBUFSIZE MSG_MAXNAME strict with
      | none => none
      | some (nameFrom, fp) =>
          match readMsgField fp SUBJBUFSIZE MSG_MAXSUBJ strict with
          | none => none
          | some (subject, fp) =>
              some ({ msg with
                nodeFrom := nodeFrom, nodeTo := nodeTo, nodeOrig := nodeFrom,
                attr := attr.1, cost := cost.1, date := date.1, nameTo := nameTo,
                nameFrom := nameFrom, subject := subject, area := none }, fp)

/-- `pkt_msg_sanitize_strings`. -/
def pktMsgSanitizeStrings (msg : Message) : Message :=
  { msg with
    nameTo := msg.nameTo.take (MSG_MAXNAME - 1)
    nameFrom := msg.nameFrom.take (MSG_MAXNAME - 1)
    subject := msg.subject.take (MSG_MAXSUBJ - 1) }

/-- `pkt_put_msg_hdr` with `kludge_flag` off. -/
def pktPutMsgHdr (ck : Clock) (msg : Message) : Str :=
  let m := pktMsgSanitizeStrings msg
  pktPutInt16 MSG_TYPE ++
  pktPutInt16 m.nodeFrom.node ++ pktPutInt16 m.nodeTo.node ++
  pktPutInt16 m.nodeFrom.net ++ pktPutInt16 m.nodeTo.net ++
  pktPutInt16 m.attr ++ pktPutInt16 m.cost ++
  pktPutDate ck m.date m.tz ++
  pktPutString m.nameTo ++ pktPutString m.nameFrom ++ pktPutString m.subject

/-- The lines `pkt_put_msg_hdr` puts in front of the text with `kludge_flag` on. -/
def addrKludges (msg : Message) : List Str :=
  match msg.area with
  | some area => [lit "AREA:" ++ area ++ [cr]]
  | none =>
      let bare := fun n : Node => { n with point := 0, domain := [] }
      [soh :: lit "INTL " ++ znf1 (bare msg.nodeTo) ++ lit " " ++ znf1 (bare msg.nodeFrom) ++ [cr]] ++
      (if 0 < msg.nodeFrom.point then [soh :: lit "FMPT " ++ putInt msg.nodeFrom.point ++ [cr]]
        else []) ++
      if 0 < msg.nodeTo.point then [soh :: lit "TOPT " ++ putInt msg.nodeTo.point ++ [cr]] else []

/-! ## Packet header -/

/-- `pkt_fill_hdr`; the two version numbers are the program's. -/
def pktFillHdr (major minor : Int) (pkt : Packet) : Packet :=
  { pkt with
    baud := 0, version := PKT_VERSION, productL := PRODUCT_CODE, productH := 0,
    revMin := minor, revMaj := major, capword := 1, psd := lit "XPKT" }

/-- The byte-swapped capability word. -/
def capSwap (w : Int) : Int := w % 256 * 256 + w / 256 % 256

/-- `pkt_put_hdr_raw`. -/
def pktPutHdrRaw (ck : Clock) (pkt : Packet) : Str :=
  let tm := ck.localtime pkt.time
  pktPutInt16 pkt.src.node ++ pktPutInt16 pkt.dst.node ++
  pktPutInt16 (tm.year + 1900) ++ pktPutInt16 tm.mon ++ pktPutInt16 tm.mday ++
  pktPutInt16 tm.hour ++ pktPutInt16 tm.min ++ pktPutInt16 tm.sec ++
  pktPutInt16 pkt.baud ++ pktPutInt16 pkt.version ++
  pktPutInt16 pkt.src.net ++ pktPutInt16 pkt.dst.net ++
  [putc pkt.productL, putc pkt.revMaj] ++
  pktPutStringPadded pkt.passwd PKT_MAXPASSWD ++
  pktPutInt16 pkt.src.zone ++ pktPutInt16 pkt.dst.zone ++
  pktPutInt16 0 ++ pktPutInt16 (capSwap pkt.capword) ++
  [putc pkt.productH, putc pkt.revMin] ++
  pktPutInt16 pkt.capword ++
  pktPutInt16 pkt.src.zone ++ pktPutInt16 pkt.dst.zone ++
  pktPutInt16 pkt.src.point ++ pktPutInt16 pkt.dst.point ++
  pkt.psd

/-- `pkt_put_hdr`. -/
def pktPutHdr (ck : Clock) (major minor : Int) (pkt : Packet) : Str :=
  pktPutHdrRaw ck (pktFillHdr major minor pkt)

/-- The 16-bit word at offset `i`. -/
def word (h : Str) (i : Nat) : Int := (h.getD i 0).toNat + 256 * (h.getD (i + 1) 0).toNat

/-- The byte at offset `i`. -/
def byte (h : Str) (i : Nat) : Int := (h.getD i 0).toNat

/-- The length of a packet header. -/
def PKT_HDRLEN : Nat := 58

/-- The date checks of `pkt_get_hdr` hold. -/
def pktHdrOk (h : Str) : Bool :=
  1900 ≤ word h 4 && word h 4 ≤ 2099 && word h 6 ≤ 11 && word h 8 ≤ 31 && word h 10 ≤ 23 &&
  word h 12 ≤ 59 && word h 14 ≤ 59 && word h 18 == PKT_VERSION

/-- `pkt_get_hdr`: the return code, the packet and the rest of the file.
`mktime` is the C library's, `defzone` the zone of the first configured
address. -/
def pktGetHdr (ck : Clock) (mktime : Tm → Int) (defzone : Int) (fp : Str) :
    Int × Option Packet × Str :=
  if fp.length < PKT_HDRLEN then (ERROR, none, [])
  else
    let h := fp.take PKT_HDRLEN
    let mday := if word h 8 == 0 then (ck.localtime ck.time).mday else word h 8
    let tm : Tm :=
      { sec := word h 14, min := word h 12, hour := word h 10, mday := mday, mon := word h 6,
        year := word h 4 - 1900, wday := -1, yday := -1, isdst := false }
    let timeOk := 1900 ≤ word h 4 && word h 4 ≤ 2099 && word h 6 ≤ 11 && word h 8 ≤ 31 &&
      word h 10 ≤ 23 && word h 12 ≤ 59 && word h 14 ≤ 59
    let ozone := word h 34
    let dzone := word h 36
    let auxnet := word h 38
    let swap := byte h 40 * 256 + byte h 41
    let cw := if word h 44 != 0 && word h 44 == swap then word h 44 else 0
    let zone1 := if ozone != 0 then ozone else defzone
    let zone2 := if dzone != 0 then dzone else defzone
    let src : Node :=
      { zone := if cw != 0 && word h 46 != 0 then word h 46 else zone1
        net := word h 20, node := word h 0
        point := if cw != 0 then word h 50 else 0, domain := [] }
    let dst : Node :=
      { zone := if cw != 0 && word h 48 != 0 then word h 48 else zone2
        net := word h 22, node := word h 2
        point := if cw != 0 then word h 52 else 0, domain := [] }
    let net := if src.net == 0xFFFF then (if src.point != 0 then auxnet else dst.net) else src.net
    (if pktHdrOk h then OK else ERROR,
     some { src := { src with net := net }, dst := dst,
            time := if timeOk then mktime tm else -1,
            baud := word h 16, version := word h 18, productL := byte h 24, revMaj := byte h 25,
            passwd := cstr ((h.drop 26).take PKT_MAXPASSWD), productH := byte h 42,
            revMin := byte h 43, capword := cw, psd := [] },
     fp.drop PKT_HDRLEN)

end Fidogate

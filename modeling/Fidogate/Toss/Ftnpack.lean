/-
# `Fidogate.Toss.Ftnpack` — ftnpack.c: a packet from end to end

`do_noarc` copies the messages of one packet into another.  Its reading loop
(`ftntoss` and `ftn2rfc` have the same) and its writing are modelled apart.
-/
import Fidogate.Common.Message

namespace Fidogate

open Bytes

/-- `Message msg = { 0 }` with its nodes cleared. -/
def Message.clear : Message :=
  { nodeFrom := nodeClear, nodeTo := nodeClear, nodeOrig := nodeClear, attr := 0, cost := 0,
    date := 0, tz := none, nameTo := [], nameFrom := [], subject := [], area := none }

/-- A message with the lines of its body. -/
abbrev PacketMsg := Message × List Str

/-- `while ((type == MSG_TYPE) && !xfeof(pkt_file))`; `none` is the return on
an error.  A message takes more than one byte, so the length of the file
bounds the rounds. -/
def readMessages (ck : Clock) (strict : Bool) : Nat → LineType → Str → Str →
    Option (List PacketMsg)
  | 0, _, _, _ => none
  | n + 1, type, b, fp =>
      if type = .msgType ∧ fp ≠ [] then
        match pktGetMsgHdr ck strict Message.clear fp with
        | none => none
        | some (msg, fp) =>
            let r := pktGetBody b fp
            if r.type = .error then none
            else (readMessages ck strict n r.type r.buf r.fp).map ((msg, r.lines) :: ·)
      else some []

/-- `pkt_get_hdr`, the first `pkt_get_int16` and the loop. -/
def readPacket (ck : Clock) (mktime : Tm → Int) (defzone : Int) (strict : Bool) (b fp : Str) :
    Option (List PacketMsg) :=
  let h := pktGetHdr ck mktime defzone fp
  if h.1 = ERROR then none
  else
    let type := pktGetInt16 h.2.2
    readMessages ck strict (fp.length + 1) (if type.1 = MSG_TYPE then .msgType else .msgEnd) b
      type.2

/-- `pkt_put_msg_hdr`, `tl_print` and the terminating 0-byte. -/
def writeMessage (ck : Clock) (m : PacketMsg) : Str :=
  pktPutMsgHdr ck m.1 ++ m.2.flatten ++ [nul]

/-- `pkt_put_hdr`, the messages and the final 0-word of `pkt_close`. -/
def writePacket (ck : Clock) (major minor : Int) (pkt : Packet) (msgs : List PacketMsg) : Str :=
  pktPutHdr ck major minor pkt ++ msgs.flatMap (writeMessage ck) ++ pktPutInt16 0

end Fidogate

/-
# `Fidogate.Toss.Echomail` — ftntoss.c: distribution of echomail

`do_echomail` takes one message through the access checks, the dupe check and
the SEEN-BY and PATH processing, and writes a copy for each downlink.  The
bytes of a copy are those of `pktPutMsgHdr` and `msgPutMsgbody`; here a copy is
its header and body.  Counters and notifications are not modelled.
-/
import Mathlib.Data.List.Sort
import Fidogate.Areafix.Commands
import Fidogate.Common.Hex
import Fidogate.Common.Message

namespace Fidogate

open Bytes

/-! ## Addresses without their zone -/

/-- `node_eq_echo`. -/
def nodeEqEcho (a b : Node) : Bool := a.net == b.net && a.node == b.node && a.point == b.point

/-- `node_eq_echo_pa`: the boss of a point counts as well. -/
def nodeEqEchoPa (a b : Node) : Bool :=
  a.net == b.net && a.node == b.node && (a.point == 0 || a.point == b.point)

/-- `lon_search_echo`. -/
def lonSearchEcho (lon : List Node) (n : Node) : Bool := lon.any (nodeEqEcho · n)

/-- `is_local_addr`. -/
def isLocalAddr (cf : Config) (n : Node) (only3d : Bool) : Bool :=
  (cf.main :: cf.akas).any fun a => if only3d then nodeEqEcho n a.addr else nodeEq n a.addr

/-! ## SEEN-BY and PATH lines -/

/-- `MAX_LENGTH` of a line. -/
def MAX_LENGTH : Nat := 76

def crlf : Str := [cr, lf]

/-- The lines finished so far, the line in the buffer, and the node before. -/
structure KludgeBuf where
  lines : List Str
  buf : Str
  old : Node

/-- One node more in the buffer, or at the start of a new line. -/
def kludgeStep (zone : Int) (text : Str) (b : KludgeBuf) (n : Node) : KludgeBuf :=
  let n := { n with zone := zone }
  let s := nodeToAscDiff n b.old
  if b.buf.length + s.length + 1 > MAX_LENGTH then
    ⟨b.lines ++ [b.buf ++ crlf], text ++ lit " " ++ nodeToAscDiff n (nodeOld zone), n⟩
  else ⟨b.lines, b.buf ++ lit " " ++ s, n⟩

/-- The nodes that are written: points only with EchoMail4D. -/
def kludgeNodes (d4 : Bool) (lon : List Node) : List Node := lon.filter fun n => n.point == 0 || d4

/-- `lon_to_kludge`; its return code says whether a node was written. -/
def lonToKludge (zone : Int) (d4 : Bool) (text : Str) (lon : List Node) : List Str × Bool :=
  let b := (kludgeNodes d4 lon).foldl (kludgeStep zone text) ⟨[], text, nodeOld zone⟩
  (b.lines ++ [b.buf ++ crlf], ! (kludgeNodes d4 lon).isEmpty)

/-- `lon_sort`. -/
def lonSort (lon : List Node) : List Node := lon.insertionSort fun a b => ! nodeLt b a

/-- `lon_to_kludge_sorted`. -/
def lonToKludgeSorted (zone : Int) (d4 : Bool) (text : Str) (lon : List Node) : List Str :=
  (lonToKludge zone d4 text (lonSort lon)).1

/-- The addresses of a line, behind its keyword. -/
def kludgeArgs (l : Str) : Str :=
  let p := l.dropWhile fun c => ! isSpace c && c != 58
  let p := if p.head? == some 58 then p.tail else p
  stripCrlf (bufCopy BUFFERSIZE (p.dropWhile isSpace))

/-- `kludge_to_lon`. -/
def kludgeToLon (zone : Int) (lines : List Str) : List Node :=
  lines.flatMap fun l => ascToNodes (nodeOld zone) (strtok blanks (kludgeArgs l))

/-! ## Kludges -/

/-- `kludge_from_tline`, the line as a whole. -/
def isKludge (name l : Str) : Bool :=
  l.head? == some soh && hasPrefixI name l.tail &&
    (l[name.length + 1]? == some sp || l[name.length + 1]? == some 58)

/-- `kludge_get`: the line. -/
def kludgeGet (kludges : List Str) (name : Str) : Option Str := kludges.find? (isKludge name)

/-- `msg_parse_origin`: the address, or `none` for ERROR. -/
def msgParseOrigin (zone : Int) (origin : Option Str) : Option Node := do
  let buf ← origin
  if buf.contains 41 && buf.contains 40 then
    -- the text between the last bracket open and the last one closed
    let buf := (buf.reverse.dropWhile (· != 41)).tail.reverse
    let left := if buf.contains 40 then (buf.reverse.takeWhile (· != 40)).reverse else []
    ascToNode false zone (left.dropWhile (! isDigit ·))
  else none

/-! ## State and options -/

/-- Options of the command line and the configuration; `deleteseenby` and
`deletepath` have the nodes of each line. -/
structure TossOptions where
  tFlag : Bool
  nFlag : Bool
  pFlag : Bool
  killUnknown : Bool
  killRouted : Bool
  killInsecure : Bool
  killCircular : Bool
  checkPath : Bool
  dupeCheck : Bool
  killDupe : Bool
  killNomsgid : Bool
  killOld : Bool
  echomail4d : Bool
  noEmptyPath : Bool
  addOtherAka : Bool
  checkPointOriginAddr : Bool
  autocreateLine : Str
  addto : List (Str × List Node)
  deleteseenby : List (List Node)
  deletepath : List (List Node)
  zonegate : List (Node × List Node)
  deriving DecidableEq, Repr

/-- A message written to the packet for a node, or to the bad packet. -/
structure Copy where
  node : Node
  msg : Message
  body : MsgBody
  deriving DecidableEq, Repr

/-- The state of ftntoss: areas list and configuration, MSGID history, and the
messages written. -/
structure Toss where
  af : Areafix
  hist : List Str
  copies : List Copy
  bad : List Copy

/-- What a message meets outside the program. -/
structure TossWorld extends World where
  clock : Clock
  /-- Messages before this time are old. -/
  expSec : Int
  /-- Whether the packet for a node can be written. -/
  opens : Node → Bool

/-- What became of a message. -/
inductive Verdict
  | insecure | unknownArea | dupe | routed | unlinked | circular | waiting | passiveState
  /-- `do_deletepath` reads through a null pointer. -/
  | crashed
  /-- A copy could not be written. -/
  | failed
  | tossed
  deriving DecidableEq, Repr

/-- `do_bad_msg`, unless the message is to be killed. -/
def doBadMsg (kill : Bool) (msg : Message) (body : MsgBody) (st : Toss) : Toss :=
  if kill then st else { st with bad := st.bad ++ [⟨msg.nodeTo, msg, body⟩] }

/-! ## The area -/

/-- The name in the AREA line. -/
def areaName (body : MsgBody) : Str :=
  stripCrlf (bufCopy BUFSIZ ((body.area.getD []).drop 5))

/-- No origin address, a point that is not in it, or a wrong packet password. -/
def echoInsecure (o : TossOptions) (t : Tables) (pkt : Packet) (msg : Message) : Bool :=
  nodeEq nodeInvalid msg.nodeOrig ||
  o.checkPointOriginAddr && pkt.src.point != 0 && ! nodeEq msg.nodeOrig pkt.src ||
  match passwdLookup t.passwds (lit "packet") msg.nodeFrom with
  | some pwd => ! strieq pkt.passwd pwd.passwd
  | none => false

/-- The line for `cmd_new`: the name, the configured options, and those of the
uplink. -/
def autocreateCmd (o : TossOptions) (t : Tables) (node : Node) (name : Str) : Str :=
  match (uplinksLineGet t.uplinks true node).bind (·.options) with
  | some opts => (name ++ lit " " ++ o.autocreateLine ++ lit " " ++ opts).take BUFSIZ
  | none => (name ++ lit " " ++ o.autocreateLine).take BUFSIZ

/-- The creation of an area that is not in the list, as far as it comes. -/
def echoCreate (o : TossOptions) (t : Tables) (w : World) (node : Node) (name : Str)
    (st : Areafix) : Areafix :=
  let st := { st with auth := areafixAuthCheck t w.stale node none false }
  if ! st.auth.new || checkForbiddenArea t w st.cf name then st
  else (cmdNewInt t w node (autocreateCmd o t node name) false st).2

/-- The areas list in which the area is looked up. -/
def echoAreas (o : TossOptions) (t : Tables) (w : World) (node : Node) (name : Str)
    (st : Areafix) : Areafix :=
  match areasbbsLookup st.areas name with
  | some _ => st
  | none => echoCreate o t w node name st

/-- The address for an area. -/
def echoAddr (cf : Config) (area : AreasBBS) : Config :=
  let cf := if area.zone != -1 then cfSetZone cf area.zone else cf
  if area.addr.zone != -1 then cfSetCurr cf area.addr else cf

/-! ## The dupe check -/

/-- The key of a message with a MSGID kludge. -/
def msgidKey (area line : Str) : Str :=
  (stripCrlf ((area ++ lit " " ++ if line.head? == some soh then line.tail else line).take
    BUFFERSIZE)).map fun c => if c == tab || c == cr || c == lf then 95 else c

/-- The key of a message without one. -/
def nomsgidKey (w : TossWorld) (area : Str) (orig : Node) (msg : Message) : Str :=
  let crc := [msg.nameFrom, msg.nameTo, msg.subject].foldl crc32Compute 0xFFFFFFFF
  (area ++ lit " NOMSGID: " ++ znfp1 orig ++ lit " " ++
    dateTz w.clock (lit "%y%m%d %H%M%S") msg.date none ++ lit " " ++
    putHex8 (crc ^^^ 0xFFFFFFFF)).take (BUFFERSIZE - 1)

/-- The key a message has in the history; `none` is treated as a dupe. -/
def dupeKey (o : TossOptions) (w : TossWorld) (zone : Int) (area : Str) (msg : Message)
    (body : MsgBody) : Option Str :=
  match kludgeGet body.kludge (lit "MSGID") with
  | some line => some (msgidKey area line)
  | none =>
      if o.killNomsgid then none
      else (msgParseOrigin zone body.origin).map (nomsgidKey w area · msg)

/-- Whether the message is from our own address or a linked node. -/
def echoLinked (cf : Config) (area : AreasBBS) (msg : Message) : Bool :=
  nodeEq cf.curAddr msg.nodeFrom || lonSearch area.nodes msg.nodeFrom

/-- The dupe check: `none` for a dupe, else the history with the message. -/
def echoDupe (o : TossOptions) (w : TossWorld) (cf : Config) (area : AreasBBS) (msg : Message)
    (body : MsgBody) (hist : List Str) : Option (List Str) :=
  if ! o.dupeCheck then some hist
  else
    match dupeKey o w cf.defzone area.area msg body with
    | none => none
    | some key =>
        if o.killOld && msg.date < w.expSec then none
        else if hist.contains key then none
        else if echoLinked cf area msg then some (key :: hist)
        else some hist

/-! ## SEEN-BY and PATH -/

/-- `do_4dpoint`. -/
def do4dpoint (seenby path : List Node) (src addr : Node) : List Node × List Node :=
  let sole := fun l : List Node =>
    match l with
    | [n] => if nodeEqEchoPa n src then [src] else [n]
    | l => l
  let seenby := sole seenby
  (if lonSearchEcho seenby addr then seenby else seenby ++ [addr], sole path)

/-- `do_seenby` at the `j`-th node: SEEN-BY, and the nodes it grew by.  Without
a list of passive nodes nothing is added. -/
def doSeenby (passive : Option (List Node)) (cup : Int) (src : Node) :
    Int → List Node → List Node → List Node × List Node
  | _, [], seenby => (seenby, [])
  | j, p :: ps, seenby =>
      if ! lonSearchEcho seenby p && ! (j < cup || nodeEq src p) &&
          passive.any (! lonSearch · p) then
        let r := doSeenby passive cup src (j + 1) ps (seenby ++ [p])
        (r.1, p :: r.2)
      else doSeenby passive cup src (j + 1) ps seenby

/-- Add a node to a list unless it is there. -/
def addEcho (lon : List Node) (n : Node) : List Node :=
  if lonSearchEcho lon n then lon else lon ++ [n]

/-- Add a node at the end unless it is the last one. -/
def addLast (path : List Node) (n : Node) : List Node :=
  if (path.getLast?.map (nodeEqEcho · n)).getD false then path else path ++ [n]

/-- `do_deleteseenby`: the nodes of the first line, each as often as it stands
there. -/
def doDeleteseenby (deleteseenby : List (List Node)) (seenby : List Node) : List Node :=
  (deleteseenby.headD []).foldl lonRemove seenby

/-- `do_deletepath`: it takes the list of `do_deleteseenby`, and there is no
value where there is none. -/
def doDeletepath (deleteseenby : List (List Node)) (path : List Node) : Option (List Node) :=
  deleteseenby.head?.map fun ln => ln.foldl lonRemove path

/-- PATH behind `do_deletepath`, where it is called. -/
def echoDeletepath (o : TossOptions) (path : List Node) : Option (List Node) :=
  if o.deletepath.isEmpty then some path else doDeletepath o.deleteseenby path

/-- SEEN-BY behind `do_deleteseenby`, where it is called. -/
def echoDeleteseenby (o : TossOptions) (seenby : List Node) : List Node :=
  if o.deleteseenby.isEmpty then seenby else doDeleteseenby o.deleteseenby seenby

/-- SEEN-BY, PATH and the nodes the message goes to. -/
structure Routes where
  seenby : List Node
  path : List Node
  new : List Node
  deriving DecidableEq, Repr

/-- Whether our own address gets a copy. -/
def echoToUs (o : TossOptions) (cf : Config) (area : AreasBBS) (msg : Message) : Bool :=
  ! o.pFlag && ! nodeEq msg.nodeFrom cf.curAddr &&
    (! area.passthru || lonSearch area.nodes cf.curAddr)

/-- The SEEN-BY list the area's nodes are looked up in: the one received, with
our address, the sender and the addressee. -/
def echoSeen (cf : Config) (msg : Message) (body : MsgBody) : List Node :=
  let r := do4dpoint (kludgeToLon cf.curZone body.seenby) [] msg.nodeFrom cf.curAddr
  addEcho (addEcho r.1 msg.nodeFrom) msg.nodeTo

/-- The PATH with the packet's sender and our address. -/
def echoPath (cf : Config) (pkt : Packet) (msg : Message) (body : MsgBody) : List Node :=
  let r := do4dpoint [] (kludgeToLon cf.curZone body.path) msg.nodeFrom cf.curAddr
  addLast (addLast r.2 pkt.src) cf.curAddr

/-- SEEN-BY / PATH processing. -/
def echoRoutes (o : TossOptions) (cf : Config) (area : AreasBBS) (pkt : Packet) (msg : Message)
    (body : MsgBody) : Routes :=
  let r := doSeenby (some area.passive) area.uplinks msg.nodeFrom 1 area.nodes
    (echoSeen cf msg body)
  let seenby := match o.addto.find? fun a => wildmatch area.area a.1 true with
    | some a => (doSeenby none 0 msg.nodeFrom 1 a.2 r.1).1
    | none => r.1
  let akas := ((cf.main :: cf.akas).map (·.addr)).filter (·.zone == cf.curZone)
  let seenby := if o.addOtherAka then akas.foldl addEcho seenby else seenby
  let path := echoPath cf pkt msg body
  { seenby := echoDeleteseenby o seenby
    -- without a value `echoChecks` does not let the message pass
    path := (echoDeletepath o path).getD path
    new := r.2 ++ if echoToUs o cf area msg then [cf.curAddr] else [] }

/-- `do_check_path`: an own address before the end. -/
def doCheckPath (cf : Config) (path : List Node) : Bool :=
  path.dropLast.any (isLocalAddr cf · true)

/-! ## Writing -/

/-- The body with the new SEEN-BY and PATH lines. -/
def echoBody (o : TossOptions) (cf : Config) (r : Routes) (body : MsgBody) : MsgBody :=
  let path := lonToKludge cf.curZone o.echomail4d (soh :: lit "PATH:") r.path
  { body with
    seenby := lonToKludgeSorted cf.curZone o.echomail4d (lit "SEEN-BY:") r.seenby
    path := if o.noEmptyPath && ! path.2 then [] else path.1 }

/-- The copy for a node: a zone gate gets its own SEEN-BY lines. -/
def echoCopy (o : TossOptions) (cf : Config) (msg : Message) (body : MsgBody) (n : Node) : Copy :=
  { node := n
    msg := { msg with nodeTo := n, nodeFrom := cf.curAddr }
    body := match o.zonegate.find? fun z => nodeEq n z.1 with
      | some z =>
          { body with
            seenby := lonToKludgeSorted cf.curZone o.echomail4d (lit "SEEN-BY:") z.2 }
      | none => body }

/-- `toss_echomail`: the copies up to the first that cannot be written, and
whether all could. -/
def tossEchomail (o : TossOptions) (cf : Config) (w : TossWorld) (msg : Message) (body : MsgBody)
    (passive : List Node) (new : List Node) : List Copy × Bool :=
  let nodes := new.filter (! lonSearch passive ·)
  ((nodes.takeWhile w.opens).map (echoCopy o cf msg body), nodes.all w.opens)

/-- The area's entry when a message is tossed. -/
def echoArea (w : World) (area : AreasBBS) : AreasBBS :=
  { area with
    state := if areasbbsIsstate area.state 85 || areasbbsIsstate area.state 87 ||
        areasbbsIsstate area.state 70 then areasbbsChstate area.state (lit "UWF") 83
      else area.state
    time := w.now }

/-- Whether the message is addressed to one of our AKAs. -/
def echoLocal (o : TossOptions) (cf : Config) (msg : Message) : Bool :=
  o.nFlag || nodeEq msg.nodeTo cf.curAddr || isLocalAddr cf msg.nodeTo false

/-- Whether a downlink writes to an area that waits for its uplink. -/
def echoWaiting (area : AreasBBS) (msg : Message) : Bool :=
  ! lonIsUplink area.nodes area.uplinks msg.nodeFrom && areasbbsIsstate area.state 87

/-- Whether the area is passive. -/
def echoPassive (area : AreasBBS) : Bool :=
  ! (areasbbsIsstate area.state 85 || areasbbsIsstate area.state 87 ||
    areasbbsIsstate area.state 70) && areasbbsIsstate area.state 80

/-- What the checks behind the dupe check say. -/
def echoChecks (o : TossOptions) (cf : Config) (area : AreasBBS) (msg : Message) (r : Routes) :
    Option Verdict :=
  if ! echoLocal o cf msg then some .routed
  else if ! o.tFlag && ! echoLinked cf area msg then some .unlinked
  else if ! o.deletepath.isEmpty && o.deleteseenby.isEmpty then some .crashed
  else if o.checkPath && doCheckPath cf r.path then some .circular
  else if echoWaiting area msg then some .waiting
  else if echoPassive area then some .passiveState
  else none

/-- Whether a message turned down is deleted; after a crash nothing is
written. -/
def killed (o : TossOptions) : Verdict → Bool
  | .insecure => o.killInsecure
  | .unknownArea => o.killUnknown
  | .dupe => o.killDupe
  | .routed => o.killRouted
  | .unlinked => o.killInsecure
  | .circular => o.killCircular
  | .waiting => o.killCircular
  | .crashed => true
  | _ => false

/-- A message turned down goes to the bad packet, or is deleted. -/
def echoReject (o : TossOptions) (v : Verdict) (msg : Message) (body : MsgBody) (st : Toss) :
    Verdict × Toss := (v, doBadMsg (killed o v) msg body st)

/-- `do_echomail` once the area is known; its address is the current one. -/
def echoDistribute (o : TossOptions) (w : TossWorld) (pkt : Packet) (msg : Message)
    (body : MsgBody) (area : AreasBBS) (st : Toss) : Verdict × Toss :=
  let cf := st.af.cf
  match echoDupe o w cf area msg body st.hist with
  | none => echoReject o .dupe msg body st
  | some hist =>
      let r := echoRoutes o cf area pkt msg body
      match echoChecks o cf area msg r with
      | some v => echoReject o v msg body { st with hist := hist }
      | none =>
          let out := tossEchomail o cf w msg (echoBody o cf r body) area.passive r.new
          (if out.2 then .tossed else .failed,
            { st with
              hist := hist
              af := { st.af with
                areas := areasbbsUpdate (areaName body) (echoArea w.toWorld) st.af.areas
                changed := true }
              copies := st.copies ++ out.1 })

/-- `do_echomail`. -/
def doEchomail (o : TossOptions) (t : Tables) (w : TossWorld) (pkt : Packet) (msg : Message)
    (body : MsgBody) (st : Toss) : Verdict × Toss :=
  if echoInsecure o t pkt msg then echoReject o .insecure msg body st
  else
    let af := echoAreas o t w.toWorld msg.nodeFrom (areaName body) st.af
    match areasbbsLookup af.areas (areaName body) with
    | none => echoReject o .unknownArea msg body { st with af := af }
    | some area =>
        echoDistribute o w pkt msg body area
          { st with af := { af with cf := echoAddr af.cf area } }

end Fidogate

/-
# `Fidogate.Toss.Ftnroute` — ftnroute.c: routing packets

A packet is copied message by message to the output packet its routing leads
to, or moved as a whole.  What the file operations do is given beforehand.  The
loop of `do_packet` reads and writes in turn; for what becomes of the messages
it is taken apart into what it reads (`readAll`) and what is written of it
(`writeAll`).
-/
import Fidogate.Common.Outpkt
import Fidogate.Toss.Netmail
import Fidogate.Packet.Append
import Fidogate.Toss.Noarc

namespace Fidogate

open Bytes

/-! ## Routing -/

def TYPE_ECHOMAIL : UInt8 := 101
def TYPE_NETMAIL : UInt8 := 110
def TYPE_TICK : UInt8 := 116
def FLAV_NONE : UInt8 := 45
def FLAV_NORMAL : UInt8 := 110
def FLAV_HOLD : UInt8 := 104
def FLAV_CRASH : UInt8 := 99
def FLAV_DIRECT : UInt8 := 100

/-- `PktDesc` of ftnroute. -/
structure RouteDesc where
  src : Node
  dst : Node
  grade : UInt8
  type : UInt8
  flav : UInt8
  moveOnly : Bool

/-- `CMD_SEND`, `CMD_SENDMOVE`, `CMD_ROUTE`, `CMD_CHANGE`. -/
inductive RouteCmd
  | send
  | sendmove
  | route
  | change
  deriving DecidableEq, Repr

/-- `Routing`; there is at least one node. -/
structure Routing where
  type : UInt8
  cmd : RouteCmd
  flav : UInt8
  flavNew : UInt8
  first : Node
  rest : List Node

/-- `CMD_XROUTE`, `CMD_HOSTROUTE`, `CMD_HUBROUTE`, `CMD_BOSSROUTE`. -/
inductive MkRouteCmd
  | xroute
  | hostroute
  | hubroute
  | bossroute
  deriving DecidableEq, Repr

/-- `MkRoute`. -/
structure MkRoute where
  uplink : Node
  links : List Node
  cmd : MkRouteCmd
  flav : UInt8

/-- The program: where packets go, whether fields of messages must keep to their
limits, the C library's `mktime`, the routing file, and the database of hubs:
for a node the node its entry names, if there is an entry and a node in it. -/
structure RouteEnv where
  out : OutpktEnv
  strict : Bool
  mktime : Tm → Int
  mkroute : List MkRoute
  routing : List Routing
  hubs : Node → Option (Option Node)

/-- `parse_pkt_name`. -/
def parsePktName (name : Str) (src dst : Node) : Option RouteDesc :=
  match (name.reverse.takeWhile (· != 47)).reverse with
  | grade :: type :: flav :: rest =>
      if rest.length != 9 then none
      else if [TYPE_ECHOMAIL, TYPE_NETMAIL, TYPE_TICK].contains type &&
          [FLAV_NORMAL, FLAV_HOLD, FLAV_CRASH, FLAV_DIRECT].contains flav then
        some ⟨src, dst, grade, type, flav, false⟩
      else some ⟨src, dst, FLAV_NONE, FLAV_NONE, FLAV_NORMAL, false⟩
  | _ => none

/-- Parts that are empty or wildcards become 0. -/
def zeroWild (n : Node) : Node :=
  let part := fun v : Int => if v == EMPTY || v == WILDCARD then 0 else v
  { n with zone := part n.zone, net := part n.net, node := part n.node, point := part n.point }

/-- `do_cmd`: whether the command applies. -/
def doCmd (desc : RouteDesc) (r : Routing) (found : Node) : RouteDesc × Bool :=
  let (desc, ret) : RouteDesc × Bool :=
    match r.cmd with
    | .send =>
        if desc.flav == FLAV_NORMAL then
          ({ desc with
              flav := r.flav, moveOnly := false
              dst := if found.point == EMPTY then { desc.dst with point := 0 } else desc.dst }, true)
        else (desc, false)
    | .sendmove =>
        if desc.flav == FLAV_NORMAL then ({ desc with flav := r.flav, moveOnly := true }, true)
        else (desc, false)
    | .route =>
        if desc.flav == FLAV_NORMAL then
          ({ desc with flav := r.flav, dst := r.first, moveOnly := false }, true)
        else (desc, false)
    | .change =>
        if desc.flav == r.flav then ({ desc with flav := r.flavNew, moveOnly := false }, true)
        else (desc, false)
  ({ desc with dst := zeroWild desc.dst }, ret)

/-- `do_cmd_mkroute`. -/
def doCmdMkroute (hubs : Node → Option (Option Node)) (desc : RouteDesc) (r : MkRoute) :
    RouteDesc × Bool :=
  let linked := r.links.any (nodeMatch desc.dst)
  let (desc, ret) : RouteDesc × Bool :=
    match r.cmd with
    | .xroute =>
        match r.links with
        | a :: b :: _ =>
            if nodeMatch desc.src a && nodeMatch desc.dst b then
              ({ desc with dst := r.uplink, flav := r.flav, moveOnly := false }, true)
            else (desc, false)
        | _ => (desc, false)
    | .hostroute =>
        if linked then
          ({ desc with
              flav := r.flav, dst := { desc.dst with node := 0, point := 0 }, moveOnly := false },
            true)
        else (desc, false)
    | .hubroute =>
        if linked then
          match hubs desc.dst with
          | none => (desc, false)
          | some none => ({ desc with moveOnly := false }, true)
          | some (some hub) => ({ desc with dst := { hub with point := 0 }, moveOnly := false }, true)
        else (desc, false)
    | .bossroute =>
        if desc.flav == r.flav && linked then
          ({ desc with dst := { desc.dst with point := 0 }, moveOnly := false }, true)
        else (desc, false)
  ({ desc with dst := zeroWild desc.dst }, ret)

/-- The loop over the MkRoute commands. -/
def mkrouteLoop (hubs : Node → Option (Option Node)) (desc : RouteDesc) :
    List MkRoute → RouteDesc × Bool
  | [] => (desc, false)
  | r :: rs =>
      let (desc, ret) := doCmdMkroute hubs desc r
      if ret then (desc, true) else mkrouteLoop hubs desc rs

/-- The loop over the routing commands. -/
def routingLoop (desc : RouteDesc) : List Routing → RouteDesc
  | [] => desc
  | r :: rs =>
      match if desc.type == r.type then (r.first :: r.rest).find? (nodeMatch desc.dst) else none with
      | none => routingLoop desc rs
      | some found =>
          let (desc, ret) := doCmd desc r found
          if ret then desc else routingLoop desc rs

/-- The target of a packet, as `do_routing` finds it. -/
def routeTarget (e : RouteEnv) (name : Str) (pkt : Packet) : Option RouteDesc := do
  let desc ← parsePktName name pkt.src pkt.dst
  let (desc, ready) := if desc.type == TYPE_NETMAIL then mkrouteLoop e.hubs desc e.mkroute
    else (desc, false)
  some (if ready then desc else routingLoop desc e.routing)

/-! ## Reading and writing messages -/

/-- What `do_packet` goes on with after a message: the message before, `buffer`,
and the rest of the file. -/
structure PacketReader where
  msg : Message
  buf : Str
  fp : Str

/-- Why there is no further message: the end of the file, an error in a header,
a direct message, an error in a body. -/
inductive ReadStop
  | eof
  | header
  | direct
  | body
  deriving DecidableEq, Repr

/-- What is written of a message: the header with the address lines of a
netmail, and the body. -/
def routeTexts (ck : Clock) (zone : Int) (msg : Message) (body : MsgBody) : Str × Str :=
  if body.area.isNone then
    let msg := kludgePtIntlMsg zone body.kludge msg
    (pktPutMsgHdr ck msg ++ (addrKludges msg).flatten, msgPutMsgbody (kludgePtIntlBody body))
  else (pktPutMsgHdr ck msg, msgPutMsgbody body)

/-- The reading part of a round; `ioerr` tells that the file ends in an error of
the device, which `xfeof` takes for its end. -/
def readRound (e : RouteEnv) (ck : Clock) (pkt : Packet) (desc : RouteDesc) (ioerr : Bool)
    (r : PacketReader) : Except ReadStop ((Str × Str) × PacketReader) :=
  if r.fp = [] then .error .eof
  else
    match pktGetMsgHdr ck e.strict { r.msg with nodeFrom := pkt.src, nodeTo := pkt.dst } r.fp with
    | none => .error .header
    | some (msg, fp) =>
        if msg.attr / MSG_DIRECT % 2 == 1 && ! nodeEq desc.dst pkt.dst then .error .direct
        else
          let g := pktGetBodyParse msg.nodeTo r.buf fp
          if g.code != OK || ioerr && g.type == .error then .error .body
          else
            .ok (routeTexts ck (cfSetZone e.out.cf desc.dst.zone).curZone msg g.msg,
              ⟨msg, g.buf, g.fp⟩)

/-- What happens when a message is written: how many bytes get into the file,
whether `ferror` sees an error behind the header or the body, and whether there
was a signal. -/
structure PutOutcome where
  limit : Option Nat := none
  header : Bool := false
  body : Bool := false
  signal : Bool := false

/-- The loop: what got into the output packet, a piece for each message, and why
the reading ended; `none` is a break after a message. -/
def routeLoop (read : PacketReader → Except ReadStop ((Str × Str) × PacketReader))
    (o : Nat → PutOutcome) : Nat → Nat → PacketReader → List Str × Option ReadStop
  | 0, _, _ => ([], none)
  | n + 1, i, r =>
      match read r with
      | .error stop => ([], some stop)
      | .ok (text, r) =>
          if (o i).header then ([kept (o i).limit text.1], none)
          else if (o i).body || (o i).signal then ([kept (o i).limit (text.1 ++ text.2)], none)
          else
            let (out, stop) := routeLoop read o n (i + 1) r
            (kept (o i).limit (text.1 ++ text.2) :: out, stop)

/-- The loop of `do_packet` with the word in front of the first message. -/
def routeMessages (e : RouteEnv) (ck : Clock) (pkt : Packet) (desc : RouteDesc) (ioerr : Bool)
    (o : Nat → PutOutcome) (buf fp : Str) : List Str × Option ReadStop :=
  let type := pktGetInt16 fp
  if type.1 == MSG_TYPE then
    routeLoop (readRound e ck pkt desc ioerr) o (fp.length + 1) 0 ⟨Message.clear, buf, type.2⟩
  else ([], some .eof)

/-! ## Packets -/

/-- What happens with a packet: whether it can be opened, how much of it can be
read, what `outpkt_open` meets, the messages, `fclose` and `unlink` of the input
packet, and the sequencer and `rename` of `do_move`. -/
structure RouteOutcomes where
  opened : Bool := true
  readable : Option Nat := none
  outpkt : OpenOutcomes := {}
  puts : Nat → PutOutcome := fun _ => {}
  close : Bool := true
  unlink : Bool := true
  seq : Int := 0
  rename : Bool := true

/-- What becomes of the input packet. -/
inductive PacketFate
  | kept
  | moved (name : Str)
  | removed
  deriving DecidableEq, Repr

/-- What a call leaves: the pieces that got into the output packet, the input
packet, whether a stream of the pool was closed behind its back, and what is
returned. -/
structure RouteEnd where
  out : List Str
  fate : PacketFate
  stray : Bool
  ret : Int

/-- `do_move`. -/
def doMove (e : RouteEnv) (o : RouteOutcomes) (name : Str) (desc : RouteDesc) (s : Outpkts) :
    Outpkts × PacketFate × Int :=
  let new := outpktOutputname e.out.outdir desc.grade desc.type desc.flav (outpktSequencer o.seq)
    (lit "pkt")
  if o.rename then
    ({ s with files := Files.Call.apply s.files (.rename name new) }, .moved new, OK)
  else (s, .kept, ERROR)

/-- The end of `do_packet`. -/
def endPacket (e : RouteEnv) (o : RouteOutcomes) (name : Str) (pkt : Packet) (desc : RouteDesc)
    (s : Outpkts) (out : List Str) : Option ReadStop → Outpkts × RouteEnd
  | some .direct =>
      -- the stream is closed, but the pool does not know
      let (s, fate, ret) := doMove e o name { desc with dst := pkt.dst } s
      (s, ⟨out, fate, true, ret⟩)
  | some .body => (s, ⟨out, .kept, false, ERROR⟩)
  | some .eof =>
      if o.close && o.unlink then
        ({ s with files := Files.Call.apply s.files (.unlink name) }, ⟨out, .removed, false, OK⟩)
      else (s, ⟨out, .kept, false, ERROR⟩)
  | some .header | none => (s, ⟨out, .kept, false, ERROR⟩)

/-- `do_packet`. -/
def doPacket (e : RouteEnv) (ck : Clock) (o : RouteOutcomes) (name : Str) (pkt : Packet)
    (desc : RouteDesc) (ioerr : Bool) (buf fp : Str) (s : Outpkts) : Outpkts × RouteEnd :=
  match outpktOpen e.out ck o.outpkt ⟨desc.src, desc.dst, desc.grade, desc.type, desc.flav, false⟩
    s with
  | (s, none) => (s, ⟨[], .kept, false, ERROR⟩)
  | (s, some out) =>
      let r := routeMessages e ck pkt desc ioerr o.puts buf fp
      endPacket e o name pkt desc (s.put out none r.1.flatten) r.1 r.2

/-- The packet that is opened: its header, where it goes, and what can be read
behind the header. -/
def openPacket (e : RouteEnv) (ck : Clock) (o : RouteOutcomes) (name c : Str) :
    Option (Packet × RouteDesc × Str) :=
  let fp := (o.readable.map c.take).getD c
  match if o.opened then pktGetHdr ck e.mktime e.out.cf.defzone fp else (ERROR, none, []) with
  | (code, some pkt, rest) =>
      if code == ERROR then none else (routeTarget e name pkt).map (pkt, ·, rest)
  | (_, none, _) => none

/-- `do_file`: `c` is what is in the packet. -/
def doFile (e : RouteEnv) (ck : Clock) (o : RouteOutcomes) (name buf c : Str) (s : Outpkts) :
    Outpkts × RouteEnd :=
  match openPacket e ck o name c with
  | none => (s, ⟨[], .kept, false, ERROR⟩)
  | some (pkt, desc, fp) =>
      if desc.moveOnly then
        let (s, fate, ret) := doMove e o name desc s
        (s, ⟨[], fate, false, ret⟩)
      else
        doPacket e ck o name pkt desc (o.readable.any (· < c.length)) buf fp s

/-! ## Reading apart from writing -/

/-- What a reader reads, and why it ends. -/
def readAll (read : PacketReader → Except ReadStop ((Str × Str) × PacketReader)) :
    Nat → PacketReader → List (Str × Str) × ReadStop
  | 0, _ => ([], .body)
  | n + 1, r =>
      match read r with
      | .error stop => ([], stop)
      | .ok (text, r) => (text :: (readAll read n r).1, (readAll read n r).2)

/-- The loop is left behind the message. -/
def PutOutcome.breaks (o : PutOutcome) : Bool := o.header || o.body || o.signal

/-- What is written of the messages that are read. -/
def writeAll (o : Nat → PutOutcome) (stop : ReadStop) : Nat → List (Str × Str) →
    List Str × Option ReadStop
  | _, [] => ([], some stop)
  | i, text :: texts =>
      if (o i).header then ([kept (o i).limit text.1], none)
      else if (o i).body || (o i).signal then ([kept (o i).limit (text.1 ++ text.2)], none)
      else
        (kept (o i).limit (text.1 ++ text.2) :: (writeAll o stop (i + 1) texts).1,
          (writeAll o stop (i + 1) texts).2)

section

variable {read : PacketReader → Except ReadStop ((Str × Str) × PacketReader)}

/-- Every round takes some of the file. -/
def Shrinks (read : PacketReader → Except ReadStop ((Str × Str) × PacketReader)) : Prop :=
  ∀ r text r', read r = .ok (text, r') → r'.fp.length < r.fp.length

/-- The loop reads all there is, however many rounds it is given. -/
theorem routeLoop_eq (hread : Shrinks read) (o : Nat → PutOutcome) : ∀ {n m : Nat} (i : Nat)
    (r : PacketReader), r.fp.length < n → r.fp.length < m →
    routeLoop read o n i r = writeAll o (readAll read m r).2 i (readAll read m r).1
  | 0, _, _, _, h, _ => absurd h (Nat.not_lt_zero _)
  | _, 0, _, _, _, h => absurd h (Nat.not_lt_zero _)
  | n + 1, m + 1, i, r, hn, hm => by
      rw [routeLoop, readAll]
      cases hr : read r with
      | error stop => rfl
      | ok p =>
          obtain ⟨text, r'⟩ := p
          have hlt := hread r text r' hr
          dsimp only
          rw [writeAll, routeLoop_eq hread o (n := n) (m := m) (i + 1) r' (by omega) (by omega)]

/-- A reader that reads the same where the file goes on reads what the other
reads, and perhaps more. -/
theorem readAll_prefix {read' : PacketReader → Except ReadStop ((Str × Str) × PacketReader)}
    {lost : Str} (hread : ∀ r text r', read r = .ok (text, r') →
      read' { r with fp := r.fp ++ lost } = .ok (text, { r' with fp := r'.fp ++ lost })) :
    ∀ (n m : Nat) (r : PacketReader), n ≤ m →
      (readAll read n r).1 <+: (readAll read' m { r with fp := r.fp ++ lost }).1
  | 0, _, _, _ => List.nil_prefix
  | n + 1, 0, _, h => absurd h (Nat.not_succ_le_zero n)
  | n + 1, m + 1, r, h => by
      rw [readAll]
      cases hr : read r with
      | error stop => exact List.nil_prefix
      | ok p =>
          obtain ⟨text, r'⟩ := p
          rw [readAll, hread r text r' hr]
          exact (List.cons_prefix_cons).mpr
            ⟨rfl, readAll_prefix hread n m r' (Nat.le_of_succ_le_succ h)⟩

/-- What is read has a header. -/
theorem readAll_header (hread : ∀ r text r', read r = .ok (text, r') → text.1 ≠ []) :
    ∀ (n : Nat) (r : PacketReader), ∀ text ∈ (readAll read n r).1, text.1 ≠ []
  | 0, _ => List.forall_mem_nil _
  | n + 1, r => by
      rw [readAll]
      cases hr : read r with
      | error stop => exact List.forall_mem_nil _
      | ok p => exact List.forall_mem_cons.mpr ⟨hread r p.1 p.2 hr, readAll_header hread n p.2⟩

end

/-! ## What is written -/

/-- No byte gets into the file, up to the message the loop is left behind. -/
def Silent (o : Nat → PutOutcome) : Nat → List (Str × Str) → Prop
  | _, [] => True
  | i, _ :: texts => (o i).limit = some 0 ∧ ((o i).breaks = true ∨ Silent o (i + 1) texts)

/-- All messages get into the file, and the loop is not left. -/
def Entire (o : Nat → PutOutcome) : Nat → List (Str × Str) → Prop
  | _, [] => True
  | i, text :: texts => (o i).breaks = false ∧
      kept (o i).limit (text.1 ++ text.2) = text.1 ++ text.2 ∧ Entire o (i + 1) texts

/-- The loop is left behind some message. -/
def Breaks (o : Nat → PutOutcome) : Nat → List (Str × Str) → Bool
  | _, [] => false
  | i, _ :: texts => (o i).breaks || Breaks o (i + 1) texts

section

variable {o : Nat → PutOutcome} {stop : ReadStop}

theorem kept_eq_nil {limit : Option Nat} {bs : Str} (h : bs ≠ []) :
    kept limit bs = [] ↔ limit = some 0 := by
  cases limit with
  | none => exact ⟨fun hk => absurd hk h, fun hk => by cases hk⟩
  | some n =>
      show bs.take n = [] ↔ _
      rw [List.take_eq_nil_iff]
      exact ⟨fun hk => congrArg some (hk.resolve_right h), fun hk => Or.inl (Option.some.inj hk)⟩

theorem writeAll_stop : ∀ (i : Nat) (texts : List (Str × Str)),
    (writeAll o stop i texts).2 = if Breaks o i texts then none else some stop
  | _, [] => rfl
  | i, text :: texts => by
      rw [writeAll, Breaks, PutOutcome.breaks, Bool.or_assoc (o i).header]
      cases hh : (o i).header with
      | true => rfl
      | false =>
          cases hb : (o i).body || (o i).signal with
          | true => rfl
          | false => exact writeAll_stop (i + 1) texts

theorem writeAll_silent : ∀ (i : Nat) (texts : List (Str × Str)), (∀ text ∈ texts, text.1 ≠ []) →
    ((writeAll o stop i texts).1.flatten = [] ↔ Silent o i texts)
  | _, [], _ => ⟨fun _ => trivial, fun _ => rfl⟩
  | i, text :: texts, h => by
      have hne := h text List.mem_cons_self
      have hne' : text.1 ++ text.2 ≠ [] := List.append_ne_nil_of_left_ne_nil hne _
      have ih := writeAll_silent (i + 1) texts fun t ht => h t (List.mem_cons_of_mem _ ht)
      rw [writeAll, Silent, PutOutcome.breaks, Bool.or_assoc (o i).header]
      cases hh : (o i).header with
      | true =>
          rw [if_pos rfl, List.flatten_singleton, kept_eq_nil hne]
          exact ⟨fun hl => ⟨hl, Or.inl rfl⟩, fun hl => hl.1⟩
      | false =>
          rw [if_neg Bool.false_ne_true, Bool.false_or]
          cases hb : (o i).body || (o i).signal with
          | true =>
              rw [if_pos rfl, List.flatten_singleton, kept_eq_nil hne']
              exact ⟨fun hl => ⟨hl, Or.inl rfl⟩, fun hl => hl.1⟩
          | false =>
              rw [if_neg Bool.false_ne_true, List.flatten_cons, List.append_eq_nil_iff,
                kept_eq_nil hne', ih]
              exact ⟨fun hl => ⟨hl.1, Or.inr hl.2⟩,
                fun hl => ⟨hl.1, hl.2.resolve_left Bool.false_ne_true⟩⟩

/-- Where the loop is not left, all messages are written just where the pieces
are the messages. -/
theorem writeAll_entire : ∀ (i : Nat) (texts : List (Str × Str)), Breaks o i texts = false →
    ((writeAll o stop i texts).1 = texts.map (fun t => t.1 ++ t.2) ↔ Entire o i texts)
  | _, [], _ => ⟨fun _ => trivial, fun _ => rfl⟩
  | i, text :: texts, h => by
      rw [Breaks] at h
      obtain ⟨hbreaks, hrest⟩ := Bool.or_eq_false_iff.mp h
      have ih := writeAll_entire (i + 1) texts hrest
      have hsame := hbreaks
      rw [PutOutcome.breaks, Bool.or_assoc] at hsame
      obtain ⟨hh, hb⟩ := Bool.or_eq_false_iff.mp hsame
      rw [writeAll, Entire, hh, hb, if_neg Bool.false_ne_true, if_neg Bool.false_ne_true,
        List.map_cons, List.cons.injEq, ih]
      exact ⟨fun hl => ⟨hbreaks, hl⟩, fun hl => hl.2⟩

theorem length_writeAll : ∀ (i : Nat) (texts : List (Str × Str)), Breaks o i texts = false →
    (writeAll o stop i texts).1.length = texts.length
  | _, [], _ => rfl
  | i, text :: texts, h => by
      rw [Breaks] at h
      obtain ⟨hbreaks, hrest⟩ := Bool.or_eq_false_iff.mp h
      rw [PutOutcome.breaks, Bool.or_assoc] at hbreaks
      obtain ⟨hh, hb⟩ := Bool.or_eq_false_iff.mp hbreaks
      rw [writeAll, hh, hb, if_neg Bool.false_ne_true, if_neg Bool.false_ne_true, List.length_cons,
        length_writeAll (i + 1) texts hrest, List.length_cons]

theorem breaks_of_entire : ∀ (i : Nat) (texts : List (Str × Str)), Entire o i texts →
    Breaks o i texts = false
  | _, [], _ => rfl
  | i, _ :: texts, h => Bool.or_eq_false_iff.mpr ⟨h.1, breaks_of_entire (i + 1) texts h.2.2⟩

end

/-! ## Rounds -/

section

variable {e : RouteEnv} {ck : Clock} {pkt : Packet} {desc : RouteDesc} {ioerr : Bool}

/-- What a round that reads a message has read. -/
theorem readRound_ok {r r' : PacketReader} {text : Str × Str}
    (h : readRound e ck pkt desc ioerr r = .ok (text, r')) : ∃ msg fp,
    r.fp ≠ [] ∧
    pktGetMsgHdr ck e.strict { r.msg with nodeFrom := pkt.src, nodeTo := pkt.dst } r.fp =
      some (msg, fp) ∧
    (msg.attr / MSG_DIRECT % 2 == 1 && ! nodeEq desc.dst pkt.dst) = false ∧
    (pktGetBodyParse msg.nodeTo r.buf fp).code = OK ∧
    (ioerr = true → (pktGetBodyParse msg.nodeTo r.buf fp).type ≠ .error) ∧
    text = routeTexts ck (cfSetZone e.out.cf desc.dst.zone).curZone msg
      (pktGetBodyParse msg.nodeTo r.buf fp).msg ∧
    r' = ⟨msg, (pktGetBodyParse msg.nodeTo r.buf fp).buf,
      (pktGetBodyParse msg.nodeTo r.buf fp).fp⟩ := by
  unfold readRound at h
  by_cases hfp : r.fp = []
  · rw [if_pos hfp] at h
    cases h
  · rw [if_neg hfp] at h
    cases hhdr : pktGetMsgHdr ck e.strict { r.msg with nodeFrom := pkt.src, nodeTo := pkt.dst }
        r.fp with
    | none =>
        rw [hhdr] at h
        cases h
    | some p =>
        obtain ⟨msg, fp⟩ := p
        rw [hhdr] at h
        dsimp only at h
        cases hdirect : msg.attr / MSG_DIRECT % 2 == 1 && ! nodeEq desc.dst pkt.dst with
        | true =>
            rw [hdirect] at h
            cases h
        | false =>
            rw [hdirect, if_neg Bool.false_ne_true] at h
            cases hbody : (pktGetBodyParse msg.nodeTo r.buf fp).code != OK ||
                ioerr && (pktGetBodyParse msg.nodeTo r.buf fp).type == .error with
            | true =>
                rw [hbody] at h
                cases h
            | false =>
                rw [hbody, if_neg Bool.false_ne_true] at h
                obtain ⟨hcode, htype⟩ := Bool.or_eq_false_iff.mp hbody
                obtain ⟨htext, hr⟩ := Prod.mk.inj (Except.ok.inj h)
                refine ⟨msg, fp, hfp, rfl, hdirect, ?_, fun hio => ?_, htext.symm, hr.symm⟩
                · exact bne_eq_false_iff_eq.mp hcode
                · rw [hio, Bool.true_and] at htype
                  exact beq_eq_false_iff_ne.mp htype

theorem shrinks_readRound : Shrinks (readRound e ck pkt desc ioerr) := by
  intro r text r' h
  obtain ⟨msg, fp, hfp, hhdr, -, -, -, -, rfl⟩ := readRound_ok h
  exact Nat.lt_of_le_of_lt (length_pktGetBodyParseLoop _ _ _ _ _) (length_pktGetMsgHdr hfp hhdr)

theorem readRound_header (r : PacketReader) (text : Str × Str) (r' : PacketReader)
    (h : readRound e ck pkt desc ioerr r = .ok (text, r')) : text.1 ≠ [] := by
  obtain ⟨msg, fp, -, -, -, -, -, rfl, -⟩ := readRound_ok h
  unfold routeTexts
  split
  · exact List.append_ne_nil_of_left_ne_nil (List.cons_ne_nil _ _) _
  · exact List.cons_ne_nil _ _

/-- A message that is read before an error of the device is there without the
error. -/
theorem readRound_append (lost : Str) (r : PacketReader) (text : Str × Str) (r' : PacketReader)
    (h : readRound e ck pkt desc true r = .ok (text, r')) :
    readRound e ck pkt desc false { r with fp := r.fp ++ lost } =
      .ok (text, { r' with fp := r'.fp ++ lost }) := by
  obtain ⟨msg, fp, hfp, hhdr, hdirect, hcode, htype, rfl, rfl⟩ := readRound_ok h
  have htype := htype rfl
  have hbody := pktGetBodyParse_append lost hcode htype
  unfold readRound
  rw [if_neg (List.append_ne_nil_of_left_ne_nil hfp lost)]
  dsimp only
  rw [pktGetMsgHdr_append hhdr (ne_nil_of_pktGetBodyParse htype)]
  dsimp only
  rw [hdirect, if_neg Bool.false_ne_true, hbody]
  dsimp only
  rw [hcode]
  rfl

end

/-! ## The messages of a packet -/

/-- What there is to read behind the header of a packet. -/
def packetPlan (e : RouteEnv) (ck : Clock) (pkt : Packet) (desc : RouteDesc) (ioerr : Bool)
    (buf fp : Str) : List (Str × Str) × ReadStop :=
  let type := pktGetInt16 fp
  if type.1 == MSG_TYPE then
    readAll (readRound e ck pkt desc ioerr) (fp.length + 1) ⟨Message.clear, buf, type.2⟩
  else ([], .eof)

/-- The messages of a packet, as they are written. -/
def packetTexts (e : RouteEnv) (ck : Clock) (name buf c : Str) : List Str :=
  match openPacket e ck {} name c with
  | none => []
  | some (pkt, desc, fp) => (packetPlan e ck pkt desc false buf fp).1.map fun t => t.1 ++ t.2

/-- Each message is in one place: all are in the output packet and the input is
gone, or the input is kept or moved and nothing of it got into the output
packet.  No stream was closed that others write to. -/
structure RouteEnd.Once (texts : List Str) (r : RouteEnd) : Prop where
  placed : if r.fate = .removed then r.out = texts else r.out.flatten = []
  stray : r.stray = false

theorem RouteEnd.Once.nothing {texts : List Str} {r : RouteEnd} (h : r.Once texts)
    (hfate : r.fate ≠ .removed) : r.out.flatten = [] := by
  have hplaced := h.placed
  rw [if_neg hfate] at hplaced
  exact hplaced

/-- Either nothing gets into the output packet, and the input is kept; or all
messages do, and the input is read to its end and removed. -/
def CopySafe (o : RouteOutcomes) (plan : List (Str × Str) × ReadStop) (texts : List Str) : Prop :=
  Silent o.puts 0 plan.1 ∧
      (Breaks o.puts 0 plan.1 = true ∨ plan.2 = .header ∨ plan.2 = .body ∨
        plan.2 = .eof ∧ (o.close && o.unlink) = false) ∨
    Entire o.puts 0 plan.1 ∧ plan.2 = .eof ∧ (o.close && o.unlink) = true ∧
      plan.1.map (fun t => t.1 ++ t.2) = texts

/-- The condition on `do_file`: the packet cannot be opened or has no target, is
moved as a whole, there is no stream for it, or it is safe to copy it. -/
def RouteSafe (e : RouteEnv) (ck : Clock) (o : RouteOutcomes) (name buf c : Str) (s : Outpkts) :
    Prop :=
  match openPacket e ck o name c with
  | none => True
  | some (pkt, desc, fp) =>
      desc.moveOnly = true ∨
      (outpktOpen e.out ck o.outpkt
        ⟨desc.src, desc.dst, desc.grade, desc.type, desc.flav, false⟩ s).2 = none ∨
      CopySafe o (packetPlan e ck pkt desc (o.readable.any (· < c.length)) buf fp)
        (packetTexts e ck name buf c)

section

variable {e : RouteEnv} {ck : Clock} {pkt : Packet} {desc : RouteDesc}

theorem routeMessages_eq (ioerr : Bool) (o : Nat → PutOutcome) (buf fp : Str) :
    routeMessages e ck pkt desc ioerr o buf fp =
      writeAll o (packetPlan e ck pkt desc ioerr buf fp).2 0
        (packetPlan e ck pkt desc ioerr buf fp).1 := by
  unfold routeMessages packetPlan
  dsimp only
  split
  · have hlen := length_pktGetInt16 fp
    exact routeLoop_eq shrinks_readRound o 0 _ (by show (pktGetInt16 fp).2.length < _; omega)
      (by show (pktGetInt16 fp).2.length < _; omega)
  · rfl

theorem packetPlan_header (ioerr : Bool) (buf fp : Str) :
    ∀ text ∈ (packetPlan e ck pkt desc ioerr buf fp).1, text.1 ≠ [] := by
  unfold packetPlan
  dsimp only
  split
  · exact readAll_header readRound_header _ _
  · exact List.forall_mem_nil _

theorem packetPlan_prefix (buf fp lost : Str) :
    (packetPlan e ck pkt desc true buf fp).1 <+:
      (packetPlan e ck pkt desc false buf (fp ++ lost)).1 := by
  unfold packetPlan
  dsimp only
  split
  · next htype =>
      by_cases hrest : (pktGetInt16 fp).2 = []
      · rw [hrest]
        exact List.nil_prefix
      · rw [pktGetInt16_append hrest]
        dsimp only
        rw [if_pos htype]
        exact readAll_prefix (readRound_append lost) _ _ ⟨Message.clear, buf, (pktGetInt16 fp).2⟩
          (by rw [List.length_append]; omega)
  · exact List.nil_prefix

/-- Reading and writing are safe just where each message is in one place. -/
theorem endPacket_once_iff {o : RouteOutcomes} {name : Str} {s : Outpkts}
    {plan : List (Str × Str) × ReadStop} {texts : List Str}
    (hheads : ∀ text ∈ plan.1, text.1 ≠ []) (hfront : plan.1.map (fun t => t.1 ++ t.2) <+: texts) :
    (endPacket e o name pkt desc s (writeAll o.puts plan.2 0 plan.1).1
      (writeAll o.puts plan.2 0 plan.1).2).2.Once texts ↔ CopySafe o plan texts := by
  have hstop := @writeAll_stop o.puts plan.2 0 plan.1
  have hsilent := @writeAll_silent o.puts plan.2 0 plan.1 hheads
  have hentire := @writeAll_entire o.puts plan.2 0 plan.1
  have hlength := @length_writeAll o.puts plan.2 0 plan.1
  rw [hstop]
  generalize (writeAll o.puts plan.2 0 plan.1).1 = out at hsilent hentire hlength ⊢
  have hkept : RouteEnd.Once texts ⟨out, .kept, false, ERROR⟩ ↔ Silent o.puts 0 plan.1 :=
    ⟨fun h => hsilent.mp h.placed, fun h => ⟨hsilent.mpr h, rfl⟩⟩
  cases hbreaks : Breaks o.puts 0 plan.1 with
  | true =>
      rw [if_pos rfl]
      refine hkept.trans ⟨fun h => Or.inl ⟨h, Or.inl hbreaks⟩, fun h => ?_⟩
      rcases h with h | h
      · exact h.1
      · rw [breaks_of_entire 0 _ h.1] at hbreaks
        cases hbreaks
  | false =>
      rw [if_neg Bool.false_ne_true]
      cases hend : plan.2 with
      | direct =>
          refine ⟨fun h => ?_, fun h => ?_⟩
          · exact absurd (show true = false from h.stray) (by decide)
          · simp [CopySafe, hbreaks, hend] at h
      | header =>
          refine hkept.trans ⟨fun h => Or.inl ⟨h, Or.inr (Or.inl hend)⟩, fun h => ?_⟩
          simpa [CopySafe, hbreaks, hend] using h
      | body =>
          refine hkept.trans ⟨fun h => Or.inl ⟨h, Or.inr (Or.inr (Or.inl hend))⟩, fun h => ?_⟩
          simpa [CopySafe, hbreaks, hend] using h
      | eof =>
          unfold endPacket
          cases hdone : o.close && o.unlink with
          | false =>
              refine hkept.trans
                ⟨fun h => Or.inl ⟨h, Or.inr (Or.inr (Or.inr ⟨hend, hdone⟩))⟩, fun h => ?_⟩
              simpa [CopySafe, hbreaks, hend, hdone] using h
          | true =>
              refine ⟨fun h => ?_, fun h => ?_⟩
              · have hout : out = texts := h.placed
                have hall : plan.1.map (fun t => t.1 ++ t.2) = texts := by
                  refine hfront.eq_of_length ?_
                  rw [List.length_map, ← hlength hbreaks, hout]
                exact Or.inr ⟨(hentire hbreaks).mp (hout.trans hall.symm), hend, hdone, hall⟩
              · have hsafe : Entire o.puts 0 plan.1 ∧ plan.1.map (fun t => t.1 ++ t.2) = texts := by
                  simpa [CopySafe, hbreaks, hend, hdone] using h
                exact ⟨((hentire hbreaks).mpr hsafe.1).trans hsafe.2, rfl⟩

end

theorem pktGetHdr_append (ck : Clock) (mktime : Tm → Int) (defzone : Int) {fp : Str} (lost : Str)
    (h : ¬ fp.length < PKT_HDRLEN) : pktGetHdr ck mktime defzone (fp ++ lost) =
      ((pktGetHdr ck mktime defzone fp).1, (pktGetHdr ck mktime defzone fp).2.1,
        (pktGetHdr ck mktime defzone fp).2.2 ++ lost) := by
  have hle : PKT_HDRLEN ≤ fp.length := Nat.le_of_not_lt h
  unfold pktGetHdr
  rw [if_neg h, if_neg (by rw [List.length_append]; omega), List.take_append_of_le_length hle,
    List.drop_append_of_le_length hle]

/-- A packet that is opened although not all of it can be read is opened where
all of it can. -/
theorem openPacket_append {e : RouteEnv} {ck : Clock} {o : RouteOutcomes} {name c fp : Str}
    {pkt : Packet} {desc : RouteDesc} (h : openPacket e ck o name c = some (pkt, desc, fp)) :
    ∃ lost, openPacket e ck {} name c = some (pkt, desc, fp ++ lost) ∧
      (o.readable.any (· < c.length) = false → lost = []) := by
  obtain ⟨lost, hc, hlost⟩ : ∃ lost, (o.readable.map c.take).getD c ++ lost = c ∧
      (o.readable.any (· < c.length) = false → lost = []) := by
    cases o.readable with
    | none => exact ⟨[], List.append_nil c, fun _ => rfl⟩
    | some k =>
        refine ⟨c.drop k, List.take_append_drop k c, fun hk => ?_⟩
        exact List.drop_of_length_le (Nat.le_of_not_lt (of_decide_eq_false hk))
  refine ⟨lost, ?_, hlost⟩
  unfold openPacket at h ⊢
  dsimp only [Option.map_none, Option.getD_none] at h ⊢
  cases ho : o.opened with
  | false =>
      rw [ho] at h
      cases h
  | true =>
      rw [ho, if_pos rfl] at h
      rw [if_pos rfl]
      have hlong : ¬ ((o.readable.map c.take).getD c).length < PKT_HDRLEN := by
        intro hshort
        rw [pktGetHdr, if_pos hshort] at h
        cases h
      have happ := pktGetHdr_append ck e.mktime e.out.cf.defzone lost hlong
      rw [hc] at happ
      rw [happ]
      generalize pktGetHdr ck e.mktime e.out.cf.defzone ((o.readable.map c.take).getD c) = r at h
      obtain ⟨code, p, rest⟩ := r
      cases p with
      | none => cases h
      | some p =>
          dsimp only at h ⊢
          split at h
          · cases h
          · next hcode =>
              rw [if_neg hcode]
              obtain ⟨desc', hdesc, heq⟩ := Option.map_eq_some_iff.mp h
              obtain ⟨rfl, hrest⟩ := Prod.mk.inj heq
              obtain ⟨rfl, rfl⟩ := Prod.mk.inj hrest
              rw [hdesc]
              rfl

/-- Each message of a packet is in one place after `do_file` just where this is
safe. -/
theorem doFile_once_iff (e : RouteEnv) (ck : Clock) (o : RouteOutcomes) (name buf c : Str)
    (s : Outpkts) : (doFile e ck o name buf c s).2.Once (packetTexts e ck name buf c) ↔
      RouteSafe e ck o name buf c s := by
  unfold doFile RouteSafe
  cases hopen : openPacket e ck o name c with
  | none => exact ⟨fun _ => trivial, fun _ => ⟨rfl, rfl⟩⟩
  | some p =>
      obtain ⟨pkt, desc, fp⟩ := p
      dsimp only
      cases hmove : desc.moveOnly with
      | true =>
          refine ⟨fun _ => Or.inl rfl, fun _ => ?_⟩
          rw [if_pos rfl, doMove]
          cases o.rename <;> exact ⟨rfl, rfl⟩
      | false =>
          rw [if_neg Bool.false_ne_true, doPacket]
          cases hout : outpktOpen e.out ck o.outpkt
              ⟨desc.src, desc.dst, desc.grade, desc.type, desc.flav, false⟩ s with
          | mk s' out =>
              cases out with
              | none => exact ⟨fun _ => Or.inr (Or.inl rfl), fun _ => ⟨rfl, rfl⟩⟩
              | some out =>
                  dsimp only
                  rw [routeMessages_eq, endPacket_once_iff (packetPlan_header _ _ _)]
                  · exact ⟨fun h => Or.inr (Or.inr h), fun h =>
                      (h.resolve_left Bool.false_ne_true).resolve_left (Option.some_ne_none out)⟩
                  · obtain ⟨lost, hfull, hlost⟩ := openPacket_append hopen
                    rw [packetTexts, hfull]
                    dsimp only
                    refine List.IsPrefix.map _ ?_
                    cases hio : o.readable.any (· < c.length) with
                    | true => exact packetPlan_prefix buf fp lost
                    | false =>
                        rewrite [hlost hio, List.append_nil]
                        exact List.prefix_refl _

/-! ## The input packet -/

section

variable {e : RouteEnv} {o : RouteOutcomes} {name c : Str} {s : Outpkts}

/-- The packet is where the call says it is. -/
def PacketFate.Holds (fate : PacketFate) (files : Files.Dir Str Str) (name c : Str) : Prop :=
  match fate with
  | .kept => files name = some c
  | .moved new => files new = some c
  | .removed => files name = none

theorem doMove_holds (desc : RouteDesc) (hc : s.files name = some c) :
    (doMove e o name desc s).2.1.Holds (doMove e o name desc s).1.files name c := by
  unfold doMove
  cases o.rename with
  | false => exact hc
  | true =>
      have hne : s.files name ≠ none := by
        rw [hc]
        exact Option.some_ne_none c
      exact (Files.rename_target (Or.inr hne)).trans hc

theorem endPacket_holds {pkt : Packet} {desc : RouteDesc} (hc : s.files name = some c) (out : List Str)
    (stop : Option ReadStop) :
    (endPacket e o name pkt desc s out stop).2.fate.Holds
      (endPacket e o name pkt desc s out stop).1.files name c := by
  cases stop with
  | none => exact hc
  | some stop =>
      cases stop with
      | direct => exact doMove_holds { desc with dst := pkt.dst } hc
      | body => exact hc
      | header => exact hc
      | eof =>
          unfold endPacket
          cases o.close && o.unlink with
          | false => exact hc
          | true => exact Function.update_self _ _ _

/-- What `do_file` says of the packet is so, unless its name is one of the
output packets. -/
theorem doFile_holds {ck : Clock} {buf : Str} (hc : s.files name = some c)
    (hold : ∀ p ∈ s.pkts, name ≠ p.tmpname)
    (hnew : ∀ k, name ≠ (outpktNew e.out k o.outpkt.seq).tmpname) :
    (doFile e ck o name buf c s).2.fate.Holds (doFile e ck o name buf c s).1.files name c := by
  unfold doFile
  cases openPacket e ck o name c with
  | none => exact hc
  | some p =>
      obtain ⟨pkt, desc, fp⟩ := p
      dsimp only
      cases desc.moveOnly with
      | true =>
          rw [if_pos rfl]
          exact doMove_holds desc hc
      | false =>
          rw [if_neg Bool.false_ne_true, doPacket]
          obtain ⟨hsame, hname⟩ := outpktOpen_files e.out ck o.outpkt
            ⟨desc.src, desc.dst, desc.grade, desc.type, desc.flav, false⟩ hold (hnew _)
          cases hout : outpktOpen e.out ck o.outpkt
              ⟨desc.src, desc.dst, desc.grade, desc.type, desc.flav, false⟩ s with
          | mk s' out =>
              rw [hout] at hsame hname
              cases out with
              | none => exact hsame.trans hc
              | some out =>
                  refine endPacket_holds ?_ _ _
                  exact (files_put_other s' (hname out rfl) _ _).trans (hsame.trans hc)

end

section

/-- A program that routes nothing. -/
def oneRoute : RouteEnv :=
  { out := onePool, strict := false, mktime := fun _ => 0, mkroute := [], routing := []
    hubs := fun _ => none }

/-- A message for 2:5020/2 with some text. -/
def routedMessage (text : Str) : Str :=
  pktPutMsgHdr oneClock { Message.clear with nodeTo := ⟨2, 5020, 2, 0, []⟩ } ++ text ++ [nul]

/-- A packet for 2:5020/2. -/
def routedPacket (text : Str) : Str :=
  pktHeader onePool oneClock (keyTo 2) ++ text ++ pktPutInt16 0

/-- A message of a kludge and a line is copied and its packet removed. -/
example : ((doFile oneRoute oneClock {} (lit "/in/0nn00001.pkt") []
    (routedPacket (routedMessage (soh :: lit "MSGID: 1" ++ [cr] ++ lit "hi" ++ [cr])))
    (OutpktWorld.start (fun _ => none) 1).pool).2.fate) = .removed := by
  decide +kernel

/-- A packet whose second message has no kludges. -/
def brokenPacket : Str :=
  routedPacket (routedMessage (soh :: lit "MSGID: 1" ++ [cr] ++ lit "hi" ++ [cr]) ++
    routedMessage (lit "hi" ++ [cr]))

/-- The packet is kept, but its first message was copied. -/
theorem doFile_not_once : ¬ (doFile oneRoute oneClock {} (lit "/in/0nn00001.pkt") [] brokenPacket
    (OutpktWorld.start (fun _ => none) 1).pool).2.Once
      (packetTexts oneRoute oneClock (lit "/in/0nn00001.pkt") [] brokenPacket) := by
  intro h
  have hkept : (doFile oneRoute oneClock {} (lit "/in/0nn00001.pkt") [] brokenPacket
      (OutpktWorld.start (fun _ => none) 1).pool).2.fate ≠ .removed := by
    decide +kernel
  have hcopied : (doFile oneRoute oneClock {} (lit "/in/0nn00001.pkt") [] brokenPacket
      (OutpktWorld.start (fun _ => none) 1).pool).2.out.flatten ≠ [] := by
    decide +kernel
  exact hcopied (h.nothing hkept)

end

end Fidogate

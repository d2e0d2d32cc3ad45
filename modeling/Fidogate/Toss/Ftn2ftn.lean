/-
# `Fidogate.Toss.Ftn2ftn` — ftn2ftn.c: netmail from one network to another

A netmail to `Name@b` goes on to `b`, from `Sender%a`: a reply to this name
goes back to `a`.  Name and address share the 36 bytes of the field.
-/
import Fidogate.Common.NodePrint
import Fidogate.Toss.Netmail

namespace Fidogate

open Bytes

/-! ## The gate -/

/-- `strrchr`: the text in front of the last such byte and behind it. -/
def splitLast (c : UInt8) : Str → Option (Str × Str)
  | [] => none
  | d :: s =>
      match splitLast c s with
      | some r => some (d :: r.1, r.2)
      | none => if d == c then some ([], s) else none

/-- The name and the node of `Name%node`, or of `Name@node`. -/
def gateTo (cf : Config) (nameTo : Str) : Option (Str × Node) :=
  (splitLast 37 nameTo <|> splitLast 64 nameTo).bind fun p =>
    (ascToNode false cf.defzone p.2).map fun node => (p.1, node)

/-- The name with the address of the sender behind it; no value where it is cut
in front of the field. -/
def gateFrom (name : Str) (n : Node) : Option Str :=
  let buffer := lit "%" ++ znf1 n
  if MSG_MAXNAME - 1 < name.length + buffer.length then
    if buffer.length ≤ MSG_MAXNAME - 1 then
      some ((name.take (MSG_MAXNAME - 1 - buffer.length) ++ buffer).take (MSG_MAXNAME - 1))
    else none
  else some ((name ++ buffer).take (MSG_MAXNAME - 1))

/-- `add_via`. -/
def gateVia (ftsVia : Bool) (ck : Clock) (list : List Str) (gate : Node) : List Str :=
  list ++ [soh ::
    (if ftsVia then
      lit "Via " ++ znf1 gate ++ lit " @" ++ dateVia ftsVia ck ++ lit " FIDOGATE/ftn2ftn"
    else lit "Via FIDOGATE/ftn2ftn " ++ znf1 gate ++ lit ", " ++ dateVia ftsVia ck) ++ [cr]]

/-- What the run was started with, and whether the packet is open or can be
opened, and be written. -/
structure GateOptions where
  ftsVia : Bool
  ck : Clock
  opens : Bool
  writes : Bool

/-- `overrun` is a name cut in front of its field; `written` has the message as
`pkt_put_msg_hdr` leaves it and what it and `msg_put_msgbody` write. -/
inductive GateResult
  | error
  | overrun
  | written (msg : Message) (text : Str)
  deriving DecidableEq

/-- The end of `do_message`. -/
def gateWrite (o : GateOptions) (msg : Message) (body : MsgBody) : GateResult :=
  if ! o.opens || ! o.writes then .error
  else
    let msg := { msg with area := none }
    .written (pktMsgSanitizeStrings msg)
      (pktPutMsgHdr o.ck msg ++ (addrKludges msg).flatten ++ msgPutMsgbody body)

/-- `do_message`. -/
def doMessage (o : GateOptions) (cf : Config) (gate : Node) (msg : Message) (body : MsgBody) :
    GateResult :=
  if body.area.isSome then .error
  else
    match gateTo cf msg.nameTo with
    | some (name, node) =>
        let via := gateVia o.ftsVia o.ck (gateVia o.ftsVia o.ck body.via msg.nodeTo) gate
        match gateFrom msg.nameFrom msg.nodeFrom with
        | none => .overrun
        | some nameFrom =>
            gateWrite o
              { msg with nameTo := name, nameFrom := nameFrom, nodeFrom := gate, nodeTo := node }
              { body with via := via }
    | none =>
        let via := gateVia o.ftsVia o.ck body.via msg.nodeTo
        gateWrite o { msg with nodeTo := (cfSetZone cf msg.nodeTo.zone).curAddr }
          { body with via := via }

/-- The sender of a gated message can be replied to: the name written is the
sender's, maybe cut, a percent sign and the address in full, in a field that
holds it, and every gate sends a message to this name on to the address, to the
name in front of the sign. -/
def RepliesTo (o : GateOptions) (cf : Config) (gate : Node) (msg : Message) (body : MsgBody) :
    Prop :=
  ∃ name out text, doMessage o cf gate msg body = .written out text ∧
    name <+: msg.nameFrom ∧ out.nameFrom = name ++ lit "%" ++ znf1 msg.nodeFrom ∧
    out.nameFrom.length < MSG_MAXNAME ∧
    ∀ (o' : GateOptions) (cf' : Config) (gate' : Node) (reply : Message) (body' : MsgBody),
      o'.opens = true → o'.writes = true → body'.area = none → reply.nameTo = out.nameFrom →
      (znf1 reply.nodeFrom).length + 1 < MSG_MAXNAME →
      ∃ out' text', doMessage o' cf' gate' reply body' = .written out' text' ∧
        nodeEq out'.nodeTo msg.nodeFrom = true ∧ out'.nameTo = name

/-! ## Parts of a name -/

theorem splitLast_eq_none {c : UInt8} : ∀ {s : Str}, c ∉ s → splitLast c s = none
  | [], _ => rfl
  | d :: s, h => by
      have hd : (d == c) = false := beq_eq_false_iff_ne.mpr fun h' => h (h' ▸ List.mem_cons_self)
      rw [splitLast, splitLast_eq_none fun hs => h (List.mem_cons_of_mem d hs), hd]
      rfl

theorem splitLast_append {c : UInt8} {t : Str} (h : c ∉ t) :
    ∀ s : Str, splitLast c (s ++ c :: t) = some (s, t)
  | [] => by
      rw [List.nil_append, splitLast, splitLast_eq_none h, beq_self_eq_true]
      rfl
  | d :: s => by rw [List.cons_append, splitLast, splitLast_append h s]

/-- The last such byte. -/
theorem exists_last {c : UInt8} {s : Str} (h : c ∈ s) : ∃ u t, s = u ++ c :: t ∧ c ∉ t := by
  obtain ⟨t, u, hrev, ht⟩ := List.eq_append_cons_of_mem (List.mem_reverse.mpr h)
  refine ⟨u.reverse, t.reverse, ?_, fun h => ht (List.mem_reverse.mp h)⟩
  have hs := congrArg List.reverse hrev
  rw [List.reverse_reverse] at hs
  rw [hs]
  simp

/-- The name is cut to the room the address leaves. -/
theorem gateFrom_eq (name : Str) {n : Node} (h : (znf1 n).length + 1 < MSG_MAXNAME) :
    gateFrom name n =
      some (name.take (MSG_MAXNAME - 1 - (lit "%" ++ znf1 n).length) ++ (lit "%" ++ znf1 n)) := by
  have hlen : (lit "%" ++ znf1 n).length = (znf1 n).length + 1 := by
    rw [List.length_append, Nat.add_comm]
    rfl
  have hfit : (lit "%" ++ znf1 n).length ≤ MSG_MAXNAME - 1 := by omega
  unfold gateFrom
  dsimp only
  split
  · rw [List.take_of_length_le]
    rw [List.length_append, List.length_take]
    omega
  · next hroom =>
      rw [List.length_append] at hfit
      rw [List.take_of_length_le (by rw [List.length_append]; omega),
        List.take_of_length_le (by omega)]

theorem gateTo_percent (cf : Config) (name : Str) {asc : Str} (h : 37 ∉ asc) :
    gateTo cf (name ++ (lit "%" ++ asc)) =
      (ascToNode false cf.defzone asc).map fun node => (name, node) := by
  have hsplit : splitLast 37 (name ++ (lit "%" ++ asc)) = some (name, asc) := splitLast_append h name
  rw [gateTo, hsplit]
  rfl

/-! ## The reply -/

theorem gateWrite_written {o : GateOptions} {msg out : Message} {body : MsgBody} {text : Str}
    (h : gateWrite o msg body = .written out text) :
    out = pktMsgSanitizeStrings { msg with area := none } := by
  unfold gateWrite at h
  split at h
  · cases h
  · exact (GateResult.written.inj h).1.symm

/-- What is written of a message, gated or not. -/
theorem doMessage_written {o : GateOptions} {cf : Config} {gate : Node} {msg out : Message}
    {body : MsgBody} {text : Str} (h : doMessage o cf gate msg body = .written out text) :
    (∃ name node nameFrom, gateTo cf msg.nameTo = some (name, node) ∧
      gateFrom msg.nameFrom msg.nodeFrom = some nameFrom ∧
      out = pktMsgSanitizeStrings { msg with nameTo := name, nameFrom := nameFrom,
                                             nodeFrom := gate, nodeTo := node, area := none }) ∨
    gateTo cf msg.nameTo = none ∧ out.nameTo = msg.nameTo.take (MSG_MAXNAME - 1) := by
  unfold doMessage at h
  split at h
  · cases h
  · split at h
    · next name node hto =>
        dsimp only at h
        split at h
        · cases h
        · next nameFrom hfrom => exact .inl ⟨name, node, nameFrom, hto, hfrom, gateWrite_written h⟩
    · next hto =>
        rw [gateWrite_written h]
        exact .inr ⟨hto, rfl⟩

theorem doMessage_gated {o : GateOptions} (hopens : o.opens = true) (hwrites : o.writes = true)
    {cf : Config} {msg : Message} {body : MsgBody} (harea : body.area = none)
    {name : Str} {node : Node} (hto : gateTo cf msg.nameTo = some (name, node)) {nameFrom : Str}
    (hfrom : gateFrom msg.nameFrom msg.nodeFrom = some nameFrom) (gate : Node) :
    ∃ text, doMessage o cf gate msg body = .written (pktMsgSanitizeStrings
      { msg with nameTo := name, nameFrom := nameFrom, nodeFrom := gate, nodeTo := node,
                 area := none }) text := by
  unfold doMessage
  rw [harea, hto]
  dsimp only
  rw [hfrom]
  simp only [Option.isSome_none, gateWrite, hopens, hwrites]
  exact ⟨_, rfl⟩

/-- The name written is in front of the address, and the field holds both. -/
theorem gateFrom_fits {name : Str} {n : Node} {nameFrom : Str}
    (h : (znf1 n).length + 1 < MSG_MAXNAME) (hfrom : gateFrom name n = some nameFrom) :
    ∃ cut, cut <+: name ∧ nameFrom = cut ++ (lit "%" ++ znf1 n) ∧
      nameFrom.length ≤ MSG_MAXNAME - 1 := by
  have hlen : (lit "%" ++ znf1 n).length = (znf1 n).length + 1 := by
    rw [List.length_append, Nat.add_comm]
    rfl
  refine ⟨_, List.take_prefix _ name, (Option.some.inj ((gateFrom_eq name h).symm.trans hfrom)).symm,
    ?_⟩
  rw [← Option.some.inj ((gateFrom_eq name h).symm.trans hfrom), List.length_append,
    List.length_take]
  omega

theorem repliesTo_of_fits {o : GateOptions} (hopens : o.opens = true) (hwrites : o.writes = true)
    {cf : Config} (gate : Node) {msg : Message} {body : MsgBody} (harea : body.area = none)
    (hto : (gateTo cf msg.nameTo).isSome = true) (hfits : msg.nodeFrom.Fits)
    (hlen : (znf1 msg.nodeFrom).length + 1 < MSG_MAXNAME) (hpercent : 37 ∉ znf1 msg.nodeFrom) :
    RepliesTo o cf gate msg body := by
  obtain ⟨⟨nameTo, node⟩, hto⟩ := Option.isSome_iff_exists.mp hto
  have hfrom := gateFrom_eq msg.nameFrom hlen
  obtain ⟨text, hdo⟩ := doMessage_gated hopens hwrites harea hto hfrom gate
  obtain ⟨name, hprefix, hname, hfield⟩ := gateFrom_fits hlen hfrom
  have hwritten : List.take (MSG_MAXNAME - 1) (name ++ (lit "%" ++ znf1 msg.nodeFrom)) =
      name ++ (lit "%" ++ znf1 msg.nodeFrom) := List.take_of_length_le (hname ▸ hfield)
  rw [hname] at hdo hfield
  refine ⟨name, _, text, hdo, hprefix, ?_, ?_, ?_⟩
  · rw [List.append_assoc]
    exact hwritten
  · change (List.take (MSG_MAXNAME - 1) (name ++ (lit "%" ++ znf1 msg.nodeFrom))).length < _
    rw [hwritten]
    exact Nat.lt_of_le_of_lt hfield (by decide)
  · intro o' cf' gate' reply body' hopens' hwrites' harea' hreply hlen'
    obtain ⟨domain, hread⟩ := ascToNode_znf1 hfits cf'.defzone
    have hto' : gateTo cf' reply.nameTo = some (name, msg.nodeFrom.withDomain domain) := by
      rw [hreply]
      change gateTo cf' (List.take (MSG_MAXNAME - 1) (name ++ (lit "%" ++ znf1 msg.nodeFrom))) = _
      rw [hwritten, gateTo_percent cf' name hpercent, hread]
      rfl
    obtain ⟨text', hdo'⟩ := doMessage_gated hopens' hwrites' harea' hto'
      (gateFrom_eq reply.nameFrom hlen') gate'
    refine ⟨_, text', hdo', nodeEq_withDomain _ _, ?_⟩
    have hshort : name.length ≤ MSG_MAXNAME - 1 := by
      rw [List.length_append] at hfield
      omega
    exact List.take_of_length_le hshort

/-- A percent sign in the address is taken for the one behind the name. -/
theorem fits_of_repliesTo {o : GateOptions} {cf : Config} {gate : Node} {msg : Message}
    {body : MsgBody} (harea : body.area = none) (h : RepliesTo o cf gate msg body) :
    (znf1 msg.nodeFrom).length + 1 < MSG_MAXNAME ∧ 37 ∉ znf1 msg.nodeFrom := by
  obtain ⟨name, out, text, hdo, hprefix, hname, hfield, hreply⟩ := h
  refine ⟨?_, fun hpercent => ?_⟩
  · rw [hname, List.length_append, List.length_append] at hfield
    change _ + 1 + _ < _ at hfield
    omega
  · obtain ⟨u, t, hut, ht⟩ := exists_last hpercent
    have hshort : (znf1 ⟨1, 1, 1, 0, []⟩).length + 1 < MSG_MAXNAME := by decide +kernel
    obtain ⟨out', text', hdo', -, hback⟩ := hreply { o with opens := true, writes := true } cf gate
      { msg with nameTo := out.nameFrom, nodeFrom := ⟨1, 1, 1, 0, []⟩ } body rfl rfl harea rfl hshort
    have hparts : out.nameFrom = (name ++ (lit "%" ++ u)) ++ (lit "%" ++ t) := by
      rw [hname, hut, show lit "%" = [37] from rfl]
      simp
    have hlen : (name ++ (lit "%" ++ u)).length ≤ MSG_MAXNAME - 1 := by
      rw [hparts, List.length_append] at hfield
      omega
    -- more than the name is in front of the last sign
    have hlonger : ∀ v : Str, name ++ (lit "%" ++ v) ≠ name := by
      intro v hv
      have hcount := congrArg List.length hv
      rw [List.length_append, List.length_append] at hcount
      change _ + (1 + _) = _ at hcount
      omega
    obtain ⟨name', node, nameFrom, hto, -, hout⟩ | ⟨-, hout⟩ := doMessage_written hdo'
    · have hread : gateTo cf out.nameFrom = some (name', node) := hto
      rw [hparts, gateTo_percent cf _ ht] at hread
      obtain ⟨_, -, heq⟩ := Option.map_eq_some_iff.mp hread
      obtain rfl : name ++ (lit "%" ++ u) = name' := congrArg Prod.fst heq
      rw [hout] at hback
      exact hlonger u ((List.take_of_length_le hlen).symm.trans hback)
    · rw [hout] at hback
      change out.nameFrom.take (MSG_MAXNAME - 1) = name at hback
      have hle : out.nameFrom.length ≤ MSG_MAXNAME - 1 := Nat.le_pred_of_lt hfield
      rw [List.take_of_length_le hle, hname, List.append_assoc] at hback
      exact hlonger _ hback

/-- The sender of a netmail that is gated can be replied to, if and only if the
text of the address and a percent sign fit the field, and there is no percent
sign in the address. -/
theorem doMessage_repliesTo_iff {o : GateOptions} (hopens : o.opens = true)
    (hwrites : o.writes = true) {cf : Config} (gate : Node) {msg : Message} {body : MsgBody}
    (harea : body.area = none) (hto : (gateTo cf msg.nameTo).isSome = true)
    (hfits : msg.nodeFrom.Fits) :
    RepliesTo o cf gate msg body ↔
      (znf1 msg.nodeFrom).length + 1 < MSG_MAXNAME ∧ 37 ∉ znf1 msg.nodeFrom := by
  constructor
  · exact fits_of_repliesTo harea
  · rintro ⟨hlen, hpercent⟩
    exact repliesTo_of_fits hopens hwrites gate harea hto hfits hlen hpercent

/-- A gate between the zones 2 and 99. -/
def gateOne : Config := Config.read ⟨2, ⟨2, 5020, 1, 0, []⟩, ⟨2, 5020, 0, 0, []⟩⟩ [] []

def gateOptions : GateOptions := ⟨false, ⟨0, 0, gmtime, fun _ => lit "GMT"⟩, true, true⟩

/-- A netmail of a point to zone 99. -/
def gateMail (domain : Str) : Message :=
  { nodeFrom := ⟨2, 5020, 12345, 6789, domain⟩, nodeTo := ⟨2, 5020, 1, 0, []⟩
    nodeOrig := ⟨2, 5020, 12345, 6789, []⟩, attr := 0, cost := 0, date := 0, tz := none
    nameTo := lit "Joe User@99:1/2", nameFrom := lit "Someone With A Long Name Indeed"
    subject := [], area := none }

theorem doMessage_repliesTo_point :
    RepliesTo gateOptions gateOne ⟨99, 1, 1, 0, []⟩ (gateMail (lit "fidonet")) .clear :=
  (doMessage_repliesTo_iff rfl rfl ⟨99, 1, 1, 0, []⟩ rfl (by decide +kernel) (by decide +kernel)).mpr
    ⟨by decide +kernel, by decide +kernel⟩

/-- The domain of the point is longer. -/
theorem doMessage_longDomain :
    (gateTo gateOne (gateMail (lit "network.example.org")).nameTo).isSome = true ∧
      ¬ RepliesTo gateOptions gateOne ⟨99, 1, 1, 0, []⟩ (gateMail (lit "network.example.org"))
        .clear := by
  refine ⟨by decide +kernel, fun h => ?_⟩
  exact absurd (fits_of_repliesTo rfl h).1 (by decide +kernel)

end Fidogate

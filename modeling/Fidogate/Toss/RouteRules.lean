/-
# `Fidogate.Toss.RouteRules` — routing.c, ftnroute.c: which rule decides

The rules are tried in the order of the file.  The first that applies says where
a packet goes (`routed`); its target is the address of a pattern, whose missing
parts and wildcards count as 0.
-/
import Fidogate.Common.NodeLists
import Fidogate.Lib.Rules
import Fidogate.Toss.Ftnroute

namespace Fidogate

open Bytes

/-! ## Reading the rules -/

/-- `parse_flav`. -/
def parseFlav (s : Str) : Option UInt8 :=
  if strieq s (lit "normal") || strieq s (lit "out") then some FLAV_NORMAL
  else if strieq s (lit "hold") || strieq s (lit "hut") then some FLAV_HOLD
  else if strieq s (lit "crash") || strieq s (lit "cut") then some FLAV_CRASH
  else if strieq s (lit "direct") || strieq s (lit "dut") then some FLAV_DIRECT
  else none

/-- The words of `parse_cmd` that are about routing. -/
inductive RoutingWord
  | type (type : UInt8)
  | routing (cmd : RouteCmd)
  | mkroute (cmd : MkRouteCmd)

/-- `parse_cmd`. -/
def parseRoutingWord (s : Str) : Option RoutingWord :=
  if strieq s (lit "netmail") then some (.type TYPE_NETMAIL)
  else if strieq s (lit "echomail") then some (.type TYPE_ECHOMAIL)
  else if strieq s (lit "tick") then some (.type TYPE_TICK)
  else if strieq s (lit "send") then some (.routing .send)
  else if strieq s (lit "route") then some (.routing .route)
  else if strieq s (lit "change") then some (.routing .change)
  else if strieq s (lit "hostroute") then some (.mkroute .hostroute)
  else if strieq s (lit "hubroute") then some (.mkroute .hubroute)
  else if strieq s (lit "sendmove") then some (.routing .sendmove)
  else if strieq s (lit "xroute") then some (.mkroute .xroute)
  else if strieq s (lit "bossroute") then some (.mkroute .bossroute)
  else none

/-- `mk_route` on the words behind its command. -/
def mkRoute (zone : Int) (cmd : MkRouteCmd) : List Str → Option MkRoute
  | [] => none
  | flav :: args => do
      let flav ← parseFlav flav
      match cmd, args with
      | .xroute, dest :: args =>
          let dest ← znfpParseDiff dest (nodeOld zone)
          let links := args.flatMap (lonAddString zone)
          if links.length != 2 then none else some ⟨dest, links, cmd, flav⟩
      | .xroute, [] => none
      | _, args => some ⟨nodeClear, args.flatMap (lonAddString zone), cmd, flav⟩

/-- The nodes of a rule, each read against the one before; a word that is no
address is skipped. -/
def routingNodes (old : Node) : List Str → List Node
  | [] => []
  | p :: ps =>
      match znfpParseDiff p old with
      | some n => n :: routingNodes n ps
      | none => routingNodes old ps

/-- The rule of a line, on the words behind its command; without a node it would
match nothing. -/
def routingRule (zone : Int) (type : UInt8) (cmd : RouteCmd) : List Str → Option Routing
  | [] => none
  | flav :: args => do
      let flav ← parseFlav flav
      let (flavNew, args) ←
        match cmd, args with
        | .change, p :: args => (parseFlav p).map (·, args)
        | .change, [] => none
        | _, args => some (FLAV_NONE, args)
      match routingNodes (nodeOld zone) args with
      | first :: rest => some ⟨type, cmd, flav, flavNew, first, rest⟩
      | [] => none

/-- The type the next rules are for and the two lists. -/
structure RoutingConf where
  type : UInt8 := TYPE_NETMAIL
  mkroute : List MkRoute := []
  routing : List Routing := []

/-- `routing_parse_line`; the lines of an included file stand for its own. -/
def routingParseLine (zone : Int) (c : RoutingConf) (buf : Str) : RoutingConf :=
  match xstrtok blanks buf with
  | [] => c
  | p :: args =>
      match parseRoutingWord p with
      | some (.type type) => { c with type := type }
      | some (.routing cmd) =>
          { c with routing := c.routing ++ (routingRule zone c.type cmd args).toList }
      | some (.mkroute cmd) => { c with mkroute := c.mkroute ++ (mkRoute zone cmd args).toList }
      | none => c

/-- `routing_do_file` on the lines of the file. -/
def routingDoFile (zone : Int) (lines : List Str) : RoutingConf :=
  lines.foldl (routingParseLine zone) {}

/-! ## What the rules mean -/

/-- The packet with missing parts and wildcards of its destination set to 0. -/
def RouteDesc.zeroed (desc : RouteDesc) : RouteDesc := { desc with dst := zeroWild desc.dst }

/-- No part of an address is missing or a wildcard. -/
def Node.Given (n : Node) : Prop :=
  ∀ v ∈ [n.zone, n.net, n.node, n.point], v ≠ EMPTY ∧ v ≠ WILDCARD

instance (n : Node) : Decidable n.Given :=
  inferInstanceAs (Decidable (∀ v ∈ [n.zone, n.net, n.node, n.point], v ≠ EMPTY ∧ v ≠ WILDCARD))

/-- A rule for netmail applies: an xroute to the two addresses it names, a
hubroute only where the hub is looked up, a bossroute only to its flavour. -/
def MkRoute.applies (hubs : Node → Option (Option Node)) (desc : RouteDesc) (r : MkRoute) : Bool :=
  match r.cmd with
  | .xroute =>
      match r.links with
      | src :: dst :: _ => nodeMatch desc.src src && nodeMatch desc.dst dst
      | _ => false
  | .hostroute => r.links.any (nodeMatch desc.dst)
  | .hubroute => r.links.any (nodeMatch desc.dst) && (hubs desc.dst).isSome
  | .bossroute => desc.flav == r.flav && r.links.any (nodeMatch desc.dst)

/-- What becomes of the packet. -/
def MkRoute.outcome (hubs : Node → Option (Option Node)) (desc : RouteDesc) (r : MkRoute) :
    RouteDesc :=
  match r.cmd with
  | .xroute => { desc with dst := r.uplink, flav := r.flav, moveOnly := false }
  | .hostroute =>
      { desc with
        dst := { desc.dst with node := 0, point := 0 }, flav := r.flav, moveOnly := false }
  | .hubroute =>
      match hubs desc.dst with
      | some (some hub) => { desc with dst := { hub with point := 0 }, moveOnly := false }
      | _ => { desc with moveOnly := false }
  | .bossroute => { desc with dst := { desc.dst with point := 0 }, moveOnly := false }

/-- A rule is for the type of the packet and its destination. -/
def Routing.isFor (r : Routing) (desc : RouteDesc) : Bool :=
  desc.type == r.type && (r.first :: r.rest).any (nodeMatch desc.dst)

/-- The flavour of the packet is the one a rule is for. -/
def Routing.flavoured (r : Routing) (desc : RouteDesc) : Bool :=
  match r.cmd with
  | .send | .sendmove | .route => desc.flav == FLAV_NORMAL
  | .change => desc.flav == r.flav

def Routing.applies (desc : RouteDesc) (r : Routing) : Bool := r.isFor desc && r.flavoured desc

/-- What becomes of the packet; a node to send to that names no point is meant
with its points. -/
def Routing.outcome (desc : RouteDesc) (r : Routing) : RouteDesc :=
  match r.cmd with
  | .send =>
      let found := (r.first :: r.rest).find? (nodeMatch desc.dst)
      { desc with
        flav := r.flav, moveOnly := false
        dst := if found.any (·.point == EMPTY) then { desc.dst with point := 0 } else desc.dst }
  | .sendmove => { desc with flav := r.flav, moveOnly := true }
  | .route => { desc with flav := r.flav, dst := r.first, moveOnly := false }
  | .change => { desc with flav := r.flavNew, moveOnly := false }

/-- The decision of the rules for netmail, if the packet is netmail. -/
def mkrouted (hubs : Node → Option (Option Node)) (mk : List MkRoute) (desc : RouteDesc) :
    Option RouteDesc :=
  if desc.type = TYPE_NETMAIL then
    Rules.decided (MkRoute.applies hubs) (MkRoute.outcome hubs) mk desc
  else none

/-- Where a packet goes: the first rule for netmail that applies decides, else
the first of the other rules that does. -/
def routed (hubs : Node → Option (Option Node)) (mk : List MkRoute) (rs : List Routing)
    (desc : RouteDesc) : RouteDesc :=
  (((mkrouted hubs mk desc).or (Rules.decided Routing.applies Routing.outcome rs desc)).map
    RouteDesc.zeroed).getD desc

/-- Zone, net and node are those of the destination, of the target of a rule or
of the hub that is looked up, where missing parts and wildcards are 0; for a
hostroute the node is 0. -/
inductive RoutedTo (hubs : Node → Option (Option Node)) (mk : List MkRoute) (rs : List Routing)
    (dst n : Node) : Prop
  | same : nodeNpEq n dst = true → RoutedTo hubs mk rs dst n
  | route (r : Routing) : r ∈ rs → r.cmd = .route → nodeNpEq n (zeroWild r.first) = true →
      RoutedTo hubs mk rs dst n
  | xroute (r : MkRoute) : r ∈ mk → r.cmd = .xroute → nodeNpEq n (zeroWild r.uplink) = true →
      RoutedTo hubs mk rs dst n
  | hostroute (r : MkRoute) : r ∈ mk → r.cmd = .hostroute →
      nodeNpEq n { dst with node := 0 } = true → RoutedTo hubs mk rs dst n
  | hubroute (r : MkRoute) (hub : Node) : r ∈ mk → r.cmd = .hubroute →
      hubs dst = some (some hub) → nodeNpEq n (zeroWild hub) = true → RoutedTo hubs mk rs dst n

/-! ## One rule -/

variable {hubs : Node → Option (Option Node)} {desc : RouteDesc}

theorem zeroWild_of_given {n : Node} (h : n.Given) : zeroWild n = n := by
  have hpart : ∀ v ∈ [n.zone, n.net, n.node, n.point],
      (if (v == EMPTY || v == WILDCARD) = true then 0 else v) = v := by
    intro v hv
    rw [if_neg]
    rw [Bool.or_eq_true, beq_iff_eq, beq_iff_eq]
    exact not_or.mpr (h v hv)
  simp only [List.forall_mem_cons] at hpart
  obtain ⟨hzone, hnet, hnode, hpoint, -⟩ := hpart
  unfold zeroWild
  dsimp only
  rw [hzone, hnet, hnode, hpoint]

theorem Node.given_of_nonneg {n : Node} (hzone : 0 ≤ n.zone) (hnet : 0 ≤ n.net) (hnode : 0 ≤ n.node)
    (hpoint : 0 ≤ n.point) : n.Given := by
  have hpart : ∀ {v : Int}, 0 ≤ v → v ≠ EMPTY ∧ v ≠ WILDCARD := by
    intro v hv
    rw [EMPTY, WILDCARD]
    omega
  unfold Node.Given
  simp only [List.forall_mem_cons]
  exact ⟨hpart hzone, hpart hnet, hpart hnode, hpart hpoint, fun _ h => absurd h List.not_mem_nil⟩

theorem RouteDesc.zeroed_of_given (h : desc.dst.Given) : desc.zeroed = desc := by
  rw [RouteDesc.zeroed, zeroWild_of_given h]

/-- `do_cmd_mkroute` is its rule. -/
theorem doCmdMkroute_eq (hubs : Node → Option (Option Node)) (desc : RouteDesc) (r : MkRoute) :
    doCmdMkroute hubs desc r =
      if r.applies hubs desc then ((r.outcome hubs desc).zeroed, true)
      else (desc.zeroed, false) := by
  unfold doCmdMkroute MkRoute.applies MkRoute.outcome RouteDesc.zeroed
  cases r.cmd with
  | xroute =>
      match r.links with
      | [] => rfl
      | [_] => rfl
      | a :: b :: _ =>
          by_cases h : (nodeMatch desc.src a && nodeMatch desc.dst b) = true
          · rw [if_pos h]
            simp only [if_pos h]
          · rw [if_neg h]
            simp only [if_neg h]
  | hostroute =>
      dsimp only
      cases r.links.any (nodeMatch desc.dst) <;> rfl
  | hubroute =>
      dsimp only
      cases r.links.any (nodeMatch desc.dst) with
      | false => rfl
      | true =>
          match hubs desc.dst with
          | none => rfl
          | some none => rfl
          | some (some hub) => rfl
  | bossroute =>
      dsimp only
      cases desc.flav == r.flav && r.links.any (nodeMatch desc.dst) <;> rfl

/-- `do_cmd` is its rule, for the node of the rule that matches. -/
theorem doCmd_eq {r : Routing} {found : Node}
    (h : (r.first :: r.rest).find? (nodeMatch desc.dst) = some found) :
    doCmd desc r found =
      if r.flavoured desc then ((r.outcome desc).zeroed, true) else (desc.zeroed, false) := by
  unfold doCmd Routing.flavoured Routing.outcome RouteDesc.zeroed
  rw [h]
  cases r.cmd with
  | send =>
      dsimp only
      cases desc.flav == FLAV_NORMAL <;> rfl
  | sendmove =>
      dsimp only
      cases desc.flav == FLAV_NORMAL <;> rfl
  | route =>
      dsimp only
      cases desc.flav == FLAV_NORMAL <;> rfl
  | change =>
      dsimp only
      cases desc.flav == r.flav <;> rfl

/-! ## All rules -/

/-- A round of the loop over the routing commands. -/
def routingStep (desc : RouteDesc) (r : Routing) : RouteDesc × Bool :=
  match if desc.type == r.type then (r.first :: r.rest).find? (nodeMatch desc.dst) else none with
  | none => (desc, false)
  | some found => doCmd desc r found

theorem mkrouteLoop_eq (hubs : Node → Option (Option Node)) : ∀ (rs : List MkRoute)
    (desc : RouteDesc), mkrouteLoop hubs desc rs = Rules.tryRules (doCmdMkroute hubs) desc rs
  | [], _ => rfl
  | r :: rs, desc => by
      rw [mkrouteLoop, Rules.tryRules, ← mkrouteLoop_eq hubs rs]

theorem routingLoop_eq : ∀ (rs : List Routing) (desc : RouteDesc),
    routingLoop desc rs = (Rules.tryRules routingStep desc rs).1
  | [], _ => rfl
  | r :: rs, desc => by
      rw [routingLoop, Rules.tryRules, routingStep]
      generalize (if desc.type == r.type then (r.first :: r.rest).find? (nodeMatch desc.dst)
        else none) = found
      cases found with
      | none => exact routingLoop_eq rs desc
      | some found =>
          dsimp only
          split
          · rfl
          · exact routingLoop_eq rs _

theorem decides_mkroute (hubs : Node → Option (Option Node)) (h : desc.dst.Given) :
    Rules.Decides (doCmdMkroute hubs) (MkRoute.applies hubs)
      (fun d r => (MkRoute.outcome hubs d r).zeroed) desc := by
  intro r
  rw [doCmdMkroute_eq, RouteDesc.zeroed_of_given h]

theorem decides_routing (h : desc.dst.Given) :
    Rules.Decides routingStep Routing.applies (fun d r => (Routing.outcome d r).zeroed) desc := by
  intro r
  unfold routingStep Routing.applies Routing.isFor
  cases desc.type == r.type with
  | false => rfl
  | true =>
      rw [if_pos rfl, Bool.true_and, ← List.isSome_find?]
      cases hfound : (r.first :: r.rest).find? (nodeMatch desc.dst) with
      | none => rfl
      | some found =>
          dsimp only
          rw [doCmd_eq hfound, RouteDesc.zeroed_of_given h, Option.isSome_some, Bool.true_and]

/-- Where `do_routing` sends a packet. -/
theorem routeTarget_eq {e : RouteEnv} {name : Str} {pkt : Packet}
    (hname : parsePktName name pkt.src pkt.dst = some desc) (h : desc.dst.Given) :
    routeTarget e name pkt = some (routed e.hubs e.mkroute e.routing desc) := by
  have hmk := (decides_mkroute e.hubs h).tryRules_eq e.mkroute
  have hrest := (decides_routing h).tryRules_eq e.routing
  rw [Rules.decided_map] at hmk hrest
  have hloop : routingLoop desc e.routing =
      ((Rules.decided Routing.applies Routing.outcome e.routing desc).map RouteDesc.zeroed).getD
        desc := by
    rw [routingLoop_eq, hrest]
  rw [routeTarget, hname]
  dsimp only [Option.bind_eq_bind, Option.bind_some]
  unfold routed mkrouted
  by_cases htype : desc.type = TYPE_NETMAIL
  · rw [if_pos (beq_iff_eq.mpr htype), if_pos htype, mkrouteLoop_eq, hmk]
    cases Rules.decided (MkRoute.applies e.hubs) (MkRoute.outcome e.hubs) e.mkroute desc with
    | none => exact congrArg some hloop
    | some d => rfl
  · rw [if_neg (mt beq_iff_eq.mp htype), if_neg htype]
    exact congrArg some hloop

/-! ## The address -/

theorem nodeNpEq_refl (n : Node) : nodeNpEq n n = true := by
  simp [nodeNpEq]

theorem nodeNpEq_zeroWild_point (n : Node) :
    nodeNpEq (zeroWild { n with point := 0 }) (zeroWild n) = true := by
  simp [nodeNpEq, zeroWild]

/-- Without a point an address is that of its system. -/
theorem nodeNpEq_point {n : Node} (h : n.Given) :
    nodeNpEq (zeroWild { n with point := 0 }) n = true := by
  have hpoint := nodeNpEq_zeroWild_point n
  rwa [zeroWild_of_given h] at hpoint

theorem Node.Given.host {n : Node} (h : n.Given) : ({ n with node := 0 } : Node).Given := by
  unfold Node.Given at h ⊢
  simp only [List.forall_mem_cons] at h ⊢
  exact ⟨h.1, h.2.1, by decide, h.2.2.2⟩

theorem routedTo_mkroute {mk : List MkRoute} (rs : List Routing) {r : MkRoute} (hr : r ∈ mk)
    (h : desc.dst.Given) :
    RoutedTo hubs mk rs desc.dst (r.outcome hubs desc).zeroed.dst := by
  unfold MkRoute.outcome RouteDesc.zeroed
  cases hcmd : r.cmd with
  | xroute => exact .xroute r hr hcmd (nodeNpEq_refl _)
  | hostroute => exact .hostroute r hr hcmd (nodeNpEq_point h.host)
  | hubroute =>
      dsimp only
      match hhub : hubs desc.dst with
      | some (some hub) => exact .hubroute r hub hr hcmd hhub (nodeNpEq_zeroWild_point hub)
      | some none =>
          refine .same ?_
          rw [zeroWild_of_given h]
          exact nodeNpEq_refl _
      | none =>
          refine .same ?_
          rw [zeroWild_of_given h]
          exact nodeNpEq_refl _
  | bossroute => exact .same (nodeNpEq_point h)

theorem routedTo_routing (mk : List MkRoute) {rs : List Routing} {r : Routing} (hr : r ∈ rs)
    (h : desc.dst.Given) : RoutedTo hubs mk rs desc.dst (r.outcome desc).zeroed.dst := by
  have hsame : nodeNpEq (zeroWild desc.dst) desc.dst = true := by
    rw [zeroWild_of_given h]
    exact nodeNpEq_refl _
  unfold Routing.outcome RouteDesc.zeroed
  cases hcmd : r.cmd with
  | send =>
      refine .same ?_
      dsimp only
      split
      · exact nodeNpEq_point h
      · exact hsame
  | sendmove => exact .same hsame
  | route => exact .route r hr hcmd (nodeNpEq_refl _)
  | change => exact .same hsame

/-- The address a packet ends up with. -/
theorem routed_dst (hubs : Node → Option (Option Node)) (mk : List MkRoute) (rs : List Routing)
    (h : desc.dst.Given) : RoutedTo hubs mk rs desc.dst (routed hubs mk rs desc).dst := by
  unfold routed
  cases hmk : mkrouted hubs mk desc with
  | some d =>
      unfold mkrouted at hmk
      split at hmk
      · obtain ⟨r, hr, -, rfl⟩ := Rules.mem_of_decided hmk
        exact routedTo_mkroute rs hr h
      · cases hmk
  | none =>
      rw [Option.none_or]
      cases hrest : Rules.decided Routing.applies Routing.outcome rs desc with
      | none => exact .same (nodeNpEq_refl _)
      | some d =>
          obtain ⟨r, hr, -, rfl⟩ := Rules.mem_of_decided hrest
          exact routedTo_routing mk hr h

/-! ## Packets that are read -/

theorem word_nonneg (h : Str) (i : Nat) : 0 ≤ word h i := by
  unfold word
  omega

/-- The destination in the header of a packet is given, if the default zone
is. -/
theorem pktGetHdr_given {ck : Clock} {mktime : Tm → Int} {defzone code : Int} {fp rest : Str}
    {pkt : Packet} (hzone : 0 ≤ defzone)
    (h : pktGetHdr ck mktime defzone fp = (code, some pkt, rest)) : pkt.dst.Given := by
  have hword := word_nonneg (fp.take PKT_HDRLEN)
  have hif : ∀ {c : Prop} [Decidable c] {a b : Int}, 0 ≤ a → 0 ≤ b → 0 ≤ if c then a else b := by
    intro c _ a b ha hb
    split
    · exact ha
    · exact hb
  unfold pktGetHdr at h
  split at h
  · cases h
  · obtain ⟨-, h⟩ := Prod.mk.inj h
    obtain ⟨hpkt, -⟩ := Prod.mk.inj h
    cases hpkt
    exact Node.given_of_nonneg (hif (hword _) (hif (hword _) hzone)) (hword _) (hword _)
      (hif (hword _) le_rfl)

theorem parsePktName_dst {name : Str} {src dst : Node}
    (h : parsePktName name src dst = some desc) : desc.dst = dst := by
  unfold parsePktName at h
  split at h
  · split at h
    · cases h
    · split at h <;> cases h <;> rfl
  · cases h

/-- A packet that is opened goes where the rules say. -/
theorem openPacket_routed {e : RouteEnv} {ck : Clock} {o : RouteOutcomes} {name c fp : Str}
    {pkt : Packet} {d : RouteDesc} (hzone : 0 ≤ e.out.cf.defzone)
    (h : openPacket e ck o name c = some (pkt, d, fp)) :
    ∃ desc, parsePktName name pkt.src pkt.dst = some desc ∧ desc.dst.Given ∧
      d = routed e.hubs e.mkroute e.routing desc := by
  unfold openPacket at h
  dsimp only at h
  split at h
  · next code p rest hget =>
      split at h
      · cases h
      · obtain ⟨d', htarget, heq⟩ := Option.map_eq_some_iff.mp h
        cases heq
        cases hopen : o.opened with
        | false =>
            rw [hopen] at hget
            cases hget
        | true =>
            rw [hopen, if_pos rfl] at hget
            have hgiven := pktGetHdr_given hzone hget
            cases hname : parsePktName name pkt.src pkt.dst with
            | none =>
                rw [routeTarget, hname] at htarget
                cases htarget
            | some desc =>
                rw [← parsePktName_dst hname] at hgiven
                refine ⟨desc, rfl, hgiven, ?_⟩
                exact Option.some.inj (htarget.symm.trans (routeTarget_eq hname hgiven))
  · cases h

/-! ## The rules -/

/-- A rule that applies decides, whatever stands behind it. -/
theorem routed_append {r : Routing} (hr : r.applies desc = true)
    (hubs : Node → Option (Option Node)) (mk : List MkRoute) (pre post : List Routing) :
    routed hubs mk (pre ++ r :: post) desc = routed hubs mk (pre ++ [r]) desc := by
  rw [routed, Rules.decided_append hr, ← routed]

theorem routed_mkroute_append {r : MkRoute} (htype : desc.type = TYPE_NETMAIL)
    (hr : r.applies hubs desc = true) (pre post : List MkRoute) (rs : List Routing) :
    routed hubs (pre ++ r :: post) rs desc = routed hubs (pre ++ [r]) [] desc := by
  have hsome : (Rules.decided (MkRoute.applies hubs) (MkRoute.outcome hubs) (pre ++ [r])
      desc).isSome = true := by
    rw [Rules.isSome_decided]
    exact ⟨r, List.mem_append_right pre List.mem_cons_self, hr⟩
  obtain ⟨d, hd⟩ := Option.isSome_iff_exists.mp hsome
  unfold routed mkrouted
  rw [if_pos htype, if_pos htype, Rules.decided_append hr, hd, Option.some_or, Option.some_or]

/-- What the loops do is what the rules mean. -/
theorem routing_refines (e : RouteEnv) (desc : RouteDesc) :
    (∀ r, doCmdMkroute e.hubs desc r =
      if r.applies e.hubs desc then ((r.outcome e.hubs desc).zeroed, true)
      else (desc.zeroed, false)) ∧
    (∀ r found, (r.first :: r.rest).find? (nodeMatch desc.dst) = some found →
      doCmd desc r found =
        if r.flavoured desc then ((r.outcome desc).zeroed, true) else (desc.zeroed, false)) ∧
    (∀ pre r post, r.applies desc = true →
      routed e.hubs e.mkroute (pre ++ r :: post) desc = routed e.hubs e.mkroute (pre ++ [r]) desc) ∧
    (∀ pre r post rs, desc.type = TYPE_NETMAIL → r.applies e.hubs desc = true →
      routed e.hubs (pre ++ r :: post) rs desc = routed e.hubs (pre ++ [r]) [] desc) ∧
    (desc.dst.Given → desc.zeroed = desc ∧
      (∀ name pkt, parsePktName name pkt.src pkt.dst = some desc →
        routeTarget e name pkt = some (routed e.hubs e.mkroute e.routing desc)) ∧
      RoutedTo e.hubs e.mkroute e.routing desc.dst
        (routed e.hubs e.mkroute e.routing desc).dst) := by
  refine ⟨doCmdMkroute_eq e.hubs desc, fun r found => doCmd_eq, ?_, ?_, ?_⟩
  · intro pre r post hr
    exact routed_append hr e.hubs e.mkroute pre post
  · intro pre r post rs htype hr
    exact routed_mkroute_append htype hr pre post rs
  · intro h
    exact ⟨RouteDesc.zeroed_of_given h, fun name pkt hname => routeTarget_eq hname h,
      routed_dst e.hubs e.mkroute e.routing h⟩

/-- A file with a rule whose target is a pattern of its own. -/
def starRouting : RoutingConf :=
  routingDoFile 2 [lit "netmail", lit "route crash 2:5020/* 2:5030/*.*", lit "send hold *"]

def starRoute : RouteEnv :=
  { oneRoute with mkroute := starRouting.mkroute, routing := starRouting.routing }

/-- A packet for 2:5020/9. -/
def starPacket : Packet :=
  { src := ⟨2, 5020, 7, 0, []⟩, dst := ⟨2, 5020, 9, 0, []⟩, time := 0, baud := 0, version := 2
    productL := 0, productH := 0, revMin := 0, revMaj := 0, passwd := [], capword := 1, psd := [] }

/-- Its destination is given, and it goes where the rules say. -/
theorem routing_refines_star :
    let desc : RouteDesc := ⟨starPacket.src, starPacket.dst, 113, TYPE_NETMAIL, FLAV_NORMAL, false⟩
    desc.dst.Given ∧
      routeTarget starRoute (lit "/in/qnn00001.pkt") starPacket =
        some (routed starRoute.hubs starRoute.mkroute starRoute.routing desc) := by
  have hgiven : starPacket.dst.Given := by decide
  obtain ⟨-, -, -, -, hrun⟩ := routing_refines starRoute
    ⟨starPacket.src, starPacket.dst, 113, TYPE_NETMAIL, FLAV_NORMAL, false⟩
  exact ⟨hgiven, (hrun hgiven).2.1 (lit "/in/qnn00001.pkt") starPacket rfl⟩

/-- The address a packet ends up with need not be of a rule or the packet: the
node of the target is a wildcard, and becomes 0. -/
theorem routeTarget_star : ¬ ∀ (e : RouteEnv) (name : Str) (pkt : Packet) (d : RouteDesc),
    routeTarget e name pkt = some d → ∀ part ∈ [Node.zone, Node.net, Node.node],
      part d.dst = part pkt.dst ∨ (∃ r ∈ e.routing, part d.dst = part r.first) ∨
        ∃ r ∈ e.mkroute, part d.dst = part r.uplink := by
  intro h
  have htarget : (routeTarget starRoute (lit "/in/qnn00001.pkt") starPacket).map (·.dst) =
      some ⟨2, 5020, 0, 0, []⟩ := by
    decide +kernel
  obtain ⟨d, hd, hdst⟩ := Option.map_eq_some_iff.mp htarget
  have hnode := h starRoute _ starPacket d hd Node.node (by simp)
  rw [hdst] at hnode
  revert hnode
  decide +kernel

end Fidogate

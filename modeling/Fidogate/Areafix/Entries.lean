/-
# `Fidogate.Areafix.Entries` — what the commands do with one entry

UNSUBSCRIBE, PASSIVE and ACTIVE go through the areas list entry by entry; for
each of them a function says what an entry becomes and which requests are
queued for it.  SUBSCRIBE looks at limits that other entries count for, so it
has a relation (`SubEntry`).  The requests are kept apart from their text.
-/
import Fidogate.Areafix.Forward
import Fidogate.Lib.Sweep

namespace Fidogate

open Bytes Sweep

/-! ## Lists of nodes -/

theorem nodeEq_comm (a b : Node) : nodeEq a b = nodeEq b a := by
  unfold nodeEq
  rw [Bool.beq_comm, Bool.beq_comm (a := a.net), Bool.beq_comm (a := a.node),
    Bool.beq_comm (a := a.point)]

theorem nodeEq_trans {a b c : Node} (h : nodeEq a b = true) (h' : nodeEq b c = true) :
    nodeEq a c = true := by
  simp only [nodeEq, Bool.and_eq_true, beq_iff_eq] at *
  exact ⟨⟨⟨h.1.1.1.trans h'.1.1.1, h.1.1.2.trans h'.1.1.2⟩, h.1.2.trans h'.1.2⟩, h.2.trans h'.2⟩

theorem lonSearch_append (l l' : List Node) (n : Node) :
    lonSearch (l ++ l') n = (lonSearch l n || lonSearch l' n) := List.any_append

theorem lonSearch_singleton (n : Node) : lonSearch [n] n = true := by
  rw [lonSearch, List.any_cons, List.any_nil, Bool.or_false, nodeEq]
  simp

theorem lonRemove_cons {a n : Node} (h : nodeEq a n = false) (l : List Node) :
    lonRemove (a :: l) n = a :: lonRemove l n :=
  List.eraseP_cons_of_neg (by rw [h]; exact Bool.false_ne_true)

theorem length_lonRemove {l : List Node} {n : Node} (h : lonSearch l n = true) :
    (lonRemove l n).length = l.length - 1 := by
  obtain ⟨a, ha, hn⟩ := List.any_eq_true.mp h
  exact List.length_eraseP_of_mem ha hn

/-! ## Requests -/

/-- A request of the queue.  `point` says that the address is printed with its
point. -/
structure UplReq where
  link : Node
  point : Bool
  robotname : Str
  name : Str
  password : Str
  add : Bool
  area : Str
  deriving DecidableEq, Repr

def UplReq.addr (r : UplReq) : Str := if r.point then znfp1 r.link else znf1 r.link

/-- The line of the queue. -/
def UplReq.line (r : UplReq) : Str :=
  ((lit ",").intercalate [r.addr, r.robotname, r.name, r.password,
    lit (if r.add then "+" else "-") ++ r.area]).take 4095

/-- The request for an area of an entry, to the address of the uplinks file. -/
def uplReq (t : Tables) (cf : Config) (a : AreaUplink) (add : Bool) (p : AreasBBS) : UplReq :=
  ⟨a.uplink, true, a.robotname, fixName t cf, a.password, add, strUpper p.area⟩

/-- The requests of a loop are at the end of the queue. -/
def Queued (upl upl' : List Str) (reqs : List UplReq) : Prop :=
  upl' = upl ++ reqs.map UplReq.line

theorem Queued.refl (upl : List Str) : Queued upl upl [] := (List.append_nil upl).symm

theorem Queued.trans {upl upl' upl'' : List Str} {reqs reqs' : List UplReq}
    (h : Queued upl upl' reqs) (h' : Queued upl' upl'' reqs') :
    Queued upl upl'' (reqs ++ reqs') := by
  unfold Queued at *
  rw [h', h, List.map_append, List.append_assoc]

/-! ## Names -/

/-- The name an entry is known by: letter case does not count. -/
def AreasBBS.name (p : AreasBBS) : Str := strUpper p.area

@[simp] theorem strUpper_strUpper (s : Str) : strUpper (strUpper s) = strUpper s := by
  have key : ∀ c : UInt8, toUpper (toUpper c) = toUpper c := forall_byte (by decide +kernel)
  rw [strUpper, strUpper, List.map_map]
  exact List.map_congr_left fun c _ => key c

theorem strieq_name {n : Str} {p : AreasBBS} : strieq n p.area = true ↔ p.name = strUpper n := by
  rw [strieq_iff_upper]
  exact eq_comm

/-- An entry is known by its own name, and so are its requests. -/
abbrev Named (R : AreasBBS → List AreasBBS → List UplReq → Prop) : Prop :=
  Keyed AreasBBS.name UplReq.area R

/-! ## UNSUBSCRIBE -/

section

variable (t : Tables) (w : World) (cf : Config) (node : Node) (area : Str) (p : AreasBBS)

/-- The request UNSUBSCRIBE queues for an entry of the node. -/
def unsubReqs : List UplReq :=
  match lonRemove p.nodes node with
  | [first] =>
      if p.passthru then
        ((uplinksLineGet t.uplinks t.areafix first).map (uplReq t cf · false p)).toList
      else []
  | _ => []

/-- What `cmd_unsub` does with an entry. -/
def unsubEntry : List AreasBBS × List UplReq :=
  if wildmatch p.area area true then
    if p.nodes.isEmpty then ([], [])
    else if lonSearch p.nodes node then
      ((unsubArea t cf node p).1.toList, unsubReqs t cf node p)
    else ([p], [])
  else ([p], [])

/-- The entry PASSIVE or ACTIVE means: one the node is linked to with others,
or one it is passive in. -/
def passiveMeans : Bool :=
  passiveMatch area p && lonSearch p.nodes node && p.nodes.length > 1 && ! lonSearch p.passive node

def activeMeans : Bool := passiveMatch area p && lonSearch p.passive node && ! lonSearch p.nodes node

/-- The entry with the node moved to its passive list. -/
def passiveMove (q : AreasBBS) : AreasBBS :=
  { q with nodes := lonRemove p.nodes node, passive := p.passive ++ [node] }

/-- The entry with the node moved back. -/
def activeMove (q : AreasBBS) : AreasBBS :=
  { q with nodes := p.nodes ++ [node], passive := lonRemove p.passive node }

/-- The entry where the last downlink goes passive. -/
def passiveLast : AreasBBS :=
  { p with
    area := strUpper p.area
    time := w.now
    state :=
      if areasbbsIsstate p.state 87 || areasbbsIsstate p.state 70 || areasbbsIsstate p.state 83 then
        areasbbsChstate p.state (lit "WFS") 80
      else p.state }

/-- The entry where the first downlink comes back. -/
def activeFirst : AreasBBS :=
  { p with
    area := strUpper p.area
    state :=
      if areasbbsIsstate p.state 80 || areasbbsIsstate p.state 85 then
        areasbbsChstate p.state (lit "P") 87
      else p.state }

/-- What `cmd_passive` does with an entry; without a line for its uplink the
command ends there. -/
def passiveEntry : Option (List AreasBBS × List UplReq) :=
  if passiveMeans node area p then
    if p.nodes.length ≤ 2 then
      (uplinksLineGet t.uplinks t.areafix (p.nodes.headD nodeInvalid)).map fun a =>
        ([passiveMove node p (passiveLast w p)], [uplReq t cf a false p])
    else some ([passiveMove node p p], [])
  else some ([p], [])

/-- The entry PASSIVE does not get past: the uplink has to be asked, and it is
not known. -/
def passiveStops : Bool :=
  passiveMeans node area p && p.nodes.length ≤ 2 &&
    (uplinksLineGet t.uplinks t.areafix (p.nodes.headD nodeInvalid)).isNone

/-- The entry where ACTIVE asks the uplink. -/
def activeAsks : Bool := p.nodes.length == 1 && ! nodeEq (p.nodes.headD nodeInvalid) node

def activeStops : Bool :=
  activeMeans node area p && activeAsks node p &&
    (uplinksLineGet t.uplinks t.areafix (p.nodes.headD nodeInvalid)).isNone

/-- What `cmd_active` does with an entry. -/
def activeEntry : Option (List AreasBBS × List UplReq) :=
  if activeMeans node area p then
    if activeAsks node p then
      (uplinksLineGet t.uplinks t.areafix (p.nodes.headD nodeInvalid)).map fun a =>
        ([activeMove node p (activeFirst p)], [uplReq t cf a true p])
    else some ([activeMove node p p], [])
  else some ([p], [])

end

section

variable {t : Tables} {w : World} {cf : Config} {node : Node} {area : Str}

theorem unsubArea_upl (p : AreasBBS) :
    (unsubArea t cf node p).2 = (unsubReqs t cf node p).map UplReq.line := by
  unfold unsubArea unsubReqs
  dsimp only
  cases lonRemove p.nodes node with
  | nil =>
      dsimp only
      split <;> rfl
  | cons first ns =>
      cases ns with
      | nil =>
          dsimp only
          split
          · cases uplinksLineGet t.uplinks t.areafix first with
            | none => rfl
            | some a => rfl
          · rfl
      | cons n ns => rfl

/-- UNSUBSCRIBE, entry by entry. -/
def unsubStep (t : Tables) (st : Areafix) (area : Str) (st' : Areafix) (p : AreasBBS) : Areafix :=
  if wildmatch p.area area true then
    if p.nodes.isEmpty then { st' with changed := true }
    else if lonSearch p.nodes st.node then
      let (q, upl) := unsubArea t st.cf st.node p
      { st' with areas := st'.areas ++ q.toList, upl := st'.upl ++ upl, changed := true
                 limG := st'.limG - 1 }
    else { st' with areas := st'.areas ++ [p] }
  else { st' with areas := st'.areas ++ [p] }

theorem cmdUnsub_foldl (t : Tables) (area : Str) {st : Areafix} (hauth : st.auth.authorized = true) :
    (cmdUnsub t area st).2 = st.areas.foldl (unsubStep t st area) { st with areas := [] } := by
  rw [cmdUnsub, hauth, if_neg (by decide)]
  rfl

/-- An entry leaves what `unsubEntry` says, and asks for as much. -/
theorem unsubStep_entry (st st' : Areafix) (p : AreasBBS) :
    (unsubStep t st area st' p).areas = st'.areas ++ (unsubEntry t st.cf st.node area p).1 ∧
      Queued st'.upl (unsubStep t st area st' p).upl (unsubEntry t st.cf st.node area p).2 := by
  unfold unsubStep unsubEntry
  split
  · split
    · exact ⟨(List.append_nil _).symm, Queued.refl _⟩
    · split
      · exact ⟨rfl, congrArg (st'.upl ++ ·) (unsubArea_upl p)⟩
      · exact ⟨rfl, Queued.refl _⟩
  · exact ⟨rfl, Queued.refl _⟩

theorem unsubStep_sweep (st : Areafix) : ∀ (ps : List AreasBBS) (st' : Areafix),
    let r := sweep (fun p => some (unsubEntry t st.cf st.node area p)) ps
    let s := ps.foldl (unsubStep t st area) st'
    s.areas = st'.areas ++ r.1 ∧ Queued st'.upl s.upl r.2
  | [], _ => ⟨(List.append_nil _).symm, Queued.refl _⟩
  | p :: ps, st' => by
      obtain ⟨hareas, hupl⟩ := @unsubStep_entry t area st st' p
      obtain ⟨hrest, hqueued⟩ := unsubStep_sweep st ps (unsubStep t st area st' p)
      rw [List.foldl_cons]
      dsimp only [sweep]
      refine ⟨hrest.trans ?_, hupl.trans hqueued⟩
      rw [hareas, List.append_assoc]

/-- `cmd_unsub` goes through the areas. -/
theorem cmdUnsub_sweep (st : Areafix) (hauth : st.auth.authorized = true) :
    let r := sweep (fun p => some (unsubEntry t st.cf st.node area p)) st.areas
    (cmdUnsub t area st).2.areas = r.1 ∧ Queued st.upl (cmdUnsub t area st).2.upl r.2 := by
  rw [cmdUnsub_foldl t area hauth]
  exact unsubStep_sweep st st.areas { st with areas := [] }

/-- `cmd_passive` goes through the areas. -/
theorem cmdPassiveLoop_sweep : ∀ ps : List AreasBBS,
    (cmdPassiveLoop t w node cf area ps).1 = (sweep (passiveEntry t w cf node area) ps).1 ∧
      (cmdPassiveLoop t w node cf area ps).2.1 =
        (sweep (passiveEntry t w cf node area) ps).2.map UplReq.line
  | [] => ⟨rfl, rfl⟩
  | p :: ps => by
      obtain ⟨hareas, hupl⟩ := cmdPassiveLoop_sweep ps
      have hcons : ∀ (q : AreasBBS) (reqs : List UplReq),
          q :: (cmdPassiveLoop t w node cf area ps).1 =
            [q] ++ (sweep (passiveEntry t w cf node area) ps).1 ∧
          reqs.map UplReq.line ++ (cmdPassiveLoop t w node cf area ps).2.1 =
            (reqs ++ (sweep (passiveEntry t w cf node area) ps).2).map UplReq.line := by
        intro q reqs
        rw [hareas, hupl, List.map_append]
        exact ⟨rfl, rfl⟩
      rw [cmdPassiveLoop, sweep, passiveEntry]
      unfold passiveMeans
      dsimp only
      split
      · split
        · cases uplinksLineGet t.uplinks t.areafix (p.nodes.headD nodeInvalid) with
          | none => exact ⟨rfl, rfl⟩
          | some a => exact hcons _ [uplReq t cf a false p]
        · exact hcons _ []
      · exact hcons p []

/-- `cmd_active` goes through the areas. -/
theorem cmdActiveLoop_sweep : ∀ ps : List AreasBBS,
    (cmdActiveLoop t node cf area ps).1 = (sweep (activeEntry t cf node area) ps).1 ∧
      (cmdActiveLoop t node cf area ps).2.1 =
        (sweep (activeEntry t cf node area) ps).2.map UplReq.line
  | [] => ⟨rfl, rfl⟩
  | p :: ps => by
      obtain ⟨hareas, hupl⟩ := cmdActiveLoop_sweep ps
      have hcons : ∀ (q : AreasBBS) (reqs : List UplReq),
          q :: (cmdActiveLoop t node cf area ps).1 =
            [q] ++ (sweep (activeEntry t cf node area) ps).1 ∧
          reqs.map UplReq.line ++ (cmdActiveLoop t node cf area ps).2.1 =
            (reqs ++ (sweep (activeEntry t cf node area) ps).2).map UplReq.line := by
        intro q reqs
        rw [hareas, hupl, List.map_append]
        exact ⟨rfl, rfl⟩
      rw [cmdActiveLoop, sweep, activeEntry]
      unfold activeMeans activeAsks
      dsimp only
      split
      · split
        · cases uplinksLineGet t.uplinks t.areafix (p.nodes.headD nodeInvalid) with
          | none => exact ⟨rfl, rfl⟩
          | some a => exact hcons _ [uplReq t cf a true p]
        · exact hcons _ []
      · exact hcons p []

/-- The areas and the queue behind PASSIVE. -/
theorem cmdPassive_sweep (st : Areafix) (hauth : st.auth.authorized = true) :
    let r := sweep (passiveEntry t w st.cf st.node area) st.areas
    (cmdPassive t w area st).2.areas = r.1 ∧ Queued st.upl (cmdPassive t w area st).2.upl r.2 := by
  obtain ⟨hareas, hupl⟩ := @cmdPassiveLoop_sweep t w st.cf st.node area st.areas
  unfold cmdPassive
  rw [hauth, if_neg (by decide)]
  exact ⟨hareas, congrArg (st.upl ++ ·) hupl⟩

theorem cmdActive_sweep (st : Areafix) (hauth : st.auth.authorized = true) :
    let r := sweep (activeEntry t st.cf st.node area) st.areas
    (cmdActive t area st).2.areas = r.1 ∧ Queued st.upl (cmdActive t area st).2.upl r.2 := by
  obtain ⟨hareas, hupl⟩ := @cmdActiveLoop_sweep t st.cf st.node area st.areas
  unfold cmdActive
  rw [hauth, if_neg (by decide)]
  exact ⟨hareas, congrArg (st.upl ++ ·) hupl⟩

end

theorem passiveEntry_isSome (p : AreasBBS) :
    (passiveEntry t w cf node area p).isSome = ! passiveStops t node area p := by
  unfold passiveEntry passiveStops
  cases passiveMeans node area p with
  | false => rfl
  | true =>
      rw [if_pos rfl, Bool.true_and]
      split
      · next h =>
          rw [Option.isSome_map, decide_eq_true h, Bool.true_and, Option.not_isNone]
      · next h => rw [decide_eq_false h, Bool.false_and, Option.isSome_some, Bool.not_false]

theorem activeEntry_isSome (p : AreasBBS) :
    (activeEntry t cf node area p).isSome = ! activeStops t node area p := by
  unfold activeEntry activeStops
  cases activeMeans node area p with
  | false => rfl
  | true =>
      rw [if_pos rfl, Bool.true_and]
      cases activeAsks node p with
      | true => rw [if_pos rfl, Option.isSome_map, Bool.true_and, Option.not_isNone]
      | false => rfl

/-! ## The names -/

section

variable (t : Tables) (w : World) (cf : Config) (node : Node) (area : Str)

theorem named_single {p q : AreasBBS} (h : q.name = p.name) {reqs : List UplReq}
    (hr : ∀ r ∈ reqs, r.area = p.name) :
    (∀ q' ∈ [q], q'.name = p.name) ∧ ∀ r ∈ reqs, r.area = p.name :=
  ⟨fun q' hq => by rwa [List.mem_singleton.mp hq], hr⟩

theorem named_keep (p : AreasBBS) :
    (∀ q ∈ [p], q.name = p.name) ∧ ∀ r ∈ ([] : List UplReq), r.area = p.name :=
  named_single rfl fun r hr => by cases hr

theorem unsubArea_name (p q : AreasBBS) (h : (unsubArea t cf node p).1 = some q) :
    q.name = p.name := by
  unfold unsubArea at h
  dsimp only at h
  split at h
  · split at h
    · cases h
    · cases h
      rfl
  · split at h
    · split at h
      · cases h
        exact strUpper_strUpper p.area
      · cases h
    · cases h
      rfl
  · cases h
    rfl

theorem unsubReqs_area (p : AreasBBS) : ∀ r ∈ unsubReqs t cf node p, r.area = p.name := by
  intro r hr
  unfold unsubReqs at hr
  split at hr
  · split at hr
    · obtain ⟨a, -, rfl⟩ := Option.map_eq_some_iff.mp (Option.mem_toList.mp hr)
      rfl
    · cases hr
  · cases hr

theorem unsubEntry_named :
    Named fun p qs rs => some (unsubEntry t cf node area p) = some (qs, rs) := by
  intro p qs rs h
  obtain ⟨rfl, rfl⟩ := Prod.ext_iff.mp (Option.some.inj h)
  unfold unsubEntry
  split
  · split
    · refine ⟨?_, ?_⟩
      · exact fun q hq => by cases hq
      · exact fun r hr => by cases hr
    · split
      · refine ⟨?_, unsubReqs_area t cf node p⟩
        intro q hq
        exact unsubArea_name t cf node p q (Option.mem_toList.mp hq)
      · exact named_keep p
  · exact named_keep p

/-- PASSIVE and ACTIVE: the uplink is asked for the entry, or the entry is
changed alone, or it stays. -/
theorem named_asked {asks moves : Prop} [Decidable asks] [Decidable moves] {α : Type}
    {upl : Option α} {q q' : AreasBBS} {req : α → UplReq} {qs : List AreasBBS} {rs : List UplReq}
    (hq : q.name = p.name) (hreq : ∀ a, (req a).area = p.name) (hq' : q'.name = p.name)
    (h : (if moves then if asks then upl.map fun a => ([q], [req a]) else some ([q'], [])
      else some ([p], [])) = some (qs, rs)) :
    (∀ q ∈ qs, q.name = p.name) ∧ ∀ r ∈ rs, r.area = p.name := by
  split at h
  · split at h
    · obtain ⟨a, -, h⟩ := Option.map_eq_some_iff.mp h
      cases h
      exact named_single hq fun r hr => by rw [List.mem_singleton.mp hr, hreq]
    · cases h
      exact named_single hq' fun r hr => by cases hr
  · cases h
    exact named_keep p

theorem passiveEntry_named :
    Named fun p qs rs => passiveEntry t w cf node area p = some (qs, rs) := by
  intro p qs rs h
  refine named_asked ?_ (fun _ => ?_) ?_ h
  · exact strUpper_strUpper p.area
  · rfl
  · rfl

theorem activeEntry_named : Named fun p qs rs => activeEntry t cf node area p = some (qs, rs) := by
  intro p qs rs h
  refine named_asked ?_ (fun _ => ?_) ?_ h
  · exact strUpper_strUpper p.area
  · rfl
  · rfl

end

/-! ## SUBSCRIBE -/

/-- The entry with the node added. -/
def subAdded (node : Node) (p : AreasBBS) : AreasBBS := { p with nodes := p.nodes ++ [node] }

/-- The entry requested again from its uplink. -/
def subWaiting (w : World) (node : Node) (p : AreasBBS) : AreasBBS :=
  { subAdded node p with
    area := strUpper p.area
    state := areasbbsChstate p.state (lit "UP") 87
    time := w.now
    passive := lonRemove p.passive node }

/-- The uplink has to be asked for the area again. -/
def subAsks (p : AreasBBS) : Bool := areasbbsIsstate p.state 85 || areasbbsIsstate p.state 80

/-- The request SUBSCRIBE queues for an entry: the address is printed without
its point. -/
def subReq (name : Str) (a : AreaUplink) (p : AreasBBS) : UplReq :=
  ⟨p.nodes.headD nodeInvalid, false, a.robotname, name, a.password, true, strUpper p.area⟩

section

variable (t : Tables) (w : World) (st : Areafix) (area : Str)

/-- What SUBSCRIBE does with an entry it means. -/
def subResult (name : Str) (p : AreasBBS) : SubResult → List AreasBBS × List UplReq
  | .skip => ([p], [])
  | .deny => ([p], [])
  | .activate => ([{ p with passive := lonRemove p.passive st.node }], [])
  | .dead => ([], [])
  | .add =>
      if subAsks p then
        match uplinksLineGet t.uplinks t.areafix (p.nodes.headD nodeInvalid) with
        | some a => ([subWaiting w st.node p], [subReq name a p])
        | none => ([subAdded st.node p], [])
      else ([subAdded st.node p], [])

/-- What SUBSCRIBE does with an entry, by the areas and the number of areas
its limits are counted for. -/
def subEntry (areas : List AreasBBS) (limG : Int) (name : Str) (p : AreasBBS) :
    List AreasBBS × List UplReq :=
  if wildmatch p.area (bufCopy BUFSIZ area) true then
    subResult t w st name p (subCheck t st areas limG p)
  else ([p], [])

/-- An entry SUBSCRIBE gets to; a pattern with a queue gets to all of them. -/
def SubEntry (queue : Bool) (p : AreasBBS) (qs : List AreasBBS) (rs : List UplReq) : Prop :=
  (∃ areas limG name, subEntry t w st area areas limG name p = (qs, rs)) ∨
    (isWildcard area && queue) = false ∧ qs = [p] ∧ rs = []

variable {t w st area}

theorem subResult_named (name : Str) (p : AreasBBS) (c : SubResult) :
    (∀ q ∈ (subResult t w st name p c).1, q.name = p.name) ∧
      ∀ r ∈ (subResult t w st name p c).2, r.area = p.name := by
  have hno : ∀ r ∈ ([] : List UplReq), r.area = p.name := fun r hr => by cases hr
  cases c with
  | skip => exact named_keep p
  | deny => exact named_keep p
  | activate => exact named_single rfl hno
  | dead => exact ⟨fun q hq => (List.not_mem_nil hq).elim, hno⟩
  | add =>
      unfold subResult
      dsimp only
      split
      · split
        · refine named_single ?_ fun r hr => congrArg UplReq.area (List.mem_singleton.mp hr)
          exact strUpper_strUpper p.area
        · exact named_single rfl hno
      · exact named_single rfl hno

theorem SubEntry.named {queue : Bool} : Named (SubEntry t w st area queue) := by
  rintro p qs rs (⟨areas, limG, name, h⟩ | ⟨-, rfl, rfl⟩)
  · obtain ⟨rfl, rfl⟩ := Prod.ext_iff.mp h
    unfold subEntry
    split
    · exact subResult_named name p _
    · exact named_keep p
  · exact named_keep p

/-- The rest of a loop that ends early. -/
theorem SubEntry.rest {queue : Bool} (h : (isWildcard area && queue) = false) (ps : List AreasBBS) :
    Swept (SubEntry t w st area queue) ps ps [] :=
  Swept.refl (fun _ => Or.inr ⟨h, rfl, rfl⟩) ps

/-- What a loop makes of the entries ahead. -/
def SubSwept (t : Tables) (w : World) (st : Areafix) (area : Str) (queue : Bool)
    (ps : List AreasBBS) (lp : SubLoop) (r : List AreasBBS × SubLoop) : Prop :=
  ∃ qss rss, Swept (SubEntry t w st area queue) ps qss rss ∧
    r.2.behind ++ r.1 = lp.behind ++ qss ∧ Queued lp.upl r.2.upl rss

theorem SubSwept.cons {queue : Bool} {p : AreasBBS} {ps qs : List AreasBBS} {rs : List UplReq}
    {lp lp' : SubLoop} {r : List AreasBBS × SubLoop} (hp : SubEntry t w st area queue p qs rs)
    (h : SubSwept t w st area queue ps lp' r) (hbehind : lp'.behind = lp.behind ++ qs)
    (hupl : Queued lp.upl lp'.upl rs) : SubSwept t w st area queue (p :: ps) lp r := by
  obtain ⟨qss, rss, hs, hb, hu⟩ := h
  refine ⟨qs ++ qss, rs ++ rss, .cons hp hs, ?_, hupl.trans hu⟩
  rw [hb, hbehind, List.append_assoc]

/-- Where the uplink is not known, the entry stays behind with the node added. -/
theorem subAdd_result (wild : Bool) (p : AreasBBS) (lp : SubLoop) :
    let r := subAdd t w st.node wild area p lp
    let s := subResult t w st (fixName t lp.cf) p .add
    r.2.behind ++ r.1.toList = lp.behind ++ s.1 ∧ Queued lp.upl r.2.upl s.2 := by
  have hrules : ∀ lp : SubLoop,
      let lp' := if wild then lp else { lp with cf := sendRules w lp.cf st.node (strUpper area) }
      lp'.behind = lp.behind ∧ lp'.upl = lp.upl := by
    intro lp
    cases wild <;> exact ⟨rfl, rfl⟩
  unfold subAdd subResult subAsks
  dsimp only
  split
  · cases uplinksLineGet t.uplinks t.areafix (p.nodes.headD nodeInvalid) with
    | none => exact ⟨List.append_nil _, Queued.refl _⟩
    | some a =>
        obtain ⟨hb, hu⟩ := hrules { lp with
          changed := true, limG := lp.limG + 1
          upl := lp.upl ++ [uplRequest t lp.cf (znf1 (p.nodes.headD nodeInvalid)) a (lit "+")
            (strUpper p.area)] }
        exact ⟨congrArg (· ++ _) hb, hu⟩
  · obtain ⟨hb, hu⟩ := hrules { lp with changed := true, limG := lp.limG + 1 }
    refine ⟨congrArg (· ++ _) hb, ?_⟩
    exact hu.trans (Queued.refl _)

/-- `cmd_sub` goes through the areas. -/
theorem cmdSubLoop_swept (queue : Bool) : ∀ (ps : List AreasBBS) (lp : SubLoop),
    SubSwept t w st area queue ps lp (cmdSubLoop t w st area queue ps lp).2
  | [], lp => ⟨[], [], .nil, rfl, Queued.refl _⟩
  | p :: ps, lp => by
      have ih := cmdSubLoop_swept queue ps
      unfold cmdSubLoop
      dsimp only
      split
      · next hend =>
          have hwild : (isWildcard area && queue) = false := by
            rw [Bool.and_eq_true, Bool.not_eq_true'] at hend
            rw [hend.2, Bool.false_and]
          exact ⟨p :: ps, [], SubEntry.rest hwild _, rfl, Queued.refl _⟩
      · split
        · next hmatch =>
            have hentry : ∀ {c}, subCheck t st (lp.behind ++ p :: ps) lp.limG p = c →
                SubEntry t w st area queue p (subResult t w st (fixName t lp.cf) p c).1
                  (subResult t w st (fixName t lp.cf) p c).2 :=
              fun h => Or.inl ⟨_, _, _, (if_pos hmatch).trans (congrArg _ h)⟩
            cases hcheck : subCheck t st (lp.behind ++ p :: ps) lp.limG p with
            | skip =>
                dsimp only
                exact SubSwept.cons (hentry hcheck) (ih _) rfl (Queued.refl _)
            | deny =>
                dsimp only
                split
                · exact SubSwept.cons (hentry hcheck) (ih _) rfl (Queued.refl _)
                · next hqueue =>
                    have hwild : (isWildcard area && queue) = false := by
                      rw [Bool.not_eq_true] at hqueue
                      rw [hqueue, Bool.and_false]
                    exact ⟨p :: ps, [], SubEntry.rest hwild _, rfl, Queued.refl _⟩
            | activate =>
                dsimp only
                exact SubSwept.cons (hentry hcheck) (ih _) rfl (Queued.refl _)
            | dead =>
                dsimp only
                exact SubSwept.cons (hentry hcheck) (ih _) (List.append_nil _).symm (Queued.refl _)
            | add =>
                dsimp only
                have hadd := @subAdd_result t w st area (isWildcard area) p
                  { lp with matched := lp.matched + 1 }
                split
                · next q lp' hq =>
                    rw [hq] at hadd
                    obtain ⟨hb, hu⟩ := hadd
                    exact SubSwept.cons (hentry hcheck) (ih _) hb hu
                · next lp' hq =>
                    rw [hq] at hadd
                    obtain ⟨hb, hu⟩ := hadd
                    rw [Option.toList_none, List.append_nil] at hb
                    split
                    · have hrules : ∀ cf : Config,
                          (if isWildcard area then lp' else { lp' with cf := cf }).behind = lp'.behind ∧
                          (if isWildcard area then lp' else { lp' with cf := cf }).upl = lp'.upl := by
                        intro cf
                        cases isWildcard area <;> exact ⟨rfl, rfl⟩
                      refine SubSwept.cons (hentry hcheck) (ih _) ((hrules _).1.trans hb) ?_
                      exact (hrules _).2.trans hu
                    · next hqueue =>
                        have hwild : (isWildcard area && queue) = false := by
                          rw [Bool.not_eq_true] at hqueue
                          rw [hqueue, Bool.and_false]
                        exact SubSwept.cons (hentry hcheck)
                          ⟨ps, [], SubEntry.rest hwild _, rfl, Queued.refl _⟩ hb hu
        · next hmatch =>
            have hentry : SubEntry t w st area queue p [p] [] :=
              Or.inl ⟨[], 0, [], if_neg hmatch⟩
            exact SubSwept.cons hentry (ih _) rfl (Queued.refl _)

/-- The areas and the queue behind the first loop of SUBSCRIBE. -/
theorem subAreas_swept (queue : Bool) : ∃ rss,
    Swept (SubEntry t w st area queue) st.areas (subAreas t w area queue st).2.2.areas rss ∧
      Queued st.upl (subAreas t w area queue st).2.2.upl rss := by
  obtain ⟨qss, rss, hs, hb, hu⟩ := @cmdSubLoop_swept t w st area queue st.areas
    ⟨[], if st.limG < 1 then st.limG + countAreas st.areas st.node else st.limG, st.changed, st.upl,
      st.cf, 0⟩
  refine ⟨rss, ?_, hu⟩
  rw [List.nil_append] at hb
  rw [← hb] at hs
  exact hs

end

/-! ## What SUBSCRIBE finds -/

/-- The area is removed, since it has no zone. -/
def DeadZone (t : Tables) (auth : Auth) (node : Node) (p : AreasBBS) : Prop :=
  auth.cmdline = false ∧ p.lvl ≤ auth.lvl ∧ (p.key.any fun k => ! k.any auth.key.contains) = false ∧
    lonSearch p.nodes node = false ∧ t.areafix = true ∧ p.zone ≠ node.zone ∧ p.zone = 0

/-- The node may be added: it is not linked, or the command comes from the
command line. -/
def subAdds (auth : Auth) (node : Node) (p : AreasBBS) : Bool :=
  auth.cmdline || ! lonSearch p.nodes node

instance (t : Tables) (auth : Auth) (node : Node) (p : AreasBBS) :
    Decidable (DeadZone t auth node p) := inferInstanceAs (Decidable (_ ∧ _))

/-- The results of the checks. -/
inductive SubChecked (t : Tables) (st : Areafix) (p : AreasBBS) : SubResult → Prop
  | skip : SubChecked t st p .skip
  | deny : SubChecked t st p .deny
  | activate : lonSearch p.nodes st.node = true → lonSearch p.passive st.node = true →
      SubChecked t st p .activate
  | dead : p.nodes = [] ∨ DeadZone t st.auth st.node p → SubChecked t st p .dead
  | add : subAdds st.auth st.node p = true → SubChecked t st p .add

section

variable {t : Tables} {w : World} {st : Areafix} {area : Str}

theorem subCheck_checked (areas : List AreasBBS) (limG : Int) (p : AreasBBS) :
    SubChecked t st p (subCheck t st areas limG p) := by
  unfold subCheck
  dsimp only
  split
  · next hcmd =>
      split
      · next hempty => exact .dead (Or.inl (List.isEmpty_iff.mp hempty))
      · refine .add ?_
        rw [subAdds, hcmd, Bool.true_or]
  · next hcmd =>
      rw [Bool.not_eq_true] at hcmd
      split
      · exact .deny
      · next hlvl =>
          split
          · exact .deny
          · next hkey =>
              rw [Bool.not_eq_true] at hkey
              split
              · next hnode =>
                  split
                  · next hpassive => exact .activate hnode hpassive
                  · exact .skip
              · next hnode =>
                  rw [Bool.not_eq_true] at hnode
                  split
                  · exact .deny
                  · split
                    · exact .deny
                    · split
                      · next hzone =>
                          simp only [Bool.and_eq_true, bne_iff_ne, beq_iff_eq] at hzone
                          exact .dead (Or.inr ⟨hcmd, Int.not_lt.mp hlvl, hkey, hnode, hzone.1.1,
                            hzone.1.2, hzone.2⟩)
                      · split
                        · exact .skip
                        · split
                          · next hempty => exact .dead (Or.inl (List.isEmpty_iff.mp hempty))
                          · refine .add ?_
                            rw [subAdds, hnode, Bool.not_false, Bool.or_true]

/-- What SUBSCRIBE does with an entry, case by case. -/
inductive SubOutcome (t : Tables) (w : World) (st : Areafix) (area : Str) (p : AreasBBS) :
    List AreasBBS → List UplReq → Prop
  | keep : SubOutcome t w st area p [p] []
  | activate : lonSearch p.passive st.node = true → SubOutcome t w st area p
      [{ p with passive := lonRemove p.passive st.node }] []
  | dead : wildmatch p.area (bufCopy BUFSIZ area) true = true →
      p.nodes = [] ∨ DeadZone t st.auth st.node p → SubOutcome t w st area p [] []
  | add : subAdds st.auth st.node p = true → subAsks p = false ∨
        uplinksLineGet t.uplinks t.areafix (p.nodes.headD nodeInvalid) = none →
      SubOutcome t w st area p [subAdded st.node p] []
  | request (a : AreaUplink) (name : Str) :
      wildmatch p.area (bufCopy BUFSIZ area) true = true → subAdds st.auth st.node p = true →
      subAsks p = true → SubOutcome t w st area p [subWaiting w st.node p] [subReq name a p]

theorem SubEntry.outcome {queue : Bool} {p : AreasBBS} {qs : List AreasBBS} {rs : List UplReq}
    (h : SubEntry t w st area queue p qs rs) : SubOutcome t w st area p qs rs := by
  rcases h with ⟨areas, limG, name, h⟩ | ⟨-, rfl, rfl⟩
  · obtain ⟨rfl, rfl⟩ := Prod.ext_iff.mp h
    unfold subEntry
    split
    · next hmatch =>
        have hcheck := @subCheck_checked t st areas limG p
        revert hcheck
        generalize subCheck t st areas limG p = c
        intro hcheck
        cases hcheck with
        | skip => exact .keep
        | deny => exact .keep
        | activate _ hpassive => exact .activate hpassive
        | dead h => exact .dead hmatch h
        | add hadds =>
            unfold subResult
            dsimp only
            split
            · next hasks =>
                split
                · next a ha => exact .request a name hmatch hadds hasks
                · next ha => exact .add hadds (Or.inr ha)
            · next hasks => exact .add hadds (Or.inl (Bool.not_eq_true _ ▸ hasks))
    · exact .keep
  · exact .keep

end

/-! ## What SUBSCRIBE forwards -/

section

variable {t : Tables} {w : World}

/-- NEW leaves the areas as they are or adds one whose name is new. -/
theorem cmdNew_areas (node : Node) (line : Str) (dwnl inter : Bool) (st : Areafix) :
    (cmdNew t w node line dwnl inter st).2.upl = st.upl ∧
      ((cmdNew t w node line dwnl inter st).2.areas = st.areas ∨
        ∃ q : AreasBBS, (cmdNew t w node line dwnl inter st).2.areas = st.areas ++ [q] ∧
          (∀ p ∈ st.areas, p.name ≠ q.name) ∧ q.passive = [] ∧
          q.nodes = node :: subscribeNodes t st.cf) := by
  unfold cmdNew
  split
  · exact ⟨rfl, Or.inl rfl⟩
  · split
    · exact ⟨rfl, Or.inl rfl⟩
    · next name opts _ =>
        split
        · exact ⟨rfl, Or.inl rfl⟩
        · next hlook =>
            split
            · exact ⟨rfl, Or.inl rfl⟩
            · split
              · exact ⟨rfl, Or.inl rfl⟩
              · dsimp only
                split
                · exact ⟨rfl, Or.inl rfl⟩
                · refine ⟨rfl, Or.inr ⟨_, rfl, ?_, ?_, rfl⟩⟩
                  · intro p hp hname
                    have hno : areasbbsLookup st.areas name = none := by
                      rwa [Bool.not_eq_true, Option.isSome_eq_false_iff, Option.isNone_iff_eq_none]
                        at hlook
                    refine List.find?_eq_none.mp hno p hp (strieq_name.mpr ?_)
                    refine hname.trans ?_
                    show strUpper (newArea w st.cf node name opts dwnl inter).area = _
                    rw [newArea_area, strUpper_strUpper]
                  · exact newOptions_passive _ _ _ _ _

/-- What every step of the call for one offer keeps. -/
theorem subRequest_rule {P : Areafix → Prop} {sub : Str → Areafix → Int × Areafix}
    {a : AreaUplink} {st : Areafix} (hsub : ∀ area st, P st → P (sub area st).2) (hst : P st)
    (hnew : areasbbsLookup st.areas a.areas = none →
      P (cmdNewInt t w a.uplink (forwardLine a) true st).2)
    (hreq : areasbbsLookup st.areas a.areas = none → ∀ r, P r → P (r.requested a.areas))
    (hremove : areasbbsLookup st.areas a.areas = none →
      ∀ r, P r → P { r with areas := areasbbsRemove a.areas r.areas, changed := true })
    (hqueue : areasbbsLookup st.areas a.areas = none → ∀ r, P r → P { r with
      upl := r.upl ++ [uplRequest t r.cf (znfp1 a.uplink) a (lit "+") (strUpper a.areas)] }) :
    P (subRequest t w sub a st) := by
  unfold subRequest
  split
  · exact hst
  · next hlook =>
      rw [Bool.or_eq_true, not_or, Bool.not_eq_true, Option.isSome_eq_false_iff,
        Option.isNone_iff_eq_none] at hlook
      have hnew := hnew hlook.1
      dsimp only
      split
      · exact hnew
      · next p _ =>
          split
          · exact hnew
          · have h := hsub p.area _ (hreq hlook.1 _ hnew)
            split
            · exact hremove hlook.1 _ h
            · exact hqueue hlook.1 _ h

/-- What the first loop and the call for one offer keep, SUBSCRIBE keeps. -/
theorem cmdSub_rule {P : Areafix → Prop}
    (hsweep : ∀ area queue st, P st → P (subAreas t w area queue st).2.2)
    (hoffer : ∀ (sub : Str → Areafix → Int × Areafix) a st, st.auth.fwd = true →
      (∀ area st, P st → P (sub area st).2) → P st → P (subRequest t w sub a st)) :
    ∀ (depth : Nat) (area : Str) (queue : Bool) (st : Areafix), P st →
      P (cmdSub t w depth area queue st).2
  | 0, _, _, _, h => h
  | depth + 1, area, queue, st, h => by
      have ih := cmdSub_rule hsweep hoffer depth
      have hfold : ∀ (as : List AreaUplink) (st : Areafix), st.auth.fwd = true → P st →
          P (as.foldl (subForward t w fun area st => cmdSub t w depth area false st) st) := by
        intro as
        induction as with
        | nil => exact fun st _ h => h
        | cons a as iha =>
            intro st hfwd h
            have hframe := subForward_frame t w (fun area st => cmdSub_frame t w depth area false st)
              st a hfwd
            refine iha _ (by rw [hframe.auth, hfwd]) ?_
            have hst : { st with auth := { st.auth with fwd := true } } = st := by
              rw [← hfwd]
            unfold subForward
            rw [hst]
            exact hoffer _ a st hfwd (fun area st h => ih area false st h) h
      unfold cmdSub
      split
      · exact h
      · have hloop := hsweep area queue st h
        dsimp only
        split
        · exact hloop
        · split
          · next hfwd =>
              rw [Bool.and_eq_true] at hfwd
              exact hfold _ _ hfwd.1 hloop
          · exact hloop

end

end Fidogate

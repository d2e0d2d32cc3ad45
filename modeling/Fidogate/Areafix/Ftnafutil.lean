/-
# `Fidogate.Areafix.Ftnafutil` — ftnafutil.c: requests for changes of the list

A run goes through the areas, queues requests to the uplinks and notices to the
downlinks, and changes the entries.  At the end `main` sends the queue and then
rewrites areas.bbs; the two are decided one after the other and not by the same
conditions, and the value of the rewrite is read the wrong way round.

Where the code follows the null pointer of an area without nodes there is no
outcome (`none`).  Besides its state a run keeps what became of each area; the
code does not look at that.
-/
import Fidogate.Areafix.SendRequest
import Fidogate.Common.AreasbbsRewrite
import Fidogate.Gate.SndMail
import Mathlib.Data.List.Forall2

namespace Fidogate

open Bytes Files

/-! ## The queue -/

/-- What `do_mail_notify` puts into its line. -/
structure Notice where
  link : Node
  name : Str
  area : Str
  reason : Str
  days : Int
  deriving DecidableEq, Repr

/-- The line of the queue. -/
def Notice.line (n : Notice) : Str :=
  ((lit ",").intercalate [znfp1 n.link, lit "Sysop", n.name, lit "Notify",
    lit "You are unsubscribed from area " ++ n.area ++ lit "\r\n    Reason: " ++ n.reason ++
      lit " " ++ putInt n.days ++ lit " day(s)"]).take 4095

/-- A line of the queue: a request to an uplink, or a notice to a downlink. -/
inductive ReqLine
  | mail (r : UplReq)
  | notify (n : Notice)
  deriving DecidableEq, Repr

def ReqLine.line : ReqLine → Str
  | .mail r => r.line
  | .notify n => n.line

/-- The area the line is about. -/
def ReqLine.area : ReqLine → Str
  | .mail r => r.area
  | .notify n => n.area

/-- An unsubscribe request, or the notice of one. -/
def ReqLine.unsubscribes : ReqLine → Bool
  | .mail r => ! r.add
  | .notify _ => true

/-- The downlink that is told. -/
def ReqLine.told : ReqLine → Option Node
  | .mail _ => none
  | .notify n => some n.link

/-! ## One area -/

/-- The commands that change areas; the others only print, or write another
file. -/
inductive UtilCmd
  | delete
  | expire
  | resubscribe
  | unresubscribe
  deriving DecidableEq, Repr

/-- What a run goes by besides the list: `-n` is `noAction`, and the timeouts
are those of the configuration. -/
structure Util where
  tables : Tables
  cf : Config
  noAction : Bool
  noTrafficTmout : Int
  requestTmout : Int

/-- An area, and what the clock shows as it is reached: `now` where its age is
taken, `later` where it gets a new time. -/
structure Visit where
  entry : AreasBBS
  now : Int
  later : Int
  deriving Repr

/-- What became of an area, and what was queued for it. -/
structure Pass where
  kept : Option AreasBBS
  queued : List ReqLine
  changed : Bool
  deriving DecidableEq, Repr

def Pass.same (p : AreasBBS) : Pass := ⟨some p, [], false⟩

section

variable (u : Util)

/-- `do_mail` -/
def doMail (node : Node) (area : Str) (add : Bool) (upl : Option AreaUplink) :
    List ReqLine × Int :=
  match upl with
  | none => ([], ERROR)
  | some a =>
      let robot := if a.robotname = [] then areafixName u.tables else a.robotname
      ([.mail ⟨node, true, robot, fixName u.tables u.cf, a.password, add, area⟩], 1)

/-- `do_mail_notify` -/
def doMailNotify (node : Node) (area s : Str) (days : Int) : ReqLine :=
  .notify ⟨node, fixName u.tables u.cf, area, s, days⟩

/-- The uplink and its record; for an area without nodes the pointer to the
uplink is NULL, and looking it up follows it. -/
def uplinkLine (p : AreasBBS) : Option (Node × Option AreaUplink) :=
  p.nodes.head?.map fun uplink =>
    (uplink, uplinksLineGet u.tables.uplinks u.tables.areafix uplink)

/-- The age in days, as an `int` holds it. -/
def ageDays (v : Visit) : Int := ((v.now - v.entry.time).tdiv 86400).bmod (2 ^ 32)

/-- A timeout that is set has passed. -/
def passed (tmout expire tm : Int) : Bool :=
  (tmout != 0 && tmout < tm) || (expire > 0 && expire < tm)

/-- The request of the area has timed out. -/
def requestTimedOut (v : Visit) : Bool :=
  (areasbbsIsstate v.entry.state 70 || areasbbsIsstate v.entry.state 87) &&
    v.entry.time != 0 && passed u.requestTmout v.entry.expireT (ageDays v)

/-- No message has come for the area in time. -/
def trafficTimedOut (v : Visit) : Bool :=
  areasbbsIsstate v.entry.state 83 &&
    v.entry.time != 0 && passed u.noTrafficTmout v.entry.expireN (ageDays v)

/-- The area is only passed through, and to nobody. -/
def forNobody (p : AreasBBS) : Bool :=
  areasbbsIsstate p.state 83 && p.nodes.length - 1 < 1 && p.passthru

/-- The loop over the downlinks: each one is told, and is taken out of the
list. -/
def notifyLoop (area s : Str) (days : Int) : Nat → List Node → List Node × List ReqLine
  | k + 1, first :: l :: rest =>
      let r := notifyLoop area s days k (lonRemove (first :: l :: rest) l)
      (r.1, doMailNotify u l area s days :: r.2)
  | _, lon => (lon, [])

/-- The downlinks are told, and the list is cut behind the uplink. -/
def dropDownlinks (p : AreasBBS) (s : Str) (days : Int) : List Node × List ReqLine :=
  let r := notifyLoop u p.area s days p.nodes.length p.nodes
  (r.1.take 1, r.2)

/-- The area is in the state of being unsubscribed. -/
def setUnsubscribed (v : Visit) (stold : Str) (p : AreasBBS) : AreasBBS :=
  { p with state := areasbbsChstate p.state stold 85, time := v.later }

/-- The area is unsubscribed at its uplink, if that has a record. -/
def unsubscribeArea (v : Visit) (drop : List Node × List ReqLine)
    (done : AreasBBS → Option AreasBBS) : Option Pass :=
  (uplinkLine u v.entry).map fun (uplink, a) =>
    match a with
    | none => .same v.entry
    | some a =>
        let (mail, ret) := doMail u uplink v.entry.area false (some a)
        if ret != ERROR then ⟨done { v.entry with nodes := drop.1 }, mail ++ drop.2, true⟩
        else ⟨some v.entry, mail, false⟩

/-- `DO_EXPIRE` -/
def expireArea (v : Visit) : Option Pass :=
  if requestTimedOut u v then
    unsubscribeArea u v (dropDownlinks u v.entry (lit "request is timed out in") (ageDays v))
      fun p => if areasbbsIsstate p.state 70 then none else some (setUnsubscribed v (lit "W") p)
  else if trafficTimedOut u v then
    unsubscribeArea u v (dropDownlinks u v.entry (lit "no traffic for") (ageDays v))
      fun p => some (setUnsubscribed v (lit "S") p)
  else if forNobody v.entry then
    unsubscribeArea u v (v.entry.nodes.take 1, []) fun p => some (setUnsubscribed v (lit "S") p)
  else some (.same v.entry)

/-- `DO_DELETE` -/
def deleteArea (p : AreasBBS) : Pass :=
  if p.nodes.isEmpty || areasbbsIsstate p.state 85 then
    if ! u.noAction then ⟨none, [], true⟩ else .same p
  else .same p

/-- The states in which an area is subscribed, or a request for it is on its
way. -/
def isSubscribed (p : AreasBBS) : Bool :=
  areasbbsIsstate p.state 83 || areasbbsIsstate p.state 70 || areasbbsIsstate p.state 87

/-- `DO_RESUBSCRIBE` -/
def resubscribeArea (v : Visit) : Pass :=
  match uplinkLine u v.entry with
  | none => .same v.entry
  | some (uplink, a) =>
      if isSubscribed v.entry || v.entry.state.isNone then
        match a with
        | none => .same v.entry
        | some a => ⟨some { v.entry with time := v.later },
            (doMail u uplink v.entry.area true (some a)).1, true⟩
      else .same v.entry

/-- `DO_UNRESUBSCRIBE` -/
def unresubscribeArea (v : Visit) : Option Pass :=
  (uplinkLine u v.entry).map fun (uplink, a) =>
    match a with
    | none => .same v.entry
    | some a =>
        let minus := (doMail u uplink v.entry.area false (some a)).1
        if isSubscribed v.entry then
          ⟨some { v.entry with time := v.later },
            minus ++ (doMail u uplink v.entry.area true (some a)).1, true⟩
        else ⟨some v.entry, minus, false⟩

/-- The `switch` of `do_areasbbs`. -/
def doArea (cmd : UtilCmd) (v : Visit) : Option Pass :=
  match cmd with
  | .delete => some (deleteArea u v.entry)
  | .expire => expireArea u v
  | .resubscribe => some (resubscribeArea u v)
  | .unresubscribe => unresubscribeArea u v

/-! ## The run -/

/-- The list up to the area that is reached, the queue and the flag of
areasbbs.c; `passes` is what became of each area. -/
structure UtilState where
  areas : List AreasBBS
  req : List ReqLine
  changed : Bool
  passes : List (AreasBBS × Pass)
  deriving DecidableEq, Repr

def utilInit : UtilState := ⟨[], [], false, []⟩

/-- An area is done. -/
def UtilState.next (st : UtilState) (p : AreasBBS) (r : Pass) : UtilState :=
  ⟨st.areas ++ r.kept.toList, st.req ++ r.queued, st.changed || r.changed, st.passes ++ [(p, r)]⟩

/-- `do_areasbbs` -/
def doAreasbbs (cmd : UtilCmd) : UtilState → List Visit → Option (UtilState × Int)
  | st, [] => some (st, OK)
  | st, v :: vs => (doArea u cmd v).bind fun r => doAreasbbs cmd (st.next v.entry r) vs

def EX_CANTCREAT : Int := 73

/-- `areasbbs_rewrite` with its test of the flag. -/
def rewriteChanged (changed : Bool) (p : Str) (f : Faults) (text : Str) :
    List (Call Str Str × Bool) × Int :=
  if ! changed then ([], OK) else areasbbsRewrite p f text

/-- How a run ends: what `send_request` got, the calls of the rewrite and its
value if it was called, and the exit status. -/
structure UtilEnd where
  state : UtilState
  sent : List ReqLine
  calls : List (Call Str Str × Bool)
  rewrote : Option Int
  exit : Int

/-- `main` behind the initialisation; `first` is the first line of areas.bbs,
and `p` its name. -/
def ftnafutil (cmd : UtilCmd) (vs : List Visit) (first : Option Str) (p : Str) (f : Faults) :
    Option UtilEnd :=
  (doAreasbbs u cmd utilInit vs).map fun (st, rc) =>
    let ret := if rc = ERROR then EX_DATAERR else 0
    let sent := if st.req.length > 0 then st.req else []
    if ret = 0 && ! u.noAction then
      let (calls, ok) := rewriteChanged st.changed p f (areasbbsPrint (first, st.areas))
      ⟨st, sent, calls, some ok, if ok = 0 then EX_CANTCREAT else ret⟩
    else ⟨st, sent, [], none, ret⟩

end

/-! ## What a run is to do -/

/-- The area is taken out of the list, or its state is changed. -/
def AreaChanged (x : AreasBBS × Pass) : Prop := ∀ q, x.2.kept = some q → q.state ≠ x.1.state

/-- The changed list was written to the new file, and that became areas.bbs. -/
def ListWritten (f : Faults) (e : UtilEnd) : Prop :=
  e.state.changed = true ∧ e.rewrote = some OK ∧ f.wrote = none ∧ f.replaces = true

/-- The downlinks that are told, each as often as it is. -/
def toldOf (x : AreasBBS × Pass) : List Node := x.2.queued.filterMap ReqLine.told

/-- The downlinks the area still has. -/
def downlinksLeft (x : AreasBBS × Pass) : List Node := ((x.2.kept.map (·.nodes)).getD []).tail

/-- The uplink is the first node as before. -/
def UplinkFirst (x : AreasBBS × Pass) : Prop :=
  ∀ q, x.2.kept = some q → ∀ a ∈ x.1.nodes.head?, ∃ b ∈ q.nodes.head?, nodeEq a b = true

/-- Unsubscribing goes with what is written, every downlink that is dropped is
told once, nothing is sent without a rewrite, and a rewrite is a success. -/
structure UtilRight (f : Faults) (e : UtilEnd) : Prop where
  paired : ∀ x ∈ e.state.passes, ∀ l ∈ x.2.queued, l.area = x.1.area ∧
    (l.unsubscribes = true → AreaChanged x ∧ ListWritten f e)
  told : ∀ x ∈ e.state.passes, x.1.nodes.tail.Perm (toldOf x ++ downlinksLeft x)
  uplink : ∀ x ∈ e.state.passes, UplinkFirst x
  quiet : e.rewrote ≠ some OK → e.sent = []
  reported : e.rewrote = some OK → e.exit = 0

/-! ## What can be said of an area beforehand -/

section

variable (u : Util) (cmd : UtilCmd) (v : Visit)

/-- The uplink of the area has a record. -/
def hasLine (p : AreasBBS) : Bool := ((uplinkLine u p).bind Prod.snd).isSome

/-- The area is to be unsubscribed for one of the three reasons. -/
def expires : Bool := requestTimedOut u v || trafficTimedOut u v || forNobody v.entry

/-- The area has no uplink where one is looked for. -/
def bare : Bool :=
  v.entry.nodes.isEmpty &&
    match cmd with
    | .delete => false
    | .expire => expires u v
    | .resubscribe => false
    | .unresubscribe => true

/-- Something is queued for the area. -/
def queues : Bool :=
  hasLine u v.entry &&
    match cmd with
    | .delete => false
    | .expire => expires u v
    | .resubscribe => isSubscribed v.entry || v.entry.state.isNone
    | .unresubscribe => true

/-- The list is changed for the area. -/
def changes : Bool :=
  match cmd with
  | .delete => (v.entry.nodes.isEmpty || areasbbsIsstate v.entry.state 85) && ! u.noAction
  | .unresubscribe => hasLine u v.entry && isSubscribed v.entry
  | cmd => queues u cmd v

/-- The area is unsubscribed at its uplink. -/
def unsubscribes : Bool := cmd != .resubscribe && queues u cmd v

/-- An area that is unsubscribed is removed, or its state changes. -/
def records : Bool :=
  cmd == .expire &&
    (requestTimedOut u v && areasbbsIsstate v.entry.state 70 ||
      ! areasbbsIsstate v.entry.state 85)

/-- The area is deleted, and had downlinks. -/
def deletesDownlinks : Bool :=
  cmd == .delete && changes u cmd v && ! v.entry.nodes.tail.isEmpty

end

/-! ## What becomes of an area -/

/-- What can be said beforehand is what happens. -/
structure PassSpec (u : Util) (cmd : UtilCmd) (v : Visit) (r : Pass) : Prop where
  area : ∀ l ∈ r.queued, l.area = v.entry.area
  queued : r.queued = [] ↔ queues u cmd v = false
  unsubscribed : (∃ l ∈ r.queued, l.unsubscribes = true) ↔ unsubscribes u cmd v = true
  changed : r.changed = changes u cmd v
  recorded : unsubscribes u cmd v = true → (AreaChanged (v.entry, r) ↔ records u cmd v = true)
  told : v.entry.nodes.tail.Perm (toldOf (v.entry, r) ++ downlinksLeft (v.entry, r)) ↔
    deletesDownlinks u cmd v = false
  uplink : UplinkFirst (v.entry, r)

section

variable {u : Util} {cmd : UtilCmd} {v : Visit} {r : Pass}

theorem nodeEq_refl (n : Node) : nodeEq n n = true := by simp [nodeEq]

/-- A loop over the downlinks tells each of them, also one that is the same
system as the uplink. -/
theorem notifyLoop_eq (u : Util) (area s : Str) (days : Int) : ∀ {k : Nat} (a : Node)
    {rest : List Node}, rest.length ≤ k → ∃ b, nodeEq a b = true ∧
      notifyLoop u area s days k (a :: rest) =
        ([b], rest.map fun n => doMailNotify u n area s days)
  | 0, a, [], _ => ⟨a, nodeEq_refl a, rfl⟩
  | _ + 1, a, [], _ => ⟨a, nodeEq_refl a, rfl⟩
  | k + 1, a, l :: rest, h => by
      have hrest : rest.length ≤ k := Nat.le_of_succ_le_succ h
      rw [notifyLoop]
      by_cases hl : nodeEq a l = true
      · -- the first that is the same goes, which is the uplink
        obtain ⟨b, hb, hloop⟩ := notifyLoop_eq u area s days l hrest
        have hremove : lonRemove (a :: l :: rest) l = l :: rest := List.eraseP_cons_of_pos hl
        refine ⟨b, nodeEq_trans hl hb, ?_⟩
        rw [hremove, hloop, List.map_cons]
      · obtain ⟨b, hb, hloop⟩ := notifyLoop_eq u area s days a hrest
        have hremove : lonRemove (a :: l :: rest) l = a :: rest := by
          rw [lonRemove_cons (Bool.eq_false_iff.mpr hl)]
          exact congrArg _ (List.eraseP_cons_of_pos (nodeEq_refl l))
        refine ⟨b, hb, ?_⟩
        rw [hremove, hloop, List.map_cons]

theorem dropDownlinks_eq {p : AreasBBS} {a : Node} {rest : List Node} (h : p.nodes = a :: rest)
    (u : Util) (s : Str) (days : Int) : ∃ b, nodeEq a b = true ∧
      dropDownlinks u p s days = ([b], rest.map fun n => doMailNotify u n p.area s days) := by
  obtain ⟨b, hb, hloop⟩ := notifyLoop_eq u p.area s days a (Nat.le_succ rest.length)
  refine ⟨b, hb, ?_⟩
  rw [dropDownlinks, h, List.length_cons, hloop]
  rfl

/-- A state that is not empty is changed if it does not have the new letter. -/
theorem areasbbsChstate_ne_iff {state : Option Str} {stold : Str} {stnew : UInt8}
    (h : state.getD [] ≠ []) :
    areasbbsChstate state stold stnew ≠ state ↔ areasbbsIsstate state stnew = false := by
  obtain ⟨s, rfl⟩ : ∃ s, state = some s := by
    cases state with
    | none => exact absurd rfl h
    | some s => exact ⟨s, rfl⟩
  obtain ⟨c, cs, rfl⟩ := List.exists_cons_of_ne_nil h
  rw [areasbbsChstate, areasbbsIsstate, Option.getD_some]
  dsimp only
  by_cases hnew : (c :: cs).contains stnew = true
  · rw [if_pos hnew, hnew]
    simp
  · rw [if_neg hnew]
    refine iff_of_true (fun he => hnew ?_) (Bool.eq_false_iff.mpr hnew)
    rw [List.contains_iff_mem, ← Option.some.inj he]
    exact List.mem_append_right _ List.mem_cons_self

/-! ### The area stays -/

/-- An area that stays with its nodes and its state, and for which only requests
are queued. -/
theorem mails_spec {q : AreasBBS} {m : List UplReq} {c : Bool}
    (hnodes : q.nodes = v.entry.nodes) (hstate : q.state = v.entry.state)
    (harea : ∀ r ∈ m, r.area = v.entry.area) (hq : m = [] ↔ queues u cmd v = false)
    (hu : (∃ r ∈ m, r.add = false) ↔ unsubscribes u cmd v = true) (hc : c = changes u cmd v)
    (hr : unsubscribes u cmd v = true → records u cmd v = false)
    (hd : deletesDownlinks u cmd v = false) : PassSpec u cmd v ⟨some q, m.map .mail, c⟩ where
  area l hl := by
    obtain ⟨r, hr, rfl⟩ := List.mem_map.mp hl
    exact harea r hr
  queued := List.map_eq_nil_iff.trans hq
  unsubscribed := by
    rw [← hu]
    constructor
    · rintro ⟨l, hl, hun⟩
      obtain ⟨r, hr, rfl⟩ := List.mem_map.mp hl
      exact ⟨r, hr, Bool.not_eq_true' _ ▸ hun⟩
    · rintro ⟨r, hr, hadd⟩
      exact ⟨.mail r, List.mem_map_of_mem hr, by rw [ReqLine.unsubscribes, hadd]; rfl⟩
  changed := hc
  recorded h := by
    rw [hr h]
    exact iff_of_false (fun hrec => hrec q rfl hstate) Bool.false_ne_true
  told := by
    refine iff_of_true ?_ hd
    have htold : toldOf (v.entry, ⟨some q, m.map .mail, c⟩) = [] :=
      List.filterMap_eq_nil_iff.mpr fun l hl => by
        obtain ⟨r, _, rfl⟩ := List.mem_map.mp hl
        rfl
    rw [htold, List.nil_append, ← hnodes]
    exact List.Perm.refl _
  uplink q' hq' a ha := by
    rw [← Option.some.inj hq', hnodes]
    exact ⟨a, ha, nodeEq_refl a⟩

theorem same_spec (hq : queues u cmd v = false) (hc : changes u cmd v = false)
    (hd : deletesDownlinks u cmd v = false) : PassSpec u cmd v (.same v.entry) := by
  have hu : unsubscribes u cmd v = false := by rw [unsubscribes, hq, Bool.and_false]
  refine mails_spec (m := []) rfl rfl (fun r hr => absurd hr List.not_mem_nil)
    (iff_of_true rfl hq) ?_ hc.symm (fun h => absurd h (by rw [hu]; exact Bool.false_ne_true)) hd
  rw [hu]
  exact iff_of_false (fun ⟨r, hr, _⟩ => absurd hr List.not_mem_nil) Bool.false_ne_true

theorem deleteArea_spec : PassSpec u .delete v (deleteArea u v.entry) := by
  have hq : queues u .delete v = false := Bool.and_false _
  by_cases hc : changes u .delete v = true
  · obtain ⟨hwhy, hno⟩ := Bool.and_eq_true_iff.mp hc
    rw [deleteArea, if_pos hwhy, if_pos hno]
    refine ⟨fun l hl => absurd hl List.not_mem_nil, iff_of_true rfl hq, ?_, hc.symm, ?_, ?_,
      fun q hq => absurd hq (by simp)⟩
    · exact iff_of_false (fun ⟨l, hl, _⟩ => absurd hl List.not_mem_nil)
        (by rw [unsubscribes, hq, Bool.and_false]; exact Bool.false_ne_true)
    · intro h
      rw [unsubscribes, hq, Bool.and_false] at h
      exact absurd h Bool.false_ne_true
    · -- the downlinks go with the area, and nobody is told
      rw [deletesDownlinks, hc]
      cases v.entry.nodes.tail with
      | nil => exact iff_of_true (List.Perm.refl _) rfl
      | cons n ns =>
          refine iff_of_false (fun h => ?_) (by simp)
          exact absurd h.length_eq (by simp [toldOf, downlinksLeft])
  · have hsame : deleteArea u v.entry = .same v.entry := by
      rw [changes, Bool.and_eq_true_iff, not_and] at hc
      rw [deleteArea]
      split
      · next hwhy => rw [if_neg (hc hwhy)]
      · rfl
    rw [Bool.not_eq_true] at hc
    rw [hsame]
    exact same_spec hq hc (by rw [deletesDownlinks, hc]; rfl)

theorem hasLine_eq {p : AreasBBS} {o : Option (Node × Option AreaUplink)}
    (h : uplinkLine u p = o) : hasLine u p = (o.bind Prod.snd).isSome := by rw [hasLine, h]

theorem resubscribeArea_spec : PassSpec u .resubscribe v (resubscribeArea u v) := by
  have hsame : queues u .resubscribe v = false → PassSpec u .resubscribe v (.same v.entry) :=
    fun hq => same_spec hq hq rfl
  rw [resubscribeArea]
  cases hl : uplinkLine u v.entry with
  | none => exact hsame (by rw [queues, hasLine_eq hl]; rfl)
  | some x =>
      obtain ⟨uplink, a⟩ := x
      dsimp only
      by_cases hs : (isSubscribed v.entry || v.entry.state.isNone) = true
      · rw [if_pos hs]
        cases a with
        | none => exact hsame (by rw [queues, hasLine_eq hl]; rfl)
        | some a =>
            have hq : queues u .resubscribe v = true := by
              rw [queues, hasLine_eq hl]
              exact hs
            refine mails_spec (m := [_]) rfl rfl ?_ ?_ ?_ hq.symm ?_ rfl
            · intro r hr
              rw [List.mem_singleton.mp hr]
            · exact iff_of_false (List.cons_ne_nil _ _) (by rw [hq]; exact Bool.noConfusion)
            · refine iff_of_false ?_ Bool.false_ne_true
              rintro ⟨r, hr, hadd⟩
              rw [List.mem_singleton.mp hr] at hadd
              exact absurd hadd Bool.noConfusion
            · exact fun h => absurd h Bool.false_ne_true
      · rw [if_neg hs]
        refine hsame ?_
        rw [Bool.not_eq_true] at hs
        rw [queues, hs, Bool.and_false]

theorem unresubscribeArea_spec (h : unresubscribeArea u v = some r) :
    PassSpec u .unresubscribe v r := by
  obtain ⟨⟨uplink, a⟩, hl, rfl⟩ := Option.map_eq_some_iff.mp h
  cases a with
  | none =>
      have hno : hasLine u v.entry = false := hasLine_eq hl
      refine same_spec (by rw [queues, hno]; rfl) (by rw [changes, hno]; rfl) rfl
  | some a =>
      have hline : hasLine u v.entry = true := hasLine_eq hl
      have hq : queues u .unresubscribe v = true := by rw [queues, hline]; rfl
      have hu : unsubscribes u .unresubscribe v = true := by rw [unsubscribes, hq]; rfl
      dsimp only
      by_cases hs : isSubscribed v.entry = true
      · rw [if_pos hs]
        refine mails_spec (m := [_, _]) rfl rfl ?_ ?_ ?_ ?_ (fun _ => rfl) rfl
        · intro r hr
          rcases List.mem_pair.mp hr with rfl | rfl <;> rfl
        · exact iff_of_false (List.cons_ne_nil _ _) (by rw [hq]; exact Bool.noConfusion)
        · exact iff_of_true ⟨_, List.mem_cons_self, rfl⟩ hu
        · rw [changes, hline, hs]
          rfl
      · rw [if_neg hs]
        rw [Bool.not_eq_true] at hs
        refine mails_spec (m := [_]) rfl rfl ?_ ?_ ?_ ?_ (fun _ => rfl) rfl
        · intro r hr
          rw [List.mem_singleton.mp hr]
        · exact iff_of_false (List.cons_ne_nil _ _) (by rw [hq]; exact Bool.noConfusion)
        · exact iff_of_true ⟨_, List.mem_cons_self, rfl⟩ hu
        · rw [changes, hs, Bool.and_false]

/-! ### The area is unsubscribed -/

/-- The uplink gets its request and the downlinks their notices; the area is
taken out, or has only the uplink left. -/
theorem unsubscribed_spec {a b : Node} {rest : List Node} {m : UplReq} {s : Str} {days : Int}
    {kept : Option AreasBBS} (hn : v.entry.nodes = a :: rest) (hb : nodeEq a b = true)
    (hq : queues u .expire v = true) (harea : m.area = v.entry.area) (hadd : m.add = false)
    (hkept : ∀ q, kept = some q → q.nodes = [b])
    (hrec : AreaChanged (v.entry, ⟨kept, [], true⟩) ↔ records u .expire v = true) :
    PassSpec u .expire v
      ⟨kept, .mail m :: rest.map (fun n => doMailNotify u n v.entry.area s days), true⟩ where
  area l hl := by
    rcases List.mem_cons.mp hl with rfl | hl
    · exact harea
    · obtain ⟨n, _, rfl⟩ := List.mem_map.mp hl
      rfl
  queued := iff_of_false (List.cons_ne_nil _ _) (by rw [hq]; exact Bool.noConfusion)
  unsubscribed := by
    refine iff_of_true ⟨.mail m, List.mem_cons_self, ?_⟩ hq
    rw [ReqLine.unsubscribes, hadd]
    rfl
  changed := hq.symm
  recorded _ := hrec
  told := by
    refine iff_of_true ?_ rfl
    have htold : toldOf (v.entry, ⟨kept, .mail m ::
        rest.map (fun n => doMailNotify u n v.entry.area s days), true⟩) = rest := by
      have hmap := @List.filterMap_map _ _ _ (fun n => doMailNotify u n v.entry.area s days)
        ReqLine.told rest
      exact hmap.trans List.filterMap_some
    have hleft : downlinksLeft (v.entry, ⟨kept, .mail m ::
        rest.map (fun n => doMailNotify u n v.entry.area s days), true⟩) = [] := by
      cases kept with
      | none => rfl
      | some q =>
          rw [downlinksLeft]
          dsimp only [Option.map_some, Option.getD_some]
          rw [hkept q rfl]
          rfl
    rw [htold, hleft, List.append_nil, hn]
    exact List.Perm.refl _
  uplink q hq a' ha := by
    rw [hn] at ha
    rw [hkept q hq]
    exact ⟨b, rfl, Option.some.inj ha ▸ hb⟩

theorem changed_setUnsubscribed {b : Node} {stold : Str} (h : v.entry.state.getD [] ≠ []) :
    AreaChanged (v.entry,
        ⟨some (setUnsubscribed v stold { v.entry with nodes := [b] }), [], true⟩) ↔
      areasbbsIsstate v.entry.state 85 = false := by
  rw [← areasbbsChstate_ne_iff h]
  exact ⟨fun hc => hc _ rfl, fun hne q hq => Option.some.inj hq ▸ hne⟩

theorem state_ne_nil {state : Option Str} {c : UInt8} (h : areasbbsIsstate state c = true) :
    state.getD [] ≠ [] := by
  intro he
  rw [areasbbsIsstate, he] at h
  exact absurd h Bool.false_ne_true

/-- Either the uplink has no record, or the area is unsubscribed there. -/
theorem unsubscribeArea_spec {drop : List Node × List ReqLine}
    {done : AreasBBS → Option AreasBBS} (he : expires u v = true)
    (hdrop : ∀ a rest, v.entry.nodes = a :: rest → ∃ b s days, nodeEq a b = true ∧
      drop = ([b], rest.map fun n => doMailNotify u n v.entry.area s days))
    (hkept : ∀ p q, done p = some q → q.nodes = p.nodes)
    (hrec : ∀ b, AreaChanged (v.entry, ⟨done { v.entry with nodes := [b] }, [], true⟩) ↔
      records u .expire v = true)
    (h : unsubscribeArea u v drop done = some r) : PassSpec u .expire v r := by
  obtain ⟨⟨uplink, a⟩, hl, rfl⟩ := Option.map_eq_some_iff.mp h
  cases a with
  | none =>
      have hq : queues u .expire v = false := by rw [queues, hasLine_eq hl]; rfl
      exact same_spec hq hq rfl
  | some a =>
      have hq : queues u .expire v = true := by
        rw [queues, hasLine_eq hl]
        exact he
      obtain ⟨n, hn, _⟩ := Option.map_eq_some_iff.mp hl
      obtain ⟨rest, hrest⟩ := List.head?_eq_some_iff.mp hn
      obtain ⟨b, s, days, hb, rfl⟩ := hdrop n rest hrest
      exact unsubscribed_spec hrest hb hq rfl rfl (fun q hq => hkept _ q hq) (hrec b)

/-- Where the area is not taken out, its state has to change. -/
theorem records_iff (h : requestTimedOut u v = false ∨ areasbbsIsstate v.entry.state 70 = false) :
    records u .expire v = true ↔ areasbbsIsstate v.entry.state 85 = false := by
  have hf : (requestTimedOut u v && areasbbsIsstate v.entry.state 70) = false := by
    rcases h with h | h
    · rw [h, Bool.false_and]
    · rw [h, Bool.and_false]
  rw [records, hf]
  simp

/-- A request that is not answered: the area is taken out if it was forwarded
for somebody. -/
theorem changed_requestTimedOut (hreq : requestTimedOut u v = true) (b : Node) :
    AreaChanged (v.entry, ⟨if areasbbsIsstate v.entry.state 70 then none
      else some (setUnsubscribed v (lit "W") { v.entry with nodes := [b] }), [], true⟩) ↔
      records u .expire v = true := by
  by_cases hf : areasbbsIsstate v.entry.state 70 = true
  · rw [if_pos hf]
    refine iff_of_true (fun q hq => absurd hq (by simp)) ?_
    rw [records, hreq, hf]
    rfl
  · rw [if_neg hf, records_iff (Or.inr (Bool.not_eq_true _ ▸ hf))]
    have hstate := (Bool.and_eq_true_iff.mp (Bool.and_eq_true_iff.mp hreq).1).1
    rcases Bool.or_eq_true_iff.mp hstate with hs | hs
    · exact absurd hs hf
    · exact changed_setUnsubscribed (state_ne_nil hs)

theorem expireArea_spec (h : expireArea u v = some r) : PassSpec u .expire v r := by
  rw [expireArea] at h
  split at h
  · next hreq =>
      have he : expires u v = true := by rw [expires, hreq]; rfl
      refine unsubscribeArea_spec he (fun a rest hn => ?_) (fun p q hq => ?_)
        (changed_requestTimedOut hreq) h
      · obtain ⟨b, hb, hdrop⟩ := dropDownlinks_eq hn u (lit "request is timed out in") (ageDays v)
        exact ⟨b, _, _, hb, hdrop⟩
      · split at hq
        · cases hq
        · exact Option.some.inj hq ▸ rfl
  next hreq =>
  rw [Bool.not_eq_true] at hreq
  have hrec := records_iff (Or.inl hreq)
  split at h
  · next htraffic =>
      have he : expires u v = true := by rw [expires, hreq, htraffic]; rfl
      have hs := (Bool.and_eq_true_iff.mp (Bool.and_eq_true_iff.mp htraffic).1).1
      refine unsubscribeArea_spec he (fun a rest hn => ?_) (fun p q hq => ?_) (fun b => ?_) h
      · obtain ⟨b, hb, hdrop⟩ := dropDownlinks_eq hn u (lit "no traffic for") (ageDays v)
        exact ⟨b, _, _, hb, hdrop⟩
      · exact Option.some.inj hq ▸ rfl
      · exact (changed_setUnsubscribed (state_ne_nil hs)).trans hrec.symm
  next htraffic =>
  rw [Bool.not_eq_true] at htraffic
  split at h
  · next hnobody =>
      have he : expires u v = true := by rw [expires, hnobody, Bool.or_true]
      obtain ⟨hs, hlen⟩ := Bool.and_eq_true_iff.mp (Bool.and_eq_true_iff.mp hnobody).1
      refine unsubscribeArea_spec he (fun a rest hn => ?_) (fun p q hq => ?_) (fun b => ?_) h
      · -- the uplink is the only node
        obtain rfl : rest = [] := by
          rw [hn, decide_eq_true_eq, List.length_cons] at hlen
          exact List.eq_nil_of_length_eq_zero (by omega)
        rw [hn]
        exact ⟨a, [], 0, nodeEq_refl a, rfl⟩
      · exact Option.some.inj hq ▸ rfl
      · exact (changed_setUnsubscribed (state_ne_nil hs)).trans hrec.symm
  · next hnobody =>
      have hq : queues u .expire v = false := by
        rw [Bool.not_eq_true] at hnobody
        rw [queues, expires, hreq, htraffic, hnobody]
        exact Bool.and_false _
      obtain rfl := Option.some.inj h
      exact same_spec hq hq rfl

theorem doArea_spec (h : doArea u cmd v = some r) : PassSpec u cmd v r := by
  cases cmd with
  | delete => exact Option.some.inj h ▸ deleteArea_spec
  | expire => exact expireArea_spec h
  | resubscribe => exact Option.some.inj h ▸ resubscribeArea_spec
  | unresubscribe => exact unresubscribeArea_spec h

/-! ## The run -/

theorem uplinkLine_none_iff {p : AreasBBS} : uplinkLine u p = none ↔ p.nodes.isEmpty = true := by
  rw [uplinkLine, Option.map_eq_none_iff, List.head?_eq_none_iff, List.isEmpty_iff]

/-- The null pointer is followed for an area without nodes that is looked up. -/
theorem doArea_none_iff : doArea u cmd v = none ↔ bare u cmd v = true := by
  have hlook : ∀ g : Node × Option AreaUplink → Pass, (uplinkLine u v.entry).map g = none ↔
      v.entry.nodes.isEmpty = true := fun g => Option.map_eq_none_iff.trans uplinkLine_none_iff
  cases cmd with
  | delete => exact iff_of_false (by simp [doArea]) (by simp [bare])
  | resubscribe => exact iff_of_false (by simp [doArea]) (by simp [bare])
  | unresubscribe =>
      rw [bare, Bool.and_true]
      exact hlook _
  | expire =>
      rw [bare, expires, doArea, expireArea]
      cases requestTimedOut u v with
      | true =>
          rw [if_pos rfl, Bool.true_or, Bool.true_or, Bool.and_true]
          exact hlook _
      | false =>
          rw [if_neg Bool.false_ne_true, Bool.false_or]
          cases trafficTimedOut u v with
          | true =>
              rw [if_pos rfl, Bool.true_or, Bool.and_true]
              exact hlook _
          | false =>
              rw [if_neg Bool.false_ne_true, Bool.false_or]
              cases forNobody v.entry with
              | true =>
                  rw [if_pos rfl, Bool.and_true]
                  exact hlook _
              | false => exact iff_of_false (by simp) (by simp)

/-- What a run has done is what became of the areas, one after the other. -/
structure Ran (u : Util) (cmd : UtilCmd) (vs : List Visit) (st : UtilState) : Prop where
  passes : List.Forall₂ (fun v x => x.1 = v.entry ∧ PassSpec u cmd v x.2) vs st.passes
  areas : st.areas = st.passes.flatMap (·.2.kept.toList)
  req : st.req = st.passes.flatMap (·.2.queued)
  changed : st.changed = st.passes.any (·.2.changed)

theorem Ran.next {vs : List Visit} {st : UtilState} (h : Ran u cmd vs st)
    (hr : PassSpec u cmd v r) : Ran u cmd (vs ++ [v]) (st.next v.entry r) where
  passes := List.rel_append h.passes (.cons ⟨rfl, hr⟩ .nil)
  areas := by
    rw [UtilState.next, h.areas, List.flatMap_append, List.flatMap_singleton]
  req := by
    rw [UtilState.next, h.req, List.flatMap_append, List.flatMap_singleton]
  changed := by
    rw [UtilState.next, h.changed, List.any_append, List.any_cons, List.any_nil, Bool.or_false]

theorem doAreasbbs_ran : ∀ {vs done : List Visit} {st st' : UtilState} {rc : Int},
    Ran u cmd done st → doAreasbbs u cmd st vs = some (st', rc) →
    rc = OK ∧ Ran u cmd (done ++ vs) st'
  | [], done, st, st', rc, hst, h => by
      obtain ⟨rfl, rfl⟩ := Prod.mk.inj (Option.some.inj h)
      rw [List.append_nil]
      exact ⟨rfl, hst⟩
  | v :: vs, done, st, st', rc, hst, h => by
      obtain ⟨r, hr, h⟩ := Option.bind_eq_some_iff.mp h
      rw [List.append_cons]
      exact doAreasbbs_ran (hst.next (doArea_spec hr)) h

theorem doAreasbbs_isSome_iff : ∀ {vs : List Visit} {st : UtilState},
    (doAreasbbs u cmd st vs).isSome = true ↔ ∀ v ∈ vs, bare u cmd v = false
  | [], st => iff_of_true rfl fun v hv => absurd hv List.not_mem_nil
  | v :: vs, st => by
      rw [doAreasbbs, List.forall_mem_cons]
      cases hr : doArea u cmd v with
      | none =>
          rw [Option.bind_none, doArea_none_iff.mp hr]
          exact iff_of_false Bool.noConfusion fun h => Bool.noConfusion h.1
      | some r =>
          have hbare : bare u cmd v = false := by
            rw [← Bool.not_eq_true, ← doArea_none_iff, hr]
            exact Option.some_ne_none r
          rw [Option.bind_some, doAreasbbs_isSome_iff, hbare]
          exact (and_iff_right rfl).symm

theorem forall_mem_iff_of_forall₂ {α β : Type*} {R : α → β → Prop} {P : β → Prop} {Q : α → Prop}
    (hR : ∀ a b, R a b → (P b ↔ Q a)) {l : List α} {l' : List β} (h : List.Forall₂ R l l') :
    (∀ b ∈ l', P b) ↔ ∀ a ∈ l, Q a := by
  induction h with
  | nil =>
      refine iff_of_true (fun b hb => ?_) fun a ha => ?_
      · cases hb
      · cases ha
  | cons hab _ ih => rw [List.forall_mem_cons, List.forall_mem_cons, hR _ _ hab, ih]

section

variable {vs : List Visit} {st : UtilState}

/-- What is known of every area of a run. -/
theorem Ran.forall_iff (h : Ran u cmd vs st) {P : AreasBBS × Pass → Prop} {Q : Visit → Prop}
    (hP : ∀ v r, PassSpec u cmd v r → (P (v.entry, r) ↔ Q v)) :
    (∀ x ∈ st.passes, P x) ↔ ∀ v ∈ vs, Q v := by
  refine forall_mem_iff_of_forall₂ (fun v x hx => ?_) h.passes
  obtain ⟨p, r⟩ := x
  obtain ⟨rfl, hr⟩ := hx
  exact hP v r hr

theorem Ran.req_eq_nil_iff (h : Ran u cmd vs st) :
    st.req = [] ↔ ∀ v ∈ vs, queues u cmd v = false := by
  rw [h.req, List.flatMap_eq_nil_iff]
  exact h.forall_iff fun v r hr => hr.queued

theorem Ran.changed_iff (h : Ran u cmd vs st) :
    st.changed = true ↔ ∃ v ∈ vs, changes u cmd v = true := by
  have hno := @Ran.forall_iff _ _ _ _ h (fun x => x.2.changed = false)
    (fun v => changes u cmd v = false) fun v r hr => by rw [hr.changed]
  rw [← Bool.not_eq_false, h.changed, List.any_eq_false]
  simp only [Bool.not_eq_true]
  rw [hno]
  simp

end

/-! ## The end of the run -/

section

variable {vs : List Visit} {first : Option Str} {p : Str} {f : Faults} {e : UtilEnd}

/-- The queue is sent whatever comes then, and where the rewrite is called a
value of 0 is taken for a failure. -/
structure Ended (u : Util) (cmd : UtilCmd) (vs : List Visit) (first : Option Str) (p : Str)
    (f : Faults) (e : UtilEnd) : Prop where
  ran : Ran u cmd vs e.state
  sent : e.sent = e.state.req
  rewrite : u.noAction = false → (e.calls, e.rewrote) =
    ((rewriteChanged e.state.changed p f (areasbbsPrint (first, e.state.areas))).1,
      some (rewriteChanged e.state.changed p f (areasbbsPrint (first, e.state.areas))).2)
  noRewrite : u.noAction = true → e.calls = [] ∧ e.rewrote = none
  exit : e.exit = if e.rewrote = some OK then EX_CANTCREAT else 0

theorem ran_init : Ran u cmd [] utilInit := ⟨.nil, rfl, rfl, rfl⟩

theorem sent_eq (req : List ReqLine) : (if req.length > 0 then req else []) = req := by
  cases req <;> rfl

theorem ftnafutil_ended (h : ftnafutil u cmd vs first p f = some e) :
    Ended u cmd vs first p f e := by
  obtain ⟨⟨st, rc⟩, hrun, rfl⟩ := Option.map_eq_some_iff.mp h
  obtain ⟨rfl, hran⟩ := doAreasbbs_ran ran_init hrun
  rw [List.nil_append] at hran
  cases hno : u.noAction with
  | true => exact ⟨hran, sent_eq st.req, fun h => absurd (hno.symm.trans h) (by decide),
      fun _ => ⟨rfl, rfl⟩, rfl⟩
  | false =>
      refine ⟨hran, sent_eq st.req, fun _ => rfl,
        fun h => absurd (hno.symm.trans h) (by decide), ?_⟩
      have hok : ∀ i : Int, i = 0 ↔ some i = some OK := fun i => ⟨congrArg some, Option.some.inj⟩
      exact if_congr (hok _) rfl rfl

theorem rewriteChanged_ok_iff {changed : Bool} {text : Str} :
    (rewriteChanged changed p f text).2 = OK ↔ changed = false ∨ ¬ f.GivesUp := by
  rw [rewriteChanged]
  cases changed with
  | false => exact iff_of_true rfl (Or.inl rfl)
  | true =>
      rw [or_iff_right (by decide)]
      by_cases hg : f.GivesUp
      · refine iff_of_false ?_ (not_not.mpr hg)
        have herror := (areasbbsRewrite_givesUp hg p text).1
        exact fun hok => absurd (herror.symm.trans hok) (by decide)
      · refine iff_of_true ?_ hg
        have hthrough := areasbbsRewrite_through hg p text
        exact congrArg Prod.snd hthrough

namespace Ended

theorem rewrote_iff (h : Ended u cmd vs first p f e) : e.rewrote = some OK ↔
    u.noAction = false ∧ (e.state.changed = false ∨ ¬ f.GivesUp) := by
  cases hno : u.noAction with
  | true =>
      rw [(h.noRewrite hno).2]
      exact iff_of_false (by simp) (by simp)
  | false =>
      rw [(Prod.mk.inj (h.rewrite hno)).2, Option.some_inj, rewriteChanged_ok_iff]
      exact (and_iff_right rfl).symm

/-- No rewrite, or one that gave up. -/
theorem not_rewrote_iff (h : Ended u cmd vs first p f e) : e.rewrote ≠ some OK ↔
    u.noAction = true ∨ f.GivesUp ∧ ∃ v ∈ vs, changes u cmd v = true := by
  rw [ne_eq, h.rewrote_iff, not_and_or, Bool.not_eq_false, not_or, not_not, Bool.not_eq_false,
    h.ran.changed_iff, and_comm (a := ∃ _, _)]

theorem written_iff (h : Ended u cmd vs first p f e) : ListWritten f e ↔
    (∃ v ∈ vs, changes u cmd v = true) ∧ u.noAction = false ∧ ¬ f.GivesUp ∧ f.wrote = none ∧
      f.replaces = true := by
  rw [ListWritten, h.rewrote_iff, ← h.ran.changed_iff]
  constructor
  · rintro ⟨hc, ⟨hno, hg⟩, hrest⟩
    exact ⟨hc, hno, hg.resolve_left (by rw [hc]; exact Bool.noConfusion), hrest⟩
  · rintro ⟨hc, hno, hg, hrest⟩
    exact ⟨hc, ⟨hno, Or.inr hg⟩, hrest⟩

/-- What is written is found in areas.bbs, whatever was there before. -/
theorem written_bbs (h : Ended u cmd vs first p f e) (hw : ListWritten f e) (d : Dir Str Str) :
    exec d e.calls (bbsName p) = some (areasbbsPrint (first, e.state.areas)) := by
  obtain ⟨_, hno, hg, hwrote, hreplaces⟩ := h.written_iff.mp hw
  have hcalls : e.calls = (areasbbsRewrite p f (areasbbsPrint (first, e.state.areas))).1 := by
    have hcalls := (Prod.mk.inj (h.rewrite hno)).1
    rw [rewriteChanged, hw.1] at hcalls
    exact hcalls
  have hlen : f.saveAt + 1 < e.calls.length := by
    rw [hcalls, areasbbsRewrite_through hg, List.length_append, length_frontCalls]
    exact Nat.lt_succ_self _
  have hdone := rewritten_done_bbs p (first, e.state.areas) d hg hlen
  rw [rewritten, ← hcalls, List.take_length, if_pos hreplaces, hwrote] at hdone
  exact hdone

/-! ### The parts -/

/-- What is unsubscribed is written if the command is to expire areas, each of
them is removed or was not in the state of being unsubscribed, and areas.bbs is
rewritten. -/
theorem paired_iff (h : Ended u cmd vs first p f e) :
    (∀ x ∈ e.state.passes, ∀ l ∈ x.2.queued, l.area = x.1.area ∧
      (l.unsubscribes = true → AreaChanged x ∧ ListWritten f e)) ↔
    ∀ v ∈ vs, unsubscribes u cmd v = true → records u cmd v = true ∧
      u.noAction = false ∧ ¬ f.GivesUp ∧ f.wrote = none ∧ f.replaces = true := by
  have hone := @Ran.forall_iff _ _ _ _ h.ran
    (fun x => ∀ l ∈ x.2.queued, l.area = x.1.area ∧
      (l.unsubscribes = true → AreaChanged x ∧ ListWritten f e))
    (fun v => unsubscribes u cmd v = true → records u cmd v = true ∧ ListWritten f e)
    fun v r hr => by
      constructor
      · intro hl hu
        obtain ⟨l, hmem, hun⟩ := hr.unsubscribed.mpr hu
        obtain ⟨hc, hw⟩ := (hl l hmem).2 hun
        exact ⟨(hr.recorded hu).mp hc, hw⟩
      · intro hu l hmem
        refine ⟨hr.area l hmem, fun hun => ?_⟩
        have huns := hr.unsubscribed.mp ⟨l, hmem, hun⟩
        obtain ⟨hrec, hw⟩ := hu huns
        exact ⟨(hr.recorded huns).mpr hrec, hw⟩
  refine hone.trans (forall₂_congr fun v hv => forall_congr' fun hu =>
    and_congr_right fun hrec => ?_)
  have hcmd : cmd = .expire := eq_of_beq (Bool.and_eq_true_iff.mp hrec).1
  have hchanges : changes u cmd v = true := by
    rw [hcmd] at hu ⊢
    exact hu
  rw [h.written_iff]
  exact and_iff_right ⟨v, hv, hchanges⟩

/-- The downlinks are told except those of areas that are deleted. -/
theorem told_iff (h : Ended u cmd vs first p f e) :
    (∀ x ∈ e.state.passes, x.1.nodes.tail.Perm (toldOf x ++ downlinksLeft x)) ↔
    ∀ v ∈ vs, deletesDownlinks u cmd v = false :=
  h.ran.forall_iff fun _ _ hr => hr.told

theorem uplinkFirst (h : Ended u cmd vs first p f e) : ∀ x ∈ e.state.passes, UplinkFirst x :=
  (h.ran.forall_iff (Q := fun _ => True) fun _ _ hr => iff_of_true hr.uplink trivial).mpr
    fun _ _ => trivial

/-- What is queued is sent without a rewrite as well. -/
theorem quiet_iff (h : Ended u cmd vs first p f e) : (e.rewrote ≠ some OK → e.sent = []) ↔
    (u.noAction = true ∨ f.GivesUp ∧ ∃ v ∈ vs, changes u cmd v = true) →
      ∀ v ∈ vs, queues u cmd v = false := by
  rw [h.not_rewrote_iff, h.sent, h.ran.req_eq_nil_iff]

/-- No rewrite that succeeds is reported as a success. -/
theorem reported_iff (h : Ended u cmd vs first p f e) : (e.rewrote = some OK → e.exit = 0) ↔
    u.noAction = true ∨ f.GivesUp ∧ ∃ v ∈ vs, changes u cmd v = true := by
  rw [← h.not_rewrote_iff, h.exit]
  constructor
  · intro hexit hok
    have hzero := hexit hok
    rw [if_pos hok] at hzero
    exact absurd hzero (by decide)
  · exact fun hno hok => absurd hok hno

end Ended

theorem ftnafutil_isSome_iff :
    (ftnafutil u cmd vs first p f).isSome = true ↔ ∀ v ∈ vs, bare u cmd v = false := by
  rw [ftnafutil, Option.isSome_map]
  exact doAreasbbs_isSome_iff

/-- A run is right just where it looks up no area without nodes, queues nothing,
deletes no area with downlinks, and does not come to a rewrite that succeeds. -/
theorem ftnafutil_right_iff (u : Util) (cmd : UtilCmd) (vs : List Visit) (first : Option Str)
    (p : Str) (f : Faults) : (∃ e, ftnafutil u cmd vs first p f = some e ∧ UtilRight f e) ↔
      (∀ v ∈ vs, bare u cmd v = false ∧ queues u cmd v = false ∧
        deletesDownlinks u cmd v = false) ∧
      (u.noAction = true ∨ f.GivesUp ∧ ∃ v ∈ vs, changes u cmd v = true) := by
  constructor
  · rintro ⟨e, he, hr⟩
    have hend := ftnafutil_ended he
    have hbare := ftnafutil_isSome_iff.mp (Option.isSome_iff_exists.mpr ⟨e, he⟩)
    have hno := hend.reported_iff.mp hr.reported
    have hquiet := hend.quiet_iff.mp hr.quiet hno
    have htold := hend.told_iff.mp hr.told
    exact ⟨fun v hv => ⟨hbare v hv, hquiet v hv, htold v hv⟩, hno⟩
  · rintro ⟨hall, hno⟩
    obtain ⟨e, he⟩ := Option.isSome_iff_exists.mp
      (ftnafutil_isSome_iff.mpr fun v hv => (hall v hv).1)
    have hend := ftnafutil_ended he
    refine ⟨e, he, ?_, ?_, hend.uplinkFirst, ?_, ?_⟩
    · refine hend.paired_iff.mpr fun v hv hu => ?_
      rw [unsubscribes, (hall v hv).2.1, Bool.and_false] at hu
      exact absurd hu Bool.false_ne_true
    · exact hend.told_iff.mpr fun v hv => (hall v hv).2.2
    · exact hend.quiet_iff.mpr fun _ v hv => (hall v hv).2.1
    · exact hend.reported_iff.mpr hno

end

/-! ### An area without traffic -/

/-- A system of net 2:5020. -/
def utilNode (node : Int) : Node := ⟨2, 5020, node, 0, []⟩

/-- A run with one uplink and a timeout of thirty days. -/
def utilOne (noAction : Bool) : Util :=
  ⟨⟨true, lit "areafix", [], [⟨true, lit "*", utilNode 1, lit "AreaFix", lit "secret", none⟩]⟩,
    .read ⟨2, utilNode 100, nodeInvalid⟩ [] [], noAction, 30, 0⟩

/-- An area with one downlink that has had no traffic for forty days. -/
def silentArea : Visit :=
  ⟨{ areasbbsNew with
      area := lit "ECHO", zone := 2, state := some (lit "S"), time := 86400,
      nodes := [utilNode 1, utilNode 2] }, 86400 * 41, 86400 * 41⟩

theorem silentArea_sent :
    (ftnafutil (utilOne true) .expire [silentArea] none (lit "areas.bbs") noFaults).map
      (fun e => (e.sent.length, e.rewrote)) = some (2, none) := by
  decide +kernel

theorem silentArea_exit :
    (ftnafutil (utilOne false) .expire [silentArea] none (lit "areas.bbs") noFaults).map
      (fun e => (e.rewrote, e.exit)) = some (some OK, EX_CANTCREAT) := by
  decide +kernel

/-- With `-n` a request and a notice are sent, and without it the rewrite that
succeeds is reported as a failure. -/
theorem ftnafutil_notRight :
    (¬ ∃ e, ftnafutil (utilOne true) .expire [silentArea] none (lit "areas.bbs") noFaults =
      some e ∧ UtilRight noFaults e) ∧
    ¬ ∃ e, ftnafutil (utilOne false) .expire [silentArea] none (lit "areas.bbs") noFaults =
      some e ∧ UtilRight noFaults e := by
  constructor
  · rintro ⟨e, he, hr⟩
    have hsent := silentArea_sent
    rw [he] at hsent
    obtain ⟨hlen, hno⟩ := Prod.mk.inj (Option.some.inj hsent)
    rw [hr.quiet (by rw [hno]; exact (Option.some_ne_none OK).symm)] at hlen
    exact absurd hlen (by decide)
  · rintro ⟨e, he, hr⟩
    have hexit := silentArea_exit
    rw [he] at hexit
    obtain ⟨hok, hcant⟩ := Prod.mk.inj (Option.some.inj hexit)
    rw [hr.reported hok] at hcant
    exact absurd hcant (by decide)

end

end Fidogate

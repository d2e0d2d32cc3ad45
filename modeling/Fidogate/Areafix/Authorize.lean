/-
# `Fidogate.Areafix.Authorize` — who is authorized after any run of requests

A run is cut into events: the start of a request and its commands.  The last
password check is read off the events alone (`lastCheck`); `Authorized` is
what should hold of the state then.  The commands other than PASSWD leave the
privileges and the node alone (`Frame`), so only the checks have to be looked
at.
-/
import Fidogate.Areafix.Commands
import Fidogate.Lib.Run

namespace Fidogate

open Bytes

/-! ## What the commands leave alone -/

/-- The privileges, the node and the default zone are the same. -/
structure Frame (st st' : Areafix) : Prop where
  auth : st'.auth = st.auth
  node : st'.node = st.node
  main : st'.cf.main = st.cf.main

theorem Frame.refl (st : Areafix) : Frame st st := ⟨rfl, rfl, rfl⟩

theorem Frame.trans {st st' st'' : Areafix} (h : Frame st st') (h' : Frame st' st'') :
    Frame st st'' :=
  ⟨h'.auth.trans h.auth, h'.node.trans h.node, h'.main.trans h.main⟩

theorem Frame.foldl {α : Type*} {f : Areafix → α → Areafix} {P : Areafix → Prop}
    (hP : ∀ {st st'}, Frame st st' → P st → P st') (hf : ∀ st a, P st → Frame st (f st a)) :
    ∀ (as : List α) {st : Areafix}, P st → Frame st (as.foldl f st)
  | [], st, _ => Frame.refl st
  | a :: as, st, h => (hf st a h).trans (Frame.foldl hP hf as (hP (hf st a h) h))

theorem cmdNew_frame (t : Tables) (w : World) (node : Node) (line : Str) (dwnl inter : Bool)
    (st : Areafix) : Frame st (cmdNew t w node line dwnl inter st).2 := by
  unfold cmdNew
  split
  · exact Frame.refl st
  · split
    · exact Frame.refl st
    · split
      · exact Frame.refl st
      · split
        · exact Frame.refl st
        · split
          · exact Frame.refl st
          · dsimp only
            split
            · exact Frame.refl st
            · exact ⟨rfl, rfl, rfl⟩

theorem sendRules_main (w : World) (cf : Config) (link : Node) (area : Str) :
    (sendRules w cf link area).main = cf.main := by
  unfold sendRules
  dsimp only
  split
  · rfl
  · rfl

theorem subAdd_main (t : Tables) (w : World) (node : Node) (wild : Bool) (area : Str)
    (p : AreasBBS) (lp : SubLoop) : (subAdd t w node wild area p lp).2.cf.main = lp.cf.main := by
  unfold subAdd
  dsimp only
  split
  · split
    · cases wild
      · exact sendRules_main w lp.cf node (strUpper area)
      · rfl
    · rfl
  · cases wild
    · exact sendRules_main w lp.cf node (strUpper area)
    · rfl

theorem cmdSubLoop_main (t : Tables) (w : World) (st : Areafix) (area : Str) (queue : Bool) :
    ∀ (ps : List AreasBBS) (lp : SubLoop),
      (cmdSubLoop t w st area queue ps lp).2.2.cf.main = lp.cf.main
  | [], lp => rfl
  | p :: ps, lp => by
      have ih := cmdSubLoop_main t w st area queue ps
      unfold cmdSubLoop
      dsimp only
      split
      · rfl
      · split
        · split
          · exact ih _
          · split
            · exact ih _
            · rfl
          · exact ih _
          · exact ih _
          · have hadd := subAdd_main t w st.node (isWildcard area) area p
              { lp with matched := lp.matched + 1 }
            split
            · next q lp' he =>
                rw [he] at hadd
                exact (ih _).trans hadd
            · next lp' he =>
                rw [he] at hadd
                split
                · refine (ih _).trans ?_
                  cases isWildcard area
                  · exact (sendRules_main w _ _ _).trans hadd
                  · exact hadd
                · exact hadd
        · exact ih _

theorem subAreas_frame (t : Tables) (w : World) (area : Str) (queue : Bool) (st : Areafix) :
    Frame st (subAreas t w area queue st).2.2 :=
  ⟨rfl, rfl, cmdSubLoop_main t w st area queue st.areas _⟩

theorem subRequest_frame (t : Tables) (w : World) {sub : Str → Areafix → Int × Areafix}
    (hsub : ∀ area st, Frame st (sub area st).2) (a : AreaUplink) (st : Areafix) :
    Frame st (subRequest t w sub a st) := by
  have hnew : Frame st (cmdNewInt t w a.uplink (forwardLine a) true st).2 :=
    cmdNew_frame t w a.uplink (forwardLine a) true true st
  unfold subRequest
  split
  · exact Frame.refl st
  · dsimp only
    split
    · exact hnew
    · next p _ =>
        split
        · exact hnew
        · have hreq : Frame st ((cmdNewInt t w a.uplink (forwardLine a) true st).2.requested
              a.areas) := hnew.trans ⟨rfl, rfl, rfl⟩
          have h := hreq.trans (hsub p.area _)
          split
          · exact h.trans ⟨rfl, rfl, rfl⟩
          · exact h.trans ⟨rfl, rfl, rfl⟩

theorem subForward_frame (t : Tables) (w : World) {sub : Str → Areafix → Int × Areafix}
    (hsub : ∀ area st, Frame st (sub area st).2) (st : Areafix) (a : AreaUplink)
    (hf : st.auth.fwd = true) : Frame st (subForward t w sub st a) := by
  have hst : Frame st { st with auth := { st.auth with fwd := true } } := by
    refine ⟨?_, rfl, rfl⟩
    rw [← hf]
  exact hst.trans (subRequest_frame t w hsub a _)

theorem cmdSub_frame (t : Tables) (w : World) : ∀ (depth : Nat) (area : Str) (queue : Bool)
    (st : Areafix), Frame st (cmdSub t w depth area queue st).2
  | 0, _, _, st => Frame.refl st
  | depth + 1, area, queue, st => by
      have ih := cmdSub_frame t w depth
      have hloop := subAreas_frame t w area queue st
      unfold cmdSub
      split
      · exact Frame.refl st
      · dsimp only
        split
        · exact hloop
        · split
          · next hc =>
              refine hloop.trans (Frame.foldl (P := fun st => st.auth.fwd = true) ?_ ?_ _ ?_)
              · intro s s' hs hp
                rw [hs.auth]
                exact hp
              · intro s a hp
                exact subForward_frame t w (fun area st => ih area false st) s a hp
              · rw [Bool.and_eq_true] at hc
                rw [hloop.auth]
                exact hc.1
          · exact hloop

theorem cmdUnsub_frame (t : Tables) (area : Str) (st : Areafix) :
    Frame st (cmdUnsub t area st).2 := by
  unfold cmdUnsub
  split
  · exact Frame.refl st
  · have hst : Frame st { st with areas := [] } := ⟨rfl, rfl, rfl⟩
    refine hst.trans ?_
    refine Frame.foldl (P := fun _ => True) (fun _ h => h) ?_ _ trivial
    intro s p _
    dsimp only
    split
    · split
      · exact ⟨rfl, rfl, rfl⟩
      · split
        · exact ⟨rfl, rfl, rfl⟩
        · exact ⟨rfl, rfl, rfl⟩
    · exact ⟨rfl, rfl, rfl⟩

theorem cmdDelete_frame (area : Str) (st : Areafix) : Frame st (cmdDelete area st).2 := by
  unfold cmdDelete
  split
  · exact Frame.refl st
  · exact ⟨rfl, rfl, rfl⟩

theorem cmdPassive_frame (t : Tables) (w : World) (area : Str) (st : Areafix) :
    Frame st (cmdPassive t w area st).2 := by
  unfold cmdPassive
  split
  · exact Frame.refl st
  · exact ⟨rfl, rfl, rfl⟩

theorem cmdActive_frame (t : Tables) (area : Str) (st : Areafix) :
    Frame st (cmdActive t area st).2 := by
  unfold cmdActive
  split
  · exact Frame.refl st
  · exact ⟨rfl, rfl, rfl⟩

/-- The argument of a PASSWD command. -/
def passwdLine (line : Str) : Option Str :=
  match parseWord (stripPercent line) with
  | some (.passwd, arg) => some arg
  | _ => none

theorem areafixDoCmd_passwd {line arg : Str} (h : passwdLine line = some arg) (t : Tables)
    (w : World) (st : Areafix) : areafixDoCmd t w line st = (cmdPasswd t w arg st).2 := by
  unfold passwdLine at h
  unfold areafixDoCmd parseCmd
  split at h
  · next a he =>
      rw [he]
      cases h
      rfl
  · cases h

/-- Only PASSWD touches the privileges and the node. -/
theorem areafixDoCmd_frame {line : Str} (h : passwdLine line = none) (t : Tables) (w : World)
    (st : Areafix) : Frame st (areafixDoCmd t w line st) := by
  unfold areafixDoCmd
  split
  · exact Frame.refl st
  · exact Frame.refl st
  · exact cmdSub_frame t w 2 _ true st
  · exact cmdUnsub_frame t _ st
  · next arg hp =>
      unfold parseCmd at hp
      unfold passwdLine at h
      split at hp
      · next c hw =>
          cases hp
          rw [hw] at h
          cases h
      · split at hp
        · cases hp
        · cases hp
  · exact cmdNew_frame t w st.node _ false false st
  · exact cmdDelete_frame _ st
  · exact cmdPassive_frame t w _ st
  · exact cmdActive_frame t _ st

theorem cmdPasswd_main (t : Tables) (w : World) (arg : Str) (st : Areafix) :
    (cmdPasswd t w arg st).2.cf.main = st.cf.main := by
  unfold cmdPasswd
  dsimp only
  split
  · rfl
  · split
    · rfl
    · split
      · rfl
      · rfl

/-! ## The last password check -/

/-- What a PASSWD entry allows. -/
structure Privileges where
  lvl : Int
  key : Str
  new : Bool
  fwd : Bool
  delete : Bool
  deriving DecidableEq, Repr

/-- The privileges of a node without arguments in PASSWD. -/
def Privileges.defaults : Privileges := ⟨1, [], false, false, false⟩

/-- The privileges in effect. -/
def Auth.privileges (a : Auth) : Privileges := ⟨a.lvl, a.key, a.new, a.fwd, a.delete⟩

/-- The privileges the arguments of an entry spell. -/
def argPrivileges (toks : List Str) : Privileges :=
  let key := (toks[1]?).getD []
  ⟨((toks[0]?).map atoi).getD 1, key, key.contains 36, key.contains 38, key.contains 126⟩

/-- The privileges written in an entry. -/
def Passwd.privileges (p : Passwd) : Privileges :=
  match p.args with
  | some s => argPrivileges (xstrtok blanks s)
  | none => .defaults

/-- The entry of the node, if the password is its password. -/
def verified (t : Tables) (node : Node) (passwd : Option Str) : Option Passwd :=
  (passwdLookup t.passwds t.context node).filter fun p => passwdOk passwd (some p)

/-- The node and the password of a PASSWD command that has both. -/
def passwdArgs (zone : Int) (arg : Str) : Option (Node × Str) :=
  match strtok blanks arg with
  | addr :: passwd :: _ => (ascToNode false zone addr).map (·, passwd)
  | _ => none

/-- The start of a request, or one of its commands. -/
inductive Event where
  | start (w : World) (node : Node) (subj : Str)
  | cmd (w : World) (line : Str)

/-- The entry the last check verified, if it did: a malformed PASSWD command
verifies nothing. -/
def checkStep (t : Tables) (zone : Int) (last : Option Passwd) : Event → Option Passwd
  | .start _ node subj => verified t node (strtok blanks subj).head?
  | .cmd _ line =>
      match passwdLine line with
      | none => last
      | some arg => (passwdArgs zone arg).bind fun r => verified t r.1 (some r.2)

/-- The entry verified by the last check of a run. -/
def lastCheck (t : Tables) (zone : Int) (es : List Event) : Option Passwd :=
  es.foldl (checkStep t zone) none

/-- What should hold after a run whose last check verified this entry: its
privileges are in effect, and without an entry nothing can be changed. -/
structure Authorized (t : Tables) (last : Option Passwd) (st : Areafix) : Prop where
  node : ∀ p, last = some p → p ∈ t.passwds ∧ p.context = t.context ∧ nodeEq st.node p.node = true
  authorized : st.auth.authorized = last.isSome
  privileges : st.auth.privileges = (last.map Passwd.privileges).getD .defaults
  refused : last = none → ∀ (w : World) (line : Str),
    (areafixDoCmd t w line st).areas = st.areas ∧ (areafixDoCmd t w line st).upl = st.upl

/-! ## Runs -/

def areafixStep (t : Tables) (st : Areafix) : Event → Areafix
  | .start w node subj => areafixStart t w node subj st
  | .cmd w line => areafixDoCmd t w line st

/-- The privileges the check of an entry puts into effect. -/
def readPrivileges (stale : Option Str) (p : Passwd) : Privileges :=
  argPrivileges (authTokens p stale)

/-- A check of a node: an entry whose password is not given allows no more
than the defaults, and one without arguments finds nothing left behind the
static pointer of `xstrtok`. -/
def CheckOk (t : Tables) (stale : Option Str) (node : Node) (passwd : Option Str) : Prop :=
  ∀ p, passwdLookup t.passwds t.context node = some p →
    readPrivileges stale p = if passwdOk passwd (some p) then p.privileges else .defaults

instance decCheckOk (t : Tables) (stale : Option Str) (node : Node) (passwd : Option Str) :
    Decidable (CheckOk t stale node passwd) :=
  inferInstanceAs (Decidable (∀ p ∈ passwdLookup t.passwds t.context node, _))

/-- A PASSWD command: a check as above, or, where the command is malformed, no
more than the defaults in effect. -/
def PasswdOk (t : Tables) (w : World) (st : Areafix) (arg : Str) : Prop :=
  (∀ r, passwdArgs st.cf.defzone arg = some r → CheckOk t w.stale r.1 (some r.2)) ∧
  (passwdArgs st.cf.defzone arg = none → st.auth.privileges = .defaults)

instance decPasswdOk (t : Tables) (w : World) (st : Areafix) (arg : Str) :
    Decidable (PasswdOk t w st arg) :=
  inferInstanceAs (Decidable ((∀ r ∈ passwdArgs st.cf.defzone arg, CheckOk t w.stale r.1 (some r.2)) ∧
    (passwdArgs st.cf.defzone arg = none → st.auth.privileges = .defaults)))

/-- The condition on an event. -/
def EventOk (t : Tables) (st : Areafix) : Event → Prop
  | .start w node subj => CheckOk t w.stale node (strtok blanks subj).head?
  | .cmd w line => ∀ arg, passwdLine line = some arg → PasswdOk t w st arg

instance decEventOk (t : Tables) (st : Areafix) : ∀ e : Event, Decidable (EventOk t st e)
  | .start _ _ _ => decCheckOk _ _ _ _
  | .cmd w line => inferInstanceAs (Decidable (∀ arg ∈ passwdLine line, PasswdOk t w st arg))

/-- The commands of a request, up to its end. -/
def requestCmds : List (World × Str) → List Event
  | [] => []
  | (w, line) :: ls =>
      match requestLine line with
      | none => []
      | some none => requestCmds ls
      | some (some p) => .cmd w p :: requestCmds ls

/-- The events of a request. -/
def Request.events (r : Request) : List Event :=
  .start r.start r.node r.subj :: requestCmds r.lines

theorem areafixDoLines_eq (t : Tables) : ∀ (ls : List (World × Str)) (st : Areafix),
    areafixDoLines t ls st = Run.run (areafixStep t) st (requestCmds ls)
  | [], st => rfl
  | (w, line) :: ls, st => by
      have ih := areafixDoLines_eq t ls
      unfold areafixDoLines requestCmds
      cases requestLine line with
      | none => rfl
      | some p =>
          cases p with
          | none => exact ih st
          | some p => exact ih (areafixDoCmd t w p st)

/-- `areafix_do` runs the events of its request. -/
theorem areafixDo_eq (t : Tables) (r : Request) (st : Areafix) :
    areafixDo t r st = Run.run (areafixStep t) st r.events :=
  areafixDoLines_eq t r.lines _

theorem areafixStep_main (t : Tables) (st : Areafix) (e : Event) :
    (areafixStep t st e).cf.main = st.cf.main := by
  cases e with
  | start w node subj => rfl
  | cmd w line =>
      show (areafixDoCmd t w line st).cf.main = _
      cases hp : passwdLine line with
      | none => exact (areafixDoCmd_frame hp t w st).main
      | some arg =>
          rw [areafixDoCmd_passwd hp]
          exact cmdPasswd_main t w arg st

/-! ## A check -/

theorem authCheck_node (t : Tables) (stale : Option Str) (node : Node) (passwd : Option Str) :
    (areafixAuthCheck t stale node passwd true).authorized =
      (verified t node passwd).isSome := by
  unfold areafixAuthCheck verified
  cases hp : passwdLookup t.passwds t.context node with
  | none => cases passwd <;> rfl
  | some p =>
      show passwdOk passwd (some p) = _
      rw [Option.filter_some]
      cases passwdOk passwd (some p) <;> rfl

theorem authCheck_privileges {t : Tables} {stale : Option Str} {node : Node}
    {passwd : Option Str} (h : CheckOk t stale node passwd) :
    (areafixAuthCheck t stale node passwd true).privileges =
      ((verified t node passwd).map Passwd.privileges).getD .defaults := by
  unfold areafixAuthCheck verified
  cases hp : passwdLookup t.passwds t.context node with
  | none => rfl
  | some p =>
      have hread := h p hp
      show readPrivileges stale p = _
      rw [hread, Option.filter_some]
      cases passwdOk passwd (some p) <;> rfl

theorem verified_node {t : Tables} {node : Node} {passwd : Option Str} {p : Passwd}
    (h : verified t node passwd = some p) :
    p ∈ t.passwds ∧ p.context = t.context ∧ nodeEq node p.node = true := by
  obtain ⟨hl, -⟩ := Option.filter_eq_some_iff.mp h
  have hp := List.find?_some hl
  simp only [Bool.and_eq_true, beq_iff_eq] at hp
  exact ⟨List.mem_of_find?_eq_some hl, hp.1.symm, hp.2⟩

/-! ## Without a verified entry -/

/-- A command asks for `authorized`, DELETE for its own privilege. -/
theorem areafixDoCmd_refused (t : Tables) {st : Areafix} (ha : st.auth.authorized = false)
    (hd : st.auth.delete = false) (w : World) (line : Str) :
    (areafixDoCmd t w line st).areas = st.areas ∧ (areafixDoCmd t w line st).upl = st.upl := by
  unfold areafixDoCmd
  split
  · exact ⟨rfl, rfl⟩
  · exact ⟨rfl, rfl⟩
  · simp [cmdSub, ha]
  · simp [cmdUnsub, ha]
  · unfold cmdPasswd
    dsimp only
    split
    · exact ⟨rfl, rfl⟩
    · split
      · exact ⟨rfl, rfl⟩
      · split
        · exact ⟨rfl, rfl⟩
        · exact ⟨rfl, rfl⟩
  · simp [cmdNew, ha]
  · simp [cmdDelete, hd]
  · simp [cmdPassive, ha]
  · simp [cmdActive, ha]

/-- The privileges of the last check are enough for the rest. -/
theorem Authorized.of {t : Tables} {last : Option Passwd} {st : Areafix}
    (hn : ∀ p, last = some p → p ∈ t.passwds ∧ p.context = t.context ∧ nodeEq st.node p.node = true)
    (ha : st.auth.authorized = last.isSome)
    (hp : st.auth.privileges = (last.map Passwd.privileges).getD .defaults) :
    Authorized t last st := by
  refine ⟨hn, ha, hp, ?_⟩
  rintro rfl
  exact areafixDoCmd_refused t ha (congrArg Privileges.delete hp)

theorem Authorized.frame {t : Tables} {last : Option Passwd} {st st' : Areafix}
    (h : Authorized t last st) (hf : Frame st st') : Authorized t last st' := by
  refine Authorized.of ?_ ?_ ?_
  · rw [hf.node]
    exact h.node
  · rw [hf.auth]
    exact h.authorized
  · rw [hf.auth]
    exact h.privileges

/-- A check that meets the condition. -/
theorem Authorized.check {t : Tables} {stale : Option Str} {node : Node} {passwd : Option Str}
    (h : CheckOk t stale node passwd) {st : Areafix} (hn : st.node = node)
    (ha : st.auth = areafixAuthCheck t stale node passwd true) :
    Authorized t (verified t node passwd) st := by
  refine Authorized.of ?_ ?_ ?_
  · intro p hp
    rw [hn]
    exact verified_node hp
  · rw [ha]
    exact authCheck_node t stale node passwd
  · rw [ha]
    exact authCheck_privileges h

/-- A malformed PASSWD command while only the defaults are in effect. -/
theorem Authorized.malformed {t : Tables} (st : Areafix) {st' : Areafix}
    (hp : st.auth.privileges = .defaults)
    (ha : st'.auth = { st.auth with authorized := false }) : Authorized t none st' := by
  refine Authorized.of (fun p hp => by cases hp) ?_ ?_
  · rw [ha]
    rfl
  · rw [ha]
    exact hp

/-! ## The run -/

theorem authorized_start {t : Tables} {w : World} {node : Node} {subj : Str} {st : Areafix}
    (h : EventOk t st (.start w node subj)) :
    Authorized t (verified t node (strtok blanks subj).head?) (areafixStart t w node subj st) :=
  Authorized.check h rfl rfl

theorem authorized_passwd {t : Tables} {w : World} {arg : Str} {st : Areafix}
    (h : PasswdOk t w st arg) :
    Authorized t ((passwdArgs st.cf.defzone arg).bind fun r => verified t r.1 (some r.2))
      (cmdPasswd t w arg st).2 := by
  obtain ⟨hok, hbad⟩ := h
  unfold passwdArgs at hok hbad ⊢
  unfold cmdPasswd
  revert hok hbad
  cases strtok blanks arg with
  | nil =>
      intro _ hbad
      exact Authorized.malformed st (hbad rfl) rfl
  | cons addr args =>
      cases args with
      | nil =>
          intro _ hbad
          refine Authorized.malformed st (hbad rfl) ?_
          dsimp only
          split
          · rfl
          · rfl
      | cons passwd args =>
          dsimp only
          cases ascToNode false st.cf.defzone addr with
          | none =>
              intro _ hbad
              exact Authorized.malformed st (hbad rfl) rfl
          | some n =>
              intro hok _
              exact Authorized.check (hok (n, passwd) rfl) rfl rfl

/-- What one event keeps. -/
theorem authorized_step {t : Tables} {last : Option Passwd} {st : Areafix} {e : Event}
    (h : Authorized t last st) (ok : EventOk t st e) :
    Authorized t (checkStep t st.cf.defzone last e) (areafixStep t st e) := by
  cases e with
  | start w node subj => exact authorized_start ok
  | cmd w line =>
      show Authorized t _ (areafixDoCmd t w line st)
      unfold checkStep
      dsimp only
      cases hp : passwdLine line with
      | none => exact h.frame (areafixDoCmd_frame hp t w st)
      | some arg =>
          rw [areafixDoCmd_passwd hp]
          exact authorized_passwd (ok arg hp)

/-- The events of a run from a state whose last check is known. -/
theorem authorized_run {t : Tables} : ∀ (es : List Event) {last : Option Passwd} {st : Areafix},
    Authorized t last st → Run.Met (areafixStep t) (EventOk t) st es →
    Authorized t (es.foldl (checkStep t st.cf.defzone) last) (Run.run (areafixStep t) st es)
  | [], _, _, h, _ => h
  | e :: es, last, st, h, hm => by
      have hz : (areafixStep t st e).cf.defzone = st.cf.defzone :=
        congrArg StAddr.zone (areafixStep_main t st e)
      have ih := authorized_run es (authorized_step h hm.1) hm.2
      rw [hz] at ih
      exact ih

theorem run_main (t : Tables) (st : Areafix) (es : List Event) :
    (Run.run (areafixStep t) st es).cf.main = st.cf.main :=
  Run.run_invariant (P := fun s => s.cf.main = st.cf.main)
    (fun s e hs => (areafixStep_main t s e).trans hs) es rfl

theorem foldl_areafixDo (t : Tables) : ∀ (rs : List Request) (st : Areafix),
    rs.foldl (fun st r => areafixDo t r st) st =
      Run.run (areafixStep t) st (rs.flatMap Request.events)
  | [], _ => rfl
  | r :: rs, st => by
      rw [List.flatMap_cons, Run.run_append, ← areafixDo_eq]
      exact foldl_areafixDo t rs _

/-- Whatever was requested before: where every check of the run is one whose
failure allows nothing and a malformed PASSWD command has nothing to leave
behind, the privileges in effect are those of the entry verified last. -/
theorem areafixDo_authorized (t : Tables) (st : Areafix) (done : List Request) (r : Request)
    (h : Run.Met (areafixStep t) (EventOk t) st ((done ++ [r]).flatMap Request.events)) :
    Authorized t (lastCheck t st.cf.defzone ((done ++ [r]).flatMap Request.events))
      (areafixDo t r (done.foldl (fun st r => areafixDo t r st) st)) := by
  rw [List.flatMap_append, List.flatMap_singleton] at h ⊢
  obtain ⟨-, hm⟩ := Run.met_append.mp h
  rw [foldl_areafixDo, areafixDo_eq, lastCheck, List.foldl_append]
  have hz : (Run.run (areafixStep t) st (done.flatMap Request.events)).cf.defzone =
      st.cf.defzone := congrArg StAddr.zone (run_main t st _)
  have hrun := authorized_run (requestCmds r.lines) (authorized_start hm.1) hm.2
  rw [← hz]
  exact hrun

/-- A world without files at the time 0. -/
def emptyWorld : World := ⟨fun _ => none, fun _ => false, fun _ => false, 0, none⟩

/-- PASSWD: a downlink, and the sysop who may delete areas. -/
def sysopTables : Tables :=
  { areafix := true, context := lit "af", uplinks := []
    passwds := [⟨lit "af", ⟨2, 5020, 2, 0, []⟩, lit "link", some (lit "1")⟩,
      ⟨lit "af", ⟨2, 5020, 1, 0, []⟩, lit "secret", some (lit "5 ~$ Sysop")⟩] }

/-- A state with one area. -/
def oneArea : Areafix :=
  { auth := areafixAuthInit, node := nodeInvalid, changed := false, limG := 0, upl := []
    areas := [{ areasbbsNew with area := lit "TEST", zone := 2, nodes := [⟨2, 5020, 9, 0, []⟩] }]
    cf := Config.read ⟨2, ⟨2, 5020, 100, 0, []⟩, ⟨2, 5020, 9, 0, []⟩⟩ [] []
    commands := [] }

/-- The downlink subscribes, names the sysop's password, and goes back. -/
def goodRequest : Request :=
  { node := ⟨2, 5020, 2, 0, []⟩, subj := lit "link -q", start := emptyWorld
    lines := [(emptyWorld, lit "+TEST"), (emptyWorld, lit "PASSWD 2:5020/1 secret"),
      (emptyWorld, lit "PASSWD 2:5020/2 wrong"), (emptyWorld, lit "--- tear")] }

theorem areafixDo_goodRequest :
    Authorized sysopTables (lastCheck sysopTables 2 (([goodRequest] ++ [goodRequest]).flatMap
      Request.events)) (areafixDo sysopTables goodRequest
        ([goodRequest].foldl (fun st r => areafixDo sysopTables r st) oneArea)) :=
  areafixDo_authorized sysopTables oneArea [goodRequest] goodRequest (by decide +kernel)

/-- Whoever names the sysop deletes areas, without the password. -/
theorem areafixDo_delete :
    ¬ ∀ (t : Tables) (st : Areafix) (done : List Request) (r : Request),
      Authorized t (lastCheck t st.cf.defzone ((done ++ [r]).flatMap Request.events))
        (areafixDo t r (done.foldl (fun st r => areafixDo t r st) st)) := by
  intro h
  have h := (h sysopTables oneArea [] ⟨⟨2, 5020, 1, 0, []⟩, lit "wrong", emptyWorld, []⟩).refused
    (by decide +kernel) emptyWorld (lit "~TEST")
  revert h
  decide +kernel

end Fidogate

/-
# `Fidogate.Toss.Dupes` — the MSGID history along a run

Each message that reaches the dupe check has a key, made of its area and
MSGID.  A step of the run is one message; `tossedKey` is its key if it was
tossed.
-/
import Fidogate.Lib.Once
import Fidogate.Toss.Echomail

namespace Fidogate

open Bytes

/-- A message that arrives. -/
structure Arrival where
  w : TossWorld
  pkt : Packet
  msg : Message
  body : MsgBody

section

variable (o : TossOptions) (t : Tables)

def tossStep (st : Toss) (a : Arrival) : Toss := (doEchomail o t a.w a.pkt a.msg a.body st).2

/-- The area of a message and the configuration with its address, where the
message is let in. -/
def echoTarget (st : Toss) (a : Arrival) : Option (AreasBBS × Config) :=
  if echoInsecure o t a.pkt a.msg then none
  else
    let af := echoAreas o t a.w.toWorld a.msg.nodeFrom (areaName a.body) st.af
    (areasbbsLookup af.areas (areaName a.body)).map fun area => (area, echoAddr af.cf area)

/-- The key of a message. -/
def arrivalKey (st : Toss) (a : Arrival) : Option Str :=
  (echoTarget o t st a).bind fun r => dupeKey o a.w r.2.defzone r.1.area a.msg a.body

/-- The key of a message, if it is tossed. -/
def tossedKey (st : Toss) (a : Arrival) : Option Str :=
  if (doEchomail o t a.w a.pkt a.msg a.body st).1 = .tossed then arrivalKey o t st a else none

/-- A copy that would be tossed if none had come before. -/
def Acceptable (st : Toss) (a : Arrival) : Prop :=
  (doEchomail o t a.w a.pkt a.msg a.body { st with hist := [] }).1 = .tossed

/-- Whether the checks behind the dupe check let a message pass and its copies
can be written. -/
def echoPasses (a : Arrival) (area : AreasBBS) (cf : Config) : Bool :=
  let r := echoRoutes o cf area a.pkt a.msg a.body
  (echoChecks o cf area a.msg r).isNone &&
    (tossEchomail o cf a.w a.msg (echoBody o cf r a.body) area.passive r.new).2

/-- The condition on a message that is no dupe: a linked sender's passes the
later checks and is written, another's does not. -/
def ArrivalOk (st : Toss) (a : Arrival) : Prop :=
  ∀ r, echoTarget o t st a = some r → echoDupe o a.w r.2 r.1 a.msg a.body st.hist ≠ none →
    if echoLinked r.2 r.1 a.msg then echoPasses o a r.1 r.2 = true
    else (echoChecks o r.2 r.1 a.msg (echoRoutes o r.2 r.1 a.pkt a.msg a.body)).isSome = true

instance (st : Toss) (a : Arrival) : Decidable (ArrivalOk o t st a) :=
  match h : echoTarget o t st a with
  | none => isTrue fun _ hr => by cases h.symm.trans hr
  | some r =>
      decidable_of_iff (echoDupe o a.w r.2 r.1 a.msg a.body st.hist ≠ none →
          if echoLinked r.2 r.1 a.msg then echoPasses o a r.1 r.2 = true
          else (echoChecks o r.2 r.1 a.msg
            (echoRoutes o r.2 r.1 a.pkt a.msg a.body)).isSome = true)
        ⟨fun h' _ hr => by cases h.symm.trans hr; exact h', fun h' => h' r h⟩

instance (st : Toss) (a : Arrival) : Decidable (Acceptable o t st a) :=
  inferInstanceAs (Decidable (_ = Verdict.tossed))

variable {o t}

@[simp] theorem echoReject_hist (v : Verdict) (msg : Message) (body : MsgBody) (st : Toss) :
    (echoReject o v msg body st).2.hist = st.hist := by
  unfold echoReject doBadMsg
  split
  · rfl
  · rfl

theorem doEchomail_target_none (st : Toss) {a : Arrival} (h : echoTarget o t st a = none) :
    (doEchomail o t a.w a.pkt a.msg a.body st).1 ≠ .tossed ∧ (tossStep o t st a).hist = st.hist := by
  unfold echoTarget at h
  unfold tossStep doEchomail
  split
  · exact ⟨fun h => (by cases h), echoReject_hist _ _ _ _⟩
  · next hi =>
      rw [if_neg hi, Option.map_eq_none_iff] at h
      dsimp only
      rw [h]
      exact ⟨fun h => (by cases h), echoReject_hist _ _ _ _⟩

/-- A message with a target is distributed; the rest of the state does not
depend on the history. -/
theorem doEchomail_target_some (st : Toss) {a : Arrival} {area : AreasBBS} {cf : Config}
    (h : echoTarget o t st a = some (area, cf)) : ∃ af : Areafix, af.cf = cf ∧
      doEchomail o t a.w a.pkt a.msg a.body st =
        echoDistribute o a.w a.pkt a.msg a.body area { st with af := af } := by
  unfold echoTarget at h
  unfold doEchomail
  split
  · next hi =>
      rw [if_pos hi] at h
      cases h
  · next hi =>
      rw [if_neg hi] at h
      obtain ⟨area', hl, he⟩ := Option.map_eq_some_iff.mp h
      cases he
      dsimp only
      rw [hl]
      exact ⟨_, rfl, rfl⟩

theorem echoDupe_hist {w : TossWorld} {cf : Config} {area : AreasBBS} {msg : Message}
    {body : MsgBody} {hist hist' : List Str} (hd : o.dupeCheck = true)
    (h : echoDupe o w cf area msg body hist = some hist') :
    ∃ k, dupeKey o w cf.defzone area.area msg body = some k ∧ k ∉ hist ∧
      hist' = if echoLinked cf area msg then k :: hist else hist := by
  unfold echoDupe at h
  rw [hd] at h
  cases hk : dupeKey o w cf.defzone area.area msg body with
  | none =>
      rw [hk] at h
      cases h
  | some k =>
      simp only [hk, Bool.not_true, Bool.false_eq_true, if_false] at h
      split at h
      · cases h
      · split at h
        · cases h
        · next hc =>
            refine ⟨k, rfl, by simpa using hc, ?_⟩
            split at h
            · next hl =>
                rw [if_pos hl]
                exact (Option.some.inj h).symm
            · next hl =>
                rw [if_neg hl]
                exact (Option.some.inj h).symm

/-- A message let through with an empty history is let through as long as its
key is not recorded. -/
theorem echoDupe_of_nil {w : TossWorld} {cf : Config} {area : AreasBBS} {msg : Message}
    {body : MsgBody} {hist hist' : List Str} {k : Str} (hd : o.dupeCheck = true)
    (h : echoDupe o w cf area msg body [] = some hist')
    (hk : dupeKey o w cf.defzone area.area msg body = some k) (hn : k ∉ hist) :
    ∃ hist'', echoDupe o w cf area msg body hist = some hist'' := by
  unfold echoDupe at h ⊢
  simp only [hd, hk, Bool.not_true, Bool.false_eq_true, if_false] at h ⊢
  split at h
  · cases h
  · next hold =>
      rw [if_neg hold, if_neg (by simpa using hn)]
      split
      · exact ⟨_, rfl⟩
      · exact ⟨_, rfl⟩

/-- The checks turn a message down, or say nothing. -/
theorem echoChecks_some {cf : Config} {area : AreasBBS} {msg : Message} {r : Routes}
    {v : Verdict} (h : echoChecks o cf area msg r = some v) : v ≠ .tossed ∧ v ≠ .failed := by
  unfold echoChecks at h
  split at h
  · cases h
    exact ⟨nofun, nofun⟩
  · split at h
    · cases h
      exact ⟨nofun, nofun⟩
    · split at h
      · cases h
        exact ⟨nofun, nofun⟩
      · split at h
        · cases h
          exact ⟨nofun, nofun⟩
        · split at h
          · cases h
            exact ⟨nofun, nofun⟩
          · split at h
            · cases h
              exact ⟨nofun, nofun⟩
            · cases h

/-! ## A message in its area -/

section

variable {a : Arrival} {area : AreasBBS} (st : Toss)

theorem echoDistribute_dupe (h : echoDupe o a.w st.af.cf area a.msg a.body st.hist = none) :
    echoDistribute o a.w a.pkt a.msg a.body area st = echoReject o .dupe a.msg a.body st := by
  unfold echoDistribute
  dsimp only
  rw [h]

theorem echoDistribute_rejected {hist : List Str} {v : Verdict}
    (h : echoDupe o a.w st.af.cf area a.msg a.body st.hist = some hist)
    (hv : echoChecks o st.af.cf area a.msg (echoRoutes o st.af.cf area a.pkt a.msg a.body) =
      some v) :
    echoDistribute o a.w a.pkt a.msg a.body area st =
      echoReject o v a.msg a.body { st with hist := hist } := by
  unfold echoDistribute
  dsimp only
  rw [h]
  dsimp only
  rw [hv]

theorem echoDistribute_passed {hist : List Str}
    (h : echoDupe o a.w st.af.cf area a.msg a.body st.hist = some hist)
    (hp : echoPasses o a area st.af.cf = true) :
    (echoDistribute o a.w a.pkt a.msg a.body area st).1 = .tossed ∧
      (echoDistribute o a.w a.pkt a.msg a.body area st).2.hist = hist := by
  obtain ⟨hc, hw⟩ := (Bool.and_eq_true _ _).mp hp
  unfold echoDistribute
  dsimp only
  rw [h]
  dsimp only
  rw [Option.isNone_iff_eq_none.mp hc]
  dsimp only
  rw [if_pos hw]
  exact ⟨rfl, rfl⟩

/-- What is tossed was no dupe and passed. -/
theorem echoDistribute_tossed
    (h : (echoDistribute o a.w a.pkt a.msg a.body area st).1 = .tossed) :
    ∃ hist, echoDupe o a.w st.af.cf area a.msg a.body st.hist = some hist ∧
      echoPasses o a area st.af.cf = true := by
  cases hd : echoDupe o a.w st.af.cf area a.msg a.body st.hist with
  | none =>
      rw [echoDistribute_dupe st hd] at h
      cases h
  | some hist =>
      cases hc : echoChecks o st.af.cf area a.msg
          (echoRoutes o st.af.cf area a.pkt a.msg a.body) with
      | some v =>
          rw [echoDistribute_rejected st hd hc] at h
          exact absurd h (echoChecks_some hc).1
      | none =>
          refine ⟨hist, rfl, ?_⟩
          unfold echoDistribute at h
          dsimp only at h
          rw [hd] at h
          dsimp only at h
          rw [hc] at h
          dsimp only at h
          split at h
          · next hw => exact (Bool.and_eq_true _ _).mpr ⟨Option.isNone_iff_eq_none.mpr hc, hw⟩
          · cases h

end

/-! ## One message -/

/-- A message under the condition records its key if it is tossed, and only
then. -/
theorem tossStep_keeps (hd : o.dupeCheck = true) (st : Toss) (a : Arrival)
    (ha : ArrivalOk o t st a) :
    Once.Keeps (tossStep o t) (fun st : Toss => st.hist) (tossedKey o t) st a := by
  cases ht : echoTarget o t st a with
  | none =>
      obtain ⟨hv, hh⟩ := doEchomail_target_none st ht
      have ho : tossedKey o t st a = none := if_neg hv
      refine ⟨?_, ?_⟩
      · rw [ho]
        exact hh
      · intro k hk
        rw [ho] at hk
        cases hk
  | some r =>
      obtain ⟨area, cf⟩ := r
      obtain ⟨af, rfl, he⟩ := doEchomail_target_some st ht
      have hkey : arrivalKey o t st a = dupeKey o a.w af.cf.defzone area.area a.msg a.body := by
        unfold arrivalKey
        rw [ht]
        rfl
      have hnone : (doEchomail o t a.w a.pkt a.msg a.body st).1 ≠ .tossed →
          (tossStep o t st a).hist = st.hist →
          Once.Keeps (tossStep o t) (fun st : Toss => st.hist) (tossedKey o t) st a := by
        intro hv hh
        have ho : tossedKey o t st a = none := if_neg hv
        refine ⟨?_, ?_⟩
        · rw [ho]
          exact hh
        · intro k hk
          rw [ho] at hk
          cases hk
      cases hdup : echoDupe o a.w af.cf area a.msg a.body st.hist with
      | none =>
          have he' := he.trans (echoDistribute_dupe { st with af := af } hdup)
          refine hnone ?_ ?_
          · rw [he']
            intro h
            cases h
          · unfold tossStep
            rw [he']
            exact echoReject_hist _ _ _ _
      | some hist' =>
          obtain ⟨k, hk, hnot, hh⟩ := echoDupe_hist hd hdup
          have hok := ha _ ht (by rw [hdup]; intro h; cases h)
          split at hok
          · next hl =>
              obtain ⟨hv, hhist⟩ :=
                echoDistribute_passed { st with af := af } hdup hok
              have ho : tossedKey o t st a = some k := by
                unfold tossedKey
                rw [he, if_pos hv, hkey, hk]
              refine ⟨?_, ?_⟩
              · show (doEchomail o t a.w a.pkt a.msg a.body st).2.hist = _
                rw [he, hhist, ho, hh, if_pos hl]
                rfl
              · intro k' hk'
                rw [ho] at hk'
                cases hk'
                exact hnot
          · next hl =>
              obtain ⟨v, hv⟩ := Option.isSome_iff_exists.mp hok
              have he' := he.trans
                (echoDistribute_rejected { st with af := af } hdup hv)
              refine hnone ?_ ?_
              · rw [he']
                exact (echoChecks_some hv).1
              · unfold tossStep
                rw [he', echoReject_hist]
                exact hh.trans (if_neg hl)

/-- An acceptable copy is tossed unless its key is recorded. -/
theorem tossedKey_of_acceptable (hd : o.dupeCheck = true) {st : Toss} {a : Arrival}
    (ha : Acceptable o t st a) {k : Str} (hk : arrivalKey o t st a = some k)
    (hn : k ∉ st.hist) : tossedKey o t st a = some k := by
  cases ht : echoTarget o t st a with
  | none =>
      exact absurd ha (doEchomail_target_none { st with hist := [] } ht).1
  | some r =>
      obtain ⟨area, cf⟩ := r
      obtain ⟨af, rfl, he⟩ := doEchomail_target_some st ht
      obtain ⟨af', haf, he'⟩ := doEchomail_target_some { st with hist := [] } ht
      have hkey : dupeKey o a.w af.cf.defzone area.area a.msg a.body = some k := by
        unfold arrivalKey at hk
        rw [ht] at hk
        exact hk
      unfold Acceptable at ha
      rw [he'] at ha
      obtain ⟨hist, hdup, hp⟩ := echoDistribute_tossed _ ha
      have hdup : echoDupe o a.w af'.cf area a.msg a.body [] = some hist := hdup
      have hp : echoPasses o a area af'.cf = true := hp
      rw [haf] at hdup hp
      obtain ⟨hist', hdup'⟩ := echoDupe_of_nil hd hdup hkey hn
      unfold tossedKey
      rw [he, if_pos (echoDistribute_passed { st with af := af } hdup' hp).1]
      exact hk

/-! ## The run -/

/-- The keys of the messages tossed along a run. -/
def tossedKeys (o : TossOptions) (t : Tables) : Toss → List Arrival → List Str :=
  Once.outs (tossStep o t) (tossedKey o t)

end

/-! ## Two runs -/

/-- ftntoss with a history and nothing else configured. -/
def plainOptions : TossOptions :=
  { tFlag := false, nFlag := false, pFlag := false, killUnknown := false, killRouted := false,
    killInsecure := false, killCircular := false, checkPath := true, dupeCheck := true,
    killDupe := false, killNomsgid := false, killOld := false, echomail4d := false,
    noEmptyPath := false, addOtherAka := false, checkPointOriginAddr := false,
    autocreateLine := [], addto := [], deleteseenby := [], deletepath := [], zonegate := [] }

/-- A node of net 5020. -/
def node5020 (n : Int) : Node := ⟨2, 5020, n, 0, []⟩

/-- The area TEST with two downlinks, at 2:5020/100. -/
def testAreas : Areafix :=
  { auth := areafixAuthInit, node := nodeInvalid, changed := false, limG := 0, upl := []
    areas := [{ areasbbsNew with area := lit "TEST", zone := 2, nodes := [node5020 9, node5020 1] }]
    cf := Config.read ⟨2, node5020 100, node5020 9⟩ [] []
    commands := [] }

def noTables : Tables := ⟨true, lit "af", [], []⟩

/-- A copy of one message, from a node to a node, with its PATH. -/
def copyOf (src dst : Int) (path : String) : Arrival :=
  { w :=
      { files := fun _ => none, isDir := fun _ => false, mkdir := fun _ => false, now := 0
        stale := none, clock := ⟨0, 0, gmtime, fun _ => []⟩, expSec := 0, opens := fun _ => true }
    pkt := ⟨node5020 src, node5020 dst, 0, 0, 2, 0, 0, 0, 0, [], 0, []⟩
    msg := ⟨node5020 src, node5020 dst, node5020 9, 0, 0, 0, none, lit "All", lit "A", lit "B",
      none⟩
    body := { MsgBody.clear with
      area := some (lit "AREA:TEST\x0D"), kludge := [lit "\x01MSGID: 2:5020/9 1\x0D"]
      path := [lit path] } }

end Fidogate

/-
# `Fidogate.Areafix.Autocreate` — areas created by ftntoss and ftntick

Along a run of either program, an area that a message or a TIC brings with it
is created under the received name and by the configured options, as long as
the name is a word and the lines of the nodes to subscribe still read as
configured.
-/
import Fidogate.Areafix.Create
import Fidogate.Tick.Process
import Fidogate.Toss.Dupes

namespace Fidogate

open Bytes

/-- The options configured for areas from a node: the AutoCreate line, and
those of the uplink. -/
def autocreateOptions (line : Str) (t : Tables) (areafix : Bool) (node : Node) : Str :=
  match (uplinksLineGet t.uplinks areafix node).bind (·.options) with
  | some opts => line ++ lit " " ++ opts
  | none => line

theorem auth_cmdline (t : Tables) (stale : Option Str) (node : Node) (passwd : Option Str)
    (checkpass : Bool) : (areafixAuthCheck t stale node passwd checkpass).cmdline = false := by
  unfold areafixAuthCheck
  cases passwdLookup t.passwds t.context node <;> rfl

theorem Cuts.of_eq {key : Str} {cf₀ cf cf' : Config} {n : Nat} (h : Cuts key cf₀ cf n)
    (hm : cf'.main = cf.main) (hs : cf'.strings = cf.strings) : Cuts key cf₀ cf' n :=
  ⟨hm.trans h.main, hs.trans h.strings⟩

/-- The lines of a configuration may have been cut. -/
def SomeCuts (t : Tables) (cf₀ cf : Config) : Prop := ∃ n, Cuts (subscribeKey t) cf₀ cf n

theorem SomeCuts.refl (t : Tables) (cf : Config) : SomeCuts t cf cf := ⟨0, rfl, rfl⟩

theorem SomeCuts.of_eq {t : Tables} {cf₀ cf cf' : Config} (h : SomeCuts t cf₀ cf)
    (hm : cf'.main = cf.main) (hs : cf'.strings = cf.strings) : SomeCuts t cf₀ cf' := by
  obtain ⟨n, h⟩ := h
  exact ⟨n, h.of_eq hm hs⟩

/-! ## ftntoss -/

/-- The whole name in the AREA line. -/
def receivedName (body : MsgBody) : Str := stripCrlf ((body.area.getD []).drop 5)

section

variable (o : TossOptions) (t : Tables) (cf₀ : Config)

/-- Whether the sender may create the area of a message that is not known. -/
def echoMayCreate (st : Toss) (a : Arrival) : Bool :=
  ! echoInsecure o t a.pkt a.msg && (areasbbsLookup st.af.areas (areaName a.body)).isNone &&
    (areafixAuthCheck t a.w.stale a.msg.nodeFrom none false).new &&
    ! checkForbiddenArea t a.w.toWorld st.af.cf (areaName a.body)

/-- The condition on a message that may create its area: the name is a word,
it fits the buffers, and the lines of the nodes to subscribe read as at the
start. -/
def EchoCreateOk (st : Toss) (a : Arrival) : Prop :=
  echoMayCreate o t st a = true →
    IsWord true blanks (receivedName a.body) ∧
    ((a.body.area.getD []).drop 5).length < BUFSIZ ∧
    (receivedName a.body ++ lit " " ++
      autocreateOptions o.autocreateLine t true a.msg.nodeFrom).length ≤ BUFSIZ ∧
    SubscribeOk t cf₀ st.af.cf

variable {o t cf₀}

theorem autocreateCmd_eq {node : Node} {name : Str} (h : (name ++ lit " " ++
    autocreateOptions o.autocreateLine t true node).length ≤ BUFSIZ) :
    autocreateCmd o t node name =
      name ++ lit " " ++ autocreateOptions o.autocreateLine t true node := by
  unfold autocreateCmd autocreateOptions at *
  revert h
  cases (uplinksLineGet t.uplinks true node).bind (·.options) with
  | none => exact fun h => List.take_of_length_le h
  | some opts =>
      intro h
      dsimp only at h ⊢
      rw [← List.append_assoc, ← List.append_assoc] at h ⊢
      exact List.take_of_length_le h

theorem areaName_eq {body : MsgBody} (h : ((body.area.getD []).drop 5).length < BUFSIZ) :
    areaName body = receivedName body := by
  unfold areaName receivedName bufCopy
  rw [List.take_of_length_le (Nat.le_sub_one_of_lt h)]

/-- One message creates its area exactly, or none. -/
theorem echoAreas_exact {st : Toss} {a : Arrival} (hc : SomeCuts t cf₀ st.af.cf)
    (hi : echoInsecure o t a.pkt a.msg = false) (ha : EchoCreateOk o t cf₀ st a) :
    CreatedExactly t a.w.toWorld cf₀ a.msg.nodeFrom (receivedName a.body)
      (autocreateOptions o.autocreateLine t true a.msg.nodeFrom) false st.af.areas
      (echoAreas o t a.w.toWorld a.msg.nodeFrom (areaName a.body) st.af).areas := by
  unfold echoAreas
  cases hl : areasbbsLookup st.af.areas (areaName a.body) with
  | some area => exact Or.inl rfl
  | none =>
      dsimp only
      unfold echoCreate
      dsimp only
      split
      · exact Or.inl rfl
      · next hmay =>
          have hmay : echoMayCreate o t st a = true := by
            unfold echoMayCreate
            rw [hi, hl]
            simpa using hmay
          obtain ⟨hw, hfit, hcmd, hs⟩ := ha hmay
          obtain ⟨n, hc⟩ := hc
          rw [areaName_eq hfit, autocreateCmd_eq hcmd]
          exact @cmdNewInt_exact t a.w.toWorld cf₀ n { st.af with
            auth := areafixAuthCheck t a.w.stale a.msg.nodeFrom none false } hc hs
            (auth_cmdline _ _ _ _ _) _ hw _ _ _

theorem echoAreas_cuts {af : Areafix} (h : SomeCuts t cf₀ af.cf) (w : World) (node : Node)
    (name : Str) : SomeCuts t cf₀ (echoAreas o t w node name af).cf := by
  unfold echoAreas
  cases areasbbsLookup af.areas name with
  | some area => exact h
  | none =>
      dsimp only
      unfold echoCreate
      dsimp only
      split
      · exact h
      · obtain ⟨n, h⟩ := h
        exact @cmdNew_cuts t w cf₀ n { af with auth := areafixAuthCheck t w.stale node none false }
          h node _ false true

theorem echoAddr_cuts {cf : Config} (h : SomeCuts t cf₀ cf) (area : AreasBBS) :
    SomeCuts t cf₀ (echoAddr cf area) := by
  unfold echoAddr
  dsimp only
  split
  · split
    · exact h.of_eq rfl rfl
    · exact h.of_eq rfl rfl
  · split
    · exact h.of_eq rfl rfl
    · exact h

theorem echoReject_af (v : Verdict) (msg : Message) (body : MsgBody) (st : Toss) :
    (echoReject o v msg body st).2.af = st.af := by
  unfold echoReject doBadMsg
  split
  · rfl
  · rfl

theorem echoDistribute_cf (w : TossWorld) (pkt : Packet) (msg : Message) (body : MsgBody)
    (area : AreasBBS) (st : Toss) :
    (echoDistribute o w pkt msg body area st).2.af.cf = st.af.cf := by
  unfold echoDistribute
  dsimp only
  split
  · rw [echoReject_af]
  · split
    · rw [echoReject_af]
    · rfl

theorem tossStep_cuts (st : Toss) (a : Arrival) (h : SomeCuts t cf₀ st.af.cf) :
    SomeCuts t cf₀ (tossStep o t st a).af.cf := by
  have hareas := echoAreas_cuts (o := o) h a.w.toWorld a.msg.nodeFrom (areaName a.body)
  unfold tossStep doEchomail
  split
  · rw [echoReject_af]
    exact h
  · dsimp only
    split
    · rw [echoReject_af]
      exact hareas
    · rw [echoDistribute_cf]
      exact echoAddr_cuts hareas _

end

/-! ## ftntick -/

/-- A TIC that arrives. -/
structure TicArrival where
  w : TickWorld
  tic : Tick

section

variable (o : TickOptions) (t : Tables) (cf₀ : Config)

def tickStep (st : Ftntick) (a : TicArrival) : Ftntick := (processTic o t a.w a.tic st).2

/-- Whether the area of a TIC is unknown and there is no place for such. -/
def ticUnplaced (st : Ftntick) (area : Str) : Bool :=
  (areasbbsLookup st.af.areas area).isNone &&
    (o.unknownTickArea.bind (areasbbsLookup st.af.areas)).isNone

/-- Whether the sender may create the area of a TIC. -/
def ticMayCreate (st : Ftntick) (a : TicArrival) (area : Str) : Bool :=
  ticUnplaced o st area && checkPass o t a.tic false &&
    (! o.autocreateCheckPass || checkPass o t a.tic true) &&
    (areafixAuthCheck t a.w.stale a.tic.src a.tic.pw true).new &&
    ! checkForbiddenArea t a.w.toWorld st.af.cf area

/-- The condition on a TIC that may create its area. -/
def TicCreateOk (st : Ftntick) (a : TicArrival) : Prop :=
  ∀ area, a.tic.area = some area → ticMayCreate o t st a area = true →
    IsWord true blanks area ∧ SubscribeOk t cf₀ st.af.cf

variable {o t cf₀}

theorem ticAutocreate_eq (node : Node) (name : Str) : ticAutocreate o t node name =
    name ++ lit " " ++ autocreateOptions o.autocreateLine t false node := by
  unfold ticAutocreate autocreateOptions
  cases (uplinksLineGet t.uplinks false node).bind (·.options) with
  | none => rfl
  | some opts => simp only [List.append_assoc]

/-- One TIC creates its area exactly, or none. -/
theorem ticCreate_exact {st : Ftntick} {a : TicArrival} {area : Str}
    (hc : SomeCuts t cf₀ st.af.cf) (harea : a.tic.area = some area)
    (hu : ticUnplaced o st area = true) (ha : TicCreateOk o t cf₀ st a) :
    CreatedExactly t a.w.toWorld cf₀ a.tic.src area
      (autocreateOptions o.autocreateLine t false a.tic.src) true st.af.areas
      (ticCreate o t a.w.toWorld a.tic area st.af).2.areas := by
  unfold ticCreate
  split
  · exact Or.inl rfl
  · next hp =>
      split
      · exact Or.inl rfl
      · next hp' =>
          dsimp only
          split
          · exact Or.inl rfl
          · next hnew =>
              have hmay : ticMayCreate o t st a area = true := by
                unfold ticMayCreate
                rw [hu]
                grind
              obtain ⟨hw, hs⟩ := ha area harea hmay
              obtain ⟨n, hc⟩ := hc
              have h := @cmdNewInt_exact t a.w.toWorld cf₀ n { st.af with
                auth := areafixAuthCheck t a.w.stale a.tic.src a.tic.pw true } hc hs
                (auth_cmdline _ _ _ _ _) _ hw a.tic.src
                (autocreateOptions o.autocreateLine t false a.tic.src) true
              rw [ticAutocreate_eq]
              split
              · exact h
              · exact h

theorem ticCreate_cuts {af : Areafix} (h : SomeCuts t cf₀ af.cf) (w : World) (tic : Tick)
    (area : Str) : SomeCuts t cf₀ (ticCreate o t w tic area af).2.cf := by
  unfold ticCreate
  split
  · exact h
  · split
    · exact h
    · dsimp only
      split
      · exact h
      · obtain ⟨n, h⟩ := h
        have h := @cmdNew_cuts t w cf₀ n { af with
          auth := areafixAuthCheck t w.stale tic.src tic.pw true } h tic.src
          (ticAutocreate o t tic.src area) true true
        split
        · exact h
        · exact h

theorem ticDistribute_cf (w : TickWorld) (tic : Tick) (area : Str) (bbs : AreasBBS)
    (created : Bool) (st : Ftntick) :
    (ticDistribute o t w tic area bbs created st).2.af.cf = st.af.cf := by
  unfold ticDistribute
  dsimp only
  split
  · unfold ticWithdraw
    dsimp only
    generalize (if st.af.auth.new then st.af.auth
      else areafixAuthCheck t w.stale tic.src tic.pw true) = auth
    split
    · rfl
    · rfl
  · unfold ticSendOn
    dsimp only
    split
    · rfl
    · split
      · rfl
      · split
        · rfl
        · rfl

theorem ticKnown_cf (w : TickWorld) (tic : Tick) (area : Str) (bbs : AreasBBS) (created : Bool)
    (st : Ftntick) :
    (ticKnown o t w tic area bbs created st).2.af.cf = cfSetZone st.af.cf bbs.zone := by
  unfold ticKnown
  dsimp only
  split
  · rfl
  · unfold ticAccept
    dsimp only
    split
    · rfl
    · split
      · rfl
      · rw [ticDistribute_cf]
        rfl

theorem ticUnknown_cf (w : TickWorld) (tic : Tick) (bbs : AreasBBS) (st : Ftntick) :
    (ticUnknown o w tic bbs st).2.af.cf = cfSetZone st.af.cf bbs.zone := by
  rw [ticUnknown]
  rfl

theorem tickStep_cuts (st : Ftntick) (a : TicArrival) (h : SomeCuts t cf₀ st.af.cf) :
    SomeCuts t cf₀ (tickStep o t st a).af.cf := by
  unfold tickStep processTic
  cases a.tic.area with
  | none => exact h
  | some area =>
      dsimp only
      cases areasbbsLookup st.af.areas area with
      | some bbs =>
          dsimp only
          rw [ticKnown_cf]
          exact h.of_eq rfl rfl
      | none =>
          dsimp only
          cases o.unknownTickArea.bind (areasbbsLookup st.af.areas) with
          | some bbs =>
              dsimp only
              rw [ticUnknown_cf]
              exact h.of_eq rfl rfl
          | none =>
              have hcreate := ticCreate_cuts (o := o) h a.w.toWorld a.tic area
              dsimp only
              revert hcreate
              cases ticCreate o t a.w.toWorld a.tic area st.af with
              | mk r af =>
                  intro hcreate
                  cases r with
                  | none => exact hcreate
                  | some bbs =>
                      dsimp only
                      rw [ticKnown_cf]
                      exact hcreate.of_eq rfl rfl

end

/-! ## Both programs -/

/-- PASSWD: 2:5020/9 may create areas. -/
def createTables (areafix : Bool) : Tables :=
  { areafix := areafix, context := lit (if areafix then "af" else "ff"), uplinks := []
    passwds := [⟨lit (if areafix then "af" else "ff"), ⟨2, 5020, 9, 0, []⟩, lit "pw",
      some (lit "5 $")⟩] }

/-- No areas, and one node to subscribe. -/
def noAreas : Areafix :=
  { auth := areafixAuthInit, node := nodeInvalid, changed := false, limG := 0, upl := [], areas := []
    cf := Config.read ⟨2, ⟨2, 5020, 100, 0, []⟩, ⟨2, 5020, 9, 0, []⟩⟩ []
      [(lit "AutoCreateSubscribeNodes", lit "2:5020/7"),
        (lit "AutoCreateSubscribeFileechoNodes", lit "2:5020/8")]
    commands := [] }

/-- A message for an area. -/
def echoFor (area : String) : Arrival :=
  { copyOf 9 100 "" with
    body := { MsgBody.clear with area := some (lit "AREA:" ++ lit area ++ [cr]) } }

/-- A TIC for an area. -/
def ticFor (area : String) : TicArrival :=
  ⟨⟨⟨fun _ => none, fun _ => true, fun _ => true, 0, none⟩, ⟨0, 0, gmtime, fun _ => []⟩,
      fun _ => false, fun _ => true, fun _ _ => .done, fun _ => true, fun _ _ => .done,
      fun _ _ => true, fun _ => true, fun _ => lit "tk000001.tic", id, []⟩,
    { origin := ⟨2, 5020, 9, 0, []⟩, src := ⟨2, 5020, 9, 0, []⟩, dst := nodeInvalid
      area := some (lit area), file := lit "a.zip", replaces := none, desc := [], ldesc := []
      crc := 1, created := none, size := 1, path := [], seenby := [], pw := some (lit "pw")
      release := -1, date := -1, app := [] }⟩

def createOptions : TickOptions :=
  { tFlag := false, unknownTickArea := none, autocreateCheckPass := true
    autocreateLine := lit "-k A", inDir := lit "/in", passPath := lit "/pass"
    filesChangeMode := false, routing := [] }

/-- A line of one word loses nothing. -/
theorem subscribeOk_of_fixed {t : Tables} {cf₀ cf : Config}
    (h : ∀ line ∈ cfLoopStrings cf₀ (subscribeKey t), strtokCut blanks line = line)
    (hz : cf.curZone = cf₀.curZone) : SubscribeOk t cf₀ cf :=
  ⟨Or.inr fun line hl n zone => by rw [Function.iterate_fixed (h line hl) n], Or.inl hz⟩

/-- Options with a configured line. -/
def lineOptions : TossOptions := { plainOptions with autocreateLine := lit "-k A" }

/-- The state after an area FOO was created. -/
def afterFoo : Toss :=
  Run.run (tossStep lineOptions (createTables true)) ⟨noAreas, [], [], []⟩ [echoFor "FOO"]

def afterTicFoo : Ftntick :=
  Run.run (tickStep createOptions (createTables false)) ⟨noAreas, []⟩ [ticFor "FOO"]

end Fidogate

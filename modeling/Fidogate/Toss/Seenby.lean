/-
# `Fidogate.Toss.Seenby` — who gets an echomail message

Without rules for SEEN-BY and PATH, a tossed message goes to the nodes of the
area behind the uplinks that have not seen it, once to each, and its SEEN-BY
and PATH lines name who has seen it and where it came through.
-/
import Mathlib.Data.List.TakeWhile
import Fidogate.Toss.Dupes
import Fidogate.Toss.KludgeLines

namespace Fidogate

open Bytes

/-! ## Addresses without their zone -/

theorem nodeEqEcho_iff {a b : Node} :
    nodeEqEcho a b = true ↔ a.net = b.net ∧ a.node = b.node ∧ a.point = b.point := by
  simp [nodeEqEcho, and_assoc]

theorem nodeEqEcho_comm (a b : Node) : nodeEqEcho a b = nodeEqEcho b a := by
  rw [Bool.eq_iff_iff, nodeEqEcho_iff, nodeEqEcho_iff]
  constructor
  · exact fun ⟨h1, h2, h3⟩ => ⟨h1.symm, h2.symm, h3.symm⟩
  · exact fun ⟨h1, h2, h3⟩ => ⟨h1.symm, h2.symm, h3.symm⟩

/-- Nodes that are equal but for the zone read the same on a line. -/
theorem plain_eq_of_nodeEqEcho {a b : Node} (zone : Int) (h : nodeEqEcho a b = true) :
    a.plain zone = b.plain zone := by
  obtain ⟨h1, h2, h3⟩ := nodeEqEcho_iff.mp h
  unfold Node.plain
  rw [h1, h2, h3]

theorem lonSearchEcho_iff {lon : List Node} {n : Node} :
    lonSearchEcho lon n = true ↔ ∃ m ∈ lon, nodeEqEcho m n = true := by
  unfold lonSearchEcho
  rw [List.any_eq_true]

theorem lonSearchEcho_append (l l' : List Node) (n : Node) :
    lonSearchEcho (l ++ l') n = (lonSearchEcho l n || lonSearchEcho l' n) :=
  List.any_append

/-- A node that is there already adds nothing to a list. -/
theorem lonSearchEcho_addEcho (lon : List Node) (n p : Node) :
    lonSearchEcho (addEcho lon n) p = lonSearchEcho (lon ++ [n]) p := by
  unfold addEcho
  split
  · next h =>
      rw [lonSearchEcho_append, Bool.eq_iff_iff, Bool.or_eq_true]
      refine ⟨Or.inl, ?_⟩
      rintro (hp | hp)
      · exact hp
      · obtain ⟨m, hm, hmn⟩ := lonSearchEcho_iff.mp h
        obtain ⟨n', hn', hnp⟩ := lonSearchEcho_iff.mp hp
        cases List.mem_singleton.mp hn'
        obtain ⟨h1, h2, h3⟩ := nodeEqEcho_iff.mp hmn
        obtain ⟨h4, h5, h6⟩ := nodeEqEcho_iff.mp hnp
        exact lonSearchEcho_iff.mpr ⟨m, hm, nodeEqEcho_iff.mpr
          ⟨h1.trans h4, h2.trans h5, h3.trans h6⟩⟩
  · rfl

theorem mem_addEcho {lon : List Node} {n m : Node} (h : m ∈ addEcho lon n) : m ∈ lon ∨ m = n := by
  unfold addEcho at h
  split at h
  · exact Or.inl h
  · rcases List.mem_append.mp h with h | h
    · exact Or.inl h
    · exact Or.inr (List.mem_singleton.mp h)

/-! ## The nodes an area adds -/

/-- A node that has not seen the message, did not send it, and is not
passive. -/
def wants (passive : List Node) (src : Node) (seenby : List Node) (p : Node) : Bool :=
  ! lonSearchEcho seenby p && ! nodeEq src p && ! lonSearch passive p

/-- No two nodes of an area are the same but for the zone. -/
def Distinct (nodes : List Node) : Prop := nodes.Pairwise fun a b => nodeEqEcho a b = false

/-- In a list without doubles the growth of SEEN-BY makes no difference. -/
theorem doSeenby_eq (passive : List Node) (cup : Int) (src : Node) : ∀ (j : Int)
    (ps seenby : List Node), Distinct ps →
    doSeenby (some passive) cup src j ps seenby =
      (seenby ++ (ps.drop (cup - j).toNat).filter (wants passive src seenby),
        (ps.drop (cup - j).toNat).filter (wants passive src seenby))
  | j, [], seenby, _ => by
      rw [List.drop_nil, List.filter_nil, List.append_nil, doSeenby]
  | j, p :: ps, seenby, h => by
      obtain ⟨hp, hps⟩ := List.pairwise_cons.mp h
      have ih := doSeenby_eq passive cup src (j + 1) ps
      have hcup : (cup - j).toNat = (cup - (j + 1)).toNat + if j < cup then 1 else 0 := by
        split <;> omega
      rw [doSeenby]
      by_cases hj : j < cup
      · -- a node in front of the place the uplinks take
        rw [if_pos hj] at hcup
        rw [if_neg (by simp [hj]), ih seenby hps, hcup, List.drop_succ_cons]
      · rw [if_neg hj] at hcup
        have h0 : (cup - (j + 1)).toNat = 0 := by omega
        have hj' : decide (j < cup) = false := decide_eq_false hj
        have hcond : (! lonSearchEcho seenby p && ! (decide (j < cup) || nodeEq src p) &&
            (some passive).any (! lonSearch · p)) = wants passive src seenby p := by
          rw [hj', Bool.false_or]
          rfl
        rw [hcond, hcup, h0, Nat.add_zero, List.drop_zero]
        cases hw : wants passive src seenby p with
        | false =>
            rw [if_neg (by decide), ih seenby hps, h0, List.drop_zero,
              List.filter_cons_of_neg (by rw [hw]; decide)]
        | true =>
            have hrest : ps.filter (wants passive src (seenby ++ [p])) =
                ps.filter (wants passive src seenby) := by
              refine List.filter_congr ?_
              intro q hq
              unfold wants
              rw [lonSearchEcho_append]
              simp [lonSearchEcho, hp q hq]
            rw [if_pos rfl, ih (seenby ++ [p]) hps, h0, List.drop_zero, hrest,
              List.filter_cons_of_pos hw, List.append_assoc]
            rfl

/-! ## Who has seen a message -/

/-- `do_4dpoint`: where the sender's boss is the only node on the list, the
sender stands there instead. -/
def bossReplaced (src : Node) : List Node → List Node
  | [n] => if nodeEqEchoPa n src then [src] else [n]
  | l => l

/-- The nodes of the SEEN-BY lines received. -/
def seenbyIn (cf : Config) (a : Arrival) : List Node :=
  bossReplaced a.msg.nodeFrom (kludgeToLon cf.curZone a.body.seenby)

/-- They, our address, the sender and the addressee. -/
def seenBefore (cf : Config) (a : Arrival) : List Node :=
  seenbyIn cf a ++ [cf.curAddr, a.msg.nodeFrom, a.msg.nodeTo]

theorem echoSeen_eq (cf : Config) (a : Arrival) : echoSeen cf a.msg a.body =
    addEcho (addEcho (addEcho (seenbyIn cf a) cf.curAddr) a.msg.nodeFrom) a.msg.nodeTo := rfl

theorem lonSearchEcho_echoSeen (cf : Config) (a : Arrival) (p : Node) :
    lonSearchEcho (echoSeen cf a.msg a.body) p = lonSearchEcho (seenBefore cf a) p := by
  have h : seenBefore cf a =
      ((seenbyIn cf a ++ [cf.curAddr]) ++ [a.msg.nodeFrom]) ++ [a.msg.nodeTo] := by
    simp [seenBefore]
  rw [echoSeen_eq, h]
  simp only [lonSearchEcho_addEcho, lonSearchEcho_append]

/-- The nodes of the PATH lines received, the packet's sender and our
address. -/
def pathOut (cf : Config) (a : Arrival) : List Node :=
  addLast (addLast (bossReplaced a.msg.nodeFrom (kludgeToLon cf.curZone a.body.path)) a.pkt.src)
    cf.curAddr

/-- The nodes of an area that get a message: behind the uplinks' place, not
passive, and new to it. -/
def newNodes (area : AreasBBS) (a : Arrival) (seen : List Node) : List Node :=
  (area.nodes.drop (area.uplinks - 1).toNat).filter (wants area.passive a.msg.nodeFrom seen)

/-- They, and our own address, unless it is passive. -/
def recipients (o : TossOptions) (cf : Config) (area : AreasBBS) (a : Arrival)
    (seen : List Node) : List Node :=
  newNodes area a seen ++
    if echoToUs o cf area a.msg && ! lonSearch area.passive cf.curAddr then [cf.curAddr] else []

/-- No rule for SEEN-BY and PATH is configured. -/
structure NoRules (o : TossOptions) : Prop where
  addto : o.addto = []
  deleteseenby : o.deleteseenby = []
  deletepath : o.deletepath = []
  addOtherAka : o.addOtherAka = false
  zonegate : o.zonegate = []

section

variable {o : TossOptions} {cf : Config} {area : AreasBBS} {a : Arrival}

theorem echoRoutes_eq (hr : NoRules o) (hd : Distinct area.nodes) :
    echoRoutes o cf area a.pkt a.msg a.body =
      { seenby := echoSeen cf a.msg a.body ++ newNodes area a (seenBefore cf a)
        path := pathOut cf a
        new := newNodes area a (seenBefore cf a) ++
          if echoToUs o cf area a.msg then [cf.curAddr] else [] } := by
  have hnew : (area.nodes.drop (area.uplinks - 1).toNat).filter
      (wants area.passive a.msg.nodeFrom (echoSeen cf a.msg a.body)) =
      newNodes area a (seenBefore cf a) := by
    refine List.filter_congr ?_
    intro p _
    unfold wants
    rw [lonSearchEcho_echoSeen]
  unfold echoRoutes echoDeleteseenby echoDeletepath
  rw [doSeenby_eq _ _ _ _ _ _ hd, hnew, hr.addto, hr.deleteseenby, hr.deletepath,
    hr.addOtherAka]
  rfl

/-- Of the new nodes none is passive. -/
theorem filter_new (seen : List Node) :
    (newNodes area a seen ++ if echoToUs o cf area a.msg then [cf.curAddr] else []).filter
      (! lonSearch area.passive ·) = recipients o cf area a seen := by
  unfold recipients
  rw [List.filter_append]
  congr 1
  · refine List.filter_eq_self.mpr ?_
    intro p hp
    have h := (List.mem_filter.mp hp).2
    exact ((Bool.and_eq_true _ _).mp h).2
  · cases echoToUs o cf area a.msg with
    | false => rfl
    | true =>
        rw [if_pos rfl, Bool.true_and]
        cases hp : lonSearch area.passive cf.curAddr <;> simp [hp]

/-- No two recipients are the same but for the zone. -/
theorem recipients_distinct (hd : Distinct area.nodes) :
    Distinct (recipients o cf area a (seenBefore cf a)) := by
  refine List.pairwise_append.mpr ⟨?_, ?_, ?_⟩
  · exact (hd.sublist (List.drop_sublist _ _)).sublist List.filter_sublist
  · split
    · exact List.pairwise_singleton _ _
    · exact List.Pairwise.nil
  · intro p hp q hq
    have hw := (List.mem_filter.mp hp).2
    have hseen : lonSearchEcho (seenBefore cf a) p = false := by
      have h := ((Bool.and_eq_true _ _).mp ((Bool.and_eq_true _ _).mp hw).1).1
      simpa using h
    split at hq
    · cases List.mem_singleton.mp hq
      rw [nodeEqEcho_comm]
      refine Bool.eq_false_iff.mpr ?_
      intro h
      rw [lonSearchEcho_iff.mpr ⟨cf.curAddr, by simp [seenBefore], h⟩] at hseen
      cases hseen
    · cases hq

/-! ## What is written -/

/-- The addresses that end up on the lines, and the current zone. -/
structure GoodAddrs (cf : Config) (area : AreasBBS) (a : Arrival) : Prop where
  zone : 0 ≤ cf.curZone
  own : cf.curAddr.IsAddr
  nodeFrom : a.msg.nodeFrom.IsAddr
  nodeTo : a.msg.nodeTo.IsAddr
  pkt : a.pkt.src.IsAddr
  nodes : ∀ n ∈ area.nodes, n.IsAddr
  seenby : ∀ n ∈ kludgeToLon cf.curZone a.body.seenby, n.IsAddr
  path : ∀ n ∈ kludgeToLon cf.curZone a.body.path, n.IsAddr

theorem isAddr_bossReplaced {src : Node} {lon : List Node} (hs : src.IsAddr)
    (hl : ∀ n ∈ lon, n.IsAddr) : ∀ n ∈ bossReplaced src lon, n.IsAddr := by
  unfold bossReplaced
  split
  · next m =>
      split
      · intro n hn
        cases List.mem_singleton.mp hn
        exact hs
      · exact hl
  · exact hl

theorem isAddr_addEcho {lon : List Node} {m : Node} (hl : ∀ n ∈ lon, n.IsAddr) (hm : m.IsAddr) :
    ∀ n ∈ addEcho lon m, n.IsAddr := by
  intro n hn
  rcases mem_addEcho hn with h | h
  · exact hl n h
  · rw [h]
    exact hm

theorem isAddr_addLast {lon : List Node} {m : Node} (hl : ∀ n ∈ lon, n.IsAddr) (hm : m.IsAddr) :
    ∀ n ∈ addLast lon m, n.IsAddr := by
  unfold addLast
  split
  · exact hl
  · intro n hn
    rcases List.mem_append.mp hn with h | h
    · exact hl n h
    · rw [List.mem_singleton.mp h]
      exact hm

theorem isKeyword_seenby : IsKeyword (lit "SEEN-BY:") :=
  ⟨lit "SEEN-BY", rfl, by decide +kernel⟩

theorem isKeyword_path : IsKeyword (soh :: lit "PATH:") :=
  ⟨soh :: lit "PATH", rfl, by decide +kernel⟩

/-- A node on a list is read back from its SEEN-BY lines. -/
theorem mem_kludgeToLon_sorted {zone : Int} {lon : List Node} (hzone : 0 ≤ zone)
    (hl : ∀ n ∈ lon, n.IsAddr) {d4 : Bool} (hb : NoneBehind (kludgeNodes d4 (lonSort lon)))
    {n : Node} (hn : n ∈ lon) (hp : n.point = 0) :
    n.plain zone ∈ kludgeToLon zone (lonToKludgeSorted zone d4 (lit "SEEN-BY:") lon) := by
  have hperm : (lonSort lon).Perm lon := List.perm_insertionSort _ lon
  have h := kludgeToLon_lonToKludge isKeyword_seenby hzone
    (fun n hn => hl n (hperm.mem_iff.mp hn)) hb
  rw [← Repeats.mem_destutter]
  unfold lonToKludgeSorted
  rw [h, Repeats.mem_destutter]
  refine List.mem_map_of_mem (List.mem_filter.mpr ⟨hperm.mem_iff.mpr hn, ?_⟩)
  simp [hp]

/-- Someone on a list stands for every node that is equal but for the zone. -/
theorem mem_plain_of_lonSearchEcho {lon : List Node} {n : Node} (h : lonSearchEcho lon n = true) :
    ∃ m ∈ lon, m.point = n.point ∧ ∀ zone, n.plain zone = m.plain zone := by
  obtain ⟨m, hm, he⟩ := lonSearchEcho_iff.mp h
  exact ⟨m, hm, (nodeEqEcho_iff.mp he).2.2, fun zone => (plain_eq_of_nodeEqEcho zone he).symm⟩

/-- What is written where a message is tossed, or as far as it could be. -/
theorem echoDistribute_written (st : Toss)
    (h : (echoDistribute o a.w a.pkt a.msg a.body area st).1 = .tossed ∨
      (echoDistribute o a.w a.pkt a.msg a.body area st).1 = .failed) :
    ∃ out, out = tossEchomail o st.af.cf a.w a.msg
        (echoBody o st.af.cf (echoRoutes o st.af.cf area a.pkt a.msg a.body) a.body) area.passive
        (echoRoutes o st.af.cf area a.pkt a.msg a.body).new ∧
      (echoDistribute o a.w a.pkt a.msg a.body area st).2.copies = st.copies ++ out.1 ∧
      ((echoDistribute o a.w a.pkt a.msg a.body area st).1 = .tossed → out.2 = true) := by
  refine ⟨_, rfl, ?_⟩
  cases hd : echoDupe o a.w st.af.cf area a.msg a.body st.hist with
  | none =>
      rw [echoDistribute_dupe st hd] at h
      rcases h with h | h <;> cases h
  | some hist =>
      cases hc : echoChecks o st.af.cf area a.msg
          (echoRoutes o st.af.cf area a.pkt a.msg a.body) with
      | some v =>
          rw [echoDistribute_rejected st hd hc] at h
          obtain ⟨h1, h2⟩ := echoChecks_some hc
          rcases h with h | h
          · exact absurd h h1
          · exact absurd h h2
      | none =>
          unfold echoDistribute
          dsimp only
          rw [hd]
          dsimp only
          rw [hc]
          refine ⟨rfl, ?_⟩
          dsimp only
          split
          · next hw => exact fun _ => hw
          · intro hv
            cases hv

/-- What `do_echomail` promises about the copies of one message. -/
structure Distributed (o : TossOptions) (cf : Config) (area : AreasBBS) (a : Arrival)
    (seen : List Node) (seenby path : List Node) (sent : List Copy) : Prop where
  /-- One copy for each recipient, as far as packets can be written. -/
  nodes : sent.map (·.node) = (recipients o cf area a seen).takeWhile a.w.opens
  once : Distinct (sent.map (·.node))
  /-- The recipients, we and those who had seen it are in the SEEN-BY lines. -/
  seenby : ∀ c ∈ sent, ∀ n, n.point = 0 →
    n ∈ recipients o cf area a seen ∨ n = cf.curAddr ∨ n ∈ seenby →
    n.plain cf.curZone ∈ kludgeToLon cf.curZone c.body.seenby
  /-- The PATH lines name the nodes of the path. -/
  path : ∀ c ∈ sent, (kludgeToLon cf.curZone c.body.path).destutter (· ≠ ·) =
    ((kludgeNodes o.echomail4d path).map (Node.plain cf.curZone)).destutter (· ≠ ·)

/-- With EchoMail4D no boss comes right behind one of its points. -/
def LinesOk (o : TossOptions) (cf : Config) (area : AreasBBS) (a : Arrival) : Prop :=
  o.echomail4d = true →
    NoneBehind (lonSort (echoRoutes o cf area a.pkt a.msg a.body).seenby) ∧
      NoneBehind (echoRoutes o cf area a.pkt a.msg a.body).path

theorem noneBehind_of_linesOk {lon : List Node}
    (h : o.echomail4d = true → NoneBehind lon) : NoneBehind (kludgeNodes o.echomail4d lon) := by
  cases h4 : o.echomail4d with
  | false => exact noneBehind_kludgeNodes lon
  | true =>
      have hall : kludgeNodes true lon = lon := List.filter_eq_self.mpr (by simp)
      rw [hall]
      exact h h4

theorem isAddr_seenby (ha : GoodAddrs cf area a) :
    ∀ n ∈ echoSeen cf a.msg a.body ++ newNodes area a (seenBefore cf a), n.IsAddr := by
  intro n hn
  rcases List.mem_append.mp hn with hn | hn
  · rw [echoSeen_eq] at hn
    exact isAddr_addEcho (isAddr_addEcho (isAddr_addEcho
      (isAddr_bossReplaced ha.nodeFrom ha.seenby) ha.own) ha.nodeFrom) ha.nodeTo n hn
  · exact ha.nodes n ((List.drop_sublist _ _).subset (List.mem_of_mem_filter hn))

theorem isAddr_pathOut (ha : GoodAddrs cf area a) : ∀ n ∈ pathOut cf a, n.IsAddr :=
  isAddr_addLast (isAddr_addLast (isAddr_bossReplaced ha.nodeFrom ha.path) ha.pkt) ha.own

/-- The copies of a message that gets through, without rules. -/
theorem distributed_tossEchomail (hr : NoRules o) (hd : Distinct area.nodes)
    (ha : GoodAddrs cf area a) (hl : LinesOk o cf area a) :
    Distributed o cf area a (seenBefore cf a) (seenbyIn cf a) (pathOut cf a)
      (tossEchomail o cf a.w a.msg
        (echoBody o cf (echoRoutes o cf area a.pkt a.msg a.body) a.body) area.passive
        (echoRoutes o cf area a.pkt a.msg a.body).new).1 := by
  have hroutes := @echoRoutes_eq o cf area a hr hd
  unfold LinesOk at hl
  rw [hroutes] at hl ⊢
  have hto : ((tossEchomail o cf a.w a.msg (echoBody o cf
      { seenby := echoSeen cf a.msg a.body ++ newNodes area a (seenBefore cf a)
        path := pathOut cf a
        new := newNodes area a (seenBefore cf a) ++
          if echoToUs o cf area a.msg then [cf.curAddr] else [] } a.body) area.passive
      (newNodes area a (seenBefore cf a) ++
          if echoToUs o cf area a.msg then [cf.curAddr] else [])).1.map (·.node)) =
      (recipients o cf area a (seenBefore cf a)).takeWhile a.w.opens := by
    unfold tossEchomail
    dsimp only
    rw [filter_new, List.map_map]
    exact List.map_id _
  have hbody : ∀ {body : MsgBody} {passive new : List Node},
      ∀ c ∈ (tossEchomail o cf a.w a.msg body passive new).1, c.body = body := by
    intro body passive new c hc
    obtain ⟨n, -, rfl⟩ := List.mem_map.mp hc
    unfold echoCopy
    rw [hr.zonegate]
    rfl
  refine ⟨hto, ?_, ?_, ?_⟩
  · rw [hto]
    exact (recipients_distinct hd).sublist (List.takeWhile_sublist _)
  · intro c hc n hp hn
    rw [hbody c hc]
    have hmem : lonSearchEcho
        (echoSeen cf a.msg a.body ++ newNodes area a (seenBefore cf a)) n = true := by
      rw [lonSearchEcho_append, lonSearchEcho_echoSeen, ← lonSearchEcho_append]
      refine lonSearchEcho_iff.mpr ⟨n, ?_, nodeEqEcho_iff.mpr ⟨rfl, rfl, rfl⟩⟩
      rcases hn with hn | rfl | hn
      · rcases List.mem_append.mp hn with hn | hn
        · exact List.mem_append_right _ hn
        · split at hn
          · cases List.mem_singleton.mp hn
            simp [seenBefore]
          · cases hn
      · simp [seenBefore]
      · exact List.mem_append_left _ (List.mem_append_left _ hn)
    obtain ⟨m, hm, hpt, hpl⟩ := mem_plain_of_lonSearchEcho hmem
    rw [hpl]
    exact mem_kludgeToLon_sorted ha.zone (isAddr_seenby ha)
      (noneBehind_of_linesOk fun h4 => (hl h4).1) hm (hpt.trans hp)
  · intro c hc
    rw [hbody c hc]
    have h := @kludgeToLon_lonToKludge cf.curZone o.echomail4d _ _ isKeyword_path ha.zone
      (isAddr_pathOut ha) (noneBehind_of_linesOk fun h4 => (hl h4).2)
    rw [← h]
    unfold echoBody
    dsimp only
    split
    · next hempty =>
        -- without nodes there may be no line at all
        have hk : kludgeNodes o.echomail4d (pathOut cf a) = [] := by
          have h2 := ((Bool.and_eq_true _ _).mp hempty).2
          simpa [lonToKludge] using h2
        rw [h, hk]
        rfl
    · rfl

end

/-- The area PNT of 2:5020/100, with a point, its boss and two more nodes. -/
def pointArea : AreasBBS :=
  { areasbbsNew with
    area := lit "PNT", zone := 2, passive := [node5020 3]
    nodes := [⟨2, 5020, 9, 1, []⟩, node5020 9, node5020 3, node5020 1] }

def pointAreas : Areafix :=
  { testAreas with areas := [pointArea] }

/-- Its point writes, and the boss is the only one who has seen it. -/
def fromPoint : Arrival :=
  { copyOf 9 100 "\x01PATH: 5020/9\x0D" with
    pkt := { (copyOf 9 100 "").pkt with src := ⟨2, 5020, 9, 1, []⟩ }
    msg := { (copyOf 9 100 "").msg with nodeFrom := ⟨2, 5020, 9, 1, []⟩ }
    body := { (copyOf 9 100 "\x01PATH: 5020/9\x0D").body with
      area := some (lit "AREA:PNT\x0D"), seenby := [lit "SEEN-BY: 5020/9\x0D"] } }

theorem goodAddrs_fromPoint : GoodAddrs testAreas.cf pointArea fromPoint :=
  ⟨by decide, by decide, by decide, by decide, by decide, by decide +kernel, by decide +kernel,
    by decide +kernel⟩

end Fidogate

/-
# `Fidogate.Toss.SeenbyRules` — ftntoss.c: rules for SEEN-BY and PATH

AddToSeenBy, DeleteSeenBy and DeletePath are read from the configuration, any
number of lines each.  What they are meant to do is said of the lists of nodes
before and behind them: `AddedAll` of an AddToSeenBy rule, `DeletedAll` of the
other two.
-/
import Fidogate.Common.NodeLists
import Fidogate.Lib.Removal
import Fidogate.Toss.Seenby

namespace Fidogate

open Bytes

/-! ## Reading the rules -/

/-- `addtoseenby_init`: the lines without nodes are left out. -/
def addtoseenbyInit (zone : Int) (lines : List Str) : List (Str × List Node) :=
  (lines.takeWhile (· ≠ [])).filterMap fun s => do
    let (parea, rest) ← strtokExt true blanks (bufCopy BUFFERSIZE s)
    let (pnodes, _) ← strtokExt true [lf] (← rest)
    some (parea, lonAddString zone pnodes)

/-- `deleteseenby_init` and `deletepath_init`: the nodes of each line. -/
def deleteseenbyInit (zone : Int) (lines : List Str) : List (List Node) :=
  (lines.takeWhile (· ≠ [])).map (lonAddString zone)

/-! ## DeleteSeenBy and DeletePath -/

/-- A node of one of the lines. -/
def onLine (lines : List (List Node)) (n : Node) : Bool := lines.any (lonSearch · n)

/-- The nodes of the lines, and only they, are taken out of the two lists. -/
structure DeletedAll (o : TossOptions) (seenby path : List Node) : Prop where
  seenby : echoDeleteseenby o seenby = seenby.filter (! onLine o.deleteseenby ·)
  path : echoDeletepath o path = some (path.filter (! onLine o.deletepath ·))

/-- The first line is all there is to a list: a node that is on a line of its
own kind stands in the first DeleteSeenBy line as often as in the list, and no
other node of the list stands there. -/
def FirstLineDoes (o : TossOptions) (lines : List (List Node)) (l : List Node) : Prop :=
  ∀ n ∈ l,
    if onLine lines n then
      l.countP (nodeEq · n) ≤ (o.deleteseenby.headD []).countP (nodeEq · n)
    else lonSearch (o.deleteseenby.headD []) n = false

instance (o : TossOptions) (lines : List (List Node)) (l : List Node) :
    Decidable (FirstLineDoes o lines l) :=
  inferInstanceAs (Decidable (∀ n ∈ l, _))

/-- The condition on the configuration and the lists. -/
def DeleteRulesOk (o : TossOptions) (seenby path : List Node) : Prop :=
  FirstLineDoes o o.deleteseenby seenby ∧
    (o.deletepath ≠ [] → o.deleteseenby ≠ [] ∧ FirstLineDoes o o.deletepath path)

theorem lonRemove_eq (l : List Node) (n : Node) :
    lonRemove l n = Removal.removeKey Node.bare l n.bare := by
  unfold lonRemove Removal.removeKey
  congr 1
  funext m
  rw [Bool.eq_iff_iff, nodeEq_iff_bare, decide_eq_true_eq]

theorem foldl_lonRemove (l ln : List Node) :
    ln.foldl lonRemove l = Removal.removeKeys Node.bare l (ln.map Node.bare) := by
  unfold Removal.removeKeys
  rw [List.foldl_map]
  congr 1
  funext l n
  exact lonRemove_eq l n

theorem times_bare (l : List Node) (n : Node) :
    Removal.times Node.bare l n.bare = l.countP (nodeEq · n) := by
  refine List.countP_congr fun m _ => ?_
  rw [decide_eq_true_eq, nodeEq_iff_bare]

theorem count_bare (l : List Node) (n : Node) :
    (l.map Node.bare).count n.bare = l.countP (nodeEq · n) := by
  rw [← times_bare, Removal.times, List.count, List.countP_map]
  refine List.countP_congr fun m _ => ?_
  simp

theorem mem_bare_iff {l : List Node} {n : Node} :
    n.bare ∈ l.map Node.bare ↔ lonSearch l n = true := by
  rw [lonSearch, List.any_eq_true, List.mem_map]
  refine exists_congr fun m => and_congr_right fun _ => ?_
  rw [nodeEq_iff_bare]

/-- The nodes of the first line, taken out one by one, are those of all lines
just under the condition. -/
theorem foldl_lonRemove_eq_filter_iff {o : TossOptions} {lines : List (List Node)}
    {l : List Node} :
    (o.deleteseenby.headD []).foldl lonRemove l = l.filter (! onLine lines ·) ↔
      FirstLineDoes o lines l := by
  have h := @Removal.removeKeys_eq_filter_iff _ _ _ Node.bare (onLine lines) l
    ((o.deleteseenby.headD []).map Node.bare)
  rw [foldl_lonRemove]
  refine h.trans (forall₂_congr fun n _ => ?_)
  rw [times_bare, count_bare, mem_bare_iff, Bool.not_eq_true]
  rfl

/-- A list without lines of its kind is as it was. -/
theorem filter_noLines (l : List Node) : l.filter (! onLine [] ·) = l :=
  List.filter_eq_self.mpr fun _ _ => rfl

theorem echoDeleteseenby_iff {o : TossOptions} {seenby : List Node} :
    echoDeleteseenby o seenby = seenby.filter (! onLine o.deleteseenby ·) ↔
      FirstLineDoes o o.deleteseenby seenby := by
  rw [← foldl_lonRemove_eq_filter_iff]
  unfold echoDeleteseenby doDeleteseenby
  cases hd : o.deleteseenby with
  | nil => exact Iff.rfl
  | cons ln lns => exact Iff.rfl

theorem echoDeletepath_iff {o : TossOptions} {path : List Node} :
    echoDeletepath o path = some (path.filter (! onLine o.deletepath ·)) ↔
      (o.deletepath ≠ [] → o.deleteseenby ≠ [] ∧ FirstLineDoes o o.deletepath path) := by
  unfold echoDeletepath doDeletepath
  cases hp : o.deletepath with
  | nil =>
      rw [filter_noLines]
      exact ⟨fun _ h => absurd rfl h, fun _ => rfl⟩
  | cons ln lns =>
      rw [← foldl_lonRemove_eq_filter_iff]
      cases hd : o.deleteseenby with
      | nil =>
          refine ⟨fun h => ?_, fun h => absurd rfl (h (List.cons_ne_nil _ _)).1⟩
          cases h
      | cons ln' lns' =>
          refine ⟨fun h _ => ⟨List.cons_ne_nil _ _, Option.some.inj h⟩, fun h => ?_⟩
          exact congrArg some (h (List.cons_ne_nil _ _)).2

/-- The rules are obeyed just under the condition. -/
theorem deletedAll_iff (o : TossOptions) (seenby path : List Node) :
    DeletedAll o seenby path ↔ DeleteRulesOk o seenby path := by
  unfold DeleteRulesOk
  rw [← echoDeleteseenby_iff, ← echoDeletepath_iff]
  exact ⟨fun h => ⟨h.seenby, h.path⟩, fun h => ⟨h.1, h.2⟩⟩

/-- The second of two DeleteSeenBy lines is not looked at. -/
theorem deleteseenby_second : ¬ ∀ (o : TossOptions) (zone : Int) (sl pl : List Str),
    o.deleteseenby = deleteseenbyInit zone sl → o.deletepath = deleteseenbyInit zone pl →
    ∀ seenby path, DeletedAll o seenby path := by
  intro h
  have hs := (h
    { plainOptions with deleteseenby := deleteseenbyInit 2 [lit "50/128", lit "50/129"] }
    2 [lit "50/128", lit "50/129"] [] rfl rfl [⟨2, 50, 129, 0, []⟩] []).seenby
  revert hs
  decide +kernel

/-! ## AddToSeenBy -/

/-- SEEN-BY in front of the lookup of AddToSeenBy, and the nodes that are new
to it. -/
def echoGrown (cf : Config) (area : AreasBBS) (a : Arrival) : List Node × List Node :=
  doSeenby (some area.passive) area.uplinks a.msg.nodeFrom 1 area.nodes (echoSeen cf a.msg a.body)

/-- Our own addresses in the current zone. -/
def echoAkas (cf : Config) : List Node :=
  ((cf.main :: cf.akas).map (·.addr)).filter (·.zone == cf.curZone)

/-- What becomes of SEEN-BY behind the lookup of AddToSeenBy. -/
def echoFinished (o : TossOptions) (cf : Config) (seenby : List Node) : List Node :=
  echoDeleteseenby o (if o.addOtherAka then (echoAkas cf).foldl addEcho seenby else seenby)

/-- The new nodes that get a copy: not the passive ones, and as far as packets
can be written. -/
def copied (area : AreasBBS) (a : Arrival) (new : List Node) : List Node :=
  (new.filter (! lonSearch area.passive ·)).takeWhile a.w.opens

/-- The nodes that get a copy of a message. -/
def echoCopyNodes (o : TossOptions) (cf : Config) (area : AreasBBS) (a : Arrival) : List Node :=
  copied area a (echoRoutes o cf area a.pkt a.msg a.body).new

/-- The SEEN-BY nodes of a copy: a zone gate has a list of its own. -/
def copySeenby (o : TossOptions) (seenby : List Node) (n : Node) : List Node :=
  match o.zonegate.find? fun z => nodeEq n z.1 with
  | some z => z.2
  | none => seenby

/-- A node is on the SEEN-BY lines that are written of a list. -/
def OnLines (o : TossOptions) (seenby : List Node) (n : Node) : Prop :=
  lonSearchEcho (kludgeNodes o.echomail4d seenby) n = true

instance (o : TossOptions) (seenby : List Node) (n : Node) : Decidable (OnLines o seenby n) :=
  inferInstanceAs (Decidable (_ = true))

/-- The configuration without a rule. -/
def TossOptions.without (o : TossOptions) (r : Str × List Node) : TossOptions :=
  { o with addto := o.addto.erase r }

/-- What an AddToSeenBy rule is meant to do to the copies of a message. -/
structure AddedAll (o : TossOptions) (r : Str × List Node) (cf : Config) (area : AreasBBS)
    (a : Arrival) : Prop where
  /-- The nodes of the rule, but for the sender, are on the lines of each copy. -/
  added : ∀ n ∈ echoCopyNodes o cf area a, ∀ m ∈ r.2, nodeEq a.msg.nodeFrom m = false →
    OnLines o (copySeenby o (echoRoutes o cf area a.pkt a.msg a.body).seenby n) m
  /-- They get no copy that they would not get without it. -/
  copies : ∀ n ∈ echoCopyNodes o cf area a, lonSearch r.2 n = true →
    n ∈ echoCopyNodes (o.without r) cf area a
  /-- The other nodes of SEEN-BY are the ones without it. -/
  others : ∀ n ∈ echoCopyNodes o cf area a,
    (copySeenby o (echoRoutes o cf area a.pkt a.msg a.body).seenby n).filter
        (! lonSearchEcho r.2 ·) =
      (copySeenby o (echoRoutes (o.without r) cf area a.pkt a.msg a.body).seenby n).filter
        (! lonSearchEcho r.2 ·)

/-- There is nothing to add: whoever gets a copy, the nodes of the rule have
seen the message already. -/
def NothingToAdd (o : TossOptions) (r : Str × List Node) (cf : Config) (area : AreasBBS)
    (a : Arrival) : Prop :=
  ∀ n ∈ copied area a
      ((echoGrown cf area a).2 ++ if echoToUs o cf area a.msg then [cf.curAddr] else []),
    ∀ m ∈ r.2, nodeEq a.msg.nodeFrom m = false →
      OnLines o (copySeenby o (echoFinished o cf (echoGrown cf area a).1) n) m

section

variable {o : TossOptions} {cf : Config} {area : AreasBBS} {a : Arrival}

/-- Without a list of passive nodes `do_seenby` adds none. -/
theorem doSeenby_none (cup : Int) (src : Node) : ∀ (j : Int) (ps seenby : List Node),
    doSeenby none cup src j ps seenby = (seenby, [])
  | _, [], _ => rfl
  | j, p :: ps, seenby => by
      rw [doSeenby, Option.any_none, Bool.and_false, if_neg Bool.false_ne_true]
      exact doSeenby_none cup src (j + 1) ps seenby

/-- No AddToSeenBy rule makes a difference to SEEN-BY. -/
theorem echoRoutes_seenby : (echoRoutes o cf area a.pkt a.msg a.body).seenby =
    echoFinished o cf (echoGrown cf area a).1 := by
  unfold echoRoutes echoFinished echoGrown echoAkas
  dsimp only
  cases o.addto.find? fun r => wildmatch area.area r.1 true with
  | none => rfl
  | some r =>
      dsimp only
      rw [doSeenby_none]

theorem addedAll_iff (r : Str × List Node) :
    AddedAll o r cf area a ↔ NothingToAdd o r cf area a := by
  refine ⟨fun h n hn m hm hs => ?_, fun h => ⟨fun n hn m hm hs => ?_, fun n hn _ => hn, ?_⟩⟩
  · have h := h.added n hn m hm hs
    rwa [echoRoutes_seenby] at h
  · rw [echoRoutes_seenby]
    exact h n hn m hm hs
  · intro n _
    rw [echoRoutes_seenby, echoRoutes_seenby]
    rfl

/-- The SEEN-BY lines of a copy. -/
theorem echoCopy_seenby (r : Routes) (n : Node) :
    (echoCopy o cf a.msg (echoBody o cf r a.body) n).body.seenby =
      lonToKludgeSorted cf.curZone o.echomail4d (lit "SEEN-BY:") (copySeenby o r.seenby n) := by
  unfold echoCopy copySeenby
  dsimp only
  cases o.zonegate.find? fun z => nodeEq n z.1 with
  | none => rfl
  | some z => rfl

end

/-- The area TEST has its downlinks and a rule for 2:24/24. -/
def addOptions : TossOptions :=
  { plainOptions with addto := addtoseenbyInit 2 [lit "TEST 2:24/24"] }

def testArea : AreasBBS :=
  { areasbbsNew with area := lit "TEST", zone := 2, nodes := [node5020 9, node5020 1] }

end Fidogate

/-
# `Fidogate.Areafix.UplinkView` — what the uplink makes of the requests

The uplink of a passthru area subscribes and unsubscribes us as the requests
of the queue tell it (`replay`).  `Agrees` says that the state of the entry is
what the uplink thinks; a command that meets its condition keeps it
(`linkStep_follows`), and so does every run of such commands.
-/
import Fidogate.Areafix.Entries

namespace Fidogate

open Bytes Sweep

/-! ## The state of an area -/

/-- The letters that say how an area stands with its uplink. -/
def stateLetters : Str := lit "SWFUP"

/-- Of the letters, the state has this one only. -/
def Only (s : Option Str) (c : UInt8) : Prop :=
  ∀ d ∈ stateLetters, areasbbsIsstate s d = (d == c)

instance (s : Option Str) (c : UInt8) : Decidable (Only s c) :=
  List.decidableBAll (fun d => areasbbsIsstate s d = (d == c)) stateLetters

/-- The state has exactly one of the letters. -/
def OneLetter (s : Option Str) : Prop := ∃ c ∈ stateLetters, Only s c

instance (s : Option Str) : Decidable (OneLetter s) :=
  List.decidableBEx (Only s) stateLetters

/-- The state says that we are subscribed at the uplink. -/
def subscribed (p : AreasBBS) : Bool :=
  areasbbsIsstate p.state 83 || areasbbsIsstate p.state 87 || areasbbsIsstate p.state 70

theorem isstate_chstate {s : Option Str} {stold : Str} {stnew : UInt8}
    (h : areasbbsIsstate s stnew = false) (c : UInt8) :
    areasbbsIsstate (areasbbsChstate s stold stnew) c =
      (c == stnew || areasbbsIsstate s c && ! stold.contains c) := by
  unfold areasbbsIsstate areasbbsChstate at *
  cases hs : s.getD [] with
  | nil => rw [Option.getD_some, List.contains_cons, List.contains_nil, Bool.false_and]
  | cons b bs =>
      rw [hs] at h
      dsimp only
      rw [if_neg (by rw [h]; exact Bool.false_ne_true), Option.getD_some, Bool.eq_iff_iff]
      simp only [List.contains_iff_mem, List.mem_append, List.mem_filter, List.mem_singleton,
        Bool.or_eq_true, Bool.and_eq_true, beq_iff_eq]
      exact or_comm

/-- One of the old letters is replaced by the new one. -/
theorem Only.chstate {s : Option Str} {c stnew : UInt8} {stold : Str} (h : Only s c)
    (hc : stold.contains c = true) (hnew : stnew ∈ stateLetters) (hne : stnew ≠ c) :
    Only (areasbbsChstate s stold stnew) stnew := by
  intro d hd
  have hno : areasbbsIsstate s stnew = false := (h stnew hnew).trans (beq_eq_false_iff_ne.mpr hne)
  rw [isstate_chstate hno, h d hd]
  cases hdc : d == c with
  | false => rw [Bool.false_and, Bool.or_false]
  | true =>
      rw [beq_iff_eq.mp hdc, hc]
      rw [Bool.not_true, Bool.and_false, Bool.or_false]

/-- With one letter, the uplink has to be asked again where we are not
subscribed. -/
theorem subAsks_of_oneLetter {p : AreasBBS} (h : OneLetter p.state) :
    subAsks p = ! subscribed p := by
  obtain ⟨c, hc, h⟩ := h
  unfold subAsks subscribed
  rw [h 85 (by decide), h 80 (by decide), h 83 (by decide), h 87 (by decide), h 70 (by decide)]
  have key : (stateLetters.all fun c => ((85 : UInt8) == c || (80 : UInt8) == c) ==
      ! ((83 : UInt8) == c || (87 : UInt8) == c || (70 : UInt8) == c)) = true := by decide
  exact beq_iff_eq.mp (List.all_eq_true.mp key c hc)

/-! ## The view of the uplink -/

/-- The uplink `u` gets the request, and it is about the area. -/
def meantFor (u : Node) (N : Str) (r : UplReq) : Bool :=
  r.area == N && nodeEq r.link u && (r.point || u.point == 0)

/-- Whether the uplink has us subscribed after the requests; `none` where one
of them asks for what is so already. -/
def replay (u : Node) (N : Str) : Bool → List UplReq → Option Bool
  | v, [] => some v
  | v, r :: rs =>
      if meantFor u N r then if r.add == v then none else replay u N r.add rs
      else replay u N v rs

section

variable {u : Node} {N : Str}

theorem replay_append {rs rs' : List UplReq} : ∀ {v : Bool},
    replay u N v (rs ++ rs') = (replay u N v rs).bind (replay u N · rs') := by
  induction rs with
  | nil => exact rfl
  | cons r rs ih =>
      intro v
      rw [List.cons_append, replay, replay]
      split
      · split
        · rfl
        · exact ih
      · exact ih

/-- Only the requests for the area count. -/
theorem replay_keyed : ∀ {rs : List UplReq} {v : Bool},
    replay u N v (keyed UplReq.area N rs) = replay u N v rs
  | [], _ => rfl
  | r :: rs, v => by
      rw [keyed_cons, replay]
      split
      · rw [replay]
        split
        · split
          · rfl
          · exact replay_keyed
        · exact replay_keyed
      · next hr =>
          have hno : meantFor u N r = false := by
            rw [meantFor, beq_eq_false_iff_ne.mpr hr, Bool.false_and, Bool.false_and]
          rw [hno, if_neg Bool.false_ne_true]
          exact replay_keyed

end

/-- The entry of a passthru area whose state is the view of the uplink. -/
structure Agrees (u : Node) (v : Bool) (p : AreasBBS) : Prop where
  passthru : p.passthru = true
  uplink : p.nodes.head? = some u
  letter : OneLetter p.state
  view : subscribed p = v

/-- What one command makes of the entry, and what the uplink makes of the
requests: it agrees again, and it is unsubscribed from only where nobody else
is left. -/
structure EntryFollows (u : Node) (N : Str) (v : Bool) (qs : List AreasBBS) (rs : List UplReq)
    (v' : Bool) : Prop where
  entry : ∃ q, qs = [q] ∧ Agrees u v' q
  view : replay u N v rs = some v'
  last : ∀ r ∈ rs, r.add = false → ∀ q ∈ qs, ∀ n ∈ q.nodes, nodeEq n u = true

section

variable {t : Tables} {w : World} {cf : Config} {node u : Node} {N area : Str} {v : Bool}
  {p : AreasBBS}

theorem EntryFollows.keep (h : Agrees u v p) : EntryFollows u N v [p] [] v :=
  ⟨⟨p, rfl, h⟩, rfl, fun r hr => by cases hr⟩

/-- Nothing is queued, and the state stays as it is. -/
theorem EntryFollows.quiet {q : AreasBBS} (h : Agrees u v p) (hpass : q.passthru = p.passthru)
    (hnodes : q.nodes.head? = p.nodes.head?) (hstate : q.state = p.state) :
    EntryFollows u N v [q] [] v := by
  refine EntryFollows.keep ⟨hpass.trans h.passthru, hnodes.trans h.uplink, ?_, ?_⟩
  · rw [hstate]
    exact h.letter
  · unfold subscribed
    rw [hstate]
    exact h.view

/-- A request that changes the view, with the state that goes with it. -/
theorem EntryFollows.asked {q : AreasBBS} {r : UplReq} {c : UInt8} (hpass : q.passthru = true)
    (hnodes : q.nodes.head? = some u) (hc : c ∈ stateLetters) (hstate : Only q.state c)
    (hview : subscribed q = r.add) (hmeant : meantFor u N r = true) (hv : v = ! r.add)
    (hlast : r.add = false → ∀ n ∈ q.nodes, nodeEq n u = true) :
    EntryFollows u N v [q] [r] r.add := by
  refine ⟨⟨q, rfl, hpass, hnodes, ⟨c, hc, hstate⟩, hview⟩, ?_, ?_⟩
  · have hne : (r.add == v) = false := by
      rw [hv]
      cases r.add <;> rfl
    rw [replay, if_pos hmeant, hne, if_neg Bool.false_ne_true, replay]
  · intro r' hr' hadd q' hq'
    cases List.mem_singleton.mp hr'
    cases List.mem_singleton.mp hq'
    exact hlast hadd

theorem meantFor_uplReq {a : AreaUplink} (ha : uplinksLineGet t.uplinks t.areafix u = some a)
    (hN : p.name = N) (add : Bool) : meantFor u N (uplReq t cf a add p) = true := by
  have heq := List.find?_some ha
  simp only [Bool.and_eq_true] at heq
  unfold meantFor uplReq
  dsimp only
  rw [heq.2, show strUpper p.area = N from hN, beq_self_eq_true]
  rfl

theorem headD_of_agrees (h : Agrees u v p) : p.nodes.headD nodeInvalid = u := by
  rw [List.headD_eq_head?_getD, h.uplink, Option.getD_some]

/-- The list starts with the uplink, and so it does without another node. -/
theorem lonRemove_of_agrees (h : Agrees u v p) (hu : nodeEq u node = false) :
    ∃ ns, p.nodes = u :: ns ∧ lonRemove p.nodes node = u :: lonRemove ns node := by
  have huplink := h.uplink
  cases hn : p.nodes with
  | nil =>
      rw [hn] at huplink
      cases huplink
  | cons a ns =>
      rw [hn] at huplink
      cases huplink
      exact ⟨ns, rfl, lonRemove_cons hu ns⟩

/-- Only the uplink is left where one of two nodes goes. -/
theorem uplink_only {q : AreasBBS} (hq : q.nodes = [u]) : ∀ n ∈ q.nodes, nodeEq n u = true := by
  intro n hn
  rw [hq] at hn
  rw [List.mem_singleton.mp hn, nodeEq]
  simp

theorem subscribed_only {q : AreasBBS} {c : UInt8} (h : Only q.state c) :
    subscribed q = (c == 83 || c == 87 || c == 70) := by
  unfold subscribed
  rw [h 83 (by decide), h 87 (by decide), h 70 (by decide)]
  simp only [BEq.comm (a := c)]

/-! ### UNSUBSCRIBE and PASSIVE -/

theorem old_letter (h : OneLetter p.state) (hs : subscribed p = true) :
    ∃ c, Only p.state c ∧ (lit "SWF").contains c = true ∧ (lit "WFS").contains c = true ∧
      c ≠ 85 ∧ c ≠ 80 := by
  obtain ⟨c, hc, h⟩ := h
  rw [subscribed_only h] at hs
  have key : (stateLetters.all fun c => ! (c == 83 || c == 87 || c == 70) ||
      (lit "SWF").contains c && (lit "WFS").contains c && c != 85 && c != 80) = true := by decide
  have hkey := List.all_eq_true.mp key c hc
  rw [hs, Bool.not_true, Bool.false_or] at hkey
  simp only [Bool.and_eq_true, bne_iff_ne, and_assoc] at hkey
  exact ⟨c, h, hkey⟩

/-- Without the node, the uplink alone is left of two. -/
theorem lonRemove_pair (h : Agrees u v p) (hu : nodeEq u node = false)
    (hnode : lonSearch p.nodes node = true) (hlen : p.nodes.length = 2) :
    lonRemove p.nodes node = [u] := by
  obtain ⟨ns, hnodes, hremove⟩ := lonRemove_of_agrees h hu
  have hone := length_lonRemove hnode
  rw [hlen, hremove, List.length_cons] at hone
  rw [hremove, List.eq_nil_of_length_eq_zero (Nat.succ.inj hone)]

theorem unsubEntry_follows (h : Agrees u v p) (hN : p.name = N) (hu : nodeEq u node = false)
    {a : AreaUplink} (ha : uplinksLineGet t.uplinks t.areafix u = some a)
    (hok : wildmatch p.area area true = true → lonSearch p.nodes node = true →
      p.nodes.length = 2 → subscribed p = true) :
    ∃ v', EntryFollows u N v (unsubEntry t cf node area p).1 (unsubEntry t cf node area p).2 v' := by
  obtain ⟨ns, hnodes, hremove⟩ := lonRemove_of_agrees h hu
  unfold unsubEntry
  split
  · next hmatch =>
      split
      · next hempty =>
          rw [hnodes] at hempty
          cases hempty
      · split
        · next hnode =>
            unfold unsubArea unsubReqs
            dsimp only
            rw [hremove]
            cases hrest : lonRemove ns node with
            | cons n ns' => exact ⟨v, EntryFollows.quiet h rfl (by rw [h.uplink]; rfl) rfl⟩
            | nil =>
                have hlen : p.nodes.length = 2 := by
                  have hone := length_lonRemove hnode
                  have hpos : 0 < p.nodes.length := by
                    rw [hnodes]
                    exact Nat.succ_pos _
                  rw [hremove, hrest, List.length_singleton] at hone
                  omega
                have hs := hok hmatch hnode hlen
                obtain ⟨c, honly, hold, -, hne, -⟩ := old_letter h.letter hs
                have hstate := honly.chstate hold (show 85 ∈ stateLetters by decide) hne.symm
                dsimp only
                rw [h.passthru, if_pos rfl, if_pos rfl, ha]
                exact ⟨false, EntryFollows.asked (r := uplReq t cf a false p) rfl rfl
                  (show 85 ∈ stateLetters by decide) hstate
                  (subscribed_only (c := 85) hstate) (meantFor_uplReq ha hN false)
                  (h.view.symm.trans hs) fun _ => uplink_only rfl⟩
        · exact ⟨v, EntryFollows.keep h⟩
  · exact ⟨v, EntryFollows.keep h⟩

theorem passiveEntry_follows (h : Agrees u v p) (hN : p.name = N) (hu : nodeEq u node = false)
    {a : AreaUplink} (ha : uplinksLineGet t.uplinks t.areafix u = some a)
    (hok : passiveMeans node area p = true → p.nodes.length ≤ 2 → subscribed p = true) :
    ∃ v', EntryFollows u N v (alone (passiveEntry t w cf node area) p).1
      (alone (passiveEntry t w cf node area) p).2 v' := by
  obtain ⟨ns, hnodes, hremove⟩ := lonRemove_of_agrees h hu
  unfold alone passiveEntry
  split
  · next hmeans =>
      split
      · next hlen =>
          have hs := hok hmeans hlen
          have hm := hmeans
          simp only [passiveMeans, Bool.and_eq_true, decide_eq_true_eq] at hm
          have hpair := lonRemove_pair h hu hm.1.1.2 (Nat.le_antisymm hlen hm.1.2)
          obtain ⟨c, honly, -, hold, -, hne⟩ := old_letter h.letter hs
          have hstate := honly.chstate hold (show 80 ∈ stateLetters by decide) hne.symm
          have hletter : (areasbbsIsstate p.state 87 || areasbbsIsstate p.state 70 ||
              areasbbsIsstate p.state 83) = true := by
            rw [Bool.or_comm, ← Bool.or_assoc]
            exact hs
          have hq : (passiveMove node p (passiveLast w p)).state =
              areasbbsChstate p.state (lit "WFS") 80 := if_pos hletter
          rw [headD_of_agrees h, ha]
          rw [← hq] at hstate
          exact ⟨false, EntryFollows.asked (r := uplReq t cf a false p) h.passthru
            (congrArg List.head? hpair) (show 80 ∈ stateLetters by decide) hstate
            (subscribed_only hstate) (meantFor_uplReq ha hN false)
            (h.view.symm.trans hs) fun _ => uplink_only hpair⟩
      · refine ⟨v, EntryFollows.quiet h rfl ?_ rfl⟩
        show (lonRemove p.nodes node).head? = _
        rw [hremove, h.uplink]
        rfl
  · exact ⟨v, EntryFollows.keep h⟩

/-! ### ACTIVE and SUBSCRIBE -/

theorem head?_append_node (h : Agrees u v p) : (p.nodes ++ [node]).head? = some u := by
  rw [List.head?_append, h.uplink, Option.some_or]

theorem activeEntry_follows (h : Agrees u v p) (hN : p.name = N)
    {a : AreaUplink} (ha : uplinksLineGet t.uplinks t.areafix u = some a)
    (hok : activeMeans node area p = true → activeAsks node p = true →
      areasbbsIsstate p.state 80 = true) :
    ∃ v', EntryFollows u N v (alone (activeEntry t cf node area) p).1
      (alone (activeEntry t cf node area) p).2 v' := by
  have hhead : (p.nodes ++ [node]).head? = p.nodes.head? := by
    rw [head?_append_node h, h.uplink]
  unfold alone activeEntry
  split
  · next hmeans =>
      split
      · next hasks =>
          have hp := hok hmeans hasks
          obtain ⟨c, hc, honly⟩ := h.letter
          have hletter : c = 80 := by
            rw [honly 80 (by decide)] at hp
            exact (beq_iff_eq.mp hp).symm
          cases hletter
          have hstate := honly.chstate (show (lit "P").contains 80 = true by decide)
            (show 87 ∈ stateLetters by decide) (by decide)
          have hq : (activeMove node p (activeFirst p)).state =
              areasbbsChstate p.state (lit "P") 87 :=
            if_pos (by rw [hp, Bool.true_or])
          have hv : v = false := h.view.symm.trans (subscribed_only honly)
          rw [headD_of_agrees h, ha]
          rw [← hq] at hstate
          exact ⟨true, EntryFollows.asked (r := uplReq t cf a true p) h.passthru
            (head?_append_node h) (show 87 ∈ stateLetters by decide) hstate
            (subscribed_only hstate) (meantFor_uplReq ha hN true) hv
            fun hadd => by cases hadd⟩
      · exact ⟨v, EntryFollows.quiet h rfl hhead rfl⟩
  · exact ⟨v, EntryFollows.keep h⟩

/-- What SUBSCRIBE must not find. -/
def SubSafe (t : Tables) (u : Node) (auth : Auth) (node : Node) (p : AreasBBS) : Prop :=
  ¬ DeadZone t auth node p ∧ (subAdds auth node p = true → subAsks p = true → u.point = 0)

instance (t : Tables) (u : Node) (auth : Auth) (node : Node) (p : AreasBBS) :
    Decidable (SubSafe t u auth node p) := inferInstanceAs (Decidable (_ ∧ _))

/-- The node is linked now, so it is neither added again nor is the area dead. -/
theorem SubSafe.linked {auth : Auth} {q : AreasBBS} (hnode : lonSearch q.nodes node = true)
    (hasks : subAdds auth node q = true → subAsks q = true → u.point = 0) :
    SubSafe t u auth node q := by
  refine ⟨?_, hasks⟩
  rintro ⟨-, -, -, hno, -⟩
  rw [hnode] at hno
  cases hno

theorem lonSearch_added (l : List Node) : lonSearch (l ++ [node]) node = true := by
  rw [lonSearch_append, lonSearch_singleton, Bool.or_true]

theorem subOutcome_follows {st : Areafix} (h : Agrees u v p) (hN : p.name = N)
    (hsafe : wildmatch p.area (bufCopy BUFSIZ area) true = true → SubSafe t u st.auth st.node p)
    {qs : List AreasBBS} {rs : List UplReq} (ho : SubOutcome t w st area p qs rs) :
    ∃ v', EntryFollows u N v qs rs v' ∧ (∀ r ∈ rs, r.add = true) ∧
      (SubSafe t u st.auth st.node p → ∀ q ∈ qs, SubSafe t u st.auth st.node q) := by
  have hno : ∀ r ∈ ([] : List UplReq), r.add = true := fun r hr => by cases hr
  have hhead : (p.nodes ++ [st.node]).head? = p.nodes.head? := by
    rw [head?_append_node h, h.uplink]
  cases ho with
  | keep => exact ⟨v, EntryFollows.keep h, hno, fun hs q hq => List.mem_singleton.mp hq ▸ hs⟩
  | activate _ =>
      refine ⟨v, EntryFollows.quiet h rfl rfl rfl, hno, ?_⟩
      intro hs q hq
      rw [List.mem_singleton.mp hq]
      exact hs
  | dead hmatch hdead =>
      rcases hdead with hempty | hdead
      · have huplink := h.uplink
        rw [hempty] at huplink
        cases huplink
      · exact absurd hdead (hsafe hmatch).1
  | add hadds hstays =>
      refine ⟨v, EntryFollows.quiet h rfl hhead rfl, hno, ?_⟩
      intro hs q hq
      rw [List.mem_singleton.mp hq]
      exact SubSafe.linked (lonSearch_added p.nodes) fun _ hasks => hs.2 hadds hasks
  | request b name hmatch hadds hasks =>
      have hs : subscribed p = false := by
        have h := subAsks_of_oneLetter h.letter
        rw [hasks] at h
        exact Bool.not_eq_true' _ ▸ h.symm
      obtain ⟨c, hc, honly⟩ := h.letter
      have hold : (lit "UP").contains c = true ∧ 87 ≠ c := by
        rw [subscribed_only honly] at hs
        have key : (stateLetters.all fun c => c == 83 || c == 87 || c == 70 ||
            (lit "UP").contains c && 87 != c) = true := by decide
        have hkey := List.all_eq_true.mp key c hc
        rw [hs, Bool.false_or] at hkey
        simpa only [Bool.and_eq_true, bne_iff_ne] using hkey
      have hstate := honly.chstate hold.1 (show 87 ∈ stateLetters by decide) hold.2
      have hmeant : meantFor u N (subReq name b p) = true := by
        unfold meantFor subReq
        dsimp only
        rw [headD_of_agrees h, (hsafe hmatch).2 hadds hasks, show strUpper p.area = N from hN,
          nodeEq]
        simp
      have hsub := subscribed_only (q := subWaiting w st.node p) (c := 87) hstate
      refine ⟨true, EntryFollows.asked (r := subReq name b p) h.passthru (head?_append_node h)
        (show 87 ∈ stateLetters by decide) hstate hsub hmeant (h.view.symm.trans hs)
        (fun hadd => by cases hadd), ?_, ?_⟩
      · intro r hr
        rw [List.mem_singleton.mp hr]
        rfl
      · intro _ q hq
        rw [List.mem_singleton.mp hq]
        refine SubSafe.linked (lonSearch_added p.nodes) ?_
        intro _ hasks
        rw [subAsks_of_oneLetter ⟨87, by decide, hstate⟩, hsub] at hasks
        cases hasks

end

/-! ## A command -/

/-- The commands that link a node to areas. -/
inductive LinkCmd where
  | sub | unsub | passive | active
  deriving DecidableEq, Repr

/-- A command: the node it comes from, with its privileges and the limit
counted for it, and the configuration it finds. -/
structure LinkEvent where
  world : World
  node : Node
  auth : Auth
  limG : Int
  cf : Config
  cmd : LinkCmd
  arg : Str

/-- The state the command is carried out in. -/
def LinkEvent.arrive (e : LinkEvent) (st : Areafix) : Areafix :=
  { st with auth := e.auth, node := e.node, limG := e.limG, cf := e.cf }

/-- The command, as `areafix_do_cmd` calls it. -/
def linkStep (t : Tables) (st : Areafix) (e : LinkEvent) : Areafix :=
  match e.cmd with
  | .sub => (cmdSub t e.world 2 e.arg true (e.arrive st)).2
  | .unsub => (cmdUnsub t e.arg (e.arrive st)).2
  | .passive => (cmdPassive t e.world e.arg (e.arrive st)).2
  | .active => (cmdActive t e.arg (e.arrive st)).2

/-- The entries in front of the area. -/
def before (N : Str) (areas : List AreasBBS) : List AreasBBS :=
  areas.takeWhile fun p => p.name ≠ N

/-- The condition on a command, by the entry of the area as it finds it. -/
def LinkOk (t : Tables) (u : Node) (N : Str) (st : Areafix) (e : LinkEvent) : Prop :=
  nodeEq u e.node = false ∧ (e.auth.authorized = true → ∀ p ∈ keyed AreasBBS.name N st.areas,
    match e.cmd with
    | .sub => wildmatch p.area (bufCopy BUFSIZ e.arg) true = true ∨ e.auth.fwd = true →
        SubSafe t u e.auth e.node p
    | .unsub => wildmatch p.area e.arg true = true → lonSearch p.nodes e.node = true →
        p.nodes.length = 2 → subscribed p = true
    | .passive => (before N st.areas).all (! passiveStops t e.node e.arg ·) = true →
        passiveMeans e.node e.arg p = true → p.nodes.length ≤ 2 → subscribed p = true
    | .active => (before N st.areas).all (! activeStops t e.node e.arg ·) = true →
        activeMeans e.node e.arg p = true → activeAsks e.node p = true →
          areasbbsIsstate p.state 80 = true)

instance decLinkOk (t : Tables) (u : Node) (N : Str) (st : Areafix) :
    ∀ e : LinkEvent, Decidable (LinkOk t u N st e)
  | ⟨_, node, auth, _, _, .sub, arg⟩ => inferInstanceAs (Decidable (_ ∧ (_ →
      ∀ p ∈ keyed AreasBBS.name N st.areas,
        wildmatch p.area (bufCopy BUFSIZ arg) true = true ∨ auth.fwd = true →
          SubSafe t u auth node p)))
  | ⟨_, node, _, _, _, .unsub, arg⟩ => inferInstanceAs (Decidable (_ ∧ (_ →
      ∀ p ∈ keyed AreasBBS.name N st.areas, wildmatch p.area arg true = true →
        lonSearch p.nodes node = true → p.nodes.length = 2 → subscribed p = true)))
  | ⟨_, node, _, _, _, .passive, arg⟩ => inferInstanceAs (Decidable (_ ∧ (_ →
      ∀ p ∈ keyed AreasBBS.name N st.areas,
        (before N st.areas).all (! passiveStops t node arg ·) = true →
          passiveMeans node arg p = true → p.nodes.length ≤ 2 → subscribed p = true)))
  | ⟨_, node, _, _, _, .active, arg⟩ => inferInstanceAs (Decidable (_ ∧ (_ →
      ∀ p ∈ keyed AreasBBS.name N st.areas,
        (before N st.areas).all (! activeStops t node arg ·) = true →
          activeMeans node arg p = true → activeAsks node p = true →
            areasbbsIsstate p.state 80 = true)))

/-- The only entry of the area agrees with the uplink. -/
def Shown (u : Node) (N : Str) (v : Bool) (areas : List AreasBBS) : Prop :=
  ∃ p, keyed AreasBBS.name N areas = [p] ∧ Agrees u v p

/-- What a command queues for the area, and what the uplink makes of it. -/
structure Follows (u : Node) (N : Str) (v : Bool) (st st' : Areafix) (v' : Bool)
    (reqs : List UplReq) : Prop where
  queued : Queued st.upl st'.upl reqs
  shown : Shown u N v' st'.areas
  view : replay u N v reqs = some v'
  last : ∀ r ∈ reqs, r.area = N → r.add = false →
    ∀ p ∈ keyed AreasBBS.name N st'.areas, ∀ n ∈ p.nodes, nodeEq n u = true

/-- After every command of a run, the area agrees with the uplink. -/
def Consistent (t : Tables) (u : Node) (N : Str) : Bool → Areafix → List LinkEvent → Prop
  | _, _, [] => True
  | v, st, e :: es => ∃ v' reqs, Follows u N v st (linkStep t st e) v' reqs ∧
      Consistent t u N v' (linkStep t st e) es

section

variable {t : Tables} {u : Node} {N : Str} {v v' : Bool} {st st' : Areafix}

theorem Follows.refl (h : Shown u N v st.areas) : Follows u N v st st v [] :=
  ⟨Queued.refl _, h, rfl, fun r hr => by cases hr⟩

/-- What the entry of the area says, the list says. -/
theorem Follows.of_entry {qs : List AreasBBS} {rs : List UplReq} {reqs : List UplReq}
    (h : EntryFollows u N v qs rs v') (hqs : keyed AreasBBS.name N st'.areas = qs)
    (hrs : keyed UplReq.area N reqs = rs) (hq : Queued st.upl st'.upl reqs) :
    Follows u N v st st' v' reqs := by
  obtain ⟨q, hq', hagrees⟩ := h.entry
  refine ⟨hq, ⟨q, hqs.trans hq', hagrees⟩, ?_, ?_⟩
  · rw [← replay_keyed, hrs]
    exact h.view
  · intro r hr hN hadd
    rw [hqs]
    exact h.last r (hrs ▸ mem_keyed.mpr ⟨hr, hN⟩) hadd

theorem reached_iff {f : AreasBBS → Option (List AreasBBS × List UplReq)} {stops : AreasBBS → Bool}
    (h : ∀ p, (f p).isSome = ! stops p) (areas : List AreasBBS) :
    reached AreasBBS.name N f areas = (before N areas).all (! stops ·) := by
  unfold reached before
  exact congrArg (List.all _) (funext h)

/-- A command that goes through the areas. -/
theorem Follows.of_sweep {f : AreasBBS → Option (List AreasBBS × List UplReq)}
    (hf : Named fun p qs rs => f p = some (qs, rs)) {p : AreasBBS}
    (hp : keyed AreasBBS.name N st.areas = [p]) (hagrees : Agrees u v p)
    (hareas : st'.areas = (sweep f st.areas).1) (hupl : Queued st.upl st'.upl (sweep f st.areas).2)
    (hentry : reached AreasBBS.name N f st.areas = true →
      ∃ v', EntryFollows u N v (alone f p).1 (alone f p).2 v') :
    ∃ v' reqs, Follows u N v st st' v' reqs := by
  have honly := Prod.ext_iff.mp (sweep_only (k := N) hf hp)
  rw [← hareas] at honly
  cases hreached : reached AreasBBS.name N f st.areas with
  | true =>
      rw [hreached, if_pos rfl] at honly
      obtain ⟨v', h⟩ := hentry hreached
      exact ⟨v', _, Follows.of_entry h honly.1 honly.2 hupl⟩
  | false =>
      rw [hreached, if_neg Bool.false_ne_true] at honly
      exact ⟨v, _, Follows.of_entry (EntryFollows.keep hagrees) honly.1 honly.2 hupl⟩

end

/-! ## SUBSCRIBE -/

theorem keyed_update {N name : Str} {f : AreasBBS → AreasBBS} (hf : ∀ p, (f p).name = p.name)
    (hN : strUpper name ≠ N) : ∀ areas : List AreasBBS,
    keyed AreasBBS.name N (areasbbsUpdate name f areas) = keyed AreasBBS.name N areas
  | [] => rfl
  | p :: ps => by
      have ih := keyed_update hf hN ps
      rw [areasbbsUpdate]
      split
      · next hp =>
          have hne : p.name ≠ N := fun h => hN ((strieq_name.mp hp).symm.trans h)
          rw [keyed_cons, keyed_cons, hf, if_neg hne, if_neg hne]
      · rw [keyed_cons, keyed_cons, ih]

theorem keyed_remove {N name : Str} (hN : strUpper name ≠ N) : ∀ areas : List AreasBBS,
    keyed AreasBBS.name N (areasbbsRemove name areas) = keyed AreasBBS.name N areas
  | [] => rfl
  | p :: ps => by
      have ih := keyed_remove hN ps
      unfold areasbbsRemove at ih ⊢
      rw [List.eraseP_cons]
      cases hp : strieq name p.area with
      | true =>
          have hne : p.name ≠ N := fun h => hN ((strieq_name.mp hp).symm.trans h)
          rw [cond_true, keyed_cons, if_neg hne]
      | false => rw [cond_false, keyed_cons, keyed_cons, ih]

/-- What SUBSCRIBE keeps from the state it starts in. -/
structure SubKept (t : Tables) (u : Node) (N : Str) (v₀ : Bool) (st₀ st : Areafix) : Prop where
  auth : st.auth = st₀.auth
  node : st.node = st₀.node
  entry : ∃ p v reqs, keyed AreasBBS.name N st.areas = [p] ∧ Agrees u v p ∧
    SubSafe t u st₀.auth st₀.node p ∧ Queued st₀.upl st.upl reqs ∧ replay u N v₀ reqs = some v ∧
    ∀ r ∈ reqs, r.area = N → r.add = true

section

variable {t : Tables} {w : World} {u : Node} {N : Str} {v v₀ : Bool} {st st₀ st' : Areafix}

/-- The requests of a SUBSCRIBE take nobody off. -/
theorem Follows.of_add {reqs : List UplReq} (hq : Queued st.upl st'.upl reqs)
    (hs : Shown u N v st'.areas) (hv : replay u N v₀ reqs = some v)
    (hadd : ∀ r ∈ reqs, r.area = N → r.add = true) : Follows u N v₀ st st' v reqs := by
  refine ⟨hq, hs, hv, ?_⟩
  intro r hr hN hminus
  rw [hadd r hr hN] at hminus
  cases hminus

theorem keyed_named {p : AreasBBS} {areas : List AreasBBS}
    (hp : keyed AreasBBS.name N areas = [p]) : p ∈ areas ∧ p.name = N :=
  mem_keyed.mp (hp ▸ List.mem_singleton_self p)

theorem SubKept.sweep (h : SubKept t u N v₀ st₀ st) (area : Str) (queue : Bool) :
    SubKept t u N v₀ st₀ (subAreas t w area queue st).2.2 := by
  obtain ⟨p, v, reqs, hp, hagrees, hsafe, hq, hv, hadd⟩ := h.entry
  obtain ⟨rss, hs, hq'⟩ := @subAreas_swept t w st area queue
  have ho := (hs.only SubEntry.named hp).outcome
  rw [← h.auth, ← h.node] at hsafe
  obtain ⟨v', hf, hadd', hkeep⟩ :=
    subOutcome_follows (N := N) hagrees (keyed_named hp).2 (fun _ => hsafe) ho
  obtain ⟨q, hqs, hq''⟩ := hf.entry
  have hsafe' := hkeep hsafe q (by rw [hqs]; exact List.mem_singleton_self q)
  rw [h.auth, h.node] at hsafe'
  refine ⟨h.auth, h.node, q, v', reqs ++ rss, hqs, hq'', hsafe', hq.trans hq', ?_, ?_⟩
  · rw [replay_append, hv, Option.bind_some, ← replay_keyed]
    exact hf.view
  · intro r hr hN
    rcases List.mem_append.mp hr with hr | hr
    · exact hadd r hr hN
    · exact hadd' r (mem_keyed.mpr ⟨hr, hN⟩)

/-- A step that does not touch the area. -/
theorem SubKept.other (h : SubKept t u N v₀ st₀ st) (hauth : st'.auth = st.auth)
    (hnode : st'.node = st.node)
    (hareas : keyed AreasBBS.name N st'.areas = keyed AreasBBS.name N st.areas) {rs : List UplReq}
    (hupl : Queued st.upl st'.upl rs) (hrs : ∀ r ∈ rs, r.area ≠ N) :
    SubKept t u N v₀ st₀ st' := by
  obtain ⟨p, v, reqs, hp, hagrees, hsafe, hq, hv, hadd⟩ := h.entry
  refine ⟨hauth.trans h.auth, hnode.trans h.node, p, v, reqs ++ rs, hareas.trans hp, hagrees, hsafe,
    hq.trans hupl, ?_, ?_⟩
  · rw [replay_append, hv, Option.bind_some, ← replay_keyed, keyed_eq_nil hrs]
    rfl
  · intro r hr hN
    rcases List.mem_append.mp hr with hr | hr
    · exact hadd r hr hN
    · exact absurd hN (hrs r hr)

theorem SubKept.offer (h : SubKept t u N v₀ st₀ st) {sub : Str → Areafix → Int × Areafix}
    (hsub : ∀ area st, SubKept t u N v₀ st₀ st → SubKept t u N v₀ st₀ (sub area st).2)
    (a : AreaUplink) : SubKept t u N v₀ st₀ (subRequest t w sub a st) := by
  obtain ⟨p, v, reqs, hp, hrest⟩ := h.entry
  obtain ⟨hmem, hname⟩ := keyed_named hp
  have hno : ∀ r ∈ ([] : List UplReq), r.area ≠ N := fun r hr => by cases hr
  have hne : areasbbsLookup st.areas a.areas = none → strUpper a.areas ≠ N := by
    intro hlook heq
    exact List.find?_eq_none.mp hlook p hmem (strieq_name.mpr (hname.trans heq.symm))
  refine subRequest_rule hsub h ?_ ?_ ?_ ?_
  · intro _
    have hframe := cmdNew_frame t w a.uplink (forwardLine a) true true st
    obtain ⟨hupl, hareas⟩ := @cmdNew_areas t w a.uplink (forwardLine a) true true st
    have hq : Queued st.upl (cmdNewInt t w a.uplink (forwardLine a) true st).2.upl [] :=
      hupl.trans (Queued.refl _)
    refine h.other hframe.auth hframe.node ?_ hq hno
    rcases hareas with hareas | ⟨q, hareas, hnew, -⟩
    · exact congrArg _ hareas
    · refine (congrArg _ hareas).trans ?_
      have hq : q.name ≠ N := fun hq => hnew p hmem (hname.trans hq.symm)
      rw [keyed_append, keyed_cons, if_neg hq, keyed_nil, List.append_nil]
  · intro hlook r hr
    have hupdate := keyed_update
      (f := fun p => { p with state := areasbbsChstate p.state (lit "S") 70 }) (fun _ => rfl)
      (hne hlook) r.areas
    exact hr.other rfl rfl hupdate (Queued.refl _) hno
  · intro hlook r hr
    exact hr.other rfl rfl (keyed_remove (hne hlook) r.areas) (Queued.refl _) hno
  · intro hlook r hr
    have hupl : Queued r.upl (r.upl ++ [uplRequest t r.cf (znfp1 a.uplink) a (lit "+")
        (strUpper a.areas)]) [⟨a.uplink, true, a.robotname, fixName t r.cf, a.password, true,
          strUpper a.areas⟩] := rfl
    refine hr.other rfl rfl rfl hupl ?_
    intro req hreq
    rw [List.mem_singleton.mp hreq]
    exact hne hlook

theorem cmdSub_follows {p : AreasBBS} (hp : keyed AreasBBS.name N st.areas = [p])
    (hagrees : Agrees u v p) (depth : Nat) (area : Str) (queue : Bool)
    (hsafe : wildmatch p.area (bufCopy BUFSIZ area) true = true ∨ st.auth.fwd = true →
      SubSafe t u st.auth st.node p) :
    ∃ v' reqs, Follows u N v st (cmdSub t w (depth + 1) area queue st).2 v' reqs := by
  by_cases hgo : wildmatch p.area (bufCopy BUFSIZ area) true = true ∨ st.auth.fwd = true
  · have hstart : SubKept t u N v st st :=
      ⟨rfl, rfl, p, v, [], hp, hagrees, hsafe hgo, Queued.refl _, rfl, fun r hr => by cases hr⟩
    obtain ⟨q, v', reqs, hq, hagrees', -, hupl, hv, hadd⟩ :=
      (cmdSub_rule (t := t) (w := w) (P := SubKept t u N v st) (fun area queue _ h => h.sweep area queue)
        (fun sub a _ _ hsub h => h.offer hsub a) (depth + 1) area queue st hstart).entry
    exact ⟨v', reqs, Follows.of_add hupl ⟨q, hq, hagrees'⟩ hv hadd⟩
  · rw [not_or, Bool.not_eq_true, Bool.not_eq_true] at hgo
    obtain ⟨hmatch, hfwd⟩ := hgo
    obtain ⟨rss, hs, hq⟩ := @subAreas_swept t w st area queue
    obtain ⟨v', hf, -, -⟩ := subOutcome_follows (N := N) hagrees (keyed_named hp).2
      (fun h => absurd (hmatch.symm.trans h) Bool.false_ne_true)
      (hs.only SubEntry.named hp).outcome
    unfold cmdSub
    split
    · exact ⟨v, [], Follows.refl ⟨p, hp, hagrees⟩⟩
    · rw [hfwd]
      dsimp only
      split
      · exact ⟨v', rss, Follows.of_entry hf rfl rfl hq⟩
      · rw [Bool.false_and, if_neg Bool.false_ne_true]
        exact ⟨v', rss, Follows.of_entry hf rfl rfl hq⟩

end

/-! ## Runs -/

section

variable {t : Tables} {u : Node} {N : Str} {v : Bool} {st : Areafix}

/-- A command that is refused leaves everything as it is. -/
theorem linkStep_refused {e : LinkEvent} (hauth : e.auth.authorized = false) :
    linkStep t st e = e.arrive st := by
  have harrive : (e.arrive st).auth.authorized = false := hauth
  unfold linkStep
  cases e.cmd with
  | sub => rw [cmdSub, harrive]; rfl
  | unsub => rw [cmdUnsub, harrive]; rfl
  | passive => rw [cmdPassive, harrive]; rfl
  | active => rw [cmdActive, harrive]; rfl

/-- What one command keeps. -/
theorem linkStep_follows {e : LinkEvent} (hlisted : (uplinksLineGet t.uplinks t.areafix u).isSome)
    (h : Shown u N v st.areas) (ok : LinkOk t u N st e) :
    ∃ v' reqs, Follows u N v st (linkStep t st e) v' reqs := by
  obtain ⟨a, ha⟩ := Option.isSome_iff_exists.mp hlisted
  obtain ⟨p, hp, hagrees⟩ := h
  obtain ⟨hu, ok⟩ := ok
  obtain ⟨hmem, hname⟩ := keyed_named hp
  cases hauth : e.auth.authorized with
  | false =>
      rw [linkStep_refused hauth]
      exact ⟨v, [], Queued.refl _, ⟨p, hp, hagrees⟩, rfl, fun r hr => by cases hr⟩
  | true =>
      have ok := ok hauth p (mem_keyed.mpr ⟨hmem, hname⟩)
      unfold linkStep
      cases hcmd : e.cmd with
      | sub =>
          rw [hcmd] at ok
          obtain ⟨v', reqs, hf⟩ := @cmdSub_follows t e.world u N v (e.arrive st) p hp hagrees 1 e.arg
            true ok
          exact ⟨v', reqs, hf.queued, hf.shown, hf.view, hf.last⟩
      | unsub =>
          rw [hcmd] at ok
          have h := @cmdUnsub_sweep t e.arg (e.arrive st) hauth
          exact Follows.of_sweep (unsubEntry_named t e.cf e.node e.arg) hp hagrees h.1 h.2 fun _ =>
            unsubEntry_follows hagrees hname hu ha ok
      | passive =>
          rw [hcmd] at ok
          have h := @cmdPassive_sweep t e.world e.arg (e.arrive st) hauth
          refine Follows.of_sweep (passiveEntry_named t e.world e.cf e.node e.arg) hp hagrees h.1 h.2 ?_
          intro hreached
          rw [reached_iff passiveEntry_isSome] at hreached
          exact passiveEntry_follows hagrees hname hu ha (ok hreached)
      | active =>
          rw [hcmd] at ok
          have h := @cmdActive_sweep t e.arg (e.arrive st) hauth
          refine Follows.of_sweep (activeEntry_named t e.cf e.node e.arg) hp hagrees h.1 h.2 ?_
          intro hreached
          rw [reached_iff activeEntry_isSome] at hreached
          exact activeEntry_follows hagrees hname ha (ok hreached)

/-- The area of a listed uplink agrees with it after every command of a run
whose commands all meet their condition. -/
theorem linkRun_consistent (hlisted : (uplinksLineGet t.uplinks t.areafix u).isSome) :
    ∀ (es : List LinkEvent) {v : Bool} {st : Areafix}, Shown u N v st.areas →
      Run.Met (linkStep t) (LinkOk t u N) st es → Consistent t u N v st es
  | [], _, _, _, _ => trivial
  | e :: es, _, _, h, hm => by
      obtain ⟨v', reqs, hf⟩ := linkStep_follows hlisted h hm.1
      exact ⟨v', reqs, hf, linkRun_consistent hlisted es hf.shown hm.2⟩

end

/-- A downlink with all it needs. -/
def downlink (node : Node) (cmd : LinkCmd) (arg : String) : LinkEvent :=
  { world := emptyWorld, node := node, auth := { areafixAuthInit with authorized := true }
    limG := 0, cf := oneArea.cf, cmd := cmd, arg := lit arg }

/-- The area TEST with a list of nodes. -/
def linkedArea (nodes : List Node) : Areafix :=
  { oneArea with
    areas := [{ areasbbsNew with
      area := lit "Test", zone := 2, passthru := true, state := some (lit "S"), nodes := nodes }] }

theorem linkedArea_shown (u : Node) (ns : List Node) :
    Shown u (lit "TEST") true (linkedArea (u :: ns)).areas :=
  ⟨_, rfl, rfl, rfl, show OneLetter (some (lit "S")) by decide, rfl⟩

/-- The last downlink goes, comes back and goes for good; another one comes. -/
theorem linkRun_consistent_test :
    let u : Node := ⟨2, 5020, 9, 0, []⟩
    let d : Node := ⟨2, 5020, 2, 0, []⟩
    Consistent (forwardTables "TEST") u (lit "TEST") true (linkedArea [u, d])
      [downlink d .passive "", downlink d .active "T*", downlink d .unsub "test",
        downlink ⟨2, 5020, 3, 0, []⟩ .sub "TEST"] :=
  linkRun_consistent (by decide +kernel) _ (linkedArea_shown _ _) (by decide +kernel)

/-- One downlink goes passive, the other unsubscribes: the first comes back to
an area in the state `U`, and `W` is written beside it. -/
theorem linkRun_inconsistent : ¬ ∀ (t : Tables) (u : Node) (N : Str) (v : Bool) (st : Areafix)
    (es : List LinkEvent), (uplinksLineGet t.uplinks t.areafix u).isSome →
      Shown u N v st.areas → (∀ e ∈ es, nodeEq u e.node = false) → Consistent t u N v st es := by
  intro h
  obtain ⟨_, _, -, _, _, -, _, _, hf, -⟩ :=
    h (forwardTables "TEST") ⟨2, 5020, 9, 0, []⟩ (lit "TEST") true
      (linkedArea [⟨2, 5020, 9, 0, []⟩, ⟨2, 5020, 2, 0, []⟩, ⟨2, 5020, 3, 0, []⟩])
      [downlink ⟨2, 5020, 2, 0, []⟩ .passive "TEST", downlink ⟨2, 5020, 3, 0, []⟩ .unsub "TEST",
        downlink ⟨2, 5020, 2, 0, []⟩ .active "TEST"]
      (by decide +kernel) (linkedArea_shown _ _) (by decide +kernel)
  obtain ⟨p, hp, hagrees⟩ := hf.shown
  have hletter := hagrees.letter
  have hbad : ∀ q ∈ keyed AreasBBS.name (lit "TEST") (linkStep (forwardTables "TEST") (linkStep
      (forwardTables "TEST") (linkStep (forwardTables "TEST")
        (linkedArea [⟨2, 5020, 9, 0, []⟩, ⟨2, 5020, 2, 0, []⟩, ⟨2, 5020, 3, 0, []⟩])
        (downlink ⟨2, 5020, 2, 0, []⟩ .passive "TEST"))
        (downlink ⟨2, 5020, 3, 0, []⟩ .unsub "TEST"))
        (downlink ⟨2, 5020, 2, 0, []⟩ .active "TEST")).areas, ¬ OneLetter q.state := by
    decide +kernel
  rw [hp] at hbad
  exact hbad p (List.mem_singleton_self p) hletter

end Fidogate

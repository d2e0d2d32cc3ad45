/-
# `Fidogate.Areafix.Limit` — areafix.c: the general limit and its counter

SUBSCRIBE compares the general limit with a counter that is set by a scan the
first time and kept up to date by some of the commands.  The number it stands
for is that of the areas the node is linked to; whether a passive node counts
as linked is left open (`passive`).  `subEvents` lists what one SUBSCRIBE does
besides: its passes over the areas list and the areas it creates for a forward
request.
-/
import Fidogate.Areafix.Entries
import Fidogate.Lib.Run

namespace Fidogate

open Bytes

/-! ## The number -/

/-- The node is linked to the area: it is among its nodes or, where these count
as well, among its passive nodes. -/
def linkedIn (passive : Bool) (node : Node) (p : AreasBBS) : Bool :=
  lonSearch p.nodes node || passive && lonSearch p.passive node

/-- The number of areas the node is linked to. -/
def linkedAreas (passive : Bool) (node : Node) (areas : List AreasBBS) : Nat :=
  areas.countP (linkedIn passive node)

/-- The counter is that number, or it is 0. -/
structure Counted (passive : Bool) (st : Areafix) : Prop where
  nonneg : 0 ≤ st.limG
  eq : 1 ≤ st.limG → st.limG = linkedAreas passive st.node st.areas

/-! ## A pass over the areas list -/

/-- How a round of the loop of SUBSCRIBE goes on. -/
inductive SubRound where
  | next (lp : SubLoop)
  | stop (ret : Int) (areas : List AreasBBS) (lp : SubLoop)

/-- A round of the loop of SUBSCRIBE. -/
def subRound (t : Tables) (w : World) (st : Areafix) (area : Str) (queue : Bool) (p : AreasBBS)
    (ps : List AreasBBS) (lp : SubLoop) : SubRound :=
  let wild := isWildcard area
  if lp.matched != 0 && ! wild then .stop OK (p :: ps) lp
  else if wildmatch p.area (bufCopy BUFSIZ area) true then
    let lp := { lp with matched := lp.matched + 1 }
    match subCheck t st (lp.behind ++ p :: ps) lp.limG p with
    | .skip => .next { lp with behind := lp.behind ++ [p] }
    | .deny =>
        if queue then .next { lp with behind := lp.behind ++ [p] }
        else .stop DELETE (p :: ps) lp
    | .activate =>
        .next { lp with
          behind := lp.behind ++ [{ p with passive := lonRemove p.passive st.node }]
          changed := true
          limG := lp.limG + 1 }
    | .dead => .next { lp with changed := true }
    | .add =>
        match subAdd t w st.node wild area p lp with
        | (some q, lp) => .next { lp with behind := lp.behind ++ [q] }
        | (none, lp) =>
            if queue then
              .next (if wild then lp
                else { lp with cf := sendRules w lp.cf st.node (strUpper area) })
            else .stop DELETE ps lp
  else .next { lp with behind := lp.behind ++ [p] }

/-- The loop, round by round. -/
theorem cmdSubLoop_cons (t : Tables) (w : World) (st : Areafix) (area : Str) (queue : Bool)
    (p : AreasBBS) (ps : List AreasBBS) (lp : SubLoop) :
    cmdSubLoop t w st area queue (p :: ps) lp =
      match subRound t w st area queue p ps lp with
      | .next lp => cmdSubLoop t w st area queue ps lp
      | .stop ret areas lp => (some ret, areas, lp) := by
  rw [cmdSubLoop]
  unfold subRound
  dsimp only
  split
  · rfl
  · split
    · cases subCheck t st (lp.behind ++ p :: ps) lp.limG p with
      | skip => rfl
      | deny => cases queue <;> rfl
      | activate => rfl
      | dead => rfl
      | add =>
          dsimp only
          obtain ⟨q, lp'⟩ := subAdd t w st.node (isWildcard area) area p
            { lp with matched := lp.matched + 1 }
          cases q with
          | none => cases queue <;> rfl
          | some q => rfl
    · rfl

/-- The loop comes to an entry. -/
inductive Reaches (t : Tables) (w : World) (st : Areafix) (area : Str) (queue : Bool) :
    List AreasBBS → SubLoop → AreasBBS → List AreasBBS → SubLoop → Prop
  | here (p ps lp) : Reaches t w st area queue (p :: ps) lp p ps lp
  | next {p ps lp lp' q qs lq} : subRound t w st area queue p ps lp = .next lp' →
      Reaches t w st area queue ps lp' q qs lq → Reaches t w st area queue (p :: ps) lp q qs lq

/-- The start of the loop: the counter is set if it is below 1. -/
def subStart (st : Areafix) : SubLoop :=
  ⟨[], if st.limG < 1 then st.limG + countAreas st.areas st.node else st.limG, st.changed, st.upl,
    st.cf, 0⟩

/-- Level and key let the node pass. -/
def subPermits (auth : Auth) (p : AreasBBS) : Bool :=
  auth.cmdline || (! decide (p.lvl > auth.lvl) && ! p.key.any fun k => ! k.any auth.key.contains)

/-- The general limit decides with the number: at `limit` areas and beyond the
node is refused, below nothing changes. -/
def LimitDecides (passive : Bool) (t : Tables) (st : Areafix) (p : AreasBBS) (ps : List AreasBBS)
    (lp : SubLoop) : Prop :=
  let number := linkedAreas passive st.node (lp.behind ++ p :: ps)
  lp.limG = number ∧
    (subPermits st.auth p = true → st.auth.cmdline = false → lonSearch p.nodes st.node = false →
      0 < st.auth.limG →
      if st.auth.limG ≤ number then subCheck t st (lp.behind ++ p :: ps) lp.limG p = .deny
      else subCheck t st (lp.behind ++ p :: ps) lp.limG p =
        subCheck t { st with auth := { st.auth with limG := 0 } } (lp.behind ++ p :: ps) lp.limG p)

/-! ## What a SUBSCRIBE does -/

/-- A pass over the areas list, or NEW for an area that an uplink offers. -/
inductive SubEvent where
  | pass (area : Str) (queue : Bool) (st : Areafix)
  | offer (a : AreaUplink) (st : Areafix)

/-- The events for one offer. -/
def offerEvents (t : Tables) (w : World) (events : Str → Areafix → List SubEvent) (a : AreaUplink)
    (st : Areafix) : List SubEvent :=
  if (areasbbsLookup st.areas a.areas).isSome || isWildcard a.areas then []
  else
    let r := cmdNewInt t w a.uplink (forwardLine a) true st
    .offer a st ::
      match areasbbsLookup r.2.areas a.areas with
      | none => []
      | some p => if r.1 != OK then [] else events p.area (r.2.requested a.areas)

/-- The events for the offers, one after the other. -/
def forwardEvents (t : Tables) (w : World) (sub : Str → Areafix → Int × Areafix)
    (events : Str → Areafix → List SubEvent) : List AreaUplink → Areafix → List SubEvent
  | [], _ => []
  | a :: as, st =>
      offerEvents t w events a { st with auth := { st.auth with fwd := true } } ++
        forwardEvents t w sub events as (subForward t w sub st a)

/-- The events of `cmd_sub`. -/
def subEvents (t : Tables) (w : World) : Nat → Str → Bool → Areafix → List SubEvent
  | 0, _, _, _ => []
  | depth + 1, area, queue, st =>
      if ! st.auth.authorized then []
      else
        let r := subAreas t w area queue st
        .pass area queue st ::
          match r.1 with
          | some _ => []
          | none =>
              if st.auth.fwd && (isWildcard area || r.2.1 == 0) then
                forwardEvents t w (fun area st => cmdSub t w depth area false st)
                  (fun area st => subEvents t w depth area false st)
                  (uplinksLookup w.files t.areafix area t.uplinks) r.2.2
              else []

/-! ## The condition -/

/-- An entry that is meant and that level and key let the node pass keeps the
counter: it is not one the node is linked to and passive in, or linked to for a
command from the command line; where passive nodes count, the node is not
passive in one it would be added to; and without a queue its uplink is known,
if it has to be asked. -/
def SubEntryOk (passive : Bool) (t : Tables) (st : Areafix) (queue : Bool) (p : AreasBBS) : Prop :=
  if lonSearch p.nodes st.node then st.auth.cmdline = false ∧ lonSearch p.passive st.node = false
  else
    (passive = true → lonSearch p.passive st.node = false) ∧
      (queue = false → subAsks p = true →
        (uplinksLineGet t.uplinks t.areafix (p.nodes.headD nodeInvalid)).isSome = true)

instance decSubEntryOk (passive : Bool) (t : Tables) (st : Areafix) (queue : Bool) (p : AreasBBS) :
    Decidable (SubEntryOk passive t st queue p) := inferInstanceAs (Decidable (ite _ _ _))

/-- The counter is set, or the scan counts what is linked; and the entries that
are meant keep it. -/
structure PassOk (passive : Bool) (t : Tables) (area : Str) (queue : Bool) (st : Areafix) :
    Prop where
  scan : 1 ≤ st.limG ∨ ∀ p ∈ st.areas, (decide (p.nodes.length > 1) &&
    (lonSearch p.nodes st.node || lonSearch p.passive st.node)) = linkedIn passive st.node p
  entries : ∀ p ∈ st.areas, wildmatch p.area (bufCopy BUFSIZ area) true = true →
    subPermits st.auth p = true → SubEntryOk passive t st queue p

/-- The area that is created for the node does not list it. -/
def OfferOk (t : Tables) (w : World) (a : AreaUplink) (st : Areafix) : Prop :=
  ∀ q ∈ (cmdNewInt t w a.uplink (forwardLine a) true st).2.areas,
    q ∈ st.areas ∨ lonSearch q.nodes st.node = false

def SubEventOk (passive : Bool) (t : Tables) (w : World) : SubEvent → Prop
  | .pass area queue st => PassOk passive t area queue st
  | .offer a st => OfferOk t w a st

/-! ## The checks -/

section

variable {t : Tables} {w : World} {st : Areafix} {area : Str}

/-- The checks up to level and key. -/
theorem subCheck_of_not_permits {areas : List AreasBBS} {limG : Int} {p : AreasBBS}
    (h : subPermits st.auth p = false) : subCheck t st areas limG p = .deny := by
  rw [subPermits, Bool.or_eq_false_iff] at h
  unfold subCheck
  dsimp only
  rw [h.1, if_neg Bool.false_ne_true]
  by_cases hlvl : p.lvl > st.auth.lvl
  · rw [if_pos hlvl]
  · rw [if_neg hlvl]
    have hkey := h.2
    rw [decide_eq_false hlvl, Bool.not_false, Bool.true_and, Bool.not_eq_false'] at hkey
    rw [hkey, if_pos rfl]

/-- The general limit in front of the other checks. -/
theorem subCheck_limit {areas : List AreasBBS} {limG : Int} {p : AreasBBS}
    (hpermits : subPermits st.auth p = true) (hcmd : st.auth.cmdline = false)
    (hnode : lonSearch p.nodes st.node = false) (hpos : 0 < st.auth.limG) :
    subCheck t st areas limG p =
      if st.auth.limG ≤ limG then .deny
      else subCheck t { st with auth := { st.auth with limG := 0 } } areas limG p := by
  rw [subPermits, hcmd, Bool.false_or, Bool.and_eq_true, Bool.not_eq_true', decide_eq_false_iff_not,
    Bool.not_eq_true'] at hpermits
  obtain ⟨hlvl, hkey⟩ := hpermits
  unfold subCheck
  dsimp only
  rw [hcmd, if_neg Bool.false_ne_true, if_neg Bool.false_ne_true, if_neg hlvl, if_neg hlvl, hkey,
    if_neg Bool.false_ne_true, if_neg Bool.false_ne_true, hnode, if_neg Bool.false_ne_true,
    if_neg Bool.false_ne_true]
  by_cases hlim : st.auth.limG ≤ limG
  · rw [if_pos hlim, if_pos (by simp [hpos, hlim])]
  · rw [if_neg hlim, if_neg (by simp [hlim]), if_neg (show ¬ (decide ((0 : Int) > 0) &&
      decide ((0 : Int) ≤ limG)) = true by simp)]

/-- A node is added below the limit. -/
theorem subCheck_add {areas : List AreasBBS} {limG : Int} {p : AreasBBS}
    (h : subCheck t st areas limG p = .add) (hcmd : st.auth.cmdline = false)
    (hpos : 0 < st.auth.limG) : limG < st.auth.limG := by
  have hadds : subAdds st.auth st.node p = true := by
    have hchecked := @subCheck_checked t st areas limG p
    rw [h] at hchecked
    cases hchecked with
    | add hadds => exact hadds
  rw [subAdds, hcmd, Bool.false_or, Bool.not_eq_true'] at hadds
  have hpermits : subPermits st.auth p = true := by
    by_contra hno
    rw [subCheck_of_not_permits (Bool.not_eq_true _ ▸ hno)] at h
    cases h
  rw [subCheck_limit hpermits hcmd hadds hpos] at h
  split at h
  · cases h
  · next hlim => exact Int.not_le.mp hlim

/-! ## A round -/

/-- What a round does, case by case. -/
inductive RoundOutcome (t : Tables) (st : Areafix) (area : Str) (queue : Bool) (p : AreasBBS)
    (ps : List AreasBBS) (lp : SubLoop) : SubRound → Prop
  | done : lp.matched ≠ 0 → isWildcard area = false → RoundOutcome t st area queue p ps lp
      (.stop OK (p :: ps) lp)
  | other (lp' : SubLoop) : wildmatch p.area (bufCopy BUFSIZ area) true = false →
      lp'.behind = lp.behind ++ [p] → lp'.limG = lp.limG → lp'.matched = lp.matched →
      RoundOutcome t st area queue p ps lp (.next lp')
  | keep (lp' : SubLoop) : lp'.behind = lp.behind ++ [p] → lp'.limG = lp.limG → lp'.matched ≠ 0 →
      RoundOutcome t st area queue p ps lp (.next lp')
  | deny (lp' : SubLoop) : lp'.behind = lp.behind → lp'.limG = lp.limG →
      RoundOutcome t st area queue p ps lp (.stop DELETE (p :: ps) lp')
  | active (lp' : SubLoop) : wildmatch p.area (bufCopy BUFSIZ area) true = true →
      subPermits st.auth p = true → lonSearch p.nodes st.node = true →
      lonSearch p.passive st.node = true → RoundOutcome t st area queue p ps lp (.next lp')
  | dead (lp' : SubLoop) : wildmatch p.area (bufCopy BUFSIZ area) true = true →
      subPermits st.auth p = true → lonSearch p.nodes st.node = false → lp'.behind = lp.behind →
      lp'.limG = lp.limG → lp'.matched ≠ 0 → RoundOutcome t st area queue p ps lp (.next lp')
  | add (lp' : SubLoop) (q : AreasBBS) : wildmatch p.area (bufCopy BUFSIZ area) true = true →
      subPermits st.auth p = true → subAdds st.auth st.node p = true →
      (st.auth.cmdline = false → 0 < st.auth.limG → lp.limG < st.auth.limG) →
      q.nodes = p.nodes ++ [st.node] → lp'.behind = lp.behind ++ [q] → lp'.limG = lp.limG + 1 →
      lp'.matched ≠ 0 → RoundOutcome t st area queue p ps lp (.next lp')
  | unknown (lp' : SubLoop) (q : AreasBBS) : wildmatch p.area (bufCopy BUFSIZ area) true = true →
      subPermits st.auth p = true → subAdds st.auth st.node p = true →
      (st.auth.cmdline = false → 0 < st.auth.limG → lp.limG < st.auth.limG) →
      q.nodes = p.nodes ++ [st.node] → lp'.behind = lp.behind ++ [q] → lp'.limG = lp.limG + 1 →
      queue = false → subAsks p = true →
      (uplinksLineGet t.uplinks t.areafix (p.nodes.headD nodeInvalid)).isSome = false →
      RoundOutcome t st area queue p ps lp (.stop DELETE ps lp')

/-- What `subAdd` leaves behind. -/
theorem subAdd_cases (wild : Bool) (p : AreasBBS) (lp : SubLoop) :
    (∃ q lp', subAdd t w st.node wild area p lp = (some q, lp') ∧ q.nodes = p.nodes ++ [st.node] ∧
      lp'.behind = lp.behind ∧ lp'.limG = lp.limG + 1 ∧ lp'.matched = lp.matched) ∨
    ∃ q lp', subAdd t w st.node wild area p lp = (none, lp') ∧ q.nodes = p.nodes ++ [st.node] ∧
      lp'.behind = lp.behind ++ [q] ∧ lp'.limG = lp.limG + 1 ∧ lp'.matched = lp.matched ∧
      subAsks p = true ∧
      (uplinksLineGet t.uplinks t.areafix (p.nodes.headD nodeInvalid)).isSome = false := by
  unfold subAdd subAsks
  dsimp only
  split
  · next hasks =>
      cases huplink : uplinksLineGet t.uplinks t.areafix (p.nodes.headD nodeInvalid) with
      | none => exact .inr ⟨_, _, rfl, rfl, rfl, rfl, rfl, hasks, rfl⟩
      | some a =>
          dsimp only
          cases wild
          · exact .inl ⟨_, _, rfl, rfl, rfl, rfl, rfl⟩
          · exact .inl ⟨_, _, rfl, rfl, rfl, rfl, rfl⟩
  · cases wild
    · exact .inl ⟨_, _, rfl, rfl, rfl, rfl, rfl⟩
    · exact .inl ⟨_, _, rfl, rfl, rfl, rfl, rfl⟩

theorem subRound_outcome (queue : Bool) (p : AreasBBS) (ps : List AreasBBS) (lp : SubLoop) :
    RoundOutcome t st area queue p ps lp (subRound t w st area queue p ps lp) := by
  unfold subRound
  dsimp only
  split
  · next hend =>
      rw [Bool.and_eq_true, bne_iff_ne, Bool.not_eq_true'] at hend
      exact .done hend.1 hend.2
  · split
    · next hmatch =>
        have hchecked := @subCheck_checked t st (lp.behind ++ p :: ps) lp.limG p
        have hpermits : subCheck t st (lp.behind ++ p :: ps) lp.limG p ≠ .deny →
            subPermits st.auth p = true := by
          intro hne
          by_contra hno
          exact hne (subCheck_of_not_permits (Bool.not_eq_true _ ▸ hno))
        have hlimit := @subCheck_add t st (lp.behind ++ p :: ps) lp.limG p
        revert hchecked hpermits hlimit
        generalize subCheck t st (lp.behind ++ p :: ps) lp.limG p = c
        intro hchecked hpermits hlimit
        cases hchecked with
        | skip => exact .keep _ rfl rfl (Nat.succ_ne_zero _)
        | deny =>
            dsimp only
            split
            · exact .keep _ rfl rfl (Nat.succ_ne_zero _)
            · exact .deny _ rfl rfl
        | activate hnode hpassive =>
            exact .active _ hmatch (hpermits (by simp)) hnode hpassive
        | dead hdead =>
            refine .dead _ hmatch (hpermits (by simp)) ?_ rfl rfl (Nat.succ_ne_zero _)
            rcases hdead with hnil | hzone
            · rw [hnil]
              rfl
            · exact hzone.2.2.2.1
        | add hadds =>
            have hp := hpermits (by simp)
            have hl := hlimit rfl
            dsimp only
            obtain ⟨q, lp', hadd, hq, hb, hlim, hm⟩ |
                ⟨q, lp', hadd, hq, hb, hlim, hm, hasks, hno⟩ :=
              @subAdd_cases t w st area (isWildcard area) p { lp with matched := lp.matched + 1 }
            · rw [hadd]
              exact .add _ q hmatch hp hadds hl hq (congrArg (· ++ [q]) hb) hlim
                (by dsimp only; rw [hm]; exact Nat.succ_ne_zero _)
            · rw [hadd]
              dsimp only
              split
              · have hm' : lp'.matched ≠ 0 := by rw [hm]; exact Nat.succ_ne_zero _
                cases isWildcard area
                · exact .add _ q hmatch hp hadds hl hq hb hlim hm'
                · exact .add _ q hmatch hp hadds hl hq hb hlim hm'
              · next hqueue =>
                  exact .unknown _ q hmatch hp hadds hl hq hb hlim (Bool.not_eq_true _ ▸ hqueue)
                    hasks hno
    · next hmatch => exact .other _ (Bool.not_eq_true _ ▸ hmatch) rfl rfl rfl

/-! ## The passes -/

variable {passive queue : Bool}

theorem linkedAreas_append (node : Node) (ps qs : List AreasBBS) :
    linkedAreas passive node (ps ++ qs) =
      linkedAreas passive node ps + linkedAreas passive node qs :=
  List.countP_append

theorem linkedAreas_cons (node : Node) (p : AreasBBS) (ps : List AreasBBS) :
    linkedAreas passive node (p :: ps) =
      (if linkedIn passive node p then 1 else 0) + linkedAreas passive node ps := by
  rw [linkedAreas, List.countP_cons, Nat.add_comm]
  rfl

/-- The counter of the loop is the number. -/
def Balanced (passive : Bool) (st : Areafix) (ps : List AreasBBS) (lp : SubLoop) : Prop :=
  lp.limG = linkedAreas passive st.node (lp.behind ++ ps)

/-- The node is not among the nodes of an entry it is added to. -/
theorem lonSearch_of_adds {p : AreasBBS} (hok : SubEntryOk passive t st queue p)
    (hadds : subAdds st.auth st.node p = true) : lonSearch p.nodes st.node = false := by
  by_contra hno
  rw [SubEntryOk, if_pos (Bool.not_eq_false _ ▸ hno)] at hok
  rw [subAdds, hok.1, Bool.false_or, Bool.not_eq_true'] at hadds
  exact hno hadds

/-- An entry the node is added to was none of its areas, and is one. -/
theorem linkedIn_add {p q : AreasBBS} (hok : SubEntryOk passive t st queue p)
    (hadds : subAdds st.auth st.node p = true) (hq : q.nodes = p.nodes ++ [st.node]) :
    linkedIn passive st.node p = false ∧ linkedIn passive st.node q = true := by
  have hnode := lonSearch_of_adds hok hadds
  rw [SubEntryOk, if_neg (by rw [hnode]; decide)] at hok
  constructor
  · rw [linkedIn, hnode, Bool.false_or]
    cases passive with
    | false => rfl
    | true => exact hok.1 rfl
  · rw [linkedIn, hq, lonSearch_append, lonSearch_singleton, Bool.or_true, Bool.true_or]

/-- A dead entry was none of its areas. -/
theorem linkedIn_dead {p : AreasBBS} (hok : SubEntryOk passive t st queue p)
    (hnode : lonSearch p.nodes st.node = false) : linkedIn passive st.node p = false := by
  rw [SubEntryOk, if_neg (by rw [hnode]; decide)] at hok
  rw [linkedIn, hnode, Bool.false_or]
  cases passive with
  | false => rfl
  | true => exact hok.1 rfl

/-- What a pass keeps: the counter is the number, and below the general limit it
stays, beyond it does not grow. -/
structure PassInv (passive : Bool) (st : Areafix) (start : Int) (ps : List AreasBBS)
    (lp : SubLoop) : Prop where
  balanced : Balanced passive st ps lp
  bounded : st.auth.cmdline = false → 0 < st.auth.limG → lp.limG ≤ max start st.auth.limG

/-- A round keeps it. -/
theorem subRound_inv {start : Int} {p : AreasBBS} {ps : List AreasBBS} {lp : SubLoop}
    (hok : wildmatch p.area (bufCopy BUFSIZ area) true = true → subPermits st.auth p = true →
      SubEntryOk passive t st queue p) (h : PassInv passive st start (p :: ps) lp) :
    match subRound t w st area queue p ps lp with
    | .next lp' => PassInv passive st start ps lp'
    | .stop _ areas lp' => PassInv passive st start areas lp' := by
  obtain ⟨hbal, hbound⟩ := h
  rw [Balanced, linkedAreas_append, linkedAreas_cons] at hbal
  have hsame : ∀ {lp' : SubLoop}, lp'.behind = lp.behind ++ [p] → lp'.limG = lp.limG →
      PassInv passive st start ps lp' := by
    intro lp' hb hl
    refine ⟨?_, fun hc hp => hl ▸ hbound hc hp⟩
    rw [Balanced, hb, hl, hbal, List.append_assoc, linkedAreas_append, List.singleton_append,
      linkedAreas_cons]
  have hadd : ∀ {lp' : SubLoop} {q : AreasBBS}, linkedIn passive st.node p = false →
      linkedIn passive st.node q = true →
      (st.auth.cmdline = false → 0 < st.auth.limG → lp.limG < st.auth.limG) →
      lp'.behind = lp.behind ++ [q] → lp'.limG = lp.limG + 1 → PassInv passive st start ps lp' := by
    intro lp' q hp hq hlim hb hl
    constructor
    · rw [Balanced, hb, hl, hbal, List.append_assoc, linkedAreas_append, List.singleton_append,
        linkedAreas_cons, hp, hq]
      simp only [Bool.false_eq_true, if_false, if_true]
      omega
    · intro hc hpos
      have := hlim hc hpos
      rw [hl]
      omega
  have hout := @subRound_outcome t w st area queue p ps lp
  revert hout
  generalize subRound t w st area queue p ps lp = r
  intro hout
  cases hout with
  | done => exact ⟨by rw [Balanced, linkedAreas_append, linkedAreas_cons, hbal], hbound⟩
  | other lp' _ hb hl => exact hsame hb hl
  | keep lp' hb hl => exact hsame hb hl
  | deny lp' hb hl =>
      refine ⟨?_, fun hc hp => hl ▸ hbound hc hp⟩
      rw [Balanced, hb, hl, hbal, linkedAreas_append, linkedAreas_cons]
  | active lp' hmatch hpermits hnode hpassive =>
      have hentry := hok hmatch hpermits
      rw [SubEntryOk, if_pos hnode, hpassive] at hentry
      cases hentry.2
  | dead lp' hmatch hpermits hnode hb hl =>
      have hnot := linkedIn_dead (hok hmatch hpermits) hnode
      refine ⟨?_, fun hc hp => hl ▸ hbound hc hp⟩
      rw [Balanced, hb, hl, hbal, hnot, linkedAreas_append]
      simp only [Bool.false_eq_true, if_false]
      omega
  | add lp' q hmatch hpermits hadds hlim hq hb hl =>
      obtain ⟨hp, hq⟩ := linkedIn_add (hok hmatch hpermits) hadds hq
      exact hadd hp hq hlim hb hl
  | unknown lp' q hmatch hpermits hadds hlim hq hb hl =>
      obtain ⟨hp, hq⟩ := linkedIn_add (hok hmatch hpermits) hadds hq
      exact hadd hp hq hlim hb hl

/-- The whole loop keeps it. -/
theorem cmdSubLoop_inv {start : Int} : ∀ {ps : List AreasBBS} {lp : SubLoop},
    (∀ p ∈ ps, wildmatch p.area (bufCopy BUFSIZ area) true = true → subPermits st.auth p = true →
      SubEntryOk passive t st queue p) → PassInv passive st start ps lp →
    PassInv passive st start (cmdSubLoop t w st area queue ps lp).2.1
      (cmdSubLoop t w st area queue ps lp).2.2
  | [], lp, _, h => h
  | p :: ps, lp, hok, h => by
      have hround := @subRound_inv t w st area passive queue start p ps lp
        (hok p List.mem_cons_self) h
      rw [cmdSubLoop_cons]
      cases hr : subRound t w st area queue p ps lp with
      | next lp' =>
          rw [hr] at hround
          exact cmdSubLoop_inv (fun q hq => hok q (List.mem_cons_of_mem p hq)) hround
      | stop ret areas lp' =>
          rw [hr] at hround
          exact hround

/-- Every entry the loop comes to. -/
theorem reaches_inv {start : Int} {ps qs : List AreasBBS} {lp lq : SubLoop} {q : AreasBBS}
    (hreach : Reaches t w st area queue ps lp q qs lq)
    (hok : ∀ p ∈ ps, wildmatch p.area (bufCopy BUFSIZ area) true = true →
      subPermits st.auth p = true → SubEntryOk passive t st queue p)
    (h : PassInv passive st start ps lp) : PassInv passive st start (q :: qs) lq := by
  induction hreach with
  | here => exact h
  | next hr _ ih =>
      rename_i p ps lp lp' q qs lq _
      have hround := @subRound_inv t w st area passive queue start p ps lp
        (hok p List.mem_cons_self) h
      rw [hr] at hround
      exact ih (fun q hq => hok q (List.mem_cons_of_mem _ hq)) hround

/-- The counter at the start of a pass. -/
theorem subStart_inv (hc : Counted passive st) (hok : PassOk passive t area queue st) :
    PassInv passive st (linkedAreas passive st.node st.areas) st.areas (subStart st) := by
  have hbal : Balanced passive st st.areas (subStart st) := by
    rw [Balanced, subStart, List.nil_append]
    dsimp only
    split
    · next hlim =>
        have h0 : st.limG = 0 := by
          have := hc.nonneg
          omega
        have hscan : countAreas st.areas st.node = linkedAreas passive st.node st.areas := by
          refine List.countP_congr fun p hp => ?_
          rw [hok.scan.resolve_left (by omega) p hp]
        rw [h0, hscan, Int.zero_add]
    · exact hc.eq (by omega)
  refine ⟨hbal, fun _ _ => ?_⟩
  rw [Balanced, subStart, List.nil_append] at hbal
  rw [subStart, hbal]
  exact Int.le_max_left _ _

/-- The general limit decides with the number at every entry of a pass. -/
theorem pass_decides (hc : Counted passive st) (hok : PassOk passive t area queue st)
    {p : AreasBBS} {ps : List AreasBBS} {lp : SubLoop}
    (h : Reaches t w st area queue st.areas (subStart st) p ps lp) :
    LimitDecides passive t st p ps lp := by
  have hbal := (reaches_inv h hok.entries (subStart_inv hc hok)).balanced
  refine ⟨hbal, fun hpermits hcmd hnode hpos => ?_⟩
  rw [subCheck_limit hpermits hcmd hnode hpos]
  rw [Balanced] at hbal
  rw [← hbal]
  split
  · rfl
  · rfl

/-- The state behind a pass. -/
theorem subAreas_counted (hc : Counted passive st) (hok : PassOk passive t area queue st) :
    let st' := (subAreas t w area queue st).2.2
    Counted passive st' ∧ (st.auth.cmdline = false → 0 < st.auth.limG →
      (linkedAreas passive st.node st'.areas : Int) ≤
        max (linkedAreas passive st.node st.areas : Int) st.auth.limG) := by
  have hinv := @cmdSubLoop_inv t w st area passive queue _ _ _ hok.entries (subStart_inv hc hok)
  have hbal := hinv.balanced
  rw [Balanced] at hbal
  constructor
  · refine ⟨?_, fun _ => hbal⟩
    change 0 ≤ (cmdSubLoop t w st area queue st.areas (subStart st)).2.2.limG
    rw [hbal]
    exact Int.natCast_nonneg _
  · intro hcmd hpos
    have hbound := hinv.bounded hcmd hpos
    rw [hbal] at hbound
    exact hbound

/-! ## A forward request -/

theorem cmdNew_limit (node : Node) (line : Str) (dwnl inter : Bool) (st : Areafix) :
    (cmdNew t w node line dwnl inter st).2.limG = st.limG := by
  unfold cmdNew
  split
  · rfl
  · split
    · rfl
    · split
      · rfl
      · split
        · rfl
        · split
          · rfl
          · dsimp only
            split
            · rfl
            · rfl

/-- A new area that does not list the node changes no number. -/
theorem cmdNew_linked {node n : Node} {line : Str} {dwnl inter : Bool} {st : Areafix}
    (hok : ∀ q ∈ (cmdNew t w node line dwnl inter st).2.areas,
      q ∈ st.areas ∨ lonSearch q.nodes n = false) :
    linkedAreas passive n (cmdNew t w node line dwnl inter st).2.areas =
      linkedAreas passive n st.areas := by
  obtain ⟨-, hareas | ⟨q, hareas, hnew, hpassive, -⟩⟩ := @cmdNew_areas t w node line dwnl inter st
  · rw [hareas]
  · rw [hareas] at hok ⊢
    have hq : lonSearch q.nodes n = false :=
      (hok q (List.mem_append_right _ List.mem_cons_self)).resolve_left fun h => hnew q h rfl
    rw [linkedAreas_append, linkedAreas_cons, linkedIn, hq, hpassive]
    cases passive <;> rfl

theorem areasbbsUpdate_linked (n : Node) (name : Str) {f : AreasBBS → AreasBBS}
    (hf : ∀ p, linkedIn passive n (f p) = linkedIn passive n p) : ∀ ps : List AreasBBS,
    linkedAreas passive n (areasbbsUpdate name f ps) = linkedAreas passive n ps
  | [] => rfl
  | p :: ps => by
      rw [areasbbsUpdate]
      split
      · rw [linkedAreas_cons, linkedAreas_cons, hf]
      · rw [linkedAreas_cons, linkedAreas_cons, areasbbsUpdate_linked n name hf ps]

/-- A pass of a name without a queue that is broken off has changed nothing. -/
theorem cmdSubLoop_broken (hwild : isWildcard area = false) : ∀ {ps : List AreasBBS} {lp : SubLoop},
    (∀ p ∈ ps, wildmatch p.area (bufCopy BUFSIZ area) true = true → subPermits st.auth p = true →
      SubEntryOk passive t st false p) →
    ∀ ret, (cmdSubLoop t w st area false ps lp).1 = some ret → ret ≠ OK → lp.matched = 0 →
    (cmdSubLoop t w st area false ps lp).2.2.behind ++ (cmdSubLoop t w st area false ps lp).2.1 =
      lp.behind ++ ps
  | [], lp, _, ret, h, _, _ => by cases h
  | p :: ps, lp, hok, ret, h, hret, hm => by
      have hout := @subRound_outcome t w st area false p ps lp
      rw [cmdSubLoop_cons] at h ⊢
      revert h hout
      generalize subRound t w st area false p ps lp = r
      intro h hout
      -- with a match, the next round ends the loop
      have hend : ∀ lp' : SubLoop, lp'.matched ≠ 0 →
          (cmdSubLoop t w st area false ps lp').1 = some ret → False := by
        intro lp' hm' h
        cases ps with
        | nil => cases h
        | cons q qs =>
            rw [cmdSubLoop, if_pos (by simp [hm', hwild])] at h
            exact hret (Option.some.inj h).symm
      cases hout with
      | done hm' => exact absurd hm hm'
      | other lp' _ hb _ hm' =>
          have ih := cmdSubLoop_broken hwild (fun q hq => hok q (List.mem_cons_of_mem p hq)) ret h
            hret (hm'.trans hm)
          dsimp only at ih ⊢
          rw [ih, hb, List.append_assoc, List.singleton_append]
      | keep lp' _ _ hm' => exact (hend lp' hm' h).elim
      | deny lp' hb => rw [hb]
      | active lp' hmatch hpermits hnode hpassive =>
          have hentry := hok p List.mem_cons_self hmatch hpermits
          rw [SubEntryOk, if_pos hnode, hpassive] at hentry
          cases hentry.2
      | dead lp' _ _ _ _ _ hm' => exact (hend lp' hm' h).elim
      | add lp' q _ _ _ _ _ _ _ hm' => exact (hend lp' hm' h).elim
      | unknown lp' q hmatch hpermits hadds _ _ _ _ _ hasks hno =>
          have hentry := hok p List.mem_cons_self hmatch hpermits
          have hnode := lonSearch_of_adds hentry hadds
          rw [SubEntryOk, if_neg (by rw [hnode]; decide)] at hentry
          rw [hentry.2 rfl hasks] at hno
          cases hno

theorem isWildcard_strieq {a b : Str} (h : strieq a b = true) : isWildcard a = isWildcard b := by
  have key : ∀ c : UInt8, (lit "*?[").contains (toLower c) = (lit "*?[").contains c :=
    forall_byte (by decide +kernel)
  have hlow : ∀ s : Str, isWildcard s = isWildcard (s.map toLower) := by
    intro s
    rw [isWildcard, isWildcard, List.any_map]
    exact congrArg s.any (funext fun c => (key c).symm)
  rw [hlow a, hlow b, strieq_iff.mp h]

theorem strieq_of_lookup {areas : List AreasBBS} {name : Str} {p : AreasBBS}
    (h : areasbbsLookup areas name = some p) : strieq name p.area = true := by
  rw [areasbbsLookup] at h
  have hp := List.find?_some h
  exact hp

theorem requested_linked (n : Node) (st : Areafix) (name : Str) :
    linkedAreas passive n (st.requested name).areas = linkedAreas passive n st.areas :=
  areasbbsUpdate_linked n name
    (f := fun p => { p with state := areasbbsChstate p.state (lit "S") 70 }) (fun _ => rfl) st.areas

/-- A new area that is requested and removed again leaves the list as it was. -/
theorem areasbbsRemove_requested {a : AreaUplink} {st : Areafix} {p : AreasBBS}
    (hno : areasbbsLookup st.areas a.areas = none)
    (hlook : areasbbsLookup (cmdNewInt t w a.uplink (forwardLine a) true st).2.areas a.areas =
      some p) :
    areasbbsRemove a.areas
      ((cmdNewInt t w a.uplink (forwardLine a) true st).2.requested a.areas).areas = st.areas := by
  obtain ⟨-, hareas | ⟨q, hareas, -, -, -⟩⟩ :=
    @cmdNew_areas t w a.uplink (forwardLine a) true true st
  · rw [cmdNewInt, hareas, hno] at hlook
    cases hlook
  · rw [cmdNewInt, hareas] at hlook
    have hq : strieq a.areas q.area = true := by
      rw [areasbbsLookup, List.find?_append, show st.areas.find? (fun p => strieq a.areas p.area) =
        none from hno, Option.none_or, List.find?_singleton] at hlook
      split at hlook
      · next h => exact h
      · cases hlook
    rw [Areafix.requested]
    dsimp only
    rw [cmdNewInt, hareas, areasbbsUpdate_last hno hq]
    exact areasbbsRemove_last hno hq

/-- What a call of `cmd_sub` keeps: the counter is the number, and the number
does not grow beyond the general limit. -/
structure SubKeeps (passive : Bool) (st st' : Areafix) : Prop where
  frame : Frame st st'
  counted : Counted passive st'
  bounded : st.auth.cmdline = false → 0 < st.auth.limG →
    (linkedAreas passive st.node st'.areas : Int) ≤
      max (linkedAreas passive st.node st.areas : Int) st.auth.limG

theorem SubKeeps.refl {st : Areafix} (h : Counted passive st) : SubKeeps passive st st :=
  ⟨Frame.refl st, h, fun _ _ => Int.le_max_left _ _⟩

theorem SubKeeps.trans {st st' st'' : Areafix} (h : SubKeeps passive st st')
    (h' : SubKeeps passive st' st'') : SubKeeps passive st st'' := by
  refine ⟨h.frame.trans h'.frame, h'.counted, fun hcmd hpos => ?_⟩
  have h1 := h.bounded hcmd hpos
  have h2 := h'.bounded (by rw [h.frame.auth, hcmd]) (by rw [h.frame.auth]; exact hpos)
  rw [h.frame.auth, h.frame.node] at h2
  omega

/-- A step that changes neither the counter nor the number. -/
theorem SubKeeps.of_eq {st st' : Areafix} (hframe : Frame st st') (h : Counted passive st)
    (hlim : st'.limG = st.limG)
    (hnumber : linkedAreas passive st.node st'.areas = linkedAreas passive st.node st.areas) :
    SubKeeps passive st st' := by
  refine ⟨hframe, ⟨hlim ▸ h.nonneg, fun hpos => ?_⟩, fun _ _ => ?_⟩
  · rw [hlim, hframe.node, hnumber]
    exact h.eq (hlim ▸ hpos)
  · rw [hnumber]
    exact Int.le_max_left _ _

/-- The pass of a call. -/
theorem subAreas_keeps (hc : Counted passive st) (hok : PassOk passive t area queue st) :
    SubKeeps passive st (subAreas t w area queue st).2.2 :=
  ⟨subAreas_frame t w area queue st, (subAreas_counted hc hok).1, (subAreas_counted hc hok).2⟩

/-- What a call without a queue keeps, and does where it is broken off. -/
structure CallOk (passive : Bool) (sub : Str → Areafix → Int × Areafix)
    (events : Str → Areafix → List SubEvent) (t : Tables) (w : World) : Prop where
  keeps : ∀ area st, Counted passive st → (∀ e ∈ events area st, SubEventOk passive t w e) →
    SubKeeps passive st (sub area st).2
  broken : ∀ area st, isWildcard area = false → (∀ e ∈ events area st, SubEventOk passive t w e) →
    (sub area st).1 ≠ OK → (sub area st).2.areas = st.areas
  counted : ∀ area st, Counted passive st → (∀ e ∈ events area st, SubEventOk passive t w e) →
    ∀ area' queue' st', SubEvent.pass area' queue' st' ∈ events area st →
      Frame st st' ∧ Counted passive st'

variable {sub : Str → Areafix → Int × Areafix} {events : Str → Areafix → List SubEvent}

/-- One offer. -/
theorem subRequest_keeps (hcall : CallOk passive sub events t w) {a : AreaUplink} {st : Areafix}
    (hc : Counted passive st) (hok : ∀ e ∈ offerEvents t w events a st, SubEventOk passive t w e) :
    SubKeeps passive st (subRequest t w sub a st) ∧
      ∀ area' queue' st', SubEvent.pass area' queue' st' ∈ offerEvents t w events a st →
        Frame st st' ∧ Counted passive st' := by
  rw [offerEvents] at hok ⊢
  rw [subRequest]
  split
  · exact ⟨SubKeeps.refl hc, fun _ _ _ h => by cases h⟩
  · next hno =>
      rw [if_neg hno] at hok
      rw [Bool.or_eq_true, not_or, Bool.not_eq_true, Option.isSome_eq_false_iff,
        Option.isNone_iff_eq_none, Bool.not_eq_true] at hno
      have hoffer : OfferOk t w a st := hok _ List.mem_cons_self
      have hnew : SubKeeps passive st (cmdNewInt t w a.uplink (forwardLine a) true st).2 :=
        SubKeeps.of_eq (cmdNew_frame t w a.uplink (forwardLine a) true true st) hc
          (cmdNew_limit a.uplink (forwardLine a) true true st) (cmdNew_linked hoffer)
      dsimp only at hok ⊢
      cases hlook :
          areasbbsLookup (cmdNewInt t w a.uplink (forwardLine a) true st).2.areas a.areas with
      | none =>
          dsimp only
          refine ⟨hnew, fun _ _ _ h => ?_⟩
          cases List.mem_singleton.mp h
      | some p =>
          rw [hlook] at hok
          dsimp only at hok ⊢
          split
          · next hret =>
              refine ⟨hnew, fun _ _ _ h => ?_⟩
              cases List.mem_singleton.mp h
          · next hret =>
              rw [if_neg hret] at hok
              have hevents : ∀ e ∈ events p.area
                  ((cmdNewInt t w a.uplink (forwardLine a) true st).2.requested a.areas),
                  SubEventOk passive t w e := fun e he => hok e (List.mem_cons_of_mem _ he)
              have hreq : SubKeeps passive st
                  ((cmdNewInt t w a.uplink (forwardLine a) true st).2.requested a.areas) :=
                hnew.trans
                  (SubKeeps.of_eq ⟨rfl, rfl, rfl⟩ hnew.counted rfl (requested_linked _ _ _))
              have hsub := hreq.trans (hcall.keeps p.area _ hreq.counted hevents)
              refine ⟨?_, fun area' queue' st' h => ?_⟩
              · split
                · next hbad =>
                    have hwild : isWildcard p.area = false := by
                      rw [← isWildcard_strieq (strieq_of_lookup hlook)]
                      exact hno.2
                    have hsame := hcall.broken p.area _ hwild hevents (bne_iff_ne.mp hbad)
                    refine hsub.trans (SubKeeps.of_eq ⟨rfl, rfl, rfl⟩ hsub.counted rfl ?_)
                    dsimp only
                    rw [hsame, areasbbsRemove_requested hno.1 hlook, requested_linked,
                      hsub.frame.node, cmdNewInt, cmdNew_linked hoffer]
                · exact hsub.trans (SubKeeps.of_eq ⟨rfl, rfl, rfl⟩ hsub.counted rfl rfl)
              · rcases List.mem_cons.mp h with h | h
                · cases h
                · obtain ⟨hframe, hcounted⟩ :=
                    hcall.counted p.area _ hreq.counted hevents area' queue' st' h
                  exact ⟨hreq.frame.trans hframe, hcounted⟩

/-- The offers, one after the other. -/
theorem forward_keeps (hcall : CallOk passive sub events t w) :
    ∀ {as : List AreaUplink} {st : Areafix}, st.auth.fwd = true → Counted passive st →
      (∀ e ∈ forwardEvents t w sub events as st, SubEventOk passive t w e) →
      SubKeeps passive st (as.foldl (subForward t w sub) st) ∧
        ∀ area' queue' st', SubEvent.pass area' queue' st' ∈ forwardEvents t w sub events as st →
          Frame st st' ∧ Counted passive st'
  | [], st, _, hc, _ => ⟨SubKeeps.refl hc, fun _ _ _ h => by cases h⟩
  | a :: as, st, hfwd, hc, hok => by
      have hst : { st with auth := { st.auth with fwd := true } } = st := by rw [← hfwd]
      rw [forwardEvents, hst] at hok ⊢
      obtain ⟨hone, hpass⟩ := subRequest_keeps hcall hc fun e he =>
        hok e (List.mem_append_left _ he)
      have hstep : subForward t w sub st a = subRequest t w sub a st := by rw [subForward, hst]
      rw [← hstep] at hone
      obtain ⟨hrest, hpasses⟩ := forward_keeps hcall (hone.frame.auth ▸ hfwd) hone.counted
        fun e he => hok e (List.mem_append_right _ he)
      refine ⟨hone.trans hrest, fun area' queue' st' h => ?_⟩
      rcases List.mem_append.mp h with h | h
      · exact hpass area' queue' st' h
      · obtain ⟨hframe, hcounted⟩ := hpasses area' queue' st' h
        exact ⟨hone.frame.trans hframe, hcounted⟩

/-- A call without a queue that is broken off has changed no area. -/
theorem cmdSub_broken {depth : Nat} {area : Str} {st : Areafix} (hwild : isWildcard area = false)
    (hok : ∀ e ∈ subEvents t w depth area false st, SubEventOk passive t w e)
    (hret : (cmdSub t w depth area false st).1 ≠ OK) :
    (cmdSub t w depth area false st).2.areas = st.areas := by
  cases depth with
  | zero => exact absurd rfl hret
  | succ depth =>
      rw [subEvents] at hok
      rw [cmdSub] at hret ⊢
      split at hret
      · exact absurd rfl hret
      · next hauth =>
          rw [if_neg hauth] at hok ⊢
          have hpass : PassOk passive t area false st :=
            hok (.pass area false st) List.mem_cons_self
          dsimp only at hret ⊢
          split at hret
          · next ret hr => exact cmdSubLoop_broken hwild hpass.entries ret hr hret rfl
          · split at hret
            · exact absurd rfl hret
            · exact absurd rfl hret

/-- `cmd_sub` with all that it calls. -/
theorem cmdSub_keeps : ∀ (depth : Nat) {area : Str} {queue : Bool} {st : Areafix},
    Counted passive st → (∀ e ∈ subEvents t w depth area queue st, SubEventOk passive t w e) →
    SubKeeps passive st (cmdSub t w depth area queue st).2 ∧
      ∀ area' queue' st', SubEvent.pass area' queue' st' ∈ subEvents t w depth area queue st →
        Frame st st' ∧ Counted passive st'
  | 0, _, _, _, hc, _ => ⟨SubKeeps.refl hc, fun _ _ _ h => by cases h⟩
  | depth + 1, area, queue, st, hc, hok => by
      have hcall : CallOk passive (fun area st => cmdSub t w depth area false st)
          (fun area st => subEvents t w depth area false st) t w :=
        ⟨fun area st hc hok => (cmdSub_keeps depth hc hok).1, fun _ _ => cmdSub_broken,
          fun area st hc hok => (cmdSub_keeps depth hc hok).2⟩
      rw [subEvents] at hok ⊢
      rw [cmdSub]
      split
      · exact ⟨SubKeeps.refl hc, fun _ _ _ h => by cases h⟩
      · next hauth =>
          rw [if_neg hauth] at hok
          have hpass := @subAreas_keeps t w st area passive queue hc (hok _ List.mem_cons_self)
          have hself : ∀ area' queue' st', SubEvent.pass area' queue' st' =
              SubEvent.pass area queue st → Frame st st' ∧ Counted passive st' := by
            intro _ _ _ h
            cases h
            exact ⟨Frame.refl st, hc⟩
          dsimp only at hok ⊢
          cases hret : (subAreas t w area queue st).1 with
          | some ret =>
              refine ⟨hpass, fun area' queue' st' h => ?_⟩
              exact hself _ _ _ (List.mem_singleton.mp h)
          | none =>
              rw [hret] at hok
              dsimp only at hok ⊢
              split
              · next hfwd =>
                  rw [if_pos hfwd] at hok
                  rw [Bool.and_eq_true] at hfwd
                  have hfwd' : (subAreas t w area queue st).2.2.auth.fwd = true := hfwd.1
                  obtain ⟨hrest, hpasses⟩ := forward_keeps hcall hfwd' hpass.counted
                    fun e he => hok e (List.mem_cons_of_mem _ he)
                  refine ⟨hpass.trans hrest, fun area' queue' st' h => ?_⟩
                  rcases List.mem_cons.mp h with h | h
                  · exact hself _ _ _ h
                  · obtain ⟨hframe, hcounted⟩ := hpasses area' queue' st' h
                    exact ⟨hpass.frame.trans hframe, hcounted⟩
              · refine ⟨hpass, fun area' queue' st' h => ?_⟩
                exact hself _ _ _ (List.mem_singleton.mp h)

end

/-! ## The other commands -/

/-- An entry UNSUBSCRIBE takes the node from: the counter is set, and the node
was listed once. -/
def UnsubEntryOk (passive : Bool) (st : Areafix) (p : AreasBBS) : Prop :=
  if p.nodes.isEmpty then
    passive = true → 1 ≤ st.limG → lonSearch p.passive st.node = false
  else
    lonSearch p.nodes st.node = true → 1 ≤ st.limG ∧
      linkedIn passive st.node { p with
        nodes := lonRemove p.nodes st.node, passive := lonRemove p.passive st.node } = false

/-- The first entry that is meant, if there is one, ends the command. -/
def FirstStops (means stops : AreasBBS → Bool) (ps : List AreasBBS) : Prop :=
  ∀ p, ps.find? means = some p → stops p = true

/-- The node PASSWD goes on with. -/
def passwdNode (st : Areafix) (arg : Str) : Option Node :=
  (strtok blanks arg).head?.bind (ascToNode false st.cf.defzone)

/-- The condition of a command. -/
def CmdOk (passive : Bool) (t : Tables) (w : World) (st : Areafix) : Cmd → Str → Prop
  | .print, _ => True
  | .sub, area => ∀ e ∈ subEvents t w 2 area true st, SubEventOk passive t w e
  | .unsub, area => st.auth.authorized = true →
      ∀ p ∈ st.areas, wildmatch p.area area true = true → UnsubEntryOk passive st p
  | .passwd, arg => 1 ≤ st.limG → ∀ n, passwdNode st arg = some n →
      linkedAreas passive n st.areas = linkedAreas passive st.node st.areas
  | .new, arg => ∀ q ∈ (cmdNew t w st.node arg false false st).2.areas,
      q ∈ st.areas ∨ lonSearch q.nodes st.node = false
  | .delete, area => st.auth.delete = true → 1 ≤ st.limG →
      ∀ p ∈ st.areas, wildmatch p.area area true = true → linkedIn passive st.node p = false
  | .passive, area => passive = false → st.auth.authorized = true → 1 ≤ st.limG →
      FirstStops (passiveMeans st.node area) (passiveStops t st.node area) st.areas
  | .active, area => passive = false → st.auth.authorized = true →
      FirstStops (activeMeans st.node area) (activeStops t st.node area) st.areas ∨
        st.limG < 1 ∧ (st.auth.limG ≤ 0 ∨
          linkedAreas false st.node st.areas + st.areas.countP (activeMeans st.node area) ≤
            st.auth.limG)

section

variable {t : Tables} {w : World} {st : Areafix} {area : Str} {passive : Bool}

theorem unsubArea_linked {cf : Config} {node : Node} {p q : AreasBBS}
    (h : (unsubArea t cf node p).1 = some q) : linkedIn passive node q =
      linkedIn passive node { p with
        nodes := lonRemove p.nodes node, passive := lonRemove p.passive node } := by
  unfold unsubArea at h
  dsimp only at h
  split at h
  · split at h
    · cases h
    · rw [← Option.some.inj h]
  · split at h
    · split at h
      · rw [← Option.some.inj h]
        rfl
      · cases h
    · rw [← Option.some.inj h]
  · rw [← Option.some.inj h]

/-- An entry is kept, removed without being linked, or left by the node. -/
inductive UnsubOutcome (passive : Bool) (st st' : Areafix) (p : AreasBBS) : Areafix → Prop
  | keep (s : Areafix) : s.limG = st'.limG → s.areas = st'.areas ++ [p] →
      UnsubOutcome passive st st' p s
  | dead (s : Areafix) : s.limG = st'.limG → s.areas = st'.areas →
      (1 ≤ st.limG → linkedIn passive st.node p = false) → UnsubOutcome passive st st' p s
  | leave (s : Areafix) : 1 ≤ st.limG → s.limG = st'.limG - 1 →
      linkedAreas passive st.node s.areas = linkedAreas passive st.node st'.areas →
      linkedIn passive st.node p = true → UnsubOutcome passive st st' p s

theorem unsubStep_outcome (st' : Areafix) {p : AreasBBS}
    (hok : wildmatch p.area area true = true → UnsubEntryOk passive st p) :
    UnsubOutcome passive st st' p (unsubStep t st area st' p) := by
  unfold unsubStep
  split
  · next hmatch =>
      have hentry := hok hmatch
      rw [UnsubEntryOk] at hentry
      split
      · next hempty =>
          rw [if_pos hempty] at hentry
          refine .dead _ rfl rfl fun hset => ?_
          rw [linkedIn, List.isEmpty_iff.mp hempty]
          cases passive with
          | false => rfl
          | true => exact hentry rfl hset
      · next hempty =>
          rw [if_neg hempty] at hentry
          split
          · next hnode =>
              obtain ⟨hset, hleft⟩ := hentry hnode
              refine .leave _ hset rfl ?_ (by rw [linkedIn, hnode, Bool.true_or])
              dsimp only
              rw [linkedAreas_append]
              cases hres : (unsubArea t st.cf st.node p).1 with
              | none => rfl
              | some q =>
                  rw [Option.toList_some, linkedAreas_cons, unsubArea_linked hres, hleft]
                  rfl
          · exact .keep _ rfl rfl
  · exact .keep _ rfl rfl

/-- What the loop takes from the counter, it takes from the number. -/
theorem unsubStep_foldl : ∀ {ps : List AreasBBS} (st' : Areafix),
    (∀ p ∈ ps, wildmatch p.area area true = true → UnsubEntryOk passive st p) →
    let s := ps.foldl (unsubStep t st area) st'
    (1 ≤ st.limG → s.limG - linkedAreas passive st.node s.areas =
      st'.limG - (linkedAreas passive st.node st'.areas + linkedAreas passive st.node ps)) ∧
    (st.limG < 1 → s.limG = st'.limG) ∧
    linkedAreas passive st.node s.areas ≤
      linkedAreas passive st.node st'.areas + linkedAreas passive st.node ps
  | [], st', _ => ⟨fun _ => by simp [linkedAreas], fun _ => rfl, Nat.le_add_right _ _⟩
  | p :: ps, st', hok => by
      obtain ⟨h1, h2, h3⟩ := @unsubStep_foldl ps (unsubStep t st area st' p)
        fun q hq => hok q (List.mem_cons_of_mem p hq)
      have hout := @unsubStep_outcome t st area passive st' p (hok p List.mem_cons_self)
      rw [List.foldl_cons]
      revert h1 h2 h3 hout
      generalize unsubStep t st area st' p = s
      intro h1 h2 h3 hout
      dsimp only at h1 h2 h3 ⊢
      cases hout with
      | keep hl ha =>
          rw [hl, ha, linkedAreas_append, linkedAreas_cons] at h1
          rw [hl] at h2
          rw [ha, linkedAreas_append, linkedAreas_cons] at h3
          rw [linkedAreas_cons]
          simp only [linkedAreas, List.countP_nil] at *
          exact ⟨fun h => by have := h1 h; omega, h2, by omega⟩
      | dead hl ha hnot =>
          rw [hl, ha] at h1
          rw [hl] at h2
          rw [ha] at h3
          rw [linkedAreas_cons]
          refine ⟨fun h => ?_, h2, by omega⟩
          have hcount := h1 h
          rw [hnot h]
          simp only [Bool.false_eq_true, if_false]
          omega
      | leave hset hl ha hp =>
          rw [hl, ha] at h1
          rw [ha] at h3
          rw [linkedAreas_cons, hp, if_pos rfl]
          exact ⟨fun h => by have := h1 h; omega, fun h => by omega, by omega⟩

theorem cmdUnsub_keeps (hc : Counted passive st) (hok : CmdOk passive t w st .unsub area) :
    SubKeeps passive st (cmdUnsub t area st).2 := by
  have hframe := cmdUnsub_frame t area st
  by_cases hauth : st.auth.authorized = true
  · have heq := cmdUnsub_foldl t area hauth
    obtain ⟨h1, h2, h3⟩ := @unsubStep_foldl t st area passive st.areas { st with areas := [] }
      (hok hauth)
    rw [heq] at hframe ⊢
    have hnil : linkedAreas passive st.node [] = 0 := rfl
    dsimp only at h1 h2 h3
    rw [hnil] at h1 h3
    have hnonneg := hc.nonneg
    refine ⟨hframe, ⟨?_, fun hpos => ?_⟩, fun _ _ => ?_⟩
    · by_cases hset : 1 ≤ st.limG
      · have := h1 hset
        have := hc.eq hset
        omega
      · rw [h2 (by omega)]
        exact hnonneg
    · rw [hframe.node]
      by_cases hset : 1 ≤ st.limG
      · have := h1 hset
        have := hc.eq hset
        omega
      · rw [h2 (by omega)] at hpos
        omega
    · omega
  · rw [cmdUnsub, Bool.eq_false_iff.mpr hauth]
    exact SubKeeps.refl hc

/-! ### PASSIVE and ACTIVE -/

theorem firstStops_cons {means stops : AreasBBS → Bool} {p : AreasBBS} {ps : List AreasBBS}
    (h : FirstStops means stops (p :: ps)) :
    means p = true ∧ stops p = true ∨ means p = false ∧ FirstStops means stops ps := by
  cases hp : means p with
  | true => exact .inl ⟨rfl, h p (by rw [List.find?_cons, hp])⟩
  | false => exact .inr ⟨rfl, fun q hq => h q (by rw [List.find?_cons, hp]; exact hq)⟩

theorem sweep_same {β : Type*} {f : AreasBBS → Option (List AreasBBS × List β)}
    {means stops : AreasBBS → Bool} (hmeans : ∀ p, means p = false → f p = some ([p], []))
    (hstops : ∀ p, stops p = true → f p = none) : ∀ {ps : List AreasBBS},
    FirstStops means stops ps → (Sweep.sweep f ps).1 = ps
  | [], _ => rfl
  | p :: ps, h => by
      obtain ⟨-, hp⟩ | ⟨hp, hrest⟩ := firstStops_cons h
      · rw [Sweep.sweep, hstops p hp]
      · rw [Sweep.sweep, hmeans p hp]
        exact congrArg (p :: ·) (sweep_same hmeans hstops hrest)

theorem sweep_linked {β : Type*} {f : AreasBBS → Option (List AreasBBS × List β)} {node : Node}
    (hf : ∀ p qs rs, f p = some (qs, rs) →
      linkedAreas passive node qs = linkedAreas passive node [p]) : ∀ ps : List AreasBBS,
    linkedAreas passive node (Sweep.sweep f ps).1 = linkedAreas passive node ps
  | [] => rfl
  | p :: ps => by
      rw [Sweep.sweep]
      cases h : f p with
      | none => rfl
      | some r =>
          dsimp only
          rw [linkedAreas_append, hf p r.1 r.2 h, sweep_linked hf ps, ← linkedAreas_append]
          rfl

theorem sweep_linked_le {β : Type*} {f : AreasBBS → Option (List AreasBBS × List β)} {node : Node}
    {more : AreasBBS → Bool} (hf : ∀ p qs rs, f p = some (qs, rs) →
      linkedAreas passive node qs ≤ linkedAreas passive node [p] + [p].countP more) :
    ∀ ps : List AreasBBS, linkedAreas passive node (Sweep.sweep f ps).1 ≤
      linkedAreas passive node ps + ps.countP more
  | [] => Nat.le_refl _
  | p :: ps => by
      have hcons : linkedAreas passive node (p :: ps) =
          linkedAreas passive node [p] + linkedAreas passive node ps := by
        rw [← linkedAreas_append]
        rfl
      have hmore : (p :: ps).countP more = [p].countP more + ps.countP more := by
        rw [← List.countP_append]
        rfl
      rw [Sweep.sweep, hcons, hmore]
      cases h : f p with
      | none =>
          dsimp only
          rw [hcons]
          omega
      | some r =>
          have h1 := hf p r.1 r.2 h
          have h2 := sweep_linked_le hf ps
          dsimp only
          rw [linkedAreas_append]
          omega

theorem linkedAreas_single (node : Node) (p : AreasBBS) :
    linkedAreas passive node [p] = if linkedIn passive node p then 1 else 0 := by
  rw [linkedAreas_cons]
  rfl

/-- PASSIVE puts the node from one list into the other. -/
theorem passiveEntry_cases {cf : Config} {node : Node} {p : AreasBBS} {qs : List AreasBBS}
    {rs : List UplReq} (h : passiveEntry t w cf node area p = some (qs, rs)) :
    qs = [p] ∨ lonSearch p.nodes node = true ∧ ∃ q : AreasBBS, qs = [q] ∧
      q.nodes = lonRemove p.nodes node ∧ q.passive = p.passive ++ [node] := by
  unfold passiveEntry at h
  split at h
  · next hmeans =>
      have hnode : lonSearch p.nodes node = true := by
        simp only [passiveMeans, Bool.and_eq_true] at hmeans
        exact hmeans.1.1.2
      refine .inr ⟨hnode, ?_⟩
      split at h
      · obtain ⟨a, -, h⟩ := Option.map_eq_some_iff.mp h
        cases h
        exact ⟨_, rfl, rfl, rfl⟩
      · cases h
        exact ⟨_, rfl, rfl, rfl⟩
  · cases h
    exact .inl rfl

theorem activeEntry_cases {cf : Config} {node : Node} {p : AreasBBS} {qs : List AreasBBS}
    {rs : List UplReq} (h : activeEntry t cf node area p = some (qs, rs)) :
    qs = [p] ∨ activeMeans node area p = true ∧ lonSearch p.passive node = true ∧
      ∃ q : AreasBBS, qs = [q] ∧ q.nodes = p.nodes ++ [node] := by
  unfold activeEntry at h
  split at h
  · next hmeans =>
      have hpassive : lonSearch p.passive node = true := by
        simp only [activeMeans, Bool.and_eq_true] at hmeans
        exact hmeans.1.2
      refine .inr ⟨hmeans, hpassive, ?_⟩
      split at h
      · obtain ⟨a, -, h⟩ := Option.map_eq_some_iff.mp h
        cases h
        exact ⟨_, rfl, rfl⟩
      · cases h
        exact ⟨_, rfl, rfl⟩
  · cases h
    exact .inl rfl

/-- Areas with the same number behind them, or a smaller one where the counter
is not set. -/
theorem after_keeps {r : List AreasBBS × List Str × Bool} (hc : Counted passive st)
    (hset : 1 ≤ st.limG →
      linkedAreas passive st.node r.1 = linkedAreas passive st.node st.areas)
    (hbound : st.limG < 1 → 0 < st.auth.limG → (linkedAreas passive st.node r.1 : Int) ≤
      max (linkedAreas passive st.node st.areas : Int) st.auth.limG) :
    SubKeeps passive st (st.after r) := by
  refine ⟨⟨rfl, rfl, rfl⟩, ⟨hc.nonneg, fun hpos => ?_⟩, fun _ hpos => ?_⟩
  · exact (hc.eq hpos).trans (congrArg _ (hset hpos).symm)
  · by_cases h : 1 ≤ st.limG
    · have := hset h
      change (linkedAreas passive st.node r.1 : Int) ≤ _
      omega
    · exact hbound (by omega) hpos

theorem cmdPassive_keeps (hc : Counted passive st) (hok : CmdOk passive t w st .passive area) :
    SubKeeps passive st (cmdPassive t w area st).2 := by
  rw [cmdPassive]
  by_cases hauth : st.auth.authorized = true
  · rw [hauth, if_neg (by decide)]
    have hsweep := (@cmdPassiveLoop_sweep t w st.cf st.node area st.areas).1
    cases passive with
    | true =>
        have hlinked : linkedAreas true st.node (cmdPassiveLoop t w st.node st.cf area st.areas).1 =
            linkedAreas true st.node st.areas := by
          rw [hsweep]
          refine sweep_linked (fun p qs rs h => ?_) st.areas
          obtain rfl | ⟨hnode, q, rfl, -, hq⟩ := passiveEntry_cases h
          · rfl
          · rw [linkedAreas_single, linkedAreas_single, linkedIn, linkedIn, hq, lonSearch_append,
              lonSearch_singleton, hnode]
            simp
        exact after_keeps hc (fun _ => hlinked) fun _ _ => by omega
    | false =>
        refine after_keeps hc (fun hset => ?_) fun _ _ => ?_
        · rw [hsweep, sweep_same ?_ ?_ (hok rfl hauth hset)]
          · intro p hp
            rw [passiveEntry, hp]
            rfl
          · intro p hp
            rw [← Option.isNone_iff_eq_none, ← Option.not_isSome, passiveEntry_isSome, hp]
            rfl
        · have hle := @sweep_linked_le false UplReq (passiveEntry t w st.cf st.node area) st.node
            (fun _ => false) (fun p qs rs h => by
              obtain rfl | ⟨hnode, q, rfl, -, -⟩ := passiveEntry_cases h
              · exact Nat.le_add_right _ _
              · rw [linkedAreas_single, linkedAreas_single, linkedIn, linkedIn, hnode]
                split <;> simp) st.areas
          rw [List.countP_eq_zero.mpr fun _ _ => Bool.false_ne_true] at hle
          rw [hsweep]
          omega
  · rw [Bool.eq_false_iff.mpr hauth]
    exact SubKeeps.refl hc

theorem cmdActive_keeps (hc : Counted passive st) (hok : CmdOk passive t w st .active area) :
    SubKeeps passive st (cmdActive t area st).2 := by
  rw [cmdActive]
  by_cases hauth : st.auth.authorized = true
  · rw [hauth, if_neg (by decide)]
    have hsweep := (@cmdActiveLoop_sweep t st.cf st.node area st.areas).1
    cases passive with
    | true =>
        have hlinked : linkedAreas true st.node (cmdActiveLoop t st.node st.cf area st.areas).1 =
            linkedAreas true st.node st.areas := by
          rw [hsweep]
          refine sweep_linked (fun p qs rs h => ?_) st.areas
          obtain rfl | ⟨-, hpassive, q, rfl, hq⟩ := activeEntry_cases h
          · rfl
          · rw [linkedAreas_single, linkedAreas_single, linkedIn, linkedIn, hq, lonSearch_append,
              lonSearch_singleton, hpassive]
            simp
        exact after_keeps hc (fun _ => hlinked) fun _ _ => by omega
    | false =>
        have hsame : FirstStops (activeMeans st.node area) (activeStops t st.node area) st.areas →
            (Sweep.sweep (activeEntry t st.cf st.node area) st.areas).1 = st.areas := by
          refine sweep_same (fun p hp => ?_) (fun p hp => ?_)
          · rw [activeEntry, hp]
            rfl
          · rw [← Option.isNone_iff_eq_none, ← Option.not_isSome, activeEntry_isSome, hp]
            rfl
        obtain hstops | ⟨hunset, hbound⟩ := hok rfl hauth
        · refine after_keeps hc (fun _ => ?_) fun _ _ => ?_
          · rw [hsweep, hsame hstops]
          · rw [hsweep, hsame hstops]
            exact Int.le_max_left _ _
        · refine after_keeps hc (fun hset => by omega) fun _ hpos => ?_
          have hle := @sweep_linked_le false UplReq (activeEntry t st.cf st.node area) st.node
            (activeMeans st.node area) (fun p qs rs h => by
              obtain rfl | ⟨hmeans, -, q, rfl, -⟩ := activeEntry_cases h
              · exact Nat.le_add_right _ _
              · rw [linkedAreas_single, List.countP_singleton, hmeans]
                split <;> simp) st.areas
          rw [hsweep]
          omega
  · rw [Bool.eq_false_iff.mpr hauth]
    exact SubKeeps.refl hc

/-! ### DELETE and PASSWD -/

theorem cmdDelete_keeps (hc : Counted passive st) (hok : CmdOk passive t w st .delete area) :
    SubKeeps passive st (cmdDelete area st).2 := by
  have hframe := cmdDelete_frame area st
  by_cases hauth : st.auth.delete = true
  · have heq : (cmdDelete area st).2.areas =
        st.areas.filter fun p => ! wildmatch p.area area true := by
      rw [cmdDelete, hauth, if_neg (by decide)]
    have hlim : (cmdDelete area st).2.limG = st.limG := by
      rw [cmdDelete, hauth, if_neg (by decide)]
    have hle : linkedAreas passive st.node (cmdDelete area st).2.areas ≤
        linkedAreas passive st.node st.areas := by
      rw [heq]
      exact List.filter_sublist.countP_le
    refine ⟨hframe, ⟨hlim ▸ hc.nonneg, fun hpos => ?_⟩, fun _ _ => by omega⟩
    rw [hlim] at hpos ⊢
    rw [hframe.node, hc.eq hpos, heq, linkedAreas, linkedAreas, List.countP_filter]
    refine congrArg _ (List.countP_congr fun p hp => ?_)
    by_cases hmatch : wildmatch p.area area true = true
    · rw [hmatch, hok hauth hpos p hp hmatch]
      simp
    · rw [Bool.eq_false_iff.mpr hmatch]
      simp
  · rw [cmdDelete, Bool.eq_false_iff.mpr hauth]
    exact SubKeeps.refl hc

theorem cmdPasswd_counted {arg : Str} (hc : Counted passive st)
    (hok : CmdOk passive t w st .passwd arg) : Counted passive (cmdPasswd t w arg st).2 := by
  have hsame : ∀ st' : Areafix, st'.limG = st.limG → st'.areas = st.areas → st'.node = st.node →
      Counted passive st' := by
    intro st' hl ha hn
    exact ⟨hl ▸ hc.nonneg, fun h => by rw [hl, ha, hn]; exact hc.eq (hl ▸ h)⟩
  have hnode : ∀ (n : Node) (st' : Areafix), passwdNode st arg = some n → st'.limG = st.limG →
      st'.areas = st.areas → st'.node = n → Counted passive st' := by
    intro n st' h hl ha hn
    refine ⟨hl ▸ hc.nonneg, fun hpos => ?_⟩
    rw [hl] at hpos
    rw [hl, ha, hn, hok hpos n h]
    exact hc.eq hpos
  unfold passwdNode at hnode
  unfold cmdPasswd
  dsimp only
  cases htok : strtok blanks arg with
  | nil => exact hsame _ rfl rfl rfl
  | cons addr args =>
      rw [htok, List.head?_cons, Option.bind_some] at hnode
      dsimp only
      cases haddr : ascToNode false st.cf.defzone addr with
      | none => exact hsame _ rfl rfl rfl
      | some n =>
          cases args with
          | nil => exact hnode n _ haddr rfl rfl rfl
          | cons p args => exact hnode n _ haddr rfl rfl rfl

/-- A command other than PASSWD. -/
theorem areafixDoCmd_keeps {line : Str} (hc : Counted passive st)
    (hok : ∀ c arg, parseCmd st.cf line = some (c, arg) → CmdOk passive t w st c arg)
    (hno : ∀ arg, parseCmd st.cf line ≠ some (.passwd, arg)) :
    SubKeeps passive st (areafixDoCmd t w line st) := by
  unfold areafixDoCmd
  cases hparse : parseCmd st.cf line with
  | none => exact SubKeeps.refl hc
  | some ca =>
      obtain ⟨c, arg⟩ := ca
      have hcmd := hok c arg hparse
      cases c with
      | print => exact SubKeeps.refl hc
      | sub => exact (cmdSub_keeps 2 hc hcmd).1
      | unsub => exact cmdUnsub_keeps (w := w) hc hcmd
      | passwd => exact absurd hparse (hno arg)
      | new =>
          exact SubKeeps.of_eq (cmdNew_frame t w st.node arg false false st) hc
            (cmdNew_limit st.node arg false false st) (cmdNew_linked hcmd)
      | delete => exact cmdDelete_keeps (t := t) (w := w) hc hcmd
      | passive => exact cmdPassive_keeps hc hcmd
      | active => exact cmdActive_keeps (w := w) hc hcmd

theorem areafixDoCmd_counted {line : Str} (hc : Counted passive st)
    (hok : ∀ c arg, parseCmd st.cf line = some (c, arg) → CmdOk passive t w st c arg) :
    Counted passive (areafixDoCmd t w line st) := by
  by_cases hno : ∀ arg, parseCmd st.cf line ≠ some (.passwd, arg)
  · exact (areafixDoCmd_keeps hc hok hno).counted
  · rw [not_forall] at hno
    obtain ⟨arg, harg⟩ := hno
    rw [not_not] at harg
    unfold areafixDoCmd
    rw [harg]
    exact cmdPasswd_counted hc (hok _ _ harg)

end

/-! ## Runs -/

/-- The condition on an event: another node that sends a request while the
counter is set has the same number. -/
def LimitOk (passive : Bool) (t : Tables) (st : Areafix) : Event → Prop
  | .start _ node _ => 1 ≤ st.limG →
      linkedAreas passive node st.areas = linkedAreas passive st.node st.areas
  | .cmd w line => ∀ c arg, parseCmd st.cf line = some (c, arg) → CmdOk passive t w st c arg

/-- The limit decides in every pass of a SUBSCRIBE for the node that sends it. -/
def SubDecides (passive : Bool) (t : Tables) (w : World) (st : Areafix) (area : Str) : Prop :=
  ∀ area' queue' st', SubEvent.pass area' queue' st' ∈ subEvents t w 2 area true st →
    st'.node = st.node ∧ st'.auth = st.auth ∧
      ∀ p ps lp, Reaches t w st' area' queue' st'.areas (subStart st') p ps lp →
        LimitDecides passive t st' p ps lp

/-- The number does not grow beyond the general limit. -/
def LimitBounds (passive : Bool) (st st' : Areafix) : Prop :=
  st.auth.cmdline = false → 0 < st.auth.limG →
    (linkedAreas passive st.node st'.areas : Int) ≤
      max (linkedAreas passive st.node st.areas : Int) st.auth.limG

/-- In a run of the program whose events all meet their condition, the counter
is the number once it is set, the general limit decides with the number, and no
command but PASSWD makes it grow beyond the limit. -/
theorem subLimit_run (passive : Bool) {t : Tables} {st : Areafix} (hst : st.limG = 0)
    {es : List Event} (hmet : Run.Met (areafixStep t) (LimitOk passive t) st es) :
    let s := Run.run (areafixStep t) st es
    Counted passive s ∧ ∀ w line, LimitOk passive t s (.cmd w line) →
      (∀ area, parseCmd s.cf line = some (.sub, area) → SubDecides passive t w s area) ∧
      ((∀ arg, parseCmd s.cf line ≠ some (.passwd, arg)) →
        LimitBounds passive s (areafixDoCmd t w line s)) := by
  have hstep : ∀ s e, Counted passive s → LimitOk passive t s e →
      Counted passive (areafixStep t s e) := by
    intro s e hc hok
    cases e with
    | start w node subj =>
        exact ⟨hc.nonneg, fun hpos => (hc.eq hpos).trans (congrArg _ (hok hpos).symm)⟩
    | cmd w line => exact areafixDoCmd_counted hc hok
  have hinit : Counted passive st := ⟨by omega, fun h => by omega⟩
  have hc := Run.run_induct hstep es hinit hmet
  refine ⟨hc, fun w line hok => ⟨fun area hparse => ?_, fun hno => ?_⟩⟩
  · intro area' queue' st' hmem
    have hevents := hok _ _ hparse
    obtain ⟨hframe, hcounted⟩ := (cmdSub_keeps 2 hc hevents).2 area' queue' st' hmem
    refine ⟨hframe.node, hframe.auth, fun p ps lp hreach => ?_⟩
    exact pass_decides hcounted (hevents _ hmem) hreach
  · exact (areafixDoCmd_keeps hc hok hno).bounded

/-- Without forward requests there is one pass. -/
theorem subEvents_self {t : Tables} {w : World} {depth : Nat} {area : Str} {queue : Bool}
    {st : Areafix} (hauth : st.auth.authorized = true) (hfwd : st.auth.fwd = false) :
    subEvents t w (depth + 1) area queue st = [.pass area queue st] := by
  rw [subEvents, hauth, if_neg (by decide)]
  dsimp only
  split
  · rfl
  · rw [hfwd]
    rfl

/-- Two downlinks, each with a general limit of one area. -/
def limitTables : Tables :=
  { areafix := true, context := lit "af", uplinks := []
    passwds := [⟨lit "af", ⟨2, 5020, 2, 0, []⟩, lit "link", some (lit "1 - Link 1")⟩,
      ⟨lit "af", ⟨2, 5020, 3, 0, []⟩, lit "other", some (lit "1 - Other 1")⟩] }

/-- The first of them is linked to an area. -/
def limitAreas : Areafix :=
  { oneArea with
    areas := [{ areasbbsNew with
        area := lit "FOO", zone := 2, nodes := [⟨2, 5020, 9, 0, []⟩, ⟨2, 5020, 2, 0, []⟩] },
      { areasbbsNew with area := lit "BAR", zone := 2, nodes := [⟨2, 5020, 9, 0, []⟩] }] }

/-- The node links to one more area than its limit and is refused. -/
theorem subLimit_run_refused :
    let s := Run.run (areafixStep limitTables) limitAreas
      [.start emptyWorld ⟨2, 5020, 2, 0, []⟩ (lit "link"), .cmd emptyWorld (lit "+BAR")]
    Counted false s ∧ s.limG = 1 ∧ linkedAreas false s.node s.areas = 1 := by
  have hmet : Run.Met (areafixStep limitTables) (LimitOk false limitTables) limitAreas
      [.start emptyWorld ⟨2, 5020, 2, 0, []⟩ (lit "link"), .cmd emptyWorld (lit "+BAR")] := by
    refine ⟨fun h => absurd h (by decide), ?_, trivial⟩
    intro c arg hparse
    have hcmd : parseCmd limitAreas.cf (lit "+BAR") = some (.sub, lit "BAR") := by decide +kernel
    cases hcmd.symm.trans hparse
    intro e he
    rw [subEvents_self (by decide +kernel) (by decide +kernel)] at he
    cases List.mem_singleton.mp he
    exact ⟨.inr (by decide +kernel), by decide +kernel⟩
  exact ⟨(subLimit_run false rfl hmet).1, by decide +kernel, by decide +kernel⟩

/-- The counter of the first downlink is held against the second, which is
linked to no area. -/
theorem areafixDoCmd_otherLimit :
    let s := Run.run (areafixStep limitTables) limitAreas
      [.start emptyWorld ⟨2, 5020, 2, 0, []⟩ (lit "link"), .cmd emptyWorld (lit "+FOO"),
        .cmd emptyWorld (lit "PASSWD 2:5020/3 other")]
    let sub := areafixDoCmd limitTables emptyWorld (lit "+BAR")
    s.auth.authorized = true ∧ s.auth.limG = 1 ∧ s.limG = 1 ∧
      linkedAreas false s.node s.areas = 0 ∧ linkedAreas true s.node s.areas = 0 ∧
      linkedAreas false s.node (sub s).areas = 0 ∧
      linkedAreas false s.node (sub { s with limG := 0 }).areas = 1 := by
  decide +kernel

end Fidogate

/-
# `Fidogate.Areafix.Forward` — what SUBSCRIBE requests from the uplinks

The areas the uplinks offer are read off their lists (`offers`); a name takes
the first of them and a pattern takes them all.  An offer is created and
subscribed to by a call of `cmd_sub` with the name as its pattern, so what
that call does is known where the name is plain.  From the step over one offer
(`subForward_step`) follows what SUBSCRIBE forwards (`Forwarded`).
-/
import Fidogate.Areafix.Authorize
import Fidogate.Areafix.Create

namespace Fidogate

open Bytes

/-! ## What the uplinks offer -/

/-- An entry `!pattern` for the area. -/
def excludesName (area n : Str) : Bool := n.head? == some 33 && uplinkMatch area n.tail

def offersName (area n : Str) : Bool := n.head? != some 33 && uplinkMatch area n

/-- The entries of a list that count: those before one that excludes the
area, but all of them where the area is a pattern. -/
def inForce (area : Str) (ns : List Str) : List Str :=
  if isWildcard area then ns else ns.takeWhile (! excludesName area ·)

/-- The entries in a file of patterns. -/
def fileNames (files : Str → Option (List Str)) (n : Str) : List Str :=
  (((files n).map cfLines).getD []).filterMap fun l => (xstrtok blanks l).head?

/-- The names a list offers, in its order. -/
def offeredNames (files : Str → Option (List Str)) (area : Str) (ns : List Str) : List Str :=
  (inForce area ns).flatMap fun n =>
    (if isAreaFile n then inForce area (fileNames files n) else [n]).filter (offersName area)

/-- What the uplinks of a robot offer, in the order of the table. -/
def offers (files : Str → Option (List Str)) (areafix : Bool) (area : Str)
    (uplinks : List AreaUplink) : List AreaUplink :=
  (uplinks.filter (·.areafix == areafix)).flatMap fun a =>
    (offeredNames files area (strtok (lit ",") a.areas)).map fun n => { a with areas := n }

/-- A name takes the first offer, a pattern takes all. -/
def taken {α : Type*} (area : Str) (l : List α) : List α := if isWildcard area then l else l.take 1

section

variable {α : Type*} {area : Str}

@[simp] theorem taken_nil : taken area ([] : List α) = [] := by
  unfold taken
  split <;> rfl

theorem taken_append (l m : List α) : taken area (l ++ m) =
    if isWildcard area || l.isEmpty then taken area l ++ taken area m else taken area l := by
  unfold taken
  cases isWildcard area with
  | true => rfl
  | false =>
      cases l with
      | nil => rfl
      | cons a l => rfl

theorem taken_map {β : Type*} (f : α → β) (l : List α) :
    taken area (l.map f) = (taken area l).map f := by
  unfold taken
  split
  · rfl
  · exact List.map_take.symm

/-- An entry is in force with those behind it, or it excludes the area. -/
theorem inForce_cons (n : Str) (ns : List Str) : inForce area (n :: ns) =
    if excludesName area n && ! isWildcard area then [] else n :: inForce area ns := by
  unfold inForce
  cases isWildcard area with
  | true => rw [Bool.not_true, Bool.and_false]; rfl
  | false =>
      rw [Bool.not_false, Bool.and_true]
      simp only [Bool.false_eq_true, if_false, List.takeWhile_cons]
      cases excludesName area n <;> rfl

/-- Names in front of what else is found: they end the search for a name. -/
theorem taken_found (l m : List α) (r : List α × Bool)
    (hr : r = (taken area m, isWildcard area || m.isEmpty)) :
    (if isWildcard area || l.isEmpty then (taken area l ++ r.1, r.2)
      else (taken area l, isWildcard area || l.isEmpty)) =
    (taken area (l ++ m), isWildcard area || (l ++ m).isEmpty) := by
  rw [hr, taken_append]
  cases isWildcard area with
  | true => rfl
  | false =>
      cases l with
      | nil => rfl
      | cons a l => rfl

/-- An entry excludes the area and ends the list, or it offers the area, or
neither. -/
theorem entry_cases (n : Str) (rest : List Str × Bool) :
    (if n.head? == some 33 then
      if uplinkMatch area n.tail && ! isWildcard area then ([], true) else rest
    else if uplinkMatch area n then
      if isWildcard area then (n :: rest.1, rest.2) else ([n], false)
    else rest) =
    if excludesName area n && ! isWildcard area then ([], true)
    else if isWildcard area || ([n].filter (offersName area)).isEmpty then
      (taken area ([n].filter (offersName area)) ++ rest.1, rest.2)
    else (taken area ([n].filter (offersName area)),
      isWildcard area || ([n].filter (offersName area)).isEmpty) := by
  rw [List.filter_cons, List.filter_nil]
  unfold excludesName offersName taken bne
  cases n.head? == some 33 with
  | true =>
      rw [Bool.true_and, Bool.not_true, Bool.false_and, if_pos rfl]
      split
      · rfl
      · simp
  | false =>
      simp only [Bool.false_and, Bool.not_false, Bool.true_and, Bool.false_eq_true, if_false]
      cases uplinkMatch area n with
      | true => cases isWildcard area <;> rfl
      | false => simp

theorem uplinkScan_eq : ∀ ns : List Str, uplinkScan area ns =
    (taken area ((inForce area ns).filter (offersName area)),
      isWildcard area || ((inForce area ns).filter (offersName area)).isEmpty)
  | [] => by
      unfold inForce
      cases h : isWildcard area <;> simp [uplinkScan, taken, h]
  | n :: ns => by
      have ih := uplinkScan_eq ns
      rw [uplinkScan, entry_cases, taken_found _ _ _ ih, inForce_cons]
      split
      · rw [List.filter_nil, taken_nil, List.isEmpty_nil, Bool.or_true]
      · rw [← List.filter_append, List.singleton_append]

/-- The name of a file is no exclusion. -/
theorem excludesName_of_isAreaFile {n : Str} (h : isAreaFile n = true) :
    excludesName area n = false := by
  cases hb : excludesName area n with
  | false => rfl
  | true =>
      have hb := beq_iff_eq.mp ((Bool.and_eq_true _ _).mp hb).1
      rw [isAreaFile, hb] at h
      exact absurd h (by decide)

theorem uplinkNames_eq (files : Str → Option (List Str)) : ∀ ns : List Str,
    uplinkNames files area ns = (taken area (offeredNames files area ns),
      isWildcard area || (offeredNames files area ns).isEmpty)
  | [] => by
      unfold offeredNames inForce
      cases h : isWildcard area <;> simp [uplinkNames, taken, h]
  | n :: ns => by
      have ih := uplinkNames_eq files ns
      have hcons : offeredNames files area (n :: ns) =
          if excludesName area n && ! isWildcard area then []
          else (if isAreaFile n then inForce area (fileNames files n) else [n]).filter
            (offersName area) ++ offeredNames files area ns := by
        unfold offeredNames
        rw [inForce_cons]
        split
        · rfl
        · rw [List.flatMap_cons]
      rw [hcons, uplinkNames]
      cases hf : isAreaFile n with
      | true =>
          simp only [excludesName_of_isAreaFile hf, Bool.false_and, Bool.false_eq_true, if_false,
            if_true]
          rw [← taken_found _ _ _ ih]
          exact congrArg (fun r : List Str × Bool =>
            if r.2 then (r.1 ++ (uplinkNames files area ns).1, (uplinkNames files area ns).2)
            else r) (uplinkScan_eq (fileNames files n))
      | false =>
          simp only [Bool.false_eq_true, if_false]
          rw [entry_cases, taken_found _ _ _ ih]
          split
          · rw [taken_nil, List.isEmpty_nil, Bool.or_true]
          · rfl

/-- The lookup takes from what the uplinks offer. -/
theorem uplinksLookup_eq (files : Str → Option (List Str)) (areafix : Bool) :
    ∀ uplinks : List AreaUplink,
      uplinksLookup files areafix area uplinks = taken area (offers files areafix area uplinks)
  | [] => taken_nil.symm
  | a :: as => by
      have ih := uplinksLookup_eq files areafix as
      unfold offers at ih ⊢
      rw [uplinksLookup]
      cases ha : a.areafix == areafix with
      | false => rw [if_neg (by decide), List.filter_cons_of_neg (by simp [ha]), ih]
      | true =>
          rw [if_pos rfl, List.filter_cons_of_pos (by simp [ha]), List.flatMap_cons, taken_append,
            uplinkNames_eq, ih, taken_map, List.isEmpty_map]
end

/-! ## Plain names -/

/-- A name that reads as one word, is no pattern and fits the buffers. -/
structure PlainName (n : Str) : Prop where
  word : IsWord true blanks n
  plain : ∀ c ∈ n, plainByte c = true
  short : n.length < BUFSIZ

instance decPlainName (n : Str) : Decidable (PlainName n) :=
  have : Decidable (∀ c ∈ n, isDelim blanks c = false ∧ plainByte c = true) :=
    List.decidableBAll (fun c => isDelim blanks c = false ∧ plainByte c = true) n
  decidable_of_iff (n ≠ [] ∧ n.head? ≠ some dquote ∧ n.length < BUFSIZ ∧
      ∀ c ∈ n, isDelim blanks c = false ∧ plainByte c = true)
    ⟨fun ⟨hn, hq, hl, hc⟩ =>
      ⟨⟨hn, fun c h => (hc c h).1, fun _ => hq⟩, fun c h => (hc c h).2, hl⟩,
     fun ⟨⟨hn, hd, hq⟩, hp, hl⟩ => ⟨hn, hq rfl, hl, fun c h => ⟨hd c h, hp c h⟩⟩⟩

theorem strieq_strUpper (n : Str) : strieq n (strUpper n) = true := by
  rw [strieq_iff, strUpper, List.map_map]
  exact List.map_congr_left fun c _ => (toLower_toUpper c).symm

theorem PlainName.upper {n : Str} (h : PlainName n) : ∀ c ∈ strUpper n, plainByte c = true := by
  intro c hc
  obtain ⟨d, hd, rfl⟩ := List.mem_map.mp hc
  have key : ∀ c : UInt8, plainByte c = true → plainByte (toUpper c) = true :=
    forall_byte (by decide +kernel)
  exact key d (h.plain d hd)

/-- As a pattern, a plain name means the areas of that name. -/
theorem PlainName.wildmatch {n : Str} (h : PlainName n) (area : Str) :
    wildmatch area (bufCopy BUFSIZ (strUpper n)) true = strieq n area := by
  have hlen : (strUpper n).length ≤ BUFSIZ - 1 := by
    rw [strUpper, List.length_map]
    exact Nat.le_sub_one_of_lt h.short
  rw [bufCopy, List.take_of_length_le hlen, wildmatch_plain h.upper, strieq_comm, Bool.eq_iff_iff]
  exact ⟨strieq_trans (strieq_strUpper n), strieq_trans (strieq_symm (strieq_strUpper n))⟩

/-- The line for `cmd_new` starts with the name. -/
theorem PlainName.forwardLine {a : AreaUplink} (h : PlainName a.areas) :
    xstrtok blanks (forwardLine a) = a.areas :: (xstrtok blanks (forwardLine a)).tail := by
  unfold Fidogate.forwardLine
  cases a.options with
  | none =>
      dsimp only
      rw [bufCopy, List.take_of_length_le (Nat.le_sub_one_of_lt h.short)]
      have hw : xstrtok blanks a.areas = [a.areas] := words_word h.word
      rw [hw, List.tail_cons]
  | some o =>
      have hcut : (a.areas ++ lit " " ++ o).take BUFSIZ =
          a.areas ++ sp :: o.take (BUFSIZ - a.areas.length - 1) := by
        have hone : (lit " ").length = 1 := by decide
        rw [List.append_assoc, List.take_append, List.take_of_length_le (Nat.le_of_lt h.short),
          List.take_append, hone, List.take_of_length_le (by rw [hone]; have := h.short; omega)]
        rfl
      dsimp only
      rw [hcut]
      have hw : ∀ s, xstrtok blanks (a.areas ++ sp :: s) = a.areas :: xstrtok blanks s :=
        fun s => words_append h.word (by decide) s
      rw [hw, List.tail_cons]

/-! ## Creating an offer -/

/-- The entry created for an offer and requested from its uplink; `none` where
the configuration does not let it be created. -/
def forwardEntry (t : Tables) (w : World) (st : Areafix) (a : AreaUplink) : Option AreasBBS :=
  if ((cfGetString st.cf (lit "ForbiddenChar")).getD []).any a.areas.contains then none
  else if ! st.auth.cmdline && checkForbiddenArea t w st.cf a.areas then none
  else
    let p := newArea w st.cf a.uplink a.areas (xstrtok blanks (forwardLine a)).tail true true
    (newDir t w st.cf p.passthru a.areas).map fun dir =>
      { p with
        dir := dir
        nodes := a.uplink :: subscribeNodes t st.cf
        state := areasbbsChstate p.state (lit "S") 70 }

theorem areasbbsUpdate_last {areas : List AreasBBS} {name : Str}
    (h : areasbbsLookup areas name = none) {p : AreasBBS} (hp : strieq name p.area = true)
    (f : AreasBBS → AreasBBS) : areasbbsUpdate name f (areas ++ [p]) = areas ++ [f p] := by
  induction areas with
  | nil => rw [List.nil_append, areasbbsUpdate, if_pos hp, List.nil_append]
  | cons q qs ih =>
      rw [areasbbsLookup, List.find?_cons] at h
      cases hq : strieq name q.area with
      | true =>
          rw [hq] at h
          cases h
      | false =>
          rw [hq] at h
          rw [List.cons_append, areasbbsUpdate, if_neg (by rw [hq]; decide), ih h, List.cons_append]

theorem areasbbsLookup_last {areas : List AreasBBS} {name : Str}
    (h : areasbbsLookup areas name = none) {p : AreasBBS} (hp : strieq name p.area = true) :
    areasbbsLookup (areas ++ [p]) name = some p := by
  unfold areasbbsLookup at *
  rw [List.find?_append, h, List.find?_singleton, hp]
  rfl

theorem areasbbsRemove_last {areas : List AreasBBS} {name : Str}
    (h : areasbbsLookup areas name = none) {p : AreasBBS} (hp : strieq name p.area = true) :
    areasbbsRemove name (areas ++ [p]) = areas := by
  unfold areasbbsRemove
  have hne : ∀ q ∈ areas, ¬ strieq name q.area = true := List.find?_eq_none.mp h
  have hone : [p].eraseP (fun q => strieq name q.area) = [] := List.eraseP_cons_of_pos hp
  rw [List.eraseP_append_right _ hne, hone, List.append_nil]

/-- What SUBSCRIBE keeps while it forwards: the frame, and the name it signs
its requests with. -/
structure ForwardFrame (t : Tables) (st st' : Areafix) : Prop extends Frame st st' where
  fixName : fixName t st'.cf = fixName t st.cf

section

variable {t : Tables} {w : World} {st : Areafix} {a : AreaUplink}

theorem ForwardFrame.refl (t : Tables) (st : Areafix) : ForwardFrame t st st :=
  ⟨Frame.refl st, rfl⟩

theorem ForwardFrame.trans {st' st'' : Areafix} (h : ForwardFrame t st st')
    (h' : ForwardFrame t st' st'') : ForwardFrame t st st'' :=
  ⟨h.toFrame.trans h'.toFrame, h'.fixName.trans h.fixName⟩

theorem fixName_cut (t : Tables) (cf : Config) :
    fixName t (cf.cut (subscribeKey t) blanks) = fixName t cf := by
  have hkey : strieq (subscribeKey t)
      (if t.areafix then lit "AreaFixName" else lit "FileFixName") = false := by
    unfold subscribeKey
    cases t.areafix <;> decide +kernel
  have hc : Cuts (subscribeKey t) cf cf 0 := ⟨rfl, rfl⟩
  unfold fixName
  rw [hc.cut.getString hkey]

theorem forwardEntry_area {e : AreasBBS} (he : forwardEntry t w st a = some e) :
    e.area = strUpper a.areas ∧ e.nodes.head? = some a.uplink := by
  unfold forwardEntry at he
  split at he
  · cases he
  · split at he
    · cases he
    · obtain ⟨dir, -, rfl⟩ := Option.map_eq_some_iff.mp he
      exact ⟨newArea_area _ _ _ _ _, rfl⟩

/-- An offer that may not be created leaves everything as it is. -/
theorem cmdNewInt_refused (hn : PlainName a.areas) (he : forwardEntry t w st a = none) :
    (cmdNewInt t w a.uplink (forwardLine a) true st).2 = st := by
  unfold forwardEntry at he
  unfold cmdNewInt cmdNew
  rw [hn.forwardLine]
  split
  · rfl
  · dsimp only
    split
    · rfl
    · split
      · rfl
      · next hchar =>
          split
          · rfl
          · next hforb =>
              rw [if_neg hchar, if_neg hforb, Option.map_eq_none_iff] at he
              rw [he]

/-- The state behind the creation of an offer. -/
theorem cmdNewInt_forward (hauth : st.auth.authorized = true) (hfwd : st.auth.fwd = true)
    (hn : PlainName a.areas) (hl : areasbbsLookup st.areas a.areas = none) {e : AreasBBS}
    (he : forwardEntry t w st a = some e) :
    ∃ p st', cmdNewInt t w a.uplink (forwardLine a) true st = (OK, st') ∧
      st'.areas = st.areas ++ [p] ∧ p.area = strUpper a.areas ∧
      (st'.requested a.areas).areas = st.areas ++ [e] ∧ st'.upl = st.upl ∧
      st'.limG = st.limG ∧ ForwardFrame t st (st'.requested a.areas) := by
  unfold forwardEntry at he
  unfold cmdNewInt cmdNew
  rw [hn.forwardLine, hauth, hfwd]
  dsimp only
  split at he
  · cases he
  · next hchar =>
      split at he
      · cases he
      · next hforb =>
          obtain ⟨dir, hdir, rfl⟩ := Option.map_eq_some_iff.mp he
          rw [if_neg (by simp), hl, if_neg (by decide), if_neg hchar, if_neg hforb, hdir]
          refine ⟨_, _, rfl, rfl, newArea_area _ _ _ _ _, ?_, rfl, rfl, ⟨⟨rfl, rfl, rfl⟩, ?_⟩⟩
          · refine areasbbsUpdate_last hl ?_ _
            rw [newArea_area]
            exact strieq_strUpper a.areas
          · exact fixName_cut t st.cf

end

/-! ## Subscribing to the new area -/

/-- SUBSCRIBE refuses the node an area: its level, its key or its limits. -/
def Denied (st : Areafix) (areas : List AreasBBS) (limG : Int) (p : AreasBBS) : Prop :=
  st.auth.cmdline = false ∧
    (st.auth.lvl < p.lvl ∨ (∃ k, p.key = some k ∧ ∀ c ∈ k, c ∉ st.auth.key) ∨
      lonSearch p.nodes st.node = false ∧
        (0 < st.auth.limG ∧ st.auth.limG ≤ limG ∨
          0 < st.auth.limA ∧ st.auth.limA ≤ subLimit areas st.node p))

/-- The area is of a zone it is not given to the node from. -/
def ZoneRefused (t : Tables) (st : Areafix) (p : AreasBBS) : Prop :=
  st.auth.cmdline = false ∧ lonSearch p.nodes st.node = false ∧ t.areafix = true ∧
    p.zone ≠ st.node.zone ∧ (p.zone = 0 ∨ 6 < p.zone ∨ 6 < st.node.zone)

section

variable {t : Tables} {w : World} {st : Areafix} {areas : List AreasBBS} {limG : Int}
  {p : AreasBBS}

theorem keyDenied_iff : (p.key.any fun k => ! k.any st.auth.key.contains) = true ↔
    ∃ k, p.key = some k ∧ ∀ c ∈ k, c ∉ st.auth.key := by
  cases p.key with
  | none => simp
  | some k => simp

instance decDenied : Decidable (Denied st areas limG p) :=
  have : Decidable (∃ k, p.key = some k ∧ ∀ c ∈ k, c ∉ st.auth.key) :=
    decidable_of_iff _ keyDenied_iff
  inferInstanceAs (Decidable (_ ∧ _))

instance decZoneRefused : Decidable (ZoneRefused t st p) := inferInstanceAs (Decidable (_ ∧ _))

theorem subCheck_denied (h : Denied st areas limG p) : subCheck t st areas limG p = .deny := by
  obtain ⟨hcmd, h⟩ := h
  unfold subCheck
  dsimp only
  rw [hcmd, if_neg (by decide)]
  split
  · rfl
  · next hlvl =>
      split
      · rfl
      · next hkey =>
          rw [keyDenied_iff] at hkey
          rcases h with h | h | ⟨hnode, h⟩
          · exact absurd h hlvl
          · exact absurd h hkey
          · rw [hnode, if_neg (by decide)]
            split
            · rfl
            · next hg =>
                rcases h with h | h
                · exact absurd (by simpa using h) hg
                · rw [if_pos (by simpa using h)]

/-- An area with an uplink that is neither refused nor of another zone is
subscribed to, if the node does not have it already. -/
theorem subCheck_allowed (hd : ¬ Denied st areas limG p) (hz : ¬ ZoneRefused t st p)
    (hpassive : p.passive = []) (hnodes : p.nodes ≠ []) :
    subCheck t st areas limG p = .skip ∧ lonSearch p.nodes st.node = true ∨
      subCheck t st areas limG p = .add := by
  have hne : p.nodes.isEmpty = false := List.isEmpty_eq_false_iff.mpr hnodes
  unfold subCheck
  dsimp only
  rw [hne]
  cases hcmd : st.auth.cmdline with
  | true => exact Or.inr rfl
  | false =>
      have hd : ¬ _ := fun h => hd ⟨hcmd, h⟩
      rw [not_or, not_or, not_and_or, not_or] at hd
      obtain ⟨hlvl, hkey, hlim⟩ := hd
      rw [← keyDenied_iff] at hkey
      rw [if_neg (by decide), if_neg hlvl, if_neg hkey]
      cases hnode : lonSearch p.nodes st.node with
      | true =>
          rw [if_pos rfl, hpassive]
          exact Or.inl ⟨rfl, rfl⟩
      | false =>
          rcases hlim with hlim | ⟨hg, ha⟩
          · exact absurd hnode hlim
          · have hz : ¬ _ := fun h => hz ⟨hcmd, hnode, h⟩
            right
            rw [if_neg (by decide), if_neg (by simpa using hg), if_neg (by simpa using ha)]
            cases hf : t.areafix with
            | false => simp
            | true =>
                rcases eq_or_ne p.zone st.node.zone with heq | hzone
                · simp [heq]
                · have hzero : ¬ p.zone = 0 := fun h => hz ⟨hf, hzone, Or.inl h⟩
                  have hsix : ¬ (6 < p.zone ∨ 6 < st.node.zone) :=
                    fun h => hz ⟨hf, hzone, Or.inr h⟩
                  rw [if_neg (by simpa using fun _ => hzero),
                    if_neg (by simpa using fun _ => not_or.mp hsix), if_neg (by decide)]

end

/-- The node is linked to an area created for an offer. -/
structure Linked (node : Node) (a : AreaUplink) (e : AreasBBS) : Prop where
  area : e.area = strUpper a.areas
  first : e.nodes.head? = some a.uplink
  node : lonSearch e.nodes node = true

section

variable {t : Tables} {w : World} {st : Areafix} {a : AreaUplink} {e : AreasBBS}

theorem newOptions_passive (zone : Int) (prl pass : Bool) : ∀ (ts : List Str) (p : AreasBBS),
    (newOptions zone prl pass ts p).passive = p.passive
  | [], _ => rfl
  | [o], p => by
      rw [newOptions]
      simp only [apply_ite AreasBBS.passive, newOptions, ite_self]
  | o :: v :: ts, p => by
      rw [newOptions]
      simp only [apply_ite AreasBBS.passive, newOptions_passive zone prl pass ts,
        newOptions_passive zone prl pass (v :: ts), ite_self]

theorem forwardEntry_passive (he : forwardEntry t w st a = some e) : e.passive = [] := by
  unfold forwardEntry at he
  split at he
  · cases he
  · split at he
    · cases he
    · obtain ⟨dir, -, rfl⟩ := Option.map_eq_some_iff.mp he
      unfold newArea
      exact newOptions_passive _ _ _ _ _

/-- The entries no pattern means are passed over. -/
theorem cmdSubLoop_absent {area : Str} (queue : Bool) : ∀ {ps : List AreasBBS} {lp : SubLoop},
    (∀ p ∈ ps, wildmatch p.area (bufCopy BUFSIZ area) true = false) → lp.matched = 0 →
    ∀ qs, cmdSubLoop t w st area queue (ps ++ qs) lp =
      cmdSubLoop t w st area queue qs { lp with behind := lp.behind ++ ps }
  | [], lp, _, _, qs => by rw [List.nil_append, List.append_nil]
  | p :: ps, lp, hp, hm, qs => by
      have ih := cmdSubLoop_absent queue
        (fun q hq => hp q (List.mem_cons_of_mem p hq)) (show
          { lp with behind := lp.behind ++ [p] }.matched = 0 from hm) qs
      have hgo : (lp.matched != 0 && ! isWildcard area) = false := by
        rw [hm]
        rfl
      rw [List.cons_append, cmdSubLoop]
      simp only [hgo, hp p List.mem_cons_self, Bool.false_eq_true, if_false]
      rw [ih]
      dsimp only
      rw [List.append_assoc, List.singleton_append]

theorem fixName_sendRules (link : Node) (area : Str) (cf : Config) :
    fixName t (sendRules w cf link area) = fixName t cf := by
  have hstrings : (sendRules w cf link area).strings = cf.strings := by
    unfold sendRules
    dsimp only
    split
    · exact cfSetBest_strings cf _ _ _
    · rfl
  unfold fixName cfGetString cfGetStrings
  rw [hstrings]

/-- The general limit counts the areas of the node when none was counted. -/
def countedLimit (st : Areafix) (areas : List AreasBBS) : Int :=
  if st.limG < 1 then st.limG + countAreas areas st.node else st.limG

theorem match_of_absent {n : Str} (hn : PlainName n) {areas : List AreasBBS}
    (h : areasbbsLookup areas n = none) :
    ∀ p ∈ areas, wildmatch p.area (bufCopy BUFSIZ (strUpper n)) true = false := by
  intro p hp
  rw [hn.wildmatch]
  exact Bool.eq_false_iff.mpr (List.find?_eq_none.mp h p hp)

/-- The loop of SUBSCRIBE over a list whose last entry only is meant. -/
theorem subAreas_last {n : Str} (hn : PlainName n) {areas : List AreasBBS}
    (habs : areasbbsLookup areas n = none) (hareas : st.areas = areas ++ [e])
    (harea : e.area = strUpper n) :
    subAreas t w e.area false st =
      let r := cmdSubLoop t w st (strUpper n) false [e]
        ⟨areas, countedLimit st (areas ++ [e]), st.changed, st.upl, st.cf, 0⟩
      (r.1, r.2.2.matched,
        { st with areas := r.2.2.behind ++ r.2.1, limG := r.2.2.limG, changed := r.2.2.changed,
                  upl := r.2.2.upl, cf := r.2.2.cf }) := by
  unfold subAreas countedLimit
  dsimp only
  rw [hareas, harea, cmdSubLoop_absent false (match_of_absent hn habs) rfl]
  rfl

theorem cmdSubLoop_last {n : Str} (hn : PlainName n) (harea : e.area = strUpper n)
    {lp : SubLoop} (hm : lp.matched = 0) :
    cmdSubLoop t w st (strUpper n) false [e] lp =
      let lp := { lp with matched := 1 }
      match subCheck t st (lp.behind ++ [e]) lp.limG e with
      | .skip => (none, [], { lp with behind := lp.behind ++ [e] })
      | .deny => (some DELETE, [e], lp)
      | .activate => (none, [], { lp with
          behind := lp.behind ++ [{ e with passive := lonRemove e.passive st.node }]
          changed := true
          limG := lp.limG + 1 })
      | .dead => (none, [], { lp with changed := true })
      | .add =>
          match subAdd t w st.node false (strUpper n) e lp with
          | (some q, lp) => (none, [], { lp with behind := lp.behind ++ [q] })
          | (none, lp) => (some DELETE, [], lp) := by
  have hmatch : wildmatch e.area (bufCopy BUFSIZ (strUpper n)) true = true := by
    rw [hn.wildmatch, harea]
    exact strieq_strUpper n
  have hwild : isWildcard (strUpper n) = false := isWildcard_of_plain hn.upper
  have hgo : ¬ (lp.matched != 0 && ! isWildcard (strUpper n)) = true := by
    rw [hm, bne_self_eq_false, Bool.false_and]
    exact Bool.false_ne_true
  rw [cmdSubLoop]
  dsimp only
  rw [if_neg hgo, if_pos hmatch, hwild, hm]
  rfl

/-- The call for a new area the node is refused ends early. -/
theorem cmdSub_denied (depth : Nat) (hauth : st.auth.authorized = true) {n : Str}
    (hn : PlainName n) {areas : List AreasBBS} (habs : areasbbsLookup areas n = none)
    (hareas : st.areas = areas ++ [e]) (harea : e.area = strUpper n)
    (hd : Denied st (areas ++ [e]) (countedLimit st (areas ++ [e])) e) :
    ∃ st', cmdSub t w (depth + 1) e.area false st = (DELETE, st') ∧
      st'.areas = areas ++ [e] ∧ st'.upl = st.upl ∧ ForwardFrame t st st' := by
  have hloop := subAreas_last (t := t) (w := w) hn habs hareas harea
  rw [cmdSubLoop_last hn harea rfl] at hloop
  dsimp only at hloop
  rw [subCheck_denied hd] at hloop
  unfold cmdSub
  rw [hauth, if_neg (by decide), hloop]
  exact ⟨_, rfl, rfl, rfl, ⟨⟨rfl, rfl, rfl⟩, rfl⟩⟩

/-- The call for any other new area links the node to it. -/
theorem cmdSub_allowed (depth : Nat) (hauth : st.auth.authorized = true) {n : Str}
    (hn : PlainName n) {areas : List AreasBBS} (habs : areasbbsLookup areas n = none)
    (hareas : st.areas = areas ++ [e]) (harea : e.area = strUpper n)
    (hd : ¬ Denied st (areas ++ [e]) (countedLimit st (areas ++ [e])) e)
    (hz : ¬ ZoneRefused t st e) (hpassive : e.passive = []) {first : Node}
    (hfirst : e.nodes.head? = some first)
    (hstate : areasbbsIsstate e.state 85 = false ∧ areasbbsIsstate e.state 80 = false) :
    ∃ st' e', cmdSub t w (depth + 1) e.area false st = (OK, st') ∧
      st'.areas = areas ++ [e'] ∧ e'.area = strUpper n ∧ e'.nodes.head? = some first ∧
      lonSearch e'.nodes st.node = true ∧ st'.upl = st.upl ∧ ForwardFrame t st st' := by
  have hne : e.nodes ≠ [] := by
    intro h
    rw [h] at hfirst
    cases hfirst
  have hloop := subAreas_last (t := t) (w := w) hn habs hareas harea
  rw [cmdSubLoop_last hn harea rfl] at hloop
  dsimp only at hloop
  have hwild : isWildcard e.area = false := by
    rw [harea]
    exact isWildcard_of_plain hn.upper
  have hstop : (st.auth.fwd && (isWildcard e.area || (1 : Nat) == 0)) = false := by
    rw [hwild]
    exact Bool.and_false _
  unfold cmdSub
  rw [hauth, if_neg (by decide)]
  rcases subCheck_allowed hd hz hpassive hne with ⟨hskip, hnode⟩ | hadd
  · rw [hskip] at hloop
    rw [hloop]
    dsimp only
    rw [hstop]
    exact ⟨_, e, rfl, List.append_nil _, harea, hfirst, hnode, rfl, ⟨⟨rfl, rfl, rfl⟩, rfl⟩⟩
  · rw [hadd] at hloop
    unfold subAdd at hloop
    simp only [hstate.1, hstate.2, Bool.or_self, Bool.false_eq_true, if_false] at hloop
    rw [hloop]
    dsimp only
    rw [hstop]
    refine ⟨_, { e with nodes := e.nodes ++ [st.node] }, rfl, List.append_nil _, harea, ?_, ?_, rfl,
      ⟨⟨rfl, rfl, sendRules_main w _ _ _⟩, fixName_sendRules _ _ _⟩⟩
    · exact (List.head?_append_of_ne_nil _ hne).trans hfirst
    · exact List.any_eq_true.mpr ⟨st.node, List.mem_append_right _ List.mem_cons_self, by
        simp [nodeEq]⟩

end

/-! ## One offer -/

/-- SUBSCRIBE refuses the node an offer: it may not be created, or the node is
denied what would be created. -/
def Refused (t : Tables) (w : World) (st : Areafix) (a : AreaUplink) : Prop :=
  ∀ e, forwardEntry t w st a = some e →
    Denied st (st.areas ++ [e]) (countedLimit st (st.areas ++ [e])) e

/-- The options of an uplink do not give its area a zone the node is not
linked from, nor a state that asks the uplink once more. -/
def Regular (t : Tables) (w : World) (st : Areafix) (a : AreaUplink) : Prop :=
  ∀ e, forwardEntry t w st a = some e → ¬ Refused t w st a →
    ¬ ZoneRefused t st e ∧
      areasbbsIsstate e.state 85 = false ∧ areasbbsIsstate e.state 80 = false

/-- The request for an offer. -/
def forwardRequest (t : Tables) (cf : Config) (a : AreaUplink) : Str :=
  uplRequest t cf (znfp1 a.uplink) a (lit "+") (strUpper a.areas)

/-- One offer is passed over, or its area is created, subscribed to and
requested. -/
inductive ForwardStep (t : Tables) (w : World) (st : Areafix) (a : AreaUplink) (st' : Areafix) :
    Prop where
  | left (h : isWildcard a.areas = true ∨ (areasbbsLookup st.areas a.areas).isSome = true ∨
        Refused t w st a)
      (areas : st'.areas = st.areas) (upl : st'.upl = st.upl)
  | made (e : AreasBBS) (mask : isWildcard a.areas = false)
      (absent : areasbbsLookup st.areas a.areas = none) (allowed : ¬ Refused t w st a)
      (linked : Linked st.node a e) (areas : st'.areas = st.areas ++ [e])
      (upl : st'.upl = st.upl ++ [forwardRequest t st.cf a])

section

variable {t : Tables} {w : World} {st : Areafix} {a : AreaUplink}

instance decRefused : Decidable (Refused t w st a) :=
  inferInstanceAs (Decidable (∀ e ∈ forwardEntry t w st a,
    Denied st (st.areas ++ [e]) (countedLimit st (st.areas ++ [e])) e))

instance decRegular : Decidable (Regular t w st a) :=
  inferInstanceAs (Decidable (∀ e ∈ forwardEntry t w st a, ¬ Refused t w st a →
    ¬ ZoneRefused t st e ∧
      areasbbsIsstate e.state 85 = false ∧ areasbbsIsstate e.state 80 = false))

theorem uplRequest_congr {cf cf' : Config} (h : fixName t cf' = fixName t cf) (addr : Str)
    (a : AreaUplink) (sign area : Str) :
    uplRequest t cf' addr a sign area = uplRequest t cf addr a sign area := by
  unfold uplRequest
  rw [h]

/-- The state the new area is subscribed in refuses what the state before its
creation refuses. -/
theorem Denied.congr {st st' : Areafix} (hauth : st'.auth = st.auth) (hnode : st'.node = st.node)
    (hlim : st'.limG = st.limG) (areas : List AreasBBS) (e : AreasBBS) :
    Denied st' areas (countedLimit st' areas) e ↔ Denied st areas (countedLimit st areas) e := by
  unfold Denied countedLimit
  rw [hauth, hnode, hlim]

theorem ZoneRefused.congr {st st' : Areafix} (hauth : st'.auth = st.auth)
    (hnode : st'.node = st.node) (e : AreasBBS) : ZoneRefused t st' e ↔ ZoneRefused t st e := by
  unfold ZoneRefused
  rw [hauth, hnode]

theorem refused_iff {e : AreasBBS} (he : forwardEntry t w st a = some e) : Refused t w st a ↔
    Denied st (st.areas ++ [e]) (countedLimit st (st.areas ++ [e])) e := by
  unfold Refused
  rw [he]
  refine ⟨fun h => h e rfl, ?_⟩
  intro h e' he'
  cases he'
  exact h

/-- An offer that may be created stays created if the node is not refused. -/
theorem subRequest_step (depth : Nat) (hauth : st.auth.authorized = true)
    (hfwd : st.auth.fwd = true) (hmask : isWildcard a.areas = false) (hn : PlainName a.areas)
    (habs : areasbbsLookup st.areas a.areas = none) (hr : Regular t w st a) {e : AreasBBS}
    (he : forwardEntry t w st a = some e) {st' : Areafix}
    (hst' : subRequest t w (fun area st => cmdSub t w (depth + 1) area false st) a st = st') :
    ForwardStep t w st a st' ∧ ForwardFrame t st st' := by
  obtain ⟨harea, hfirst⟩ := forwardEntry_area he
  obtain ⟨p, st₁, hnew, hareas, hp, hreq, hupl, hlim, hframe⟩ :=
    cmdNewInt_forward hauth hfwd hn habs he
  have hup : ∀ q : AreasBBS, q.area = strUpper a.areas → strieq a.areas q.area = true := by
    intro q hq
    rw [hq]
    exact strieq_strUpper a.areas
  have hlook : areasbbsLookup st₁.areas a.areas = some p := by
    rw [hareas]
    exact areasbbsLookup_last habs (hup p hp)
  have hauth₁ : (st₁.requested a.areas).auth.authorized = true := by
    rw [hframe.auth]
    exact hauth
  have hden := (Denied.congr hframe.auth hframe.node hlim (st.areas ++ [e]) e).trans
    (refused_iff he).symm
  unfold subRequest at hst'
  rw [habs, hmask, if_neg (by decide), hnew] at hst'
  dsimp only at hst'
  rw [hlook] at hst'
  dsimp only at hst'
  rw [if_neg (by decide), hp, ← harea] at hst'
  by_cases hd : Refused t w st a
  · obtain ⟨st₂, hsub, hareas₂, hupl₂, hframe₂⟩ :=
      cmdSub_denied (t := t) (w := w) depth hauth₁ hn habs hreq harea (hden.mpr hd)
    have h := hframe.trans hframe₂
    rw [hsub] at hst'
    dsimp only at hst'
    rw [if_pos (by decide)] at hst'
    subst hst'
    refine ⟨.left (Or.inr (Or.inr hd)) ?_ (hupl₂.trans hupl), ⟨⟨h.auth, h.node, h.main⟩, h.fixName⟩⟩
    dsimp only
    rw [hareas₂]
    exact areasbbsRemove_last habs (hup e harea)
  · obtain ⟨hz, hstate⟩ := hr e he hd
    obtain ⟨st₂, e', hsub, hareas₂, harea', hfirst', hnode, hupl₂, hframe₂⟩ :=
      cmdSub_allowed (t := t) (w := w) depth hauth₁ hn habs hreq harea (mt hden.mp hd)
        (mt (ZoneRefused.congr hframe.auth hframe.node e).mp hz) (forwardEntry_passive he) hfirst
        hstate
    have h := hframe.trans hframe₂
    rw [hsub] at hst'
    dsimp only at hst'
    rw [if_neg (by decide)] at hst'
    subst hst'
    rw [hframe.node] at hnode
    refine ⟨.made e' hmask habs hd ⟨harea', hfirst', hnode⟩ hareas₂ ?_,
      ⟨⟨h.auth, h.node, h.main⟩, h.fixName⟩⟩
    dsimp only
    rw [hupl₂, uplRequest_congr h.fixName, harea]
    exact congrArg (· ++ [forwardRequest t st.cf a]) hupl

theorem subForward_step (depth : Nat) (hauth : st.auth.authorized = true)
    (hfwd : st.auth.fwd = true) (hn : isWildcard a.areas = true ∨ PlainName a.areas)
    (hr : Regular t w st a) {st' : Areafix}
    (hst' : subForward t w (fun area st => cmdSub t w (depth + 1) area false st) st a = st') :
    ForwardStep t w st a st' ∧ ForwardFrame t st st' := by
  have hst : { st with auth := { st.auth with fwd := true } } = st := by rw [← hfwd]
  unfold subForward at hst'
  rw [hst] at hst'
  cases hmask : isWildcard a.areas with
  | true =>
      unfold subRequest at hst'
      rw [hmask, Bool.or_true, if_pos rfl] at hst'
      subst hst'
      exact ⟨.left (Or.inl hmask) rfl rfl, ForwardFrame.refl t st⟩
  | false =>
      have hn : PlainName a.areas := hn.resolve_left (by rw [hmask]; decide)
      cases habs : areasbbsLookup st.areas a.areas with
      | some p =>
          unfold subRequest at hst'
          rw [habs, Option.isSome_some, Bool.true_or, if_pos rfl] at hst'
          subst hst'
          exact ⟨.left (Or.inr (Or.inl (by rw [habs]; rfl))) rfl rfl, ForwardFrame.refl t st⟩
      | none =>
          cases he : forwardEntry t w st a with
          | some e => exact subRequest_step depth hauth hfwd hmask hn habs hr he hst'
          | none =>
              have href : Refused t w st a := by
                intro e h
                rw [he] at h
                cases h
              unfold subRequest at hst'
              rw [habs, hmask, if_neg (by decide)] at hst'
              dsimp only at hst'
              rw [cmdNewInt_refused hn he, habs] at hst'
              subst hst'
              exact ⟨.left (Or.inr (Or.inr href)) rfl rfl, ForwardFrame.refl t st⟩

end

/-! ## All offers -/

/-- The step of SUBSCRIBE over one offer. -/
def forwardStep (t : Tables) (w : World) (depth : Nat) (st : Areafix) (a : AreaUplink) : Areafix :=
  subForward t w (fun area st => cmdSub t w (depth + 1) area false st) st a

/-- What a list of offers comes to: the offers taken, each with the area made
of it.  An offer is looked at in the state the offers before it leave. -/
structure Forwarded (t : Tables) (w : World) (depth : Nat) (as : List AreaUplink)
    (st st' : Areafix) (made : List (AreaUplink × AreasBBS)) : Prop where
  areas : st'.areas = st.areas ++ made.map Prod.snd
  upl : st'.upl = st.upl ++ made.map fun m => forwardRequest t st.cf m.1
  offered : (made.map Prod.fst).Sublist as
  linked : ∀ m ∈ made, Linked st.node m.1 m.2
  absent : ∀ m ∈ made, areasbbsLookup st.areas m.1.areas = none
  once : made.Pairwise fun m m' => strieq m.1.areas m'.1.areas = false
  allowed : ∀ m ∈ made, ∃ pre post, as = pre ++ m.1 :: post ∧ isWildcard m.1.areas = false ∧
    ¬ Refused t w (Run.run (forwardStep t w depth) st pre) m.1
  all : ∀ pre a post, as = pre ++ a :: post → isWildcard a.areas = false →
    ¬ Refused t w (Run.run (forwardStep t w depth) st pre) a →
    (areasbbsLookup st'.areas a.areas).isSome = true

section

variable {t : Tables} {w : World} {depth : Nat}

theorem lookup_append_isSome {areas areas' : List AreasBBS} {name : Str}
    (h : (areasbbsLookup areas name).isSome = true) :
    (areasbbsLookup (areas ++ areas') name).isSome = true := by
  unfold areasbbsLookup at *
  rw [List.find?_append, Option.isSome_or, h, Bool.true_or]

theorem lookup_append_none {areas areas' : List AreasBBS} {name : Str}
    (h : areasbbsLookup (areas ++ areas') name = none) :
    areasbbsLookup areas name = none ∧ areasbbsLookup areas' name = none := by
  unfold areasbbsLookup at *
  rwa [List.find?_append, Option.or_eq_none_iff] at h

section

variable {as : List AreaUplink} {a : AreaUplink} {st st' : Areafix}
  {made : List (AreaUplink × AreasBBS)}

theorem forwardRequest_congr {cf cf' : Config} (h : fixName t cf' = fixName t cf) (a : AreaUplink) :
    forwardRequest t cf' a = forwardRequest t cf a :=
  uplRequest_congr h _ _ _ _

theorem Forwarded.lookup_mono (h : Forwarded t w depth as st st' made) {name : Str}
    (hl : (areasbbsLookup st.areas name).isSome = true) :
    (areasbbsLookup st'.areas name).isSome = true := by
  rw [h.areas]
  exact lookup_append_isSome hl

/-- An offer that is passed over. -/
theorem Forwarded.left (h : Forwarded t w depth as (forwardStep t w depth st a) st' made)
    (hframe : ForwardFrame t st (forwardStep t w depth st a))
    (hleft : isWildcard a.areas = true ∨ (areasbbsLookup st.areas a.areas).isSome = true ∨
      Refused t w st a)
    (hareas : (forwardStep t w depth st a).areas = st.areas)
    (hupl : (forwardStep t w depth st a).upl = st.upl) :
    Forwarded t w depth (a :: as) st st' made where
  areas := by rw [h.areas, hareas]
  upl := by
    rw [h.upl, hupl]
    exact congrArg _ (List.map_congr_left fun m _ => forwardRequest_congr hframe.fixName m.1)
  offered := h.offered.cons a
  linked m hm := hframe.node ▸ h.linked m hm
  absent m hm := hareas ▸ h.absent m hm
  once := h.once
  allowed m hm := by
    obtain ⟨pre, post, has, hmask, href⟩ := h.allowed m hm
    exact ⟨a :: pre, post, by rw [has, List.cons_append], hmask, href⟩
  all pre b post has hmask href := by
    cases pre with
    | nil =>
        obtain ⟨rfl, rfl⟩ := List.cons.inj has
        rcases hleft with hw | hl | hr
        · rw [hmask] at hw
          cases hw
        · refine h.lookup_mono ?_
          rw [hareas]
          exact hl
        · exact absurd hr href
    | cons c pre =>
        obtain ⟨rfl, htail⟩ := List.cons.inj has
        exact h.all pre b post htail hmask href

/-- An offer whose area is made. -/
theorem Forwarded.cons (h : Forwarded t w depth as (forwardStep t w depth st a) st' made)
    (hframe : ForwardFrame t st (forwardStep t w depth st a)) {e : AreasBBS}
    (hmask : isWildcard a.areas = false) (habs : areasbbsLookup st.areas a.areas = none)
    (hallowed : ¬ Refused t w st a) (hlinked : Linked st.node a e)
    (hareas : (forwardStep t w depth st a).areas = st.areas ++ [e])
    (hupl : (forwardStep t w depth st a).upl = st.upl ++ [forwardRequest t st.cf a]) :
    Forwarded t w depth (a :: as) st st' ((a, e) :: made) := by
  have hname : strieq a.areas e.area = true := by
    rw [hlinked.area]
    exact strieq_strUpper a.areas
  have hnew : ∀ m ∈ made, areasbbsLookup st.areas m.1.areas = none ∧
      areasbbsLookup [e] m.1.areas = none := by
    intro m hm
    refine lookup_append_none ?_
    rw [← hareas]
    exact h.absent m hm
  refine ⟨?_, ?_, h.offered.cons_cons a, ?_, ?_, List.pairwise_cons.mpr ⟨?_, h.once⟩, ?_, ?_⟩
  · rw [h.areas, hareas, List.append_assoc, List.singleton_append, List.map_cons]
  · rw [h.upl, hupl, List.append_assoc, List.singleton_append, List.map_cons]
    exact congrArg (fun l => st.upl ++ forwardRequest t st.cf a :: l)
      (List.map_congr_left fun m _ => forwardRequest_congr hframe.fixName m.1)
  · rintro m hm
    rcases List.mem_cons.mp hm with rfl | hm
    · exact hlinked
    · exact hframe.node ▸ h.linked m hm
  · rintro m hm
    rcases List.mem_cons.mp hm with rfl | hm
    · exact habs
    · exact (hnew m hm).1
  · intro m hm
    refine Bool.eq_false_iff.mpr ?_
    intro hsame
    have hone := List.find?_eq_none.mp (hnew m hm).2 e List.mem_cons_self
    exact hone (strieq_trans (strieq_symm hsame) hname)
  · rintro m hm
    rcases List.mem_cons.mp hm with rfl | hm
    · exact ⟨[], as, rfl, hmask, hallowed⟩
    · obtain ⟨pre, post, has, hmask, href⟩ := h.allowed m hm
      exact ⟨a :: pre, post, by rw [has, List.cons_append], hmask, href⟩
  · rintro pre b post has hmask href
    cases pre with
    | nil =>
        obtain ⟨rfl, rfl⟩ := List.cons.inj has
        refine h.lookup_mono ?_
        rw [hareas, areasbbsLookup_last habs hname]
        rfl
    | cons c pre =>
        obtain ⟨rfl, htail⟩ := List.cons.inj has
        exact h.all pre b post htail hmask href

end

theorem forwarded_run : ∀ {as : List AreaUplink} {st : Areafix}, st.auth.authorized = true →
    st.auth.fwd = true → (∀ a ∈ as, isWildcard a.areas = true ∨ PlainName a.areas) →
    Run.Met (forwardStep t w depth) (Regular t w) st as →
    ∃ made, Forwarded t w depth as st (Run.run (forwardStep t w depth) st as) made
  | [], st, _, _, _, _ => by
      refine ⟨[], (List.append_nil _).symm, (List.append_nil _).symm, List.Sublist.refl _, ?_, ?_,
        List.Pairwise.nil, ?_, ?_⟩
      · exact fun m hm => by cases hm
      · exact fun m hm => by cases hm
      · exact fun m hm => by cases hm
      · intro pre a post h
        exact absurd h.symm (by simp)
  | a :: as, st, hauth, hfwd, hn, hm => by
      obtain ⟨hstep, hframe⟩ := subForward_step depth hauth hfwd (hn a List.mem_cons_self) hm.1
        (show forwardStep t w depth st a = _ from rfl)
      obtain ⟨made, ih⟩ := forwarded_run (by rw [hframe.auth]; exact hauth)
        (by rw [hframe.auth]; exact hfwd) (fun b hb => hn b (List.mem_cons_of_mem a hb)) hm.2
      cases hstep with
      | left hleft hareas hupl => exact ⟨made, ih.left hframe hleft hareas hupl⟩
      | made e hmask habs hallowed hlinked hareas hupl =>
          exact ⟨_, ih.cons hframe hmask habs hallowed hlinked hareas hupl⟩

end

/-! ## SUBSCRIBE -/

section

variable {t : Tables} {w : World} {st : Areafix} {area : Str}

/-- A pattern that means no entry leaves the first loop with nothing done. -/
theorem subAreas_absent (queue : Bool)
    (habs : ∀ p ∈ st.areas, wildmatch p.area (bufCopy BUFSIZ area) true = false) :
    subAreas t w area queue st = (none, 0, { st with limG := countedLimit st st.areas }) := by
  have hloop := @cmdSubLoop_absent t w st area queue st.areas
    ⟨[], countedLimit st st.areas, st.changed, st.upl, st.cf, 0⟩ habs rfl []
  rw [List.append_nil, cmdSubLoop] at hloop
  unfold subAreas
  dsimp only
  unfold countedLimit at hloop ⊢
  rw [hloop]
  dsimp only
  rw [List.append_nil, List.nil_append]

theorem offersName_of_mem {files : Str → Option (List Str)} {ns : List Str} {n : Str}
    (h : n ∈ offeredNames files area ns) : offersName area n = true := by
  obtain ⟨m, -, h⟩ := List.mem_flatMap.mp h
  exact (List.mem_filter.mp h).2

theorem uplinkMatch_of_mem_offers {files : Str → Option (List Str)} {areafix : Bool}
    {uplinks : List AreaUplink} {a : AreaUplink} (h : a ∈ offers files areafix area uplinks) :
    uplinkMatch area a.areas = true := by
  obtain ⟨b, -, h⟩ := List.mem_flatMap.mp h
  obtain ⟨n, hn, rfl⟩ := List.mem_map.mp h
  exact ((Bool.and_eq_true _ _).mp (offersName_of_mem hn)).2

/-- A name that is a plain name but for its letter case is plain. -/
theorem plain_of_strieq {n m : Str} (hn : ∀ c ∈ n, plainByte c = true) (h : strieq m n = true) :
    ∀ c ∈ m, plainByte c = true := by
  have key : ∀ c : UInt8, plainByte (toLower c) = plainByte c := forall_byte (by decide +kernel)
  intro c hc
  have hmem : toLower c ∈ n.map toLower := by
    rw [← strieq_iff.mp h]
    exact List.mem_map_of_mem hc
  obtain ⟨d, hd, hcd⟩ := List.mem_map.mp hmem
  rw [← key c, ← hcd, key d]
  exact hn d hd

/-- No area has the name offered for a name that means none. -/
theorem absent_of_offer (hw : isWildcard area = false)
    (habs : ∀ p ∈ st.areas, wildmatch p.area (bufCopy BUFSIZ area) true = false) {n : Str}
    (hn : PlainName n) (hmatch : uplinkMatch area n = true) :
    strieq area n = true ∧ areasbbsLookup st.areas n = none := by
  rw [uplinkMatch, hw, if_neg (by decide), wildmatch_plain hn.plain] at hmatch
  refine ⟨hmatch, List.find?_eq_none.mpr ?_⟩
  intro p hp hname
  have hplain := plain_of_strieq hn.plain hmatch
  have hlen : area.length ≤ BUFSIZ - 1 := by
    rw [strieq_length hmatch]
    exact Nat.le_sub_one_of_lt hn.short
  have h := habs p hp
  rw [bufCopy, List.take_of_length_le hlen, wildmatch_plain hplain] at h
  rw [strieq_trans (strieq_symm hname) (strieq_symm hmatch)] at h
  cases h

/-- A SUBSCRIBE that forwards runs over the offers its area takes. -/
theorem cmdSub_eq_run (depth : Nat) (hauth : st.auth.authorized = true)
    (hfwd : st.auth.fwd = true) {matched : Nat} {st₁ : Areafix}
    (hloop : subAreas t w area true st = (none, matched, st₁))
    (hgo : isWildcard area = true ∨ matched = 0) :
    cmdSub t w (depth + 2) area true st = (OK, Run.run (forwardStep t w depth) st₁
      (taken area (offers w.files t.areafix area t.uplinks))) := by
  unfold cmdSub
  rw [hauth, if_neg (by decide), hloop]
  dsimp only
  rw [hfwd, Bool.true_and, if_pos (by simpa using hgo), uplinksLookup_eq]
  rfl

/-- With a queue for its requests, the first loop goes on to the end of the
list for a pattern. -/
theorem cmdSubLoop_queue (hw : isWildcard area = true) : ∀ (ps : List AreasBBS) (lp : SubLoop),
    (cmdSubLoop t w st area true ps lp).1 = none
  | [], lp => rfl
  | p :: ps, lp => by
      have ih := cmdSubLoop_queue hw ps
      unfold cmdSubLoop
      dsimp only
      rw [hw, Bool.not_true, Bool.and_false, if_neg (by decide)]
      split
      · split
        · exact ih _
        · exact ih _
        · exact ih _
        · exact ih _
        · split
          · exact ih _
          · exact ih _
      · exact ih _

/-- An offer that is neither refused nor there already is made. -/
theorem ForwardStep.made_of_allowed {a : AreaUplink} {st' : Areafix} (h : ForwardStep t w st a st')
    (hmask : isWildcard a.areas = false) (habs : areasbbsLookup st.areas a.areas = none)
    (hallowed : ¬ Refused t w st a) : ∃ e, Linked st.node a e ∧ st'.areas = st.areas ++ [e] ∧
      st'.upl = st.upl ++ [forwardRequest t st.cf a] := by
  cases h with
  | made e _ _ _ hlinked hareas hupl => exact ⟨e, hlinked, hareas, hupl⟩
  | left h _ _ =>
      rcases h with h | h | h
      · rw [hmask] at h
        cases h
      · rw [habs] at h
        cases h
      · exact absurd h hallowed

theorem ForwardStep.left_of_refused {a : AreaUplink} {st' : Areafix} (h : ForwardStep t w st a st')
    (href : isWildcard a.areas = true ∨ Refused t w st a) :
    st'.areas = st.areas ∧ st'.upl = st.upl := by
  cases h with
  | left _ hareas hupl => exact ⟨hareas, hupl⟩
  | made _ hmask _ hallowed _ _ _ =>
      rcases href with h | h
      · rw [hmask] at h
        cases h
      · exact absurd h hallowed

/-- A name no area has takes its first offer, and a pattern takes every offer
not refused in the state it is looked at, each name once; whatever is not
taken leaves the areas and the queue as they are. -/
theorem cmdSub_forwards (depth : Nat) (hauth : st.auth.authorized = true)
    (hfwd : st.auth.fwd = true)
    (hn : ∀ a ∈ taken area (offers w.files t.areafix area t.uplinks),
      isWildcard a.areas = true ∨ PlainName a.areas)
    (hm : Run.Met (forwardStep t w depth) (Regular t w) (subAreas t w area true st).2.2
      (taken area (offers w.files t.areafix area t.uplinks))) :
    let as := offers w.files t.areafix area t.uplinks
    let st₁ := (subAreas t w area true st).2.2
    let st' := (cmdSub t w (depth + 2) area true st).2
    (isWildcard area = false →
      (∀ p ∈ st.areas, wildmatch p.area (bufCopy BUFSIZ area) true = false) →
      (∀ a, as.head? = some a → isWildcard a.areas = false → ¬ Refused t w st₁ a →
        ∃ e, Linked st.node a e ∧ strieq area e.area = true ∧ st'.areas = st.areas ++ [e] ∧
          st'.upl = st.upl ++ [forwardRequest t st.cf a]) ∧
      ((∀ a, as.head? = some a → isWildcard a.areas = true ∨ Refused t w st₁ a) →
        st'.areas = st.areas ∧ st'.upl = st.upl)) ∧
    (isWildcard area = true → ∃ made, Forwarded t w depth as st₁ st' made) := by
  dsimp only
  refine ⟨?_, ?_⟩
  · intro hw habs
    have hloop := subAreas_absent (t := t) (w := w) true habs
    rw [cmdSub_eq_run depth hauth hfwd hloop (Or.inr rfl)]
    rw [hloop] at hm ⊢
    unfold taken at hm hn ⊢
    simp only [hw, Bool.false_eq_true, if_false] at hm hn ⊢
    cases has : offers w.files t.areafix area t.uplinks with
    | nil =>
        refine ⟨?_, fun _ => ⟨rfl, rfl⟩⟩
        intro a ha
        cases ha
    | cons a as =>
        have hmem : a ∈ offers w.files t.areafix area t.uplinks := by
          rw [has]
          exact List.mem_cons_self
        rw [has] at hm hn
        have hn := hn a List.mem_cons_self
        obtain ⟨hstep, -⟩ := @subForward_step t w { st with limG := countedLimit st st.areas } a depth
          hauth hfwd hn hm.1 _ rfl
        refine ⟨?_, fun h => hstep.left_of_refused (h a rfl)⟩
        intro b hb hmask hallowed
        cases hb
        obtain ⟨hname, hlook⟩ := absent_of_offer hw habs (hn.resolve_left (by
          rw [hmask]
          decide)) (uplinkMatch_of_mem_offers hmem)
        obtain ⟨e, hlinked, hareas, hupl⟩ := hstep.made_of_allowed hmask hlook hallowed
        refine ⟨e, hlinked, ?_, hareas, hupl⟩
        rw [hlinked.area]
        exact strieq_trans hname (strieq_strUpper a.areas)
  · intro hw
    have hloop : subAreas t w area true st =
        (none, (subAreas t w area true st).2.1, (subAreas t w area true st).2.2) :=
      Prod.ext (cmdSubLoop_queue hw _ _) rfl
    rw [cmdSub_eq_run depth hauth hfwd hloop (Or.inl hw)]
    unfold taken at hm hn ⊢
    rw [if_pos hw] at hm hn ⊢
    exact forwarded_run hauth hfwd hn hm

end

/-- Areafix with an uplink that offers a list of areas. -/
def forwardTables (list : String) : Tables :=
  { areafix := true, context := lit "af", passwds := []
    uplinks := [⟨true, lit list, ⟨2, 5020, 9, 0, []⟩, lit "AreaFix", lit "pw", none⟩] }

/-- A node that may forward, and the area TEST. -/
def forwarder (strings : List (Str × Str)) : Areafix :=
  { oneArea with
    auth := { areafixAuthInit with authorized := true, fwd := true }
    node := ⟨2, 5020, 2, 0, []⟩
    cf := { oneArea.cf with strings := strings } }

/-- A name is requested; of a pattern, the areas that are not there yet. -/
theorem cmdSub_forwards_new :
    let w := emptyWorld
    let t := forwardTables "TEST,NEW.A,NEW.*,NEW.B"
    let st := forwarder []
    (∃ e, Linked st.node ⟨true, lit "NEW.B", ⟨2, 5020, 9, 0, []⟩, lit "AreaFix", lit "pw", none⟩ e ∧
      strieq (lit "new.b") e.area = true ∧
      (cmdSub (forwardTables "TEST,NEW.A,NEW.B") w 2 (lit "new.b") true st).2.areas =
        st.areas ++ [e] ∧
      (cmdSub (forwardTables "TEST,NEW.A,NEW.B") w 2 (lit "new.b") true st).2.upl =
        [lit "2:5020/9.0,AreaFix,Areafix Daemon,pw,+NEW.B"]) ∧
    ∃ made, Forwarded t w 0 (offers w.files true (lit "*E*") t.uplinks)
      (subAreas t w (lit "*E*") true st).2.2 (cmdSub t w 2 (lit "*E*") true st).2 made := by
  refine ⟨?_, ?_⟩
  · have h := (@cmdSub_forwards (forwardTables "TEST,NEW.A,NEW.B") emptyWorld (forwarder [])
      (lit "new.b") 0 rfl rfl (by decide +kernel) (by decide +kernel)).1 (by decide +kernel)
      (by decide +kernel)
    obtain ⟨e, hlinked, hname, hareas, hupl⟩ :=
      h.1 ⟨true, lit "NEW.B", ⟨2, 5020, 9, 0, []⟩, lit "AreaFix", lit "pw", none⟩ (by decide +kernel)
        (by decide +kernel) (by decide +kernel)
    exact ⟨e, hlinked, hname, hareas, hupl.trans (by decide +kernel)⟩
  · exact (@cmdSub_forwards (forwardTables "TEST,NEW.A,NEW.*,NEW.B") emptyWorld (forwarder [])
      (lit "*E*") 0 rfl rfl (by decide +kernel) (by decide +kernel)).2 (by decide +kernel)

/-- A pattern takes what is excluded, an entry in front of the exclusion
counts, a mask offers nothing, and the configuration may forbid an area that
is offered to a node with all the rights. -/
theorem cmdSub_excluded :
    let sub := fun list strings area =>
      (cmdSub (forwardTables list) emptyWorld 2 (lit area) true (forwarder strings)).2
    let request := lit "2:5020/9.0,AreaFix,Areafix Daemon,pw,+NEW"
    (sub "!NEW,NEW" [] "N*").upl = [request] ∧ (sub "NEW,!NEW" [] "NEW").upl = [request] ∧
      (sub "N*,NEW" [] "NEW").upl = [] ∧
      (sub "NEW" [(lit "ForbiddenChar", lit "W")] "NEW").upl = [] ∧
      (sub "NEW" [(lit "ForbiddenChar", lit "W")] "NEW").areas = (forwarder []).areas := by
  decide +kernel

end Fidogate

/-
# `Fidogate.Common.AreasNames` — from an area to its newsgroup and back

Names are compared up to letter case.  `Translates` is what one table must do
for the other, byte by byte; `xlateName_back_iff` lifts it to whole names, and
the two directions of the lookup are two uses of it.
-/
import Fidogate.Common.Areas
import Mathlib.Data.List.Nodup
import Mathlib.Data.List.Pairwise

namespace Fidogate

open Bytes

/-! ## Translated names -/

/-- `g` undoes `f` on a byte, up to letter case before and after. -/
def Undoes (f g : UInt8 → UInt8) (c : UInt8) : Prop :=
  ∀ d, toLower d = toLower (f c) → toLower (g d) = toLower c

theorem map_undoes {f g : UInt8 → UInt8} : ∀ {n m : Str}, (∀ c ∈ n, Undoes f g c) →
    strieq m (n.map f) = true → strieq (m.map g) n = true
  | [], m, _, h => by
      have hm : m = [] := List.length_eq_zero_iff.mp (strieq_length h)
      rw [hm]
      rfl
  | c :: n, m, hu, h => by
      cases m with
      | nil => exact absurd (strieq_length h) (by simp)
      | cons d m =>
          have hcd := List.cons.inj (strieq_iff.mp h)
          have ih := map_undoes (fun c hc => hu c (List.mem_cons_of_mem _ hc))
            (strieq_iff.mpr hcd.2)
          rw [strieq_iff, List.map_cons, List.map_cons, List.map_cons,
            hu c List.mem_cons_self d hcd.1, strieq_iff.mp ih]

/-- Neither the name nor its translation is too long for its buffer. -/
def Fits (u v n : Str) : Prop :=
  v.length + (n.length - u.length) < MAXPATH ∧ n.length < MAXPATH

theorem length_xlateName_le (f : UInt8 → UInt8) (u v n : Str) :
    (xlateName f u v n).length < MAXPATH := by
  rw [xlateName, List.length_take]
  have : 0 < MAXPATH := by decide
  omega

/-- A name that fits is translated behind the whole of the other prefix. -/
theorem xlateName_of_fits {f : UInt8 → UInt8} {u v n : Str}
    (h : v.length + (n.length - u.length) < MAXPATH) :
    xlateName f u v n = v ++ (n.drop u.length).map f := by
  have hv : bufCopy MAXPATH v = v := List.take_of_length_le (by omega)
  rw [xlateName, hv, List.take_of_length_le]
  simp only [List.length_append, List.length_map, List.length_drop]
  omega

/-- Translated there and back, a name is the same exactly if it fits both
times. -/
theorem xlateName_back_iff {f g : UInt8 → UInt8} {u v n m : Str} (hu : hasPrefixI u n = true)
    (hfg : ∀ c ∈ n, Undoes f g c) (hm : strieq m (xlateName f u v n) = true)
    (hv : hasPrefixI v m = true) :
    strieq (xlateName g v u m) n = true ↔ Fits u v n := by
  have hun := hasPrefixI_length hu
  have hvm := hasPrefixI_length hv
  have hlen := strieq_length hm
  have hmlt := length_xlateName_le f u v n
  constructor
  · -- what was cut off does not come back
    intro h
    have hn := strieq_length h
    have hback := length_xlateName_le g v u m
    have hle : (xlateName g v u m).length ≤ u.length + (m.length - v.length) := by
      rw [xlateName, List.length_take, List.length_append, List.length_map, List.length_drop,
        bufCopy, List.length_take]
      omega
    rw [Fits]
    omega
  · intro hf
    have hxl := xlateName_of_fits (f := f) hf.1
    rw [hxl] at hm hlen
    simp only [List.length_append, List.length_map, List.length_drop] at hlen
    rw [xlateName_of_fits (by have := hf.2; omega)]
    have htail : strieq (m.drop v.length) ((n.drop u.length).map f) = true := by
      have := congrArg (List.drop v.length) (strieq_iff.mp hm)
      rw [← List.map_drop, ← List.map_drop, List.drop_left] at this
      exact strieq_iff.mpr this
    have hback := map_undoes (fun c hc => hfg c (List.mem_of_mem_drop hc)) htail
    have hpre := strieq_symm (hasPrefixI_iff.mp hu)
    have := strieq_append hpre hback
    rwa [List.take_append_drop] at this

/-! ## The tables -/

/-- The two strings of an `AreasXlate` line, as the pairs of their bytes. -/
def XlateLine (cf : Str) (ps : List (UInt8 × UInt8)) : Prop :=
  ∃ more, xstrtok blanks cf = ps.map Prod.fst :: ps.map Prod.snd :: more

/-- The lines pair off bytes that are no letters, none of them twice. -/
structure XlateTable (cfs : List Str) (ps : List (UInt8 × UInt8)) : Prop where
  lines : ∃ pss, List.Forall₂ XlateLine cfs pss ∧ ps = pss.flatten
  sources : (ps.map Prod.fst).Nodup
  targets : (ps.map Prod.snd).Nodup
  letters : ∀ p ∈ ps, isAlpha p.1 = false ∧ isAlpha p.2 = false
  nonzero : ∀ p ∈ ps, p.1 ≠ nul ∧ p.2 ≠ nul

/-- One turn of "Fill table" -/
def xlatePair (t : Xlate) (p : UInt8 × UInt8) : Xlate :=
  ⟨Function.update t.a p.1 p.2, Function.update t.g p.2 p.1⟩

theorem xlateFill_pairs (t : Xlate) (ps : List (UInt8 × UInt8)) :
    xlateFill t (ps.map Prod.fst) (ps.map Prod.snd) = ps.foldl xlatePair t := by
  induction ps generalizing t with
  | nil => rfl
  | cons p ps ih => exact ih _

theorem areasInitXlate_lines {cfs : List Str} {pss : List (List (UInt8 × UInt8))}
    (h : List.Forall₂ XlateLine cfs pss) (t : Xlate) :
    areasInitXlate t cfs = pss.flatten.foldl xlatePair t := by
  induction h generalizing t with
  | nil => rfl
  | @cons cf ps cfs pss hl _ ih =>
      obtain ⟨more, hl⟩ := hl
      have hne : cf ≠ [] := by
        rintro rfl
        exact absurd hl (by simp [show xstrtok blanks [] = [] from rfl])
      rw [areasInitXlate, if_neg hne]
      simp only [hl]
      rw [ih, xlateFill_pairs, List.flatten_cons, List.foldl_append]

/-- A table filled by pairs whose keys differ. -/
theorem foldl_update {ι : Type} (k v : ι → UInt8) {ps : List ι} (hn : (ps.map k).Nodup)
    (t : UInt8 → UInt8) :
    (∀ p ∈ ps, ps.foldl (fun t p => Function.update t (k p) (v p)) t (k p) = v p) ∧
      ∀ c, c ∉ ps.map k → ps.foldl (fun t p => Function.update t (k p) (v p)) t c = t c := by
  induction ps generalizing t with
  | nil => exact ⟨fun p hp => absurd hp List.not_mem_nil, fun c _ => rfl⟩
  | cons p ps ih =>
      rw [List.map_cons, List.nodup_cons] at hn
      obtain ⟨h1, h2⟩ := ih hn.2 (Function.update t (k p) (v p))
      rw [List.foldl_cons]
      constructor
      · intro q hq
        rcases List.mem_cons.mp hq with rfl | hq
        · rw [h2 (k q) hn.1, Function.update_self]
        · exact h1 q hq
      · intro c hc
        rw [List.map_cons, List.mem_cons, not_or] at hc
        rw [h2 c hc.2, Function.update_of_ne hc.1]

theorem foldl_xlatePair (ps : List (UInt8 × UInt8)) (t : Xlate) :
    ps.foldl xlatePair t =
      ⟨ps.foldl (fun t p => Function.update t p.1 p.2) t.a,
        ps.foldl (fun t p => Function.update t p.2 p.1) t.g⟩ := by
  induction ps generalizing t with
  | nil => rfl
  | cons p ps ih => rw [List.foldl_cons, ih]; rfl

/-- The name has no byte that is only a target of the table. -/
def NoTarget (ps : List (UInt8 × UInt8)) (area : Str) : Prop :=
  ∀ c ∈ area, c ∈ ps.map Prod.snd → c ∈ ps.map Prod.fst

/-- The name has no byte that is only a source of the table. -/
def NoSource (ps : List (UInt8 × UInt8)) (group : Str) : Prop :=
  ∀ c ∈ group, c ∈ ps.map Prod.fst → c ∈ ps.map Prod.snd

section

variable {cfs : List Str} {ps : List (UInt8 × UInt8)}

theorem XlateTable.a_of_mem (ht : XlateTable cfs ps) {p : UInt8 × UInt8} (hp : p ∈ ps) :
    (areasInitXlate xlateNone cfs).a p.1 = p.2 := by
  obtain ⟨pss, hl, rfl⟩ := ht.lines
  rw [areasInitXlate_lines hl, foldl_xlatePair]
  exact (foldl_update Prod.fst Prod.snd ht.sources _).1 p hp

theorem XlateTable.a_of_not_mem (ht : XlateTable cfs ps) {c : UInt8}
    (hc : c ∉ ps.map Prod.fst) : (areasInitXlate xlateNone cfs).a c = nul := by
  obtain ⟨pss, hl, rfl⟩ := ht.lines
  rw [areasInitXlate_lines hl, foldl_xlatePair]
  exact (foldl_update Prod.fst Prod.snd ht.sources _).2 c hc

theorem XlateTable.g_of_mem (ht : XlateTable cfs ps) {p : UInt8 × UInt8} (hp : p ∈ ps) :
    (areasInitXlate xlateNone cfs).g p.2 = p.1 := by
  obtain ⟨pss, hl, rfl⟩ := ht.lines
  rw [areasInitXlate_lines hl, foldl_xlatePair]
  exact (foldl_update Prod.snd Prod.fst ht.targets _).1 p hp

theorem XlateTable.g_of_not_mem (ht : XlateTable cfs ps) {c : UInt8}
    (hc : c ∉ ps.map Prod.snd) : (areasInitXlate xlateNone cfs).g c = nul := by
  obtain ⟨pss, hl, rfl⟩ := ht.lines
  rw [areasInitXlate_lines hl, foldl_xlatePair]
  exact (foldl_update Prod.snd Prod.fst ht.targets _).2 c hc

/-- What is done to a byte that is in no table is undone, if the other table
knows the byte in neither case. -/
theorem toLower_mem_iff {f : UInt8 × UInt8 → UInt8} (hf : ∀ p ∈ ps, isAlpha (f p) = false)
    {c d : UInt8} (hd : toLower d = toLower c) : d ∈ ps.map f ↔ c ∈ ps.map f := by
  constructor
  · intro h
    obtain ⟨p, hp, rfl⟩ := List.mem_map.mp h
    rw [toLower_eq_of_not_alpha (hf p hp) hd.symm]
    exact h
  · intro h
    obtain ⟨p, hp, rfl⟩ := List.mem_map.mp h
    rw [toLower_eq_of_not_alpha (hf p hp) hd]
    exact h

/-- The table of newsgroups undoes the table of areas. -/
theorem XlateTable.undoes_group (ht : XlateTable cfs ps) {area : Str} (hn : NoTarget ps area) :
    ∀ c ∈ area, Undoes (areasInitXlate xlateNone cfs).toGroup
      (areasInitXlate xlateNone cfs).toArea c := by
  intro c hc d hd
  by_cases hs : c ∈ ps.map Prod.fst
  · obtain ⟨p, hp, rfl⟩ := List.mem_map.mp hs
    have ha := ht.a_of_mem hp
    rw [Xlate.toGroup, ha, if_pos (ht.nonzero p hp).2] at hd
    obtain rfl := toLower_eq_of_not_alpha (ht.letters p hp).2 hd
    rw [Xlate.toArea, ht.g_of_mem hp, if_pos (ht.nonzero p hp).1]
  · rw [Xlate.toGroup, ht.a_of_not_mem hs, if_neg (by simp), toLower_toLower] at hd
    have hdt : d ∉ ps.map Prod.snd := fun h =>
      hs (hn c hc ((toLower_mem_iff (fun p hp => (ht.letters p hp).2) hd).mp h))
    rw [Xlate.toArea, ht.g_of_not_mem hdt, if_neg (by simp), toLower_toUpper, hd]

/-- The table of areas undoes the table of newsgroups. -/
theorem XlateTable.undoes_area (ht : XlateTable cfs ps) {group : Str} (hn : NoSource ps group) :
    ∀ c ∈ group, Undoes (areasInitXlate xlateNone cfs).toArea
      (areasInitXlate xlateNone cfs).toGroup c := by
  intro c hc d hd
  by_cases hs : c ∈ ps.map Prod.snd
  · obtain ⟨p, hp, rfl⟩ := List.mem_map.mp hs
    rw [Xlate.toArea, ht.g_of_mem hp, if_pos (ht.nonzero p hp).1] at hd
    obtain rfl := toLower_eq_of_not_alpha (ht.letters p hp).1 hd
    rw [Xlate.toGroup, ht.a_of_mem hp, if_pos (ht.nonzero p hp).2]
  · rw [Xlate.toArea, ht.g_of_not_mem hs, if_neg (by simp), toLower_toUpper] at hd
    have hdt : d ∉ ps.map Prod.fst := fun h =>
      hs (hn c hc ((toLower_mem_iff (fun p hp => (ht.letters p hp).1) hd).mp h))
    rw [Xlate.toGroup, ht.a_of_not_mem hdt, if_neg (by simp), toLower_toLower, hd]

end

/-! ## Entries that do not meet -/

/-- Neither entry covers the name of the other. -/
def Area.Apart (p q : Area) : Prop :=
  p.coversArea q.area = false ∧ q.coversArea p.area = false ∧
    p.coversGroup q.group = false ∧ q.coversGroup p.group = false

theorem Area.Apart.symm {p q : Area} (h : Area.Apart p q) : Area.Apart q p :=
  ⟨h.2.1, h.1, h.2.2.2, h.2.2.1⟩

theorem coversArea_eq (p : Area) (area : Str) :
    p.coversArea area =
      if p.flag AREA_HIERARCHY then hasPrefixI p.area area else strieq area p.area := by
  have h : (p.area.length == 0 || hasPrefixI p.area area) = hasPrefixI p.area area := by
    cases p.area with
    | nil => rfl
    | cons c s => rfl
  rw [Area.coversArea, h]

/-- Two prefixes or names that cover one name meet. -/
theorem covers_meet {hp hq : Bool} {u v n : Str}
    (h1 : (if hp then hasPrefixI u n else strieq n u) = true)
    (h2 : (if hq then hasPrefixI v n else strieq n v) = true) :
    (if hp then hasPrefixI u v else strieq v u) = true ∨
      (if hq then hasPrefixI v u else strieq u v) = true := by
  cases hp <;> cases hq
  · exact .inl (strieq_trans (strieq_symm h2) h1)
  · exact .inr (by rw [hasPrefixI_congr (strieq_symm h1)] at *; exact h2)
  · exact .inl (by rw [hasPrefixI_congr (strieq_symm h2)] at *; exact h1)
  · rcases List.prefix_or_prefix_of_prefix (List.isPrefixOf_iff_prefix.mp h1)
      (List.isPrefixOf_iff_prefix.mp h2) with h | h
    · exact .inl (List.isPrefixOf_iff_prefix.mpr h)
    · exact .inr (List.isPrefixOf_iff_prefix.mpr h)

/-- No entry covers another one's area or newsgroup. -/
def Separate (areas : List Area) : Prop := areas.Pairwise Area.Apart

section

variable {areas : List Area} {p q : Area}

instance : Std.Symm Area.Apart := ⟨fun _ _ h => h.symm⟩

theorem Separate.apart (hs : Separate areas) (hp : p ∈ areas) (hq : q ∈ areas) (h : p ≠ q) :
    Area.Apart p q :=
  List.Pairwise.forall hs hp hq h

theorem Separate.area_unique (hs : Separate areas) (hp : p ∈ areas) (hq : q ∈ areas) {area : Str}
    (h1 : p.coversArea area = true) (h2 : q.coversArea area = true) : q = p := by
  by_contra hne
  have ha := hs.apart hp hq fun h => hne h.symm
  rw [coversArea_eq] at h1 h2
  rcases covers_meet h1 h2 with h | h
  · exact absurd ha.1 (by rw [coversArea_eq, h]; simp)
  · exact absurd ha.2.1 (by rw [coversArea_eq, h]; simp)

theorem Separate.group_unique (hs : Separate areas) (hp : p ∈ areas) (hq : q ∈ areas) {group : Str}
    (h1 : p.coversGroup group = true) (h2 : q.coversGroup group = true) : q = p := by
  by_contra hne
  have ha := hs.apart hp hq fun h => hne h.symm
  rw [Area.coversGroup] at h1 h2
  rcases covers_meet h1 h2 with h | h
  · exact absurd ha.2.2.1 (by rw [Area.coversGroup, h]; simp)
  · exact absurd ha.2.2.2 (by rw [Area.coversGroup, h]; simp)

theorem find_unique {pred : Area → Bool} (hp : p ∈ areas) (h : pred p = true)
    (hu : ∀ q ∈ areas, pred q = true → q = p) : areas.find? pred = some p := by
  cases hf : areas.find? pred with
  | none => exact absurd h (by simpa using List.find?_eq_none.mp hf p hp)
  | some q => rw [hu q (List.mem_of_find?_eq_some hf) (List.find?_some hf)]

end

theorem hasPrefixI_xlateName {f : UInt8 → UInt8} {u v n m : Str} (hv : v.length < MAXPATH)
    (hm : strieq m (xlateName f u v n) = true) : hasPrefixI v m = true := by
  have hcut : bufCopy MAXPATH v = v := List.take_of_length_le (by omega)
  rw [hasPrefixI_congr hm, hasPrefixI, List.isPrefixOf_iff_prefix, xlateName, hcut,
    List.take_append, List.take_of_length_le (by omega), List.map_append]
  exact List.prefix_append _ _

/-- A translated name that lost the end of its prefix is the front of it, so
what covers the name covers the prefix. -/
theorem hasPrefixI_of_cut {f : UInt8 → UInt8} {u v n m w : Str}
    (hm : strieq m (xlateName f u v n) = true) (hv : hasPrefixI v m = false)
    (hw : hasPrefixI w m = true) : hasPrefixI w v = true := by
  have hlong : MAXPATH ≤ v.length := by
    by_contra hlt
    rw [hasPrefixI_xlateName (Nat.lt_of_not_le hlt) hm] at hv
    exact absurd hv (by simp)
  have hcut : xlateName f u v n = v.take (MAXPATH - 1) := by
    rw [xlateName, bufCopy, List.take_append_of_le_length, List.take_take, Nat.min_self]
    rw [List.length_take]
    omega
  rw [hasPrefixI_congr hm, hcut, hasPrefixI, List.isPrefixOf_iff_prefix, List.map_take] at hw
  exact List.isPrefixOf_iff_prefix.mpr (hw.trans (List.take_prefix _ _))

/-! ## The lookups -/

/-- The options of an entry: all but its names. -/
def Area.options (p : Area) : Area := { p with area := [], group := [] }

theorem found_some {t : Xlate} {p r : Area} {area group : Option Str}
    (h : p.found t area group = some r) : p.flag AREA_NO = false ∧
      r = if p.flag AREA_HIERARCHY then areaBuild t p area group else p := by
  rw [Area.found] at h
  cases hn : p.flag AREA_NO with
  | true => rw [hn] at h; exact absurd h (by simp)
  | false =>
      rw [hn] at h
      cases hh : p.flag AREA_HIERARCHY <;> rw [hh] at h <;> simp_all

section

variable {cfs : List Str} {ps : List (UInt8 × UInt8)} {areas : List Area} {p r : Area}

/-- An entry found by the newsgroup made for an area, and giving it back, is
the entry the area came from: another could only cover a newsgroup that lost
the end of its prefix. -/
theorem coversGroup_of_found {t : Xlate} {f : UInt8 → UInt8} {q s : Area} {area group : Str}
    (hs : Separate areas) (hp : p ∈ areas) (hqm : q ∈ areas) (hh : p.flag AREA_HIERARCHY = true)
    (hpre : hasPrefixI p.area area = true)
    (hxl : strieq group (xlateName f p.area p.group area) = true)
    (hqg : q.coversGroup group = true) (hqs : q.found t none (some group) = some s)
    (hsa : strieq s.area area = true) : p.coversGroup group = true := by
  have hcg : p.coversGroup group = hasPrefixI p.group group := by rw [Area.coversGroup, hh]; rfl
  by_contra hnot
  have hv : hasPrefixI p.group group = false := by rw [← hcg]; simpa using hnot
  have hap := hs.apart hp hqm fun e => hnot (e ▸ hqg)
  obtain ⟨-, hsq⟩ := found_some hqs
  cases hqh : q.flag AREA_HIERARCHY with
  | false =>
      rw [hqh] at hsq
      obtain rfl : s = q := hsq
      have hcov := hap.1
      rw [coversArea_eq, hh, if_pos rfl, hasPrefixI_congr hsa, hpre] at hcov
      exact absurd hcov (by simp)
  | true =>
      rw [Area.coversGroup, hqh, if_pos rfl] at hqg
      have hcov := hap.2.2.2
      rw [Area.coversGroup, hqh, if_pos rfl, hasPrefixI_of_cut hxl hv hqg] at hcov
      exact absurd hcov (by simp)

/-- The same by the area made for a newsgroup. -/
theorem coversArea_of_found {t : Xlate} {f : UInt8 → UInt8} {q s : Area} {area group : Str}
    (hs : Separate areas) (hp : p ∈ areas) (hqm : q ∈ areas) (hh : p.flag AREA_HIERARCHY = true)
    (hpre : hasPrefixI p.group group = true)
    (hxl : strieq area (xlateName f p.group p.area group) = true)
    (hqa : q.coversArea area = true) (hqs : q.found t (some area) none = some s)
    (hsg : strieq s.group group = true) : p.coversArea area = true := by
  have hca : p.coversArea area = hasPrefixI p.area area := by rw [coversArea_eq, hh]; rfl
  by_contra hnot
  have hv : hasPrefixI p.area area = false := by rw [← hca]; simpa using hnot
  have hap := hs.apart hp hqm fun e => hnot (e ▸ hqa)
  obtain ⟨-, hsq⟩ := found_some hqs
  cases hqh : q.flag AREA_HIERARCHY with
  | false =>
      rw [hqh] at hsq
      obtain rfl : s = q := hsq
      have hcov := hap.2.2.1
      rw [Area.coversGroup, hh, if_pos rfl, hasPrefixI_congr hsg, hpre] at hcov
      exact absurd hcov (by simp)
  | true =>
      rw [coversArea_eq, hqh, if_pos rfl] at hqa
      have hcov := hap.2.1
      rw [coversArea_eq, hqh, if_pos rfl, hasPrefixI_of_cut hxl hv hqa] at hcov
      exact absurd hcov (by simp)

/-- From an area that entry `p` covers to its newsgroup and back. -/
theorem lookup_group_iff (ht : XlateTable cfs ps) (hs : Separate areas) (hp : p ∈ areas)
    {area group : Str} (hn : NoTarget ps area) (hc : p.coversArea area = true)
    (hr : p.found (areasInitXlate xlateNone cfs) (some area) none = some r)
    (hg : strieq group r.group = true) :
    (∃ s, areasLookup (areasInitXlate xlateNone cfs) none (some group) none areas = some s ∧
        strieq s.area area = true ∧ s.options = r.options) ↔
      group.headD nul = p.group.headD nul ∧
        (p.flag AREA_HIERARCHY = true → Fits p.area p.group area) := by
  obtain ⟨hno, hreq⟩ := found_some hr
  rw [areasLookup_group]
  -- an entry that is found by the newsgroup is `p`, if it gives the area back
  have huniq : ∀ q ∈ areas, q.matchesGroup group = true → p.coversGroup group = true → q = p :=
    fun q hq hm hcg => hs.group_unique hp hq hcg (Bool.and_eq_true_iff.mp hm).2
  cases hh : p.flag AREA_HIERARCHY with
  | false =>
      obtain rfl : r = p := by rw [hreq, hh]; rfl
      have hcg : r.coversGroup group = true := by rwa [Area.coversGroup, hh]
      have hca : strieq r.area area = true := by
        rw [coversArea_eq, hh] at hc
        exact strieq_symm hc
      constructor
      · rintro ⟨s, hf, -, -⟩
        obtain ⟨q, hq, -⟩ := Option.bind_eq_some_iff.mp hf
        have hm := List.find?_some hq
        rw [huniq q (List.mem_of_find?_eq_some hq) hm hcg] at hm
        exact ⟨beq_iff_eq.mp (Bool.and_eq_true_iff.mp hm).1, fun h => absurd h (by simp)⟩
      · rintro ⟨hhead, -⟩
        have hm : r.matchesGroup group = true := by
          rw [Area.matchesGroup, hcg, Bool.and_true, beq_iff_eq, hhead]
        rw [find_unique hp hm fun q hq h => huniq q hq h hcg]
        exact ⟨r, by simp [Area.found, hno, hh], hca, rfl⟩
  | true =>
      have hpre : hasPrefixI p.area area = true := by rwa [coversArea_eq, hh] at hc
      rw [hh] at hreq
      have hcg : p.coversGroup group = hasPrefixI p.group group := by rw [Area.coversGroup, hh]; rfl
      have hxl : strieq group (xlateName (areasInitXlate xlateNone cfs).toGroup p.area p.group
          area) = true := by
        rw [hreq] at hg
        exact hg
      have hback := fun hv => xlateName_back_iff hpre (ht.undoes_group hn) hxl hv
      constructor
      · rintro ⟨s, hf, hsa, -⟩
        obtain ⟨q, hq, hqs⟩ := Option.bind_eq_some_iff.mp hf
        have hm := List.find?_some hq
        have hqm := List.mem_of_find?_eq_some hq
        have hqg := (Bool.and_eq_true_iff.mp hm).2
        have hqp := coversGroup_of_found hs hp hqm hh hpre hxl hqg hqs hsa
        obtain rfl := huniq q hqm hm hqp
        obtain ⟨-, rfl⟩ := found_some hqs
        rw [hh] at hsa
        refine ⟨beq_iff_eq.mp (Bool.and_eq_true_iff.mp hm).1, fun _ => ?_⟩
        exact (hback (hcg ▸ hqp)).mp hsa
      · rintro ⟨hhead, hfit⟩
        have hfit := hfit rfl
        have hv := hasPrefixI_xlateName (Nat.lt_of_le_of_lt (Nat.le_add_right _ _) hfit.1) hxl
        have hm : p.matchesGroup group = true := by
          rw [Area.matchesGroup, hcg, hv, Bool.and_true, beq_iff_eq, hhead]
        rw [find_unique hp hm fun q hq h => huniq q hq h (hcg ▸ hv)]
        refine ⟨_, by simp only [Option.bind_some, Area.found, hno, hh]; rfl, (hback hv).mpr hfit, ?_⟩
        rw [hreq]
        rfl

/-- From a newsgroup that entry `p` covers to its area and back. -/
theorem lookup_area_iff (ht : XlateTable cfs ps) (hs : Separate areas) (hp : p ∈ areas)
    {area group : Str} (hn : NoSource ps group) (hc : p.coversGroup group = true)
    (hr : p.found (areasInitXlate xlateNone cfs) none (some group) = some r)
    (hg : strieq area r.area = true) {aka : Option Node} (haka : aka.all (nodeEq p.addr ·) = true) :
    (∃ s, areasLookup (areasInitXlate xlateNone cfs) (some area) none aka areas = some s ∧
        strieq s.group group = true ∧ s.options = r.options) ↔
      (p.flag AREA_HIERARCHY = true → Fits p.group p.area group) := by
  obtain ⟨hno, hreq⟩ := found_some hr
  rw [areasLookup_area]
  have huniq : ∀ q ∈ areas, q.matchesArea aka area = true → p.coversArea area = true → q = p :=
    fun q hq hm hca => hs.area_unique hp hq hca (Bool.and_eq_true_iff.mp hm).2
  cases hh : p.flag AREA_HIERARCHY with
  | false =>
      obtain rfl : r = p := by rw [hreq, hh]; rfl
      have hca : r.coversArea area = true := by rw [coversArea_eq, hh]; exact hg
      have hcg : strieq r.group group = true := by
        rw [Area.coversGroup, hh] at hc
        exact strieq_symm hc
      have hm : r.matchesArea aka area = true := by rw [Area.matchesArea, haka, hca]; rfl
      rw [find_unique hp hm fun q hq h => huniq q hq h hca]
      exact ⟨fun _ h => absurd h (by simp), fun _ => ⟨r, by simp [Area.found, hno, hh], hcg, rfl⟩⟩
  | true =>
      have hpre : hasPrefixI p.group group = true := by rwa [Area.coversGroup, hh] at hc
      rw [hh] at hreq
      have hca : p.coversArea area = hasPrefixI p.area area := by rw [coversArea_eq, hh]; rfl
      have hxl : strieq area (xlateName (areasInitXlate xlateNone cfs).toArea p.group p.area
          group) = true := by
        rw [hreq] at hg
        exact hg
      have hback := fun hv => xlateName_back_iff hpre (ht.undoes_area hn) hxl hv
      constructor
      · rintro ⟨s, hf, hsg, -⟩ _
        obtain ⟨q, hq, hqs⟩ := Option.bind_eq_some_iff.mp hf
        have hm := List.find?_some hq
        have hqm := List.mem_of_find?_eq_some hq
        have hqa := (Bool.and_eq_true_iff.mp hm).2
        have hqp := coversArea_of_found hs hp hqm hh hpre hxl hqa hqs hsg
        obtain rfl := huniq q hqm hm hqp
        obtain ⟨-, rfl⟩ := found_some hqs
        rw [hh] at hsg
        exact (hback (hca ▸ hqp)).mp hsg
      · intro hfit
        have hfit := hfit rfl
        have hv := hasPrefixI_xlateName (Nat.lt_of_le_of_lt (Nat.le_add_right _ _) hfit.1) hxl
        have hm : p.matchesArea aka area = true := by rw [Area.matchesArea, haka, hca, hv]; rfl
        rw [find_unique hp hm fun q hq h => huniq q hq h (hca ▸ hv)]
        refine ⟨_, by simp only [Option.bind_some, Area.found, hno, hh]; rfl, (hback hv).mpr hfit, ?_⟩
        rw [hreq]
        rfl

/-- The entry's newsgroup for the area is not cut. -/
def Area.fitsArea (p : Area) (area : Str) : Prop :=
  p.flag AREA_HIERARCHY = true → Fits p.area p.group area

/-- The entry's area for the newsgroup is not cut. -/
def Area.fitsGroup (p : Area) (group : Str) : Prop :=
  p.flag AREA_HIERARCHY = true → Fits p.group p.area group

theorem lookup_area_some {aka : Option Node} {area : Str}
    (h : areasLookup (areasInitXlate xlateNone cfs) (some area) none aka areas = some r) :
    ∃ p ∈ areas, p.matchesArea aka area = true ∧
      p.found (areasInitXlate xlateNone cfs) (some area) none = some r := by
  rw [areasLookup_area] at h
  obtain ⟨p, hp, hr⟩ := Option.bind_eq_some_iff.mp h
  have hm := List.find?_some hp
  exact ⟨p, List.mem_of_find?_eq_some hp, hm, hr⟩

theorem lookup_group_some {aka : Option Node} {group : Str}
    (h : areasLookup (areasInitXlate xlateNone cfs) none (some group) aka areas = some r) :
    ∃ p ∈ areas, p.matchesGroup group = true ∧
      p.found (areasInitXlate xlateNone cfs) none (some group) = some r := by
  rw [areasLookup_group] at h
  obtain ⟨p, hp, hr⟩ := Option.bind_eq_some_iff.mp h
  have hm := List.find?_some hp
  exact ⟨p, List.mem_of_find?_eq_some hp, hm, hr⟩

theorem coversGroup_congr (p : Area) {g g' : Str} (h : strieq g g' = true) :
    p.coversGroup g = p.coversGroup g' := by
  have he : strieq g p.group = strieq g' p.group := by rw [strieq, strieq, strieq_iff.mp h]
  rw [Area.coversGroup, Area.coversGroup, hasPrefixI_congr h, he]

/-- An entry covers the newsgroup it gives, unless it was cut. -/
theorem found_coversGroup {area : Str}
    (hr : p.found (areasInitXlate xlateNone cfs) (some area) none = some r)
    (hf : p.fitsArea area) : p.coversGroup r.group = true := by
  obtain ⟨-, hreq⟩ := found_some hr
  rw [Area.coversGroup]
  cases hh : p.flag AREA_HIERARCHY with
  | false =>
      rw [hh] at hreq
      obtain rfl : r = p := hreq
      exact strieq_refl _
  | true =>
      rw [hh] at hreq
      have hlt := Nat.lt_of_le_of_lt (Nat.le_add_right _ _) (hf hh).1
      rw [hreq]
      exact hasPrefixI_xlateName hlt (strieq_refl _)

/-- Areas whose newsgroups are not cut have different ones. -/
theorem lookup_group_injective (ht : XlateTable cfs ps) (hs : Separate areas) {q r' : Area}
    (hp : p ∈ areas) (hq : q ∈ areas) {area area' : Str} (hn : NoTarget ps area)
    (hn' : NoTarget ps area') (hc : p.coversArea area = true) (hc' : q.coversArea area' = true)
    (hr : p.found (areasInitXlate xlateNone cfs) (some area) none = some r)
    (hr' : q.found (areasInitXlate xlateNone cfs) (some area') none = some r')
    (hf : p.fitsArea area) (hf' : q.fitsArea area') (hg : strieq r.group r'.group = true) :
    strieq area area' = true := by
  have hcg := found_coversGroup hr hf
  have hcg' := found_coversGroup hr' hf'
  rw [← coversGroup_congr q hg] at hcg'
  obtain rfl := hs.group_unique hp hq hcg hcg'
  obtain ⟨-, hreq⟩ := found_some hr
  obtain ⟨-, hreq'⟩ := found_some hr'
  cases hh : q.flag AREA_HIERARCHY with
  | false =>
      rw [coversArea_eq, hh] at hc hc'
      exact strieq_trans hc (strieq_symm hc')
  | true =>
      rw [hh] at hreq hreq'
      rw [coversArea_eq, hh] at hc hc'
      rw [Area.coversGroup, hh] at hcg
      have h1 : strieq r.group (xlateName (areasInitXlate xlateNone cfs).toGroup q.area q.group
          area) = true := by
        rw [hreq]
        exact strieq_refl _
      have h2 : strieq r.group (xlateName (areasInitXlate xlateNone cfs).toGroup q.area q.group
          area') = true := by
        rw [hreq'] at hg
        exact hg
      have hb := (xlateName_back_iff hc (ht.undoes_group hn) h1 hcg).mpr (hf hh)
      have hb' := (xlateName_back_iff hc' (ht.undoes_group hn') h2 hcg).mpr (hf' hh)
      exact strieq_trans (strieq_symm hb) hb'

/-- The area looked up by the newsgroup of an area is that area, exactly if
the first byte of the newsgroup is the entry's and no name was cut; and so
back from a newsgroup, where the first byte does not matter. -/
theorem areasLookup_back_iff (ht : XlateTable cfs ps) (hs : Separate areas) :
    (∀ area aka r, NoTarget ps area →
      areasLookup (areasInitXlate xlateNone cfs) (some area) none aka areas = some r →
      ∀ group, strieq group r.group = true →
        ((∃ s, areasLookup (areasInitXlate xlateNone cfs) none (some group) none areas = some s ∧
            strieq s.area area = true ∧ s.options = r.options) ↔
          ∃ p ∈ areas, p.matchesArea aka area = true ∧
            group.headD nul = p.group.headD nul ∧ p.fitsArea area)) ∧
    (∀ group r, NoSource ps group →
      areasLookup (areasInitXlate xlateNone cfs) none (some group) none areas = some r →
      ∀ area aka, strieq area r.area = true → aka.all (nodeEq r.addr ·) = true →
        ((∃ s, areasLookup (areasInitXlate xlateNone cfs) (some area) none aka areas = some s ∧
            strieq s.group group = true ∧ s.options = r.options) ↔
          ∃ p ∈ areas, p.matchesGroup group = true ∧ p.fitsGroup group)) ∧
    (∀ area area' aka aka' r r', NoTarget ps area → NoTarget ps area' →
      areasLookup (areasInitXlate xlateNone cfs) (some area) none aka areas = some r →
      areasLookup (areasInitXlate xlateNone cfs) (some area') none aka' areas = some r' →
      (∃ p ∈ areas, p.matchesArea aka area = true ∧ p.fitsArea area) →
      (∃ p ∈ areas, p.matchesArea aka' area' = true ∧ p.fitsArea area') →
      strieq r.group r'.group = true → strieq area area' = true) := by
  refine ⟨?_, ?_, ?_⟩
  · intro area aka r hn hl group hg
    obtain ⟨p, hp, hm, hr⟩ := lookup_area_some hl
    have hc := (Bool.and_eq_true_iff.mp hm).2
    rw [lookup_group_iff ht hs hp hn hc hr hg]
    constructor
    · intro h
      exact ⟨p, hp, hm, h⟩
    · rintro ⟨q, hq, hmq, h⟩
      rwa [hs.area_unique hp hq hc (Bool.and_eq_true_iff.mp hmq).2] at h
  · intro group r hn hl area aka ha haka
    obtain ⟨p, hp, hm, hr⟩ := lookup_group_some hl
    have hc := (Bool.and_eq_true_iff.mp hm).2
    have haddr : r.addr = p.addr := by
      rw [(found_some hr).2]
      split <;> rfl
    rw [lookup_area_iff ht hs hp hn hc hr ha (haddr ▸ haka)]
    constructor
    · intro h
      exact ⟨p, hp, hm, h⟩
    · rintro ⟨q, hq, hmq, h⟩
      rwa [hs.group_unique hp hq hc (Bool.and_eq_true_iff.mp hmq).2] at h
  · rintro area area' aka aka' r r' hn hn' hl hl' ⟨q, hq, hmq, hf⟩ ⟨q', hq', hmq', hf'⟩ hg
    obtain ⟨p, hp, hm, hr⟩ := lookup_area_some hl
    obtain ⟨p', hp', hm', hr'⟩ := lookup_area_some hl'
    have hc := (Bool.and_eq_true_iff.mp hm).2
    have hc' := (Bool.and_eq_true_iff.mp hm').2
    rw [hs.area_unique hp hq hc (Bool.and_eq_true_iff.mp hmq).2] at hf
    rw [hs.area_unique hp' hq' hc' (Bool.and_eq_true_iff.mp hmq').2] at hf'
    exact lookup_group_injective ht hs hp hp' hn hn' hc hc' hr hr' hf hf' hg

/-- An entry without options. -/
def plainArea (area group : Str) (flags : Nat) : Area :=
  { area := area, group := group, zone := 2, addr := nodeInvalid, origin := none,
    distribution := none, flags := flags, rfcLvl := -1, maxsize := 14000, limitsize := 0,
    xHdr := [], charset := none, encoding := .default }

/-- The hierarchy `FIDO.` is `fido.`, with `-` for `_`. -/
theorem areasLookup_back_hierarchy :
    ∃ s, areasLookup (areasInitXlate xlateNone [lit "_ -"]) none (some (lit "fiDO.c-C")) none
        [plainArea (lit "FIDO.") (lit "fido.") AREA_HIERARCHY] = some s ∧
      strieq s.area (lit "FIDO.C_C") = true ∧
      s.options = (plainArea (lit "FIDO.") (lit "fido.") AREA_HIERARCHY).options := by
  have ht : XlateTable [lit "_ -"] [(95, 45)] :=
    ⟨⟨[[(95, 45)]], .cons ⟨[], by decide +kernel⟩ .nil, rfl⟩, List.nodup_singleton _,
      List.nodup_singleton _, List.forall_mem_singleton.mpr (by decide +kernel),
      List.forall_mem_singleton.mpr (by decide +kernel)⟩
  have hs : Separate [plainArea (lit "FIDO.") (lit "fido.") AREA_HIERARCHY] :=
    List.pairwise_singleton _ _
  have hn : NoTarget [(95, 45)] (lit "FIDO.C_C") := by
    rw [NoTarget]
    decide +kernel
  have hl : areasLookup (areasInitXlate xlateNone [lit "_ -"]) (some (lit "FIDO.C_C")) none none
      [plainArea (lit "FIDO.") (lit "fido.") AREA_HIERARCHY] =
      some { plainArea (lit "FIDO.") (lit "fido.") AREA_HIERARCHY with
        area := lit "FIDO.C_C", group := lit "fido.c-c" } := by decide +kernel
  refine ((areasLookup_back_iff ht hs).1 _ _ _ hn hl (lit "fiDO.c-C") (by decide +kernel)).mpr ?_
  exact ⟨_, List.mem_singleton.mpr rfl, by decide +kernel, by decide +kernel,
    fun _ => ⟨by decide +kernel, by decide +kernel⟩⟩

/-- A newsgroup whose first letter is written in the other case is not found. -/
theorem areasLookup_first_letter :
    ¬ ∀ (cfs : List Str) (ps : List (UInt8 × UInt8)) (areas : List Area), XlateTable cfs ps →
      Separate areas → ∀ area aka r, NoTarget ps area →
      areasLookup (areasInitXlate xlateNone cfs) (some area) none aka areas = some r →
      ∀ group, strieq group r.group = true →
        ∃ s, areasLookup (areasInitXlate xlateNone cfs) none (some group) none areas = some s ∧
          strieq s.area area = true ∧ s.options = r.options := by
  intro h
  have ht : XlateTable [] [] := ⟨⟨[], .nil, rfl⟩, List.nodup_nil, List.nodup_nil, by simp, by simp⟩
  have hs : Separate [plainArea (lit "COMP.FOO") (lit "comp.foo") 0] := List.pairwise_singleton _ _
  obtain ⟨s, hf, -⟩ := h [] [] _ ht hs (lit "COMP.FOO") none
    (plainArea (lit "COMP.FOO") (lit "comp.foo") 0) (by simp [NoTarget]) (by decide +kernel)
    (lit "Comp.foo") (by decide)
  have hnone : areasLookup (areasInitXlate xlateNone []) none (some (lit "Comp.foo")) none
      [plainArea (lit "COMP.FOO") (lit "comp.foo") 0] = none := by decide +kernel
  rw [hnone] at hf
  exact absurd hf (by simp)

end

end Fidogate

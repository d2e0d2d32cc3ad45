/-
# `Fidogate.Common.Multipart` — what a multipart body decodes to

`tl_addtl_move` leaves `last` where it was, so the next list that is moved
takes the place of the one moved before it.  `Entity.cut` says what is left of
the parts then, `Entity.decoded` what they read; the two agree exactly on the
`Whole` entities.
-/
import Fidogate.Common.MimeBody

namespace Fidogate

open Bytes Chain

/-! ## Entities -/

/-- What is in a section, the sections that are skipped being left out. -/
inductive Entity
  | text (lines : List Str)
  | parts (es : List Entity)

namespace Entity

/-- An entity is a text or made of entities. -/
theorem induct {P : Entity → Prop} (text : ∀ ls, P (.text ls))
    (parts : ∀ es, (∀ e ∈ es, P e) → P (.parts es)) : ∀ e, P e
  | .text ls => text ls
  | .parts es => parts es fun e _ => induct text parts e

/-- The texts of an entity that have any lines, in order. -/
def texts : Entity → List (List Str)
  | .text ls => if ls = [] then [] else [ls]
  | .parts es => es.flatMap fun e => e.texts

/-- The decoded text of an entity: that of its parts, in order. -/
def decoded : Entity → List Str
  | .text ls => ls
  | .parts es => es.flatMap fun e => e.decoded

theorem decoded_eq_flatten (e : Entity) : e.decoded = e.texts.flatten := by
  induction e using induct with
  | text ls => by_cases h : ls = [] <;> simp [decoded, texts, h]
  | parts es ih =>
      rw [decoded, texts]
      induction es with
      | nil => rfl
      | cons e es ihs =>
          rw [List.flatMap_cons, List.flatMap_cons, List.flatten_append, ih e List.mem_cons_self,
            ihs fun e he => ih e (List.mem_cons_of_mem _ he)]

end Entity

/-! ## What the moves leave -/

/-- The lines of a list up to the one `last` points to, and those behind it. -/
structure Cut where
  keep : List Str
  rest : List Str

namespace Cut

def lines (c : Cut) : List Str := c.keep ++ c.rest

/-- `tl_addtl_move` -/
def move (d s : Cut) : Cut := if d.keep = [] then s else ⟨d.keep, s.lines⟩

theorem lines_move_nil {d : Cut} (hd : d.keep = []) (s : Cut) : (d.move s).lines = s.lines := by
  rw [move, if_pos hd]

theorem lines_move_cons {d : Cut} (hd : d.keep ≠ []) (s : Cut) :
    (d.move s).lines = d.keep ++ s.lines := by
  rw [move, if_neg hd, lines]

end Cut

namespace Entity

/-- The list an entity is decoded to. -/
def cut : Entity → Cut
  | .text ls => ⟨ls, []⟩
  | .parts es => es.foldl (fun d e => d.move e.cut) ⟨[], []⟩

theorem cut_concat (es : List Entity) (z : Entity) :
    (parts (es ++ [z])).cut = (parts es).cut.move z.cut := by
  rw [cut, cut, List.foldl_append]
  rfl

theorem texts_concat (es : List Entity) (z : Entity) :
    (parts (es ++ [z])).texts = (parts es).texts ++ z.texts := by
  rw [texts, texts, List.flatMap_append]
  simp

theorem decoded_concat (es : List Entity) (z : Entity) :
    (parts (es ++ [z])).decoded = (parts es).decoded ++ z.decoded := by
  rw [decoded, decoded, List.flatMap_append]
  simp

theorem ne_nil_of_mem_texts {e : Entity} : ∀ {t}, t ∈ e.texts → t ≠ [] := by
  induction e using induct with
  | text ls =>
      intro t ht
      by_cases h : ls = []
      · simp [texts, h] at ht
      · simp only [texts, if_neg h, List.mem_singleton] at ht
        rwa [ht]
  | parts es ih =>
      intro t ht
      rw [texts, List.mem_flatMap] at ht
      obtain ⟨e, he, ht⟩ := ht
      exact ih e he ht

/-- Only the first text is safe from a later move. -/
theorem keep_cut (e : Entity) : e.cut.keep = e.texts.head?.getD [] := by
  induction e using induct with
  | text ls => by_cases h : ls = [] <;> simp [cut, texts, h]
  | parts es ih =>
      induction es using List.reverseRecOn with
      | nil => simp [cut, texts]
      | append_singleton es z ihs =>
          have ihs := ihs fun e he => ih e (List.mem_append_left _ he)
          have ihz := ih z (List.mem_append_right _ (List.mem_singleton.mpr rfl))
          rw [cut_concat, texts_concat, Cut.move]
          cases ht : (parts es).texts with
          | nil =>
              rw [ht] at ihs
              have hnil : (parts es).cut.keep = [] := ihs
              rw [if_pos hnil, ihz, List.nil_append]
          | cons t ts =>
              rw [ht] at ihs
              have hne : (parts es).cut.keep ≠ [] := by
                rw [ihs]
                exact ne_nil_of_mem_texts (ht ▸ List.mem_cons_self)
              rw [if_neg hne, ihs]
              rfl

/-- In every place where sections follow one another, at most one text stands
before the last of them; the last may have its own such place. -/
inductive Whole : Entity → Prop
  | text (ls : List Str) : Whole (.text ls)
  | none : Whole (.parts [])
  | last {es : List Entity} {z : Entity} :
      (parts es).texts.length ≤ 1 → Whole z → Whole (.parts (es ++ [z]))

theorem whole_concat_iff {es : List Entity} {z : Entity} :
    Whole (.parts (es ++ [z])) ↔ (parts es).texts.length ≤ 1 ∧ Whole z := by
  refine ⟨fun h => ?_, fun h => .last h.1 h.2⟩
  generalize he : es ++ [z] = l at h
  cases h with
  | none => exact absurd he (by simp)
  | @last es' z' h1 h2 =>
      obtain ⟨rfl, hz⟩ := List.append_inj' he rfl
      cases hz
      exact ⟨h1, h2⟩

/-- The moves only lose lines. -/
theorem lines_cut_sublist (e : Entity) : e.cut.lines.Sublist e.decoded := by
  induction e using induct with
  | text ls => simp [cut, Cut.lines, decoded]
  | parts es ih =>
      induction es using List.reverseRecOn with
      | nil => simp [cut, Cut.lines, decoded]
      | append_singleton es z ihs =>
          have ihs := ihs fun e he => ih e (List.mem_append_left _ he)
          have ihz := ih z (List.mem_append_right _ (List.mem_singleton.mpr rfl))
          rw [cut_concat, decoded_concat]
          by_cases hk : (parts es).cut.keep = []
          · rw [Cut.lines_move_nil hk]
            exact ihz.trans (List.sublist_append_right _ _)
          · rw [Cut.lines_move_cons hk]
            exact ((List.sublist_append_left _ _).trans ihs).append ihz

/-- Nothing is lost exactly if no move comes after a second text. -/
theorem lines_cut_iff (e : Entity) : e.cut.lines = e.decoded ↔ e.Whole := by
  induction e using induct with
  | text ls => simp [cut, Cut.lines, decoded, Whole.text]
  | parts es ih =>
      rcases List.eq_nil_or_concat es with rfl | ⟨es, z, rfl⟩
      · simp [cut, Cut.lines, decoded, Whole.none]
      rw [List.concat_eq_append] at ih ⊢
      have ihz := ih z (List.mem_append_right _ (List.mem_singleton.mpr rfl))
      rw [whole_concat_iff, ← ihz, cut_concat, decoded_concat, decoded_eq_flatten (parts es)]
      have hkeep := keep_cut (parts es)
      cases ht : (parts es).texts with
      | nil =>
          -- the last section is the first with text
          rw [ht] at hkeep
          rw [Cut.lines_move_nil hkeep]
          simp
      | cons t ts =>
          rw [ht] at hkeep
          have hmem : ∀ u ∈ t :: ts, u ≠ [] := fun u hu => ne_nil_of_mem_texts (ht ▸ hu)
          have hk : (parts es).cut.keep = t := hkeep
          rw [Cut.lines_move_cons (by rw [hk]; exact hmem t List.mem_cons_self), hk,
            List.flatten_cons, List.append_assoc, List.append_cancel_left_eq]
          constructor
          · -- what is left of the last section is no longer than the section
            intro h
            have hlen := congrArg List.length h
            have hle := (lines_cut_sublist z).length_le
            rw [List.length_append] at hlen
            have hts : ts.flatten = [] := List.length_eq_zero_iff.mp (by omega)
            have hnil : ts = [] := by
              cases ts with
              | nil => rfl
              | cons u us =>
                  have hu := hmem u (by simp)
                  simp [hu] at hts
            rw [hts, List.nil_append] at h
            exact ⟨by simp [hnil], h⟩
          · rintro ⟨h1, h2⟩
            have hnil : ts = [] := List.length_eq_zero_iff.mp (by simpa using h1)
            rw [h2, hnil, List.flatten_nil, List.nil_append]

end Entity

/-! ## Multipart bodies -/

/-- The lines of a section: its header, a blank line and its body, none of
them a boundary line. -/
structure SectionLines (boundary : Str) (header : List Str) (blank : Str) (body : List Str) :
    Prop where
  fields : ∀ l ∈ header, endsHeader l = false
  ends : endsHeader blank = true
  inside : ∀ l ∈ header ++ blank :: body, hasPrefix boundary l = false

section

variable (recode : Str → Str → Str → Option Str) (toCharset : Str) (chFallback : Option Str)

mutual

/-- The section with this header and this body is this entity; `none` if it
is one that is skipped. -/
inductive IsSection : List Str → List Str → Option Entity → Prop
  | text {header body : List Str} {mime : MIMEInfo} :
      sectionMime chFallback header = some mime → mime.isText = true →
      IsSection header body ((mimeDebodyText recode toCharset mime body).map .text)
  | other {header body : List Str} {mime : MIMEInfo} :
      sectionMime chFallback header = some mime → mime.isText = false →
      mime.isMultipart = false → IsSection header body none
  | unbounded {header body : List Str} {mime : MIMEInfo} :
      sectionMime chFallback header = some mime → mime.isMultipart = true →
      mime.typeBoundary = none → IsSection header body none
  | parts {header body : List Str} {mime : MIMEInfo} {b : Str} {es : List Entity} :
      sectionMime chFallback header = some mime → mime.isMultipart = true →
      mime.typeBoundary = some b → IsMultipart b body es →
      IsSection header body (some (.parts es))

/-- A multipart body: a preamble, a boundary line and the sections. -/
inductive IsMultipart : Str → List Str → List Entity → Prop
  | intro {b line : Str} {preamble ls : List Str} {es : List Entity} :
      (∀ l ∈ preamble, hasPrefix (delimiter b) l = false) →
      hasPrefix (delimiter b) line = true → IsSections b ls es →
      IsMultipart b (preamble ++ line :: ls) es

/-- Sections, each with the boundary line behind it, and an epilogue. -/
inductive IsSections : Str → List Str → List Entity → Prop
  | last {b blank line : Str} {header body epilogue : List Str} {e : Option Entity} :
      SectionLines (delimiter b) header blank body →
      IsSection (headerReadList header) body e →
      hasPrefix (closeDelimiter b) line = true →
      IsSections b (header ++ blank :: body ++ line :: epilogue) e.toList
  | more {b blank line : Str} {header body ls : List Str} {e : Option Entity}
      {es : List Entity} :
      SectionLines (delimiter b) header blank body →
      IsSection (headerReadList header) body e →
      hasPrefix (delimiter b) line = true → hasPrefix (closeDelimiter b) line = false →
      IsSections b ls es →
      IsSections b (header ++ blank :: body ++ line :: ls) (e.toList ++ es)

end

end

/-! ## The loop -/

theorem endsHeader_take (l : Str) : endsHeader (l.take (BUFFERSIZE - 1)) = endsHeader l := by
  cases l <;> rfl

/-- The header is read up to the blank line. -/
theorem headerReadLoop_append {header : List Str} (hh : ∀ l ∈ header, endsHeader l = false)
    {blank : Str} (hb : endsHeader blank = true) (body : List Str) :
    ∀ (first : Bool) (queue : Str) (hs : List Str),
      headerReadLoop (header ++ blank :: body) first queue hs =
        headerReadLoop header first queue hs := by
  induction header with
  | nil =>
      intro first queue hs
      simp [headerReadLoop, endsHeader_take, hb]
  | cons l header ih =>
      intro first queue hs
      have hl := hh l List.mem_cons_self
      have ih := ih fun l' hl' => hh l' (List.mem_cons_of_mem _ hl')
      simp only [List.cons_append, headerReadLoop, endsHeader_take, hl, Bool.false_eq_true,
        if_false, ih]

/-- and deleted through it. -/
theorem headerDeleteLoop_spec {hs bs : List (Nat × Str)} {a : Nat} {blank : Str}
    (hb : endsHeader blank = true) : ∀ {more : List Str} {h : Lines} {l : Textlist},
      hs.length < more.length → (∀ s ∈ vals hs, endsHeader s = false) →
      Holds h l (hs ++ (a, blank) :: bs) →
      ∃ l' h', headerDeleteLoop more h l = some (l', h') ∧ Holds h' l' bs ∧
        Frame (addrs (hs ++ (a, blank) :: bs)) h h' := by
  induction hs with
  | nil =>
      intro more h l hm _ hh
      cases more with
      | nil => exact absurd hm (by simp)
      | cons m more =>
          obtain ⟨c, hc, hv⟩ := hh.links.linked.cell_mem (a := a) (x := blank) (by simp)
          have hfirst : l.first = some a := hh.links.linked.head
          obtain ⟨l', h', e, hh', hf⟩ := hh.tlDelete_first
          exact ⟨l', h', by simp [headerDeleteLoop, hfirst, hc, e, hv, hb], hh', hf⟩
  | cons s hs ih =>
      intro more h l hm hs' hh
      obtain ⟨d, s⟩ := s
      cases more with
      | nil => exact absurd hm (by simp)
      | cons m more =>
          obtain ⟨c, hc, hv⟩ := hh.links.linked.cell_mem (a := d) (x := s) (by simp)
          have hfirst : l.first = some d := hh.links.linked.head
          have hs : endsHeader s = false := hs' s (by simp)
          obtain ⟨l1, h1, e1, hh1, hf1⟩ := hh.tlDelete_first
          obtain ⟨l', h', e, hh', hf⟩ := ih (Nat.lt_of_succ_lt_succ hm)
            (fun t ht => hs' t (List.mem_cons_of_mem _ ht)) hh1
          refine ⟨l', h', by simp [headerDeleteLoop, hfirst, hc, e1, hv, hs, e], hh', ?_⟩
          refine hf1.trans hf fun b _ hb => hb.elim id fun hb => List.mem_cons_of_mem _ hb

theorem headerDeleteFromBody_spec {h : Lines} {l : Textlist} {hs bs : List (Nat × Str)}
    {a : Nat} {blank : Str} (hh : Holds h l (hs ++ (a, blank) :: bs))
    (hs' : ∀ s ∈ vals hs, endsHeader s = false) (hb : endsHeader blank = true) :
    ∃ l' h', headerDeleteFromBody h l = some (l', h') ∧ Holds h' l' bs ∧
      Frame (addrs (hs ++ (a, blank) :: bs)) h h' := by
  refine headerDeleteLoop_spec hb ?_ hs' hh
  rw [hh.lines]
  simp

/-- The lines of a section are put to `tmp_body`. -/
theorem multipartLoop_inside (debody : DebodySection) (boundary finBoundary : Str)
    {ls : List Str} (hl : ∀ l ∈ ls, hasPrefix boundary l = false) (body : List Str)
    (dec : Textlist) : ∀ (tmp : Textlist) (h : Lines),
      multipartLoop debody boundary finBoundary (ls ++ body) dec tmp h =
        (tlCopy h tmp ls).bind fun s =>
          multipartLoop debody boundary finBoundary body dec s.1 s.2 := by
  induction ls with
  | nil =>
      intro tmp h
      rfl
  | cons l ls ih =>
      intro tmp h
      have hpre := hl l List.mem_cons_self
      have ih := ih fun l' hl' => hl l' (List.mem_cons_of_mem _ hl')
      simp only [List.cons_append, multipartLoop, hpre, Bool.not_false, if_true, ih, tlCopy,
        List.foldlM_cons, Option.bind_eq_bind, Option.bind_assoc]

/-- What a section was decoded to, in lines that did not exist in `h`. -/
inductive Delivered (h h' : Lines) : Option Textlist → Option Entity → Prop
  | skipped : Delivered h h' none none
  | list {l : Textlist} {e : Entity} {k r : List (Nat × Str)} :
      Lags h' l k r → e.cut = ⟨vals k, vals r⟩ → (∀ a ∈ addrs (k ++ r), h.length ≤ a) →
      Delivered h h' (some l) (some e)

/-- A section decoder gives what the section is, and touches no other line. -/
def Decodes (debody : DebodySection) (header body : List Str) (e : Option Entity) : Prop :=
  ∀ (h : Lines) (l : Textlist) (as : List (Nat × Str)), Holds h l as → vals as = body →
    ∃ r h', debody h l header = some (r, h') ∧ Frame [] h h' ∧ Delivered h h' r e

/-- The list of decoded lines after one more section. -/
structure Moved (h h' : Lines) (k r : List (Nat × Str)) (es : List Entity) (dec : Textlist)
    (k' r' : List (Nat × Str)) : Prop where
  lags : Lags h' dec k' r'
  cut : es.foldl (fun d e => d.move e.cut) ⟨vals k, vals r⟩ = (⟨vals k', vals r'⟩ : Cut)
  addrs : ∀ a ∈ addrs (k' ++ r'), a ∈ addrs (k ++ r) ∨ h.length ≤ a
  frame : Frame (Chain.addrs (k ++ r)) h h'

theorem Moved.trans {h h1 h2 : Lines} {k r k1 r1 k2 r2 : List (Nat × Str)}
    {es fs : List Entity} {dec dec' : Textlist} (h1m : Moved h h1 k r es dec k1 r1)
    (h2m : Moved h1 h2 k1 r1 fs dec' k2 r2) : Moved h h2 k r (es ++ fs) dec' k2 r2 where
  lags := h2m.lags
  cut := by rw [List.foldl_append, h1m.cut, h2m.cut]
  addrs := by
    intro a ha
    rcases h2m.addrs a ha with ha | ha
    · exact h1m.addrs a ha
    · exact .inr (Nat.le_trans h1m.frame.le ha)
  frame := by
    refine h1m.frame.trans h2m.frame fun b hb hm => hm.elim id fun hm => ?_
    exact (h1m.addrs b hm).resolve_right (Nat.not_le_of_lt hb)

/-- The move of what a section was decoded to. -/
theorem Delivered.move {h0 h : Lines} {dec : Textlist} {k r : List (Nat × Str)}
    {ptr : Option Textlist} {e : Option Entity} (hd : Delivered h0 h ptr e)
    (hg : Lags h dec k r) (hk : ∀ a ∈ addrs (k ++ r), a < h0.length) :
    ∃ dec' h' k' r', moveSection h dec ptr = some (dec', h') ∧ Lags h' dec' k' r' ∧
      e.toList.foldl (fun d e => d.move e.cut) ⟨vals k, vals r⟩ = (⟨vals k', vals r'⟩ : Cut) ∧
      (∀ a ∈ addrs (k' ++ r'), a ∈ addrs (k ++ r) ∨ h0.length ≤ a) ∧
      Frame (addrs (k ++ r)) h h' := by
  cases hd with
  | skipped => exact ⟨dec, h, k, r, rfl, hg, rfl, fun a ha => .inl ha, .refl _ h⟩
  | @list l e k1 r1 hl hcut hlo =>
      by_cases hnil : k = []
      · -- nothing was there before
        obtain rfl : r = [] := hg.empty hnil
        subst hnil
        refine ⟨l, h, k1, r1, tlAddtlMove_nil hg, hl, ?_, fun a ha => .inr (hlo a ha), .refl _ h⟩
        simp [Cut.move, hcut]
      · -- `last` stays with the lines of the first section
        have hdis : ∀ a ∈ addrs k, a ∉ addrs (k1 ++ r1) := by
          intro a ha hm
          have hlt := hk a (by rw [addrs, List.map_append]; exact List.mem_append_left _ ha)
          exact absurd (hlo a hm) (Nat.not_le_of_lt hlt)
        obtain ⟨h', e1, hg', hf⟩ := tlAddtlMove_cons hg hl hnil hdis
        refine ⟨dec, h', k, k1 ++ r1, e1, hg', ?_, ?_, hf.mono ?_⟩
        · simp [Cut.move, Cut.lines, hcut, hnil]
        · intro a ha
          rw [addrs, List.map_append, List.mem_append] at ha ⊢
          exact ha.elim (fun ha => .inl (.inl ha)) fun ha => .inr (hlo a ha)
        · rw [addrs, addrs, List.map_append]
          exact List.subset_append_left _ _

/-- One section: its lines are put to `tmp_body`, decoded and moved. -/
theorem multipartLoop_section {debody : DebodySection} {boundary finBoundary blank line : Str}
    {header body : List Str} {e : Option Entity} (hs : SectionLines boundary header blank body)
    (hd : Decodes debody (headerReadList header) body e) (hl : hasPrefix boundary line = true)
    {h : Lines} {dec : Textlist} {k r : List (Nat × Str)} (hg : Lags h dec k r)
    (ls : List Str) :
    ∃ dec' h' k' r', multipartLoop debody boundary finBoundary
        (header ++ blank :: body ++ line :: ls) dec tlInit h =
        (if hasPrefix finBoundary line then some (dec', h')
         else multipartLoop debody boundary finBoundary ls dec' tlInit h') ∧
      Moved h h' k r e.toList dec' k' r' := by
  -- the lines of the section
  obtain ⟨tmp, h1, ts, e1, hh1, hv, hlo, hf1⟩ := (holds_tlInit h).tlCopy (header ++ blank :: body)
  rw [List.nil_append] at hh1
  obtain ⟨hs1, rest, rfl, hvh, hvr⟩ := List.map_eq_append_iff.mp hv
  obtain ⟨⟨a, x⟩, bs, rfl, hx, hvb⟩ := List.map_eq_cons_iff.mp hvr
  obtain rfl : x = blank := hx
  -- its header
  have hread : headerReadList (tlLines h1 tmp) = headerReadList header := by
    rw [hh1.lines, hv]
    exact headerReadLoop_append hs.fields hs.ends body true [] []
  obtain ⟨tmp2, h2, e2, hh2, hf2⟩ :=
    headerDeleteFromBody_spec hh1 (fun s hm => hs.fields s (hvh ▸ hm)) hs.ends
  -- its text
  obtain ⟨ptr, h3, e3, hf3, hdel⟩ := hd h2 tmp2 bs hh2 hvb
  have hlo2 : ∀ b ∈ addrs bs, h.length ≤ b := fun b hb => hlo b (by simp [addrs] at hb ⊢; tauto)
  have hklt := hg.links.lt
  have hk2 : ∀ b ∈ addrs (k ++ r), b < h2.length := fun b hb =>
    Nat.lt_of_lt_of_le (hklt b hb) (Nat.le_trans hf1.le hf2.le)
  have hfr : Frame [] h h3 := (hf1.trans hf2 fun b hb hm =>
    absurd (hlo b (hm.resolve_left List.not_mem_nil)) (Nat.not_le_of_lt hb)).trans hf3
      fun b _ hm => hm.elim id id
  have hg3 := hg.of_frame hfr fun _ _ => List.not_mem_nil
  obtain ⟨dec', h4, k', r', e4, hg4, hcut, had, hf4⟩ := hdel.move hg3 hk2
  -- `tmp_body` is cleared
  have hh3 := hh2.of_frame hf3 fun _ _ => List.not_mem_nil
  have hh4 := hh3.of_frame hf4 fun b hb hm =>
    absurd (hlo2 b hb) (Nat.not_le_of_lt (hklt b hm))
  obtain ⟨h5, e5, hf5⟩ := tlClear_spec hh4.links.linked
  refine ⟨dec', h5, k', r', ?_, ⟨?_, hcut, ?_, ?_⟩⟩
  · rw [multipartLoop_inside debody boundary finBoundary hs.inside, e1, Option.bind_some]
    simp only [multipartLoop, hl, Bool.not_true, Bool.false_eq_true, if_false, hread, e2,
      Option.bind_eq_bind, Option.bind_some, e3, e4, e5]
  · -- the freed lines are none of the decoded ones
    refine hg4.of_frame hf5 fun b hb hm => ?_
    rcases had b hb with hb | hb
    · exact absurd (hlo2 b hm) (Nat.not_le_of_lt (hklt b hb))
    · exact absurd hb (Nat.not_le_of_lt (hh2.links.linked.lt b hm))
  · intro b hb
    exact (had b hb).imp_right fun hb => Nat.le_trans (Nat.le_trans hf1.le hf2.le) hb
  · refine (hfr.trans hf4 (U := addrs (k ++ r)) ?_).trans hf5 ?_
    · exact fun b _ hm => hm.resolve_left List.not_mem_nil
    · exact fun b hb hm => hm.resolve_right fun hm => absurd (hlo2 b hm) (Nat.not_le_of_lt hb)

section

variable {recode : Str → Str → Str → Option Str} {toCharset : Str} {chFallback : Option Str}

theorem isMultipart_not_isText {mime : MIMEInfo} (h : mime.isMultipart = true) :
    mime.isText = false := by
  rw [MIMEInfo.isMultipart, Bool.and_eq_true, Bool.not_eq_true'] at h
  exact h.1

theorem length_section_lt {header body ls : List Str} {blank line : Str} {n : Nat}
    (hn : (header ++ blank :: body ++ line :: ls).length ≤ n) : body.length < n := by
  simp only [List.length_append, List.length_cons] at hn
  omega

theorem length_sections_le {header body ls : List Str} {blank line : Str} {n : Nat}
    (hn : (header ++ blank :: body ++ line :: ls).length ≤ n) : ls.length ≤ n := by
  simp only [List.length_append, List.length_cons] at hn
  omega

theorem length_preamble_le {preamble ls : List Str} {line : Str} {n : Nat}
    (hn : (preamble ++ line :: ls).length ≤ n) : ls.length ≤ n := by
  simp only [List.length_append, List.length_cons] at hn
  omega

theorem hasPrefix_delimiter {b line : Str} (h : hasPrefix (closeDelimiter b) line = true) :
    hasPrefix (delimiter b) line = true := by
  obtain ⟨t, rfl⟩ := hasPrefix_iff.mp h
  exact hasPrefix_iff.mpr ⟨lit "--" ++ t, by rw [closeDelimiter, List.append_assoc]⟩

/-- The body of a multipart section is decoded by the loop over its lines. -/
theorem mimeDebodyMultipartWith_spec {debody : DebodySection} {b line : Str}
    {preamble ls : List Str} {es : List Entity}
    (hp : ∀ l ∈ preamble, hasPrefix (delimiter b) l = false)
    (hl : hasPrefix (delimiter b) line = true) {mime : MIMEInfo}
    (hb : mime.typeBoundary = some b) {h : Lines} {body : Textlist} {as : List (Nat × Str)}
    (hh : Holds h body as) (hv : vals as = preamble ++ line :: ls)
    (hloop : ∃ dec h' k' r', multipartLoop debody (delimiter b) (closeDelimiter b) ls tlInit
      tlInit h = some (dec, h') ∧ Moved h h' [] [] es dec k' r') :
    ∃ dec h', mimeDebodyMultipartWith debody h body mime = some (some dec, h') ∧
      Frame [] h h' ∧ Delivered h h' (some dec) (some (.parts es)) := by
  obtain ⟨dec, h', k', r', e, hm⟩ := hloop
  have hdrop : (preamble ++ line :: ls).dropWhile (! hasPrefix (delimiter b) ·) = line :: ls := by
    rw [List.dropWhile_append_of_pos fun l hm => by rw [hp l hm]; rfl,
      List.dropWhile_cons_of_neg (by rw [hl]; simp)]
  refine ⟨dec, h', ?_, hm.frame, .list hm.lags ?_ fun a ha => ?_⟩
  · simp only [mimeDebodyMultipartWith, hb, hh.lines, hv, hdrop, e, Option.bind_eq_bind,
      Option.bind_some]
  · rw [Entity.cut, ← hm.cut]
    rfl
  · exact (hm.addrs a ha).resolve_left List.not_mem_nil

mutual

/-- `mime_debody_section` decodes every section as it should, but for what the
moves lose. -/
theorem mimeDebodySection_spec : ∀ {header body : List Str} {e : Option Entity},
    IsSection recode toCharset chFallback header body e → ∀ n, body.length < n →
      Decodes (mimeDebodySection recode toCharset chFallback n) header body e
  | _, _, _, @IsSection.text _ _ _ _ body mime hm ht, n, _, h, l, as, hh, hv => by
      cases hd : mimeDebodyText recode toCharset mime body with
      | none =>
          refine ⟨none, h, ?_, .refl _ h, .skipped⟩
          simp [mimeDebodySection, hm, ht, hh.lines, hv, hd]
      | some dec =>
          obtain ⟨l', h', bs, e, hh', hvb, hlo, hf⟩ := (holds_tlInit h).tlCopy dec
          rw [List.nil_append] at hh'
          refine ⟨some l', h', ?_, hf, .list hh'.lags (by rw [Entity.cut, hvb]; rfl) ?_⟩
          · simp [mimeDebodySection, hm, ht, hh.lines, hv, hd, e]
          · rwa [List.append_nil]
  | _, _, _, .other hm ht hmp, n, _, h, l, as, hh, hv =>
      ⟨none, h, by cases n <;> simp [mimeDebodySection, hm, ht, hmp], .refl _ h, .skipped⟩
  | _, _, _, .unbounded hm hmp hb, n, hn, h, l, as, hh, hv => by
      have ht := isMultipart_not_isText hmp
      refine ⟨none, h, ?_, .refl _ h, .skipped⟩
      cases n with
      | zero => exact absurd hn (Nat.not_lt_zero _)
      | succ n => simp [mimeDebodySection, hm, ht, hmp, mimeDebodyMultipartWith, hb]
  | _, _, _, .parts hm hmp hb hbody, n, hn, h, l, as, hh, hv => by
      have ht := isMultipart_not_isText hmp
      cases n with
      | zero => exact absurd hn (Nat.not_lt_zero _)
      | succ n =>
          obtain ⟨dec, h', e, hf, hd⟩ :=
            mimeDebodyMultipart_spec hbody n (Nat.le_of_lt_succ hn) hb hh hv
          refine ⟨some dec, h', ?_, hf, hd⟩
          simp [mimeDebodySection, hm, ht, hmp, e]

/-- A multipart body is decoded to what the moves leave of its sections. -/
theorem mimeDebodyMultipart_spec : ∀ {b : Str} {ls : List Str} {es : List Entity},
    IsMultipart recode toCharset chFallback b ls es → ∀ n, ls.length ≤ n →
      ∀ {mime : MIMEInfo}, mime.typeBoundary = some b →
      ∀ {h : Lines} {body : Textlist} {as : List (Nat × Str)}, Holds h body as → vals as = ls →
        ∃ dec h', mimeDebodyMultipartWith (mimeDebodySection recode toCharset chFallback n) h body
            mime = some (some dec, h') ∧
          Frame [] h h' ∧ Delivered h h' (some dec) (some (.parts es))
  | _, _, _, .intro hp hl hs, n, hn, _, hb, h, _, _, hh, hv => by
      have hlen := length_preamble_le hn
      have hg : Lags h tlInit [] [] := (holds_tlInit h).lags
      exact mimeDebodyMultipartWith_spec hp hl hb hh hv (multipartLoop_spec hs n hlen hg)

/-- The loop over the sections. -/
theorem multipartLoop_spec : ∀ {b : Str} {ls : List Str} {es : List Entity},
    IsSections recode toCharset chFallback b ls es → ∀ n, ls.length ≤ n →
      ∀ {h : Lines} {dec : Textlist} {k r : List (Nat × Str)}, Lags h dec k r →
        ∃ dec' h' k' r', multipartLoop (mimeDebodySection recode toCharset chFallback n)
            (delimiter b) (closeDelimiter b) ls dec tlInit h = some (dec', h') ∧
          Moved h h' k r es dec' k' r'
  | _, _, _, .last hs he hc, n, hn, h, dec, k, r, hg => by
      have hbody := length_section_lt hn
      obtain ⟨dec', h', k', r', e, hm⟩ := multipartLoop_section hs
        (mimeDebodySection_spec he n hbody) (hasPrefix_delimiter hc) hg _
      exact ⟨dec', h', k', r', by rw [e, if_pos hc], hm⟩
  | _, _, _, .more hs he hl hc hrest, n, hn, h, dec, k, r, hg => by
      have hbody := length_section_lt hn
      have hlen := length_sections_le hn
      obtain ⟨dec1, h1, k1, r1, e1, hm1⟩ := multipartLoop_section hs
        (mimeDebodySection_spec he n hbody) hl hg _
      obtain ⟨dec', h', k', r', e, hm⟩ := multipartLoop_spec hrest n hlen hm1.lags
      refine ⟨dec', h', k', r', ?_, hm1.trans hm⟩
      rw [e1, if_neg (by rw [hc]; simp), e]

end

theorem mimeDebodyMultipart_lines {b : Str} {as : List (Nat × Str)} {es : List Entity}
    (hm : IsMultipart recode toCharset chFallback b (vals as) es) {mime : MIMEInfo}
    (hb : mime.typeBoundary = some b) {h : Lines} {body : Textlist} (hh : Holds h body as) :
    ∃ dec h', mimeDebodyMultipart recode toCharset chFallback h body mime = some (some dec, h') ∧
      tlLines h' dec = (Entity.parts es).cut.lines ∧ Frame [] h h' := by
  have hn : (vals as).length ≤ (tlLines h body).length := by rw [hh.lines]
  obtain ⟨dec, h', e, hf, hd⟩ := mimeDebodyMultipart_spec hm _ hn hb hh rfl
  cases hd with
  | list hg hcut _ =>
      refine ⟨dec, h', e, ?_, hf⟩
      rw [hg.lines, hcut, Cut.lines, vals, List.map_append]

/-- A section of one line and no header is that line. -/
theorem isSection_plain (s : Str) :
    IsSection recode toCharset none (headerReadList []) [s] (some (.text [s])) := by
  have hm : sectionMime none (headerReadList []) = some ⟨none, none, none, none, none⟩ := by
    decide +kernel
  exact .text hm rfl

theorem sectionLines_plain {b s : Str} (hb : hasPrefix (delimiter b) s = false) :
    SectionLines (delimiter b) [] (lit "\n") [s] := by
  refine ⟨by simp, by decide, ?_⟩
  intro l hl
  rcases List.mem_cons.mp hl with rfl | hl
  · rfl
  · rwa [List.mem_singleton.mp hl]

theorem isSections_plain {b s line : Str} (hb : hasPrefix (delimiter b) s = false)
    (hl : hasPrefix (delimiter b) line = true) (hc : hasPrefix (closeDelimiter b) line = false)
    {ls : List Str} {es : List Entity} (hs : IsSections recode toCharset none b ls es) :
    IsSections recode toCharset none b (lit "\n" :: s :: line :: ls) (.text [s] :: es) := by
  show IsSections recode toCharset none b ([] ++ lit "\n" :: [s] ++ line :: ls)
    ((some (.text [s])).toList ++ es)
  exact .more (sectionLines_plain hb) (isSection_plain s) hl hc hs

theorem isSections_plain_last {b s line : Str} (hb : hasPrefix (delimiter b) s = false)
    (hc : hasPrefix (closeDelimiter b) line = true) (epilogue : List Str) :
    IsSections recode toCharset none b (lit "\n" :: s :: line :: epilogue) [.text [s]] := by
  show IsSections recode toCharset none b ([] ++ lit "\n" :: [s] ++ line :: epilogue)
    (some (.text [s])).toList
  exact .last (sectionLines_plain hb) (isSection_plain s) hc

/-- A multipart body is always decoded; the result is the texts of its
sections one after another exactly if it is `Whole`. -/
theorem mimeDebodyMultipart_concat_iff {b : Str} {as : List (Nat × Str)} {es : List Entity}
    (hm : IsMultipart recode toCharset chFallback b (vals as) es) {mime : MIMEInfo}
    (hb : mime.typeBoundary = some b) {h : Lines} {body : Textlist} (hh : Holds h body as) :
    ∃ dec h', mimeDebodyMultipart recode toCharset chFallback h body mime = some (some dec, h') ∧
      (tlLines h' dec = es.flatMap Entity.decoded ↔ (Entity.parts es).Whole) := by
  obtain ⟨dec, h', e, hl, -⟩ := mimeDebodyMultipart_lines hm hb hh
  refine ⟨dec, h', e, ?_⟩
  rw [hl, ← Entity.lines_cut_iff, Entity.decoded]

/-- Two sections behind a preamble. -/
theorem mimeDebodyMultipart_concat_two :
    ∃ (h : Lines) (body dec : Textlist) (h' : Lines),
      mimeDebodyMultipart (fun s _ _ => some s) [] none h body
        ⟨none, none, none, some (lit "x"), none⟩ = some (some dec, h') ∧
      (tlLines h' dec = [.text [lit "a\n"], .text [lit "b\n"]].flatMap Entity.decoded ↔
        (Entity.parts [.text [lit "a\n"], .text [lit "b\n"]]).Whole) := by
  obtain ⟨body, h, as, -, hh, hv, -, -⟩ := (holds_tlInit []).tlCopy
    [lit "preamble\n", lit "--x\n", lit "\n", lit "a\n", lit "--x\n", lit "\n", lit "b\n",
      lit "--x--\n"]
  have hm : IsMultipart (fun s _ _ => some s) [] none (lit "x") (vals as)
      [.text [lit "a\n"], .text [lit "b\n"]] := by
    rw [hv]
    show IsMultipart _ _ _ _ ([lit "preamble\n"] ++ _ :: _) _
    exact .intro (by decide) (by decide)
      (isSections_plain (by decide) (by decide) (by decide)
        (isSections_plain_last (by decide) (by decide) []))
  exact ⟨h, body, mimeDebodyMultipart_concat_iff hm rfl hh⟩

/-- Of three sections of one line each the second is lost. -/
theorem mimeDebodyMultipart_drops :
    ¬ ∀ (recode : Str → Str → Str → Option Str) (toCharset : Str) (chFallback : Option Str)
      (b : Str) (as : List (Nat × Str)) (es : List Entity) (mime : MIMEInfo) (h : Lines)
      (body : Textlist), IsMultipart recode toCharset chFallback b (vals as) es →
      mime.typeBoundary = some b → Holds h body as →
      ∃ dec h',
        mimeDebodyMultipart recode toCharset chFallback h body mime = some (some dec, h') ∧
        tlLines h' dec = es.flatMap Entity.decoded := by
  intro hall
  let a := lit "a\n"
  let b := lit "b\n"
  let c := lit "c\n"
  let sep := lit "--x\n"
  let ls := [sep, lit "\n", a, sep, lit "\n", b, sep, lit "\n", c, lit "--x--\n"]
  have hm : IsMultipart (fun s _ _ => some s) [] none (lit "x") ls
      [.text [a], .text [b], .text [c]] := by
    show IsMultipart _ _ _ _ ([] ++ sep :: _) _
    exact .intro (by simp) (by decide)
      (isSections_plain (by decide) (by decide) (by decide)
        (isSections_plain (by decide) (by decide) (by decide)
          (isSections_plain_last (by decide) (by decide) [])))
  obtain ⟨body, h, as, -, hh, hv, -, -⟩ := (holds_tlInit []).tlCopy ls
  rw [← hv] at hm
  have hb : (⟨none, none, none, some (lit "x"), none⟩ : MIMEInfo).typeBoundary = some (lit "x") :=
    rfl
  obtain ⟨dec, h', e, hl⟩ := hall _ _ _ _ _ _ _ h body hm hb hh
  obtain ⟨dec1, h1, e1, hl1, -⟩ := mimeDebodyMultipart_lines hm hb hh
  cases e.symm.trans e1
  rw [hl1] at hl
  simp [Entity.cut, Cut.move, Cut.lines, Entity.decoded, a, b, c] at hl

end

end Fidogate

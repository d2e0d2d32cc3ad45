/-
# `Fidogate.Common.MultipartSafe` — which bodies `mime_body_dec` gets through

`mime_debody_multipart` looks for a boundary line and takes the line behind it
without asking whether there is one, and `header_delete_from_body` takes lines
from a part until it finds a blank one.  A part that no boundary line ends is
dropped unread, and nothing else can go wrong with the lines: `SafeSection`
says what both loops need.
-/
import Fidogate.Common.Multipart

namespace Fidogate

open Bytes Chain

/-! ## The parts of a body -/

/-- The parts that a boundary line ends, `part` being the lines at hand. -/
def closedParts (boundary finBoundary : Str) : List Str → List Str → List (List Str)
  | _, [] => []
  | part, line :: body =>
      if ! hasPrefix boundary line then closedParts boundary finBoundary (part ++ [line]) body
      else
        part ::
          if hasPrefix finBoundary line then [] else closedParts boundary finBoundary [] body

/-- The parts of a multipart body with this boundary parameter: what stands in
front of the first boundary line is none. -/
def bodyParts (b : Str) (body : List Str) : List (List Str) :=
  closedParts (delimiter b) (closeDelimiter b) []
    (body.dropWhile (! hasPrefix (delimiter b) ·)).tail

/-- The lines behind the blank one. -/
def behindHeader (part : List Str) : List Str := (part.dropWhile (! endsHeader ·)).tail

/-- Every multipart section has a boundary line, and each of its parts a blank
line with a safe section around it; no parameter lacks its value. -/
inductive SafeSection (chFallback : Option Str) : List Str → List Str → Prop
  | single {header body : List Str} {mime : MIMEInfo} :
      sectionMime chFallback header = some mime →
      (mime.isMultipart = true → mime.typeBoundary = none) →
      SafeSection chFallback header body
  | parts {header body : List Str} {mime : MIMEInfo} {b : Str} :
      sectionMime chFallback header = some mime → mime.isMultipart = true →
      mime.typeBoundary = some b →
      (∃ l ∈ body, hasPrefix (delimiter b) l = true) →
      (∀ p ∈ bodyParts b body, ∃ l ∈ p, endsHeader l = true) →
      (∀ p ∈ bodyParts b body, SafeSection chFallback (headerReadList p) (behindHeader p)) →
      SafeSection chFallback header body

/-- What the loop over the parts needs of one. -/
def SafePart (chFallback : Option Str) (p : List Str) : Prop :=
  (∃ l ∈ p, endsHeader l = true) ∧ SafeSection chFallback (headerReadList p) (behindHeader p)

theorem closedParts_inside {boundary finBoundary : Str} {ls : List Str}
    (hl : ∀ l ∈ ls, hasPrefix boundary l = false) (body : List Str) : ∀ part : List Str,
      closedParts boundary finBoundary part (ls ++ body) =
        closedParts boundary finBoundary (part ++ ls) body := by
  induction ls with
  | nil =>
      intro part
      rw [List.nil_append, List.append_nil]
  | cons l ls ih =>
      intro part
      have hpre := hl l List.mem_cons_self
      have ih := ih fun l' hl' => hl l' (List.mem_cons_of_mem _ hl')
      rw [List.cons_append, closedParts, hpre, Bool.not_false, if_pos rfl, ih, List.append_assoc,
        List.singleton_append]

theorem closedParts_line {boundary finBoundary line : Str} {ls : List Str}
    (hi : ∀ l ∈ ls, hasPrefix boundary l = false) (hl : hasPrefix boundary line = true)
    (body : List Str) :
    closedParts boundary finBoundary [] (ls ++ line :: body) =
      ls :: if hasPrefix finBoundary line then []
        else closedParts boundary finBoundary [] body := by
  rw [closedParts_inside hi, List.nil_append, closedParts, hl, Bool.not_true,
    if_neg Bool.false_ne_true]

/-- A list with such a line, cut at the first. -/
theorem exists_first {p : Str → Bool} {ls : List Str} (h : ∃ l ∈ ls, p l = true) :
    ∃ pre line rest, (∀ l ∈ pre, p l = false) ∧ p line = true ∧ ls = pre ++ line :: rest := by
  obtain ⟨line, hl⟩ := Option.isSome_iff_exists.mp (List.find?_isSome.mpr h)
  obtain ⟨hp, pre, rest, rfl, hpre⟩ := List.find?_eq_some_iff_append.mp hl
  exact ⟨pre, line, rest, fun l hm => by simpa using hpre l hm, hp, rfl⟩

theorem dropWhile_first {p : Str → Bool} {pre : List Str} {line : Str}
    (hp : ∀ l ∈ pre, p l = false) (hl : p line = true) (rest : List Str) :
    (pre ++ line :: rest).dropWhile (! p ·) = line :: rest := by
  rw [List.dropWhile_append_of_pos fun l hm => by rw [hp l hm]; rfl,
    List.dropWhile_cons_of_neg (by rw [hl]; simp)]

/-- A part with a blank line is a header, the first such line and a body. -/
theorem exists_header {p : List Str} (h : ∃ l ∈ p, endsHeader l = true) :
    ∃ header blank, (∀ l ∈ header, endsHeader l = false) ∧ endsHeader blank = true ∧
      p = header ++ blank :: behindHeader p := by
  obtain ⟨header, blank, rest, hh, hb, rfl⟩ := exists_first h
  refine ⟨header, blank, hh, hb, ?_⟩
  rw [behindHeader, dropWhile_first hh hb, List.tail_cons]

theorem headerReadList_append {header : List Str} (hh : ∀ l ∈ header, endsHeader l = false)
    {blank : Str} (hb : endsHeader blank = true) (body : List Str) :
    headerReadList (header ++ blank :: body) = headerReadList header :=
  headerReadLoop_append hh hb body true [] []

/-! ## Parts that are not safe -/

/-- Without a blank line the list is empty at last, and its first line NULL. -/
theorem headerDeleteLoop_none {as : List (Nat × Str)} : ∀ {more : List Str} {h : Lines}
    {l : Textlist}, (∀ s ∈ vals as, endsHeader s = false) → Holds h l as →
      headerDeleteLoop more h l = none := by
  induction as with
  | nil =>
      intro more h l _ hh
      have hfirst : l.first = none := hh.links.linked.head
      cases more <;> simp [headerDeleteLoop, hfirst]
  | cons s as ih =>
      intro more h l hs hh
      obtain ⟨a, s⟩ := s
      cases more with
      | nil => rfl
      | cons m more =>
          obtain ⟨c, hc, hv⟩ := hh.links.linked.cell_mem (a := a) (x := s) (by simp)
          have hfirst : l.first = some a := hh.links.linked.head
          have hend : endsHeader s = false := hs s (by simp)
          obtain ⟨l1, h1, e1, hh1, -⟩ := hh.tlDelete_first
          have ih := @ih more _ _ (fun t ht => hs t (List.mem_cons_of_mem _ ht)) hh1
          simp [headerDeleteLoop, hfirst, hc, e1, hv, hend, ih]

/-- A section decoder does not get through these sections. -/
def Fails (debody : DebodySection) (header body : List Str) : Prop :=
  ∀ (h : Lines) (l : Textlist) (as : List (Nat × Str)), Holds h l as → vals as = body →
    debody h l header = none

section

variable {debody : DebodySection} {boundary finBoundary : Str}

/-- The loop does not get through a part without a blank line, -/
theorem multipartLoop_unended {part : List Str} {line : Str}
    (hi : ∀ l ∈ part, hasPrefix boundary l = false) (hl : hasPrefix boundary line = true)
    (hp : ¬ ∃ l ∈ part, endsHeader l = true) (h : Lines) (dec : Textlist) (ls : List Str) :
    multipartLoop debody boundary finBoundary (part ++ line :: ls) dec tlInit h = none := by
  obtain ⟨tmp, h1, ts, e1, hh1, hv, -, -⟩ := (holds_tlInit h).tlCopy part
  rw [List.nil_append] at hh1
  have hend : ∀ s ∈ vals ts, endsHeader s = false := by
    intro s hs
    rw [hv] at hs
    exact Bool.eq_false_iff.mpr fun he => hp ⟨s, hs, he⟩
  have e2 : headerDeleteFromBody h1 tmp = none := headerDeleteLoop_none hend hh1
  rw [multipartLoop_inside debody boundary finBoundary hi, e1, Option.bind_some]
  simp [multipartLoop, hl, e2]

/-- nor through one whose section it cannot decode. -/
theorem multipartLoop_unsafe {part : List Str} {line : Str}
    (hi : ∀ l ∈ part, hasPrefix boundary l = false) (hl : hasPrefix boundary line = true)
    (hp : ∃ l ∈ part, endsHeader l = true)
    (hd : Fails debody (headerReadList part) (behindHeader part)) (h : Lines) (dec : Textlist)
    (ls : List Str) :
    multipartLoop debody boundary finBoundary (part ++ line :: ls) dec tlInit h = none := by
  obtain ⟨header, blank, hh, hb, hpart⟩ := exists_header hp
  obtain ⟨tmp, h1, ts, e1, hh1, hv, -, -⟩ := (holds_tlInit h).tlCopy part
  rw [List.nil_append] at hh1
  have hread : headerReadList (tlLines h1 tmp) = headerReadList part := by rw [hh1.lines, hv]
  rw [hpart] at hv
  obtain ⟨hs1, rest, rfl, hvh, hvr⟩ := List.map_eq_append_iff.mp hv
  obtain ⟨⟨a, x⟩, bs, rfl, hx, hvb⟩ := List.map_eq_cons_iff.mp hvr
  obtain rfl : x = blank := hx
  obtain ⟨tmp2, h2, e2, hh2, -⟩ :=
    headerDeleteFromBody_spec hh1 (fun s hm => hh s (hvh ▸ hm)) hb
  have e3 := hd h2 tmp2 bs hh2 hvb
  rw [multipartLoop_inside debody boundary finBoundary hi, e1, Option.bind_some]
  simp [multipartLoop, hl, hread, e2, e3]

/-- Of a part that no boundary line ends nothing is decoded. -/
theorem multipartLoop_open {part : List Str} (hi : ∀ l ∈ part, hasPrefix boundary l = false)
    {h : Lines} {dec : Textlist} {k r : List (Nat × Str)} (hg : Lags h dec k r) :
    ∃ dec' h' k' r', multipartLoop debody boundary finBoundary part dec tlInit h =
        some (dec', h') ∧ Moved h h' k r [] dec' k' r' := by
  obtain ⟨tmp, h1, ts, e1, -, -, -, hf⟩ := (holds_tlInit h).tlCopy part
  have hloop := multipartLoop_inside debody boundary finBoundary hi [] dec tlInit h
  rw [List.append_nil, e1, Option.bind_some] at hloop
  refine ⟨dec, h1, k, r, hloop, ⟨?_, rfl, fun a ha => .inl ha, hf.mono (List.nil_subset _)⟩⟩
  exact hg.of_frame hf fun _ _ => List.not_mem_nil

/-- A safe part is decoded as the parts of a well-formed body are. -/
theorem multipartLoop_part {part : List Str} {line : Str}
    (hi : ∀ l ∈ part, hasPrefix boundary l = false) (hl : hasPrefix boundary line = true)
    (hp : ∃ l ∈ part, endsHeader l = true) {e : Option Entity}
    (hd : Decodes debody (headerReadList part) (behindHeader part) e) {h : Lines} {dec : Textlist}
    {k r : List (Nat × Str)} (hg : Lags h dec k r) (ls : List Str) :
    ∃ dec' h' k' r', multipartLoop debody boundary finBoundary (part ++ line :: ls) dec tlInit h =
        (if hasPrefix finBoundary line then some (dec', h')
         else multipartLoop debody boundary finBoundary ls dec' tlInit h') ∧
      Moved h h' k r e.toList dec' k' r' := by
  obtain ⟨header, blank, hh, hb, hpart⟩ := exists_header hp
  have hread : headerReadList part = headerReadList header := by
    rw [hpart, headerReadList_append hh hb]
  rw [hread] at hd
  rw [hpart] at hi ⊢
  exact multipartLoop_section ⟨hh, hb, hi⟩ hd hl hg ls

end

/-! ## Both kinds of sections -/

/-- The decoder gets through a section if it is safe, and only then. -/
def Settles (chFallback : Option Str) (debody : DebodySection) (header body : List Str) : Prop :=
  (SafeSection chFallback header body ∧ ∃ e, Decodes debody header body e) ∨
    (¬ SafeSection chFallback header body ∧ Fails debody header body)

/-- The loop gets through all parts if they are safe, and only then. -/
theorem multipartLoop_settles {chFallback : Option Str} {debody : DebodySection}
    (boundary finBoundary : Str) (n : Nat)
    (hd : ∀ header body, body.length < n → Settles chFallback debody header body) :
    ∀ ls : List Str, ls.length ≤ n →
      ((∀ p ∈ closedParts boundary finBoundary [] ls, SafePart chFallback p) ∧
        ∃ es, ∀ {h : Lines} {dec : Textlist} {k r : List (Nat × Str)}, Lags h dec k r →
          ∃ dec' h' k' r', multipartLoop debody boundary finBoundary ls dec tlInit h =
            some (dec', h') ∧ Moved h h' k r es dec' k' r') ∨
      ((∃ p ∈ closedParts boundary finBoundary [] ls, ¬ SafePart chFallback p) ∧
        ∀ {h : Lines} {dec : Textlist} {k r : List (Nat × Str)}, Lags h dec k r →
          multipartLoop debody boundary finBoundary ls dec tlInit h = none) := by
  intro ls
  induction hm : ls.length using Nat.strong_induction_on generalizing ls with
  | _ m ih =>
  intro hn
  subst hm
  by_cases hline : ∃ l ∈ ls, hasPrefix boundary l = true
  · -- the part up to the next boundary line
    obtain ⟨part, line, rest, hi, hl, rfl⟩ := exists_first hline
    rw [closedParts_line hi hl]
    by_cases hp : ∃ l ∈ part, endsHeader l = true
    · have hlt : (behindHeader part).length < n := by
        obtain ⟨header, blank, -, -, hpart⟩ := exists_header hp
        rw [hpart] at hn
        exact length_section_lt hn
      rcases hd (headerReadList part) (behindHeader part) hlt with ⟨hs, e, he⟩ | ⟨hs, hf⟩
      · by_cases hfin : hasPrefix finBoundary line = true
        · -- the last part
          refine .inl ⟨?_, e.toList, fun hg => ?_⟩
          · intro p hmem
            rw [if_pos hfin, List.mem_singleton] at hmem
            rw [hmem]
            exact ⟨hp, hs⟩
          · obtain ⟨dec', h', k', r', e', hm⟩ := multipartLoop_part hi hl hp he hg rest
            exact ⟨dec', h', k', r', by rw [e', if_pos hfin], hm⟩
        · -- the parts behind it
          have hlen : rest.length < (part ++ line :: rest).length := by
            rw [List.length_append, List.length_cons]
            omega
          rcases ih _ hlen rest rfl (Nat.le_trans (Nat.le_of_lt hlen) hn) with
            ⟨hall, es, hes⟩ | ⟨⟨p, hmem, hun⟩, hnone⟩
          · refine .inl ⟨?_, e.toList ++ es, fun hg => ?_⟩
            · intro p hmem
              rw [if_neg hfin] at hmem
              rcases List.mem_cons.mp hmem with rfl | hmem
              · exact ⟨hp, hs⟩
              · exact hall p hmem
            · obtain ⟨dec1, h1, k1, r1, e1, hm1⟩ := multipartLoop_part hi hl hp he hg rest
              obtain ⟨dec', h', k', r', e', hm⟩ := hes hm1.lags
              exact ⟨dec', h', k', r', by rw [e1, if_neg hfin, e'], hm1.trans hm⟩
          · refine .inr ⟨⟨p, ?_, hun⟩, fun hg => ?_⟩
            · rw [if_neg hfin]
              exact List.mem_cons_of_mem _ hmem
            · obtain ⟨dec1, h1, k1, r1, e1, hm1⟩ := multipartLoop_part hi hl hp he hg rest
              rw [e1, if_neg hfin, hnone hm1.lags]
      · exact .inr ⟨⟨part, List.mem_cons_self, fun h => hs h.2⟩,
          fun _ => multipartLoop_unsafe hi hl hp hf _ _ _⟩
    · exact .inr ⟨⟨part, List.mem_cons_self, fun h => hp h.1⟩,
        fun _ => multipartLoop_unended hi hl hp _ _ _⟩
  · -- the last lines
    have hi : ∀ l ∈ ls, hasPrefix boundary l = false :=
      fun l hl => Bool.eq_false_iff.mpr fun he => hline ⟨l, hl, he⟩
    refine .inl ⟨?_, [], fun hg => multipartLoop_open hi hg⟩
    have hno := @closedParts_inside boundary finBoundary ls hi [] []
    rw [List.append_nil] at hno
    rw [hno]
    exact fun p hp => absurd hp List.not_mem_nil

section

variable {recode : Str → Str → Str → Option Str} {toCharset : Str} {chFallback : Option Str}

/-- A body has no boundary line, or its parts stand behind the first. -/
theorem bodyParts_cases (b : Str) (body : List Str) :
    ((¬ ∃ l ∈ body, hasPrefix (delimiter b) l = true) ∧
        body.dropWhile (! hasPrefix (delimiter b) ·) = []) ∨
      ∃ preamble line ls, (∀ l ∈ preamble, hasPrefix (delimiter b) l = false) ∧
        hasPrefix (delimiter b) line = true ∧ body = preamble ++ line :: ls ∧
        bodyParts b body = closedParts (delimiter b) (closeDelimiter b) [] ls := by
  by_cases h : ∃ l ∈ body, hasPrefix (delimiter b) l = true
  · obtain ⟨preamble, line, ls, hp, hl, rfl⟩ := exists_first h
    refine .inr ⟨preamble, line, ls, hp, hl, rfl, ?_⟩
    rw [bodyParts, dropWhile_first hp hl, List.tail_cons]
  · refine .inl ⟨h, List.dropWhile_eq_nil_iff.mpr fun l hl => ?_⟩
    simpa using fun hb => h ⟨l, hl, hb⟩

theorem safeSection_iff_parts {header body : List Str} {mime : MIMEInfo} {b : Str}
    (hm : sectionMime chFallback header = some mime) (hp : mime.isMultipart = true)
    (hb : mime.typeBoundary = some b) :
    SafeSection chFallback header body ↔
      (∃ l ∈ body, hasPrefix (delimiter b) l = true) ∧
        ∀ p ∈ bodyParts b body, SafePart chFallback p := by
  constructor
  · intro h
    cases h with
    | single hm' hn =>
        cases hm.symm.trans hm'
        exact absurd (hn hp) (by rw [hb]; simp)
    | parts hm' hp' hb' hl hends hsafe =>
        cases hm.symm.trans hm'
        cases hb.symm.trans hb'
        exact ⟨hl, fun p hmem => ⟨hends p hmem, hsafe p hmem⟩⟩
  · rintro ⟨hl, hall⟩
    exact .parts hm hp hb hl (fun p hmem => (hall p hmem).1) fun p hmem => (hall p hmem).2

theorem mimeDebodySection_parts (n : Nat) {header : List Str} {mime : MIMEInfo}
    (hm : sectionMime chFallback header = some mime) (hp : mime.isMultipart = true) (h : Lines)
    (body : Textlist) :
    mimeDebodySection recode toCharset chFallback (n + 1) h body header =
      mimeDebodyMultipartWith (mimeDebodySection recode toCharset chFallback n) h body mime := by
  have ht := isMultipart_not_isText hp
  simp [mimeDebodySection, hm, ht, hp]

/-- `mime_debody_section` gets through the safe sections and no others. -/
theorem mimeDebodySection_settles : ∀ (n : Nat) (header body : List Str), body.length < n →
    Settles chFallback (mimeDebodySection recode toCharset chFallback n) header body := by
  intro n
  induction n with
  | zero => exact fun _ _ hn => absurd hn (Nat.not_lt_zero _)
  | succ n ih =>
      intro header body hn
      cases hm : sectionMime chFallback header with
      | none =>
          -- a parameter without a value
          refine .inr ⟨fun h => ?_, fun h l as hh hv => by simp [mimeDebodySection, hm]⟩
          cases h <;> exact absurd (hm.symm.trans ‹_›) (by simp)
      | some mime =>
          cases hp : mime.isMultipart with
          | false =>
              refine .inl ⟨.single hm (by rw [hp]; simp), ?_⟩
              cases ht : mime.isText with
              | true => exact ⟨_, mimeDebodySection_spec (.text hm ht) _ hn⟩
              | false => exact ⟨none, mimeDebodySection_spec (.other hm ht hp) _ hn⟩
          | true =>
              cases hb : mime.typeBoundary with
              | none =>
                  exact .inl ⟨.single hm fun _ => hb, none,
                    mimeDebodySection_spec (.unbounded hm hp hb) _ hn⟩
              | some b =>
                  have ht := isMultipart_not_isText hp
                  have hsec := fun (h : Lines) (l : Textlist) =>
                    @mimeDebodySection_parts recode toCharset chFallback n header mime hm hp h l
                  rw [Settles, safeSection_iff_parts hm hp hb]
                  rcases bodyParts_cases b body with
                    ⟨hno, hnil⟩ | ⟨pre, line, ls, hpre, hl, rfl, hps⟩
                  · -- no boundary line
                    refine .inr ⟨fun h => hno h.1, fun h l as hh hv => ?_⟩
                    rw [hsec]
                    simp [mimeDebodyMultipartWith, hb, hh.lines, hv, hnil]
                  · rw [hps]
                    have hlen := length_preamble_le (Nat.le_of_lt_succ hn)
                    rcases multipartLoop_settles (delimiter b) (closeDelimiter b) n ih ls hlen with
                      ⟨hall, es, hes⟩ | ⟨⟨p, hmem, hun⟩, hnone⟩
                    · refine .inl ⟨⟨⟨line, by simp, hl⟩, hall⟩, some (.parts es), ?_⟩
                      intro h l as hh hv
                      obtain ⟨dec, h', e, hf, hdel⟩ := mimeDebodyMultipartWith_spec hpre hl hb hh hv
                        (hes (holds_tlInit h).lags)
                      exact ⟨some dec, h', by rw [hsec, e], hf, hdel⟩
                    · refine .inr ⟨fun h => hun (h.2 p hmem), fun h l as hh hv => ?_⟩
                      have hdrop := dropWhile_first hpre hl ls
                      rw [hsec]
                      simp [mimeDebodyMultipartWith, hb, hh.lines, hv, hdrop,
                        hnone (holds_tlInit h).lags]

/-- `mime_body_dec` returns, no NULL being read, exactly for the safe
sections. -/
theorem mimeBodyDec_safe_iff {header : List Str} {h : Lines} {body : Textlist}
    {as : List (Nat × Str)} (hh : Holds h body as) :
    mimeBodyDec recode toCharset chFallback h body header ≠ none ↔
      SafeSection chFallback header (vals as) := by
  have hn : (vals as).length < (tlLines h body).length + 1 := by
    rw [hh.lines]
    exact Nat.lt_succ_self _
  have hbind : mimeBodyDec recode toCharset chFallback h body header = none ↔
      mimeDebodySection recode toCharset chFallback ((tlLines h body).length + 1) h body header =
        none := by
    rw [mimeBodyDec]
    cases mimeDebodySection recode toCharset chFallback ((tlLines h body).length + 1) h body
      header <;> simp
  rw [Ne, hbind]
  rcases mimeDebodySection_settles _ header (vals as) hn with ⟨hs, e, hd⟩ | ⟨hs, hf⟩
  · obtain ⟨r, h', e1, -⟩ := hd h body as hh rfl
    rw [e1]
    exact iff_of_true (by simp) hs
  · exact iff_of_false (fun hne => hne (hf h body as hh rfl)) hs

/-- A body of one part that no last boundary line ends. -/
theorem mimeBodyDec_safe_open :
    ∃ (h : Lines) (body : Textlist) (as : List (Nat × Str)),
      vals as = [lit "--x\n", lit "\n", lit "a\n"] ∧
      (mimeBodyDec (fun s _ _ => some s) [] none h body
          [lit "Content-Type: multipart/mixed; boundary=x"] ≠ none ↔
        SafeSection none [lit "Content-Type: multipart/mixed; boundary=x"] (vals as)) := by
  obtain ⟨body, h, as, -, hh, hv, -, -⟩ := (holds_tlInit []).tlCopy
    [lit "--x\n", lit "\n", lit "a\n"]
  rw [List.nil_append] at hh
  exact ⟨h, body, as, hv, mimeBodyDec_safe_iff hh⟩

/-- A body in which its boundary does not occur is not decoded. -/
theorem mimeBodyDec_noBoundary :
    ¬ ∀ (recode : Str → Str → Str → Option Str) (toCharset : Str) (chFallback : Option Str)
      (header : List Str) (mime : MIMEInfo) (b : Str) (h : Lines) (body : Textlist)
      (as : List (Nat × Str)), sectionMime chFallback header = some mime →
      mime.isMultipart = true → mime.typeBoundary = some b → Holds h body as →
      mimeBodyDec recode toCharset chFallback h body header ≠ none := by
  intro hall
  let header := [lit "Content-Type: multipart/mixed; boundary=x"]
  obtain ⟨body, h, as, -, hh, hv, -, -⟩ := (holds_tlInit []).tlCopy [lit "a\n"]
  rw [List.nil_append] at hh
  have hm : sectionMime none header = some ⟨some (lit "multipart/mixed; boundary=x"),
      some (lit "multipart/mixed"), none, some (lit "x"), none⟩ := by
    decide +kernel
  refine hall (fun s _ _ => some s) [] none header _ (lit "x") h body as hm ?_ rfl hh ?_
  · decide +kernel
  · have hsec := @mimeDebodySection_parts (fun s _ _ => some s) [] none
      (tlLines h body).length header _ hm (by decide +kernel) h body
    have hnil : [lit "a\n"].dropWhile (! hasPrefix (delimiter (lit "x")) ·) = [] := by
      decide +kernel
    rw [mimeBodyDec, hsec]
    simp [mimeDebodyMultipartWith, hh.lines, hv, hnil]

example : [lit "a\n", lit "--x\n"].dropWhile (! hasPrefix (delimiter (lit "x")) ·) =
    [lit "--x\n"] := by
  decide +kernel

end

end Fidogate

/-
# `Fidogate.Common.QpForm` — mime.c: which bodies are decoded as RFC 2045 says

`mime_qp_decode` is the decoder of header words, so a body loses what a header
word has another meaning for.  Beside `mime_debody_qp` stands what RFC 2045
takes a list of lines for, and a weight of bytes tells where the two agree:
whatever goes wrong but for blanks at the end of a line makes the text lighter.
-/
import Fidogate.Common.MimeQp
import Fidogate.Lib.Buffer
import Mathlib.Data.List.DropRight

namespace Fidogate

open Bytes

/-! ## RFC 2045 -/

/-- A line of a body: a LF stands at its end only. -/
def IsBodyLine (l : Str) : Prop := nul ∉ l ∧ lf ∉ l.dropLast

instance (l : Str) : Decidable (IsBodyLine l) :=
  inferInstanceAs (Decidable (nul ∉ l ∧ lf ∉ l.dropLast))

/-- The line end, if there is one. -/
def lineEnd (l : Str) : Str :=
  if [cr, lf].isSuffixOf l then [cr, lf] else if l.getLast? = some lf then [lf] else []

/-- A line without its end. -/
def lineCore (l : Str) : Str := l.take (l.length - (lineEnd l).length)

def qpBlank (c : UInt8) : Bool := c == sp || c == tab

/-- A line without its end, and without the blanks in front of it. -/
def qpTrimmed (l : Str) : Str := (lineCore l).rdropWhile qpBlank

/-- `=` at the end of the line: it is joined to the next one. -/
def qpSoft (l : Str) : Bool := (qpTrimmed l).getLast? == some 61

/-- `=XX` is the byte XX, and everything else stands for itself. -/
def qpText : Str → Str
  | [] => []
  | [c] => [c]
  | [c, d] => [c, d]
  | c :: d :: e :: s =>
      if c = 61 then
        match mimeQptoint d, mimeQptoint e with
        | some vh, some vl => (vh * 16 + vl) :: qpText s
        | _, _ => c :: qpText (d :: e :: s)
      else c :: qpText (d :: e :: s)

/-- What a line stands for. -/
def qpLineText (l : Str) : Str :=
  if qpSoft l then qpText (qpTrimmed l).dropLast else qpText (qpTrimmed l) ++ [lf]

/-- What the lines of a body stand for. -/
def qpBodyText (body : List Str) : Str := body.flatMap qpLineText

/-! ## Codes -/

/-- Codes as `mime_qp_decode` has them, with no `=` left over at the end. -/
def qpPlain : Str → Option Str
  | [] => some []
  | c :: s =>
      if c = 61 then
        match s with
        | d :: e :: s =>
            match mimeQptoint d, mimeQptoint e with
            | some vh, some vl => (qpPlain s).map ((vh * 16 + vl) :: ·)
            | _, _ => none
        | _ => none
      else (qpPlain s).map ((if c = 95 then sp else c &&& 0x7F) :: ·)

/-- Two digits behind each `=`, and otherwise neither `_` nor 8-bit characters. -/
def PlainCodes : Str → Prop
  | [] => True
  | c :: s =>
      if c = 61 then
        match s with
        | d :: e :: s => mimeQptoint d ≠ none ∧ mimeQptoint e ≠ none ∧ PlainCodes s
        | _ => False
      else c ≠ 95 ∧ c < 0x80 ∧ PlainCodes s

/-- The weight of a byte. -/
def qpWeight (c : UInt8) : Nat :=
  if qpBlank c then 0 else if c = lf then 1 else c.toNat + 1

def qpWeights (s : Str) : Nat := (s.map qpWeight).sum

@[simp] theorem qpWeights_nil : qpWeights [] = 0 := rfl

@[simp] theorem qpWeights_cons (c : UInt8) (s : Str) :
    qpWeights (c :: s) = qpWeight c + qpWeights s := by
  rw [qpWeights, List.map_cons, List.sum_cons, ← qpWeights]

@[simp] theorem qpWeights_append (s t : Str) :
    qpWeights (s ++ t) = qpWeights s + qpWeights t := by
  rw [qpWeights, List.map_append, List.sum_append, ← qpWeights, ← qpWeights]

theorem qpText_cons {c : UInt8} (h : c ≠ 61) (s : Str) : qpText (c :: s) = c :: qpText s := by
  match s with
  | [] => rfl
  | [_] => rfl
  | _ :: _ :: _ => rw [qpText, if_neg h]

theorem qpText_code {d e vh vl : UInt8} (hd : mimeQptoint d = some vh)
    (he : mimeQptoint e = some vl) (s : Str) :
    qpText (61 :: d :: e :: s) = (vh * 16 + vl) :: qpText s := by
  rw [qpText, if_pos rfl, hd, he]

/-- A masked character is lighter. -/
theorem weight_masked (c : UInt8) :
    (c ≠ 95 ∧ c < 0x80 → (if c = 95 then sp else c &&& 0x7F) = c) ∧
      (¬ (c ≠ 95 ∧ c < 0x80) → qpWeight (if c = 95 then sp else c &&& 0x7F) < qpWeight c) :=
  forall_byte (P := fun c => (c ≠ 95 ∧ c < 0x80 → (if c = 95 then sp else c &&& 0x7F) = c) ∧
      (¬ (c ≠ 95 ∧ c < 0x80) → qpWeight (if c = 95 then sp else c &&& 0x7F) < qpWeight c))
    (by decide +kernel) c

theorem qpPlain_cons {c : UInt8} (h : c ≠ 61) (s : Str) :
    qpPlain (c :: s) = (qpPlain s).map ((if c = 95 then sp else c &&& 0x7F) :: ·) := by
  rw [qpPlain.eq_def]
  exact if_neg h

theorem plainCodes_cons {c : UInt8} (h : c ≠ 61) (s : Str) :
    PlainCodes (c :: s) ↔ (c ≠ 95 ∧ c < 0x80) ∧ PlainCodes s := by
  rw [PlainCodes.eq_def, and_assoc]
  dsimp only
  rw [if_neg h]

theorem plainCodes_code (d e : UInt8) (s : Str) : PlainCodes (61 :: d :: e :: s) ↔
    mimeQptoint d ≠ none ∧ mimeQptoint e ≠ none ∧ PlainCodes s := by
  rw [PlainCodes]
  exact Iff.rfl

/-- A code that is decoded has two digits. -/
theorem qpPlain_code {s t : Str} (h : qpPlain (61 :: s) = some t) : ∃ d e vh vl s' t',
    s = d :: e :: s' ∧ mimeQptoint d = some vh ∧ mimeQptoint e = some vl ∧
      qpPlain s' = some t' ∧ t = (vh * 16 + vl) :: t' := by
  match s with
  | [] => cases h
  | [_] => cases h
  | d :: e :: s =>
      rw [qpPlain, if_pos rfl] at h
      cases hd : mimeQptoint d with
      | none =>
          rw [hd] at h
          cases h
      | some vh =>
      cases he : mimeQptoint e with
      | none =>
          rw [hd, he] at h
          cases h
      | some vl =>
      rw [hd, he] at h
      obtain ⟨t', ht', rfl⟩ := Option.map_eq_some_iff.mp h
      exact ⟨d, e, vh, vl, s, t', rfl, hd, he, ht', rfl⟩

/-- Codes are decoded right if they are plain, and otherwise to a lighter text. -/
theorem qpPlain_weight : ∀ {s t : Str}, qpPlain s = some t →
    (PlainCodes s → t = qpText s) ∧ (¬ PlainCodes s → qpWeights t < qpWeights (qpText s))
  | [], t, h => by
      cases h
      exact ⟨fun _ => rfl, fun h => absurd trivial h⟩
  | c :: s, t, h => by
      by_cases hc : c = 61
      · subst hc
        obtain ⟨d, e, vh, vl, s', t', rfl, hd, he, ht', rfl⟩ := qpPlain_code h
        obtain ⟨heq, hlt⟩ := qpPlain_weight ht'
        rw [qpText_code hd he, plainCodes_code, hd, he,
          and_iff_right (Option.some_ne_none vh), and_iff_right (Option.some_ne_none vl)]
        refine ⟨fun hp => by rw [heq hp], fun hp => ?_⟩
        rw [qpWeights_cons, qpWeights_cons]
        exact Nat.add_lt_add_left (hlt hp) _
      · rw [qpPlain_cons hc] at h
        rw [plainCodes_cons hc]
        obtain ⟨t', ht', rfl⟩ := Option.map_eq_some_iff.mp h
        obtain ⟨heq, hlt⟩ := qpPlain_weight ht'
        obtain ⟨hkeep, hless⟩ := weight_masked c
        rw [qpText_cons hc]
        refine ⟨fun ⟨hplain, hp⟩ => by rw [hkeep hplain, heq hp], fun hp => ?_⟩
        rw [qpWeights_cons, qpWeights_cons]
        by_cases hplain : c ≠ 95 ∧ c < 0x80
        · have hs : ¬ PlainCodes s := fun hs => hp ⟨hplain, hs⟩
          rw [hkeep hplain]
          exact Nat.add_lt_add_left (hlt hs) _
        · have hle : qpWeights t' ≤ qpWeights (qpText s) := by
            by_cases hs : PlainCodes s
            · rw [heq hs]
            · exact Nat.le_of_lt (hlt hs)
          exact Nat.add_lt_add_of_lt_of_le (hless hplain) hle

theorem qpPlain_of_plainCodes : ∀ {s : Str}, PlainCodes s → qpPlain s = some (qpText s)
  | [], _ => rfl
  | c :: s, h => by
      by_cases hc : c = 61
      · subst hc
        match s, h with
        | [], h => exact absurd h (by simp [PlainCodes])
        | [_], h => exact absurd h (by simp [PlainCodes])
        | d :: e :: s, h =>
            obtain ⟨hd, he, hs⟩ := (plainCodes_code d e s).mp h
            obtain ⟨vh, hd⟩ := Option.ne_none_iff_exists'.mp hd
            obtain ⟨vl, he⟩ := Option.ne_none_iff_exists'.mp he
            rw [qpPlain, if_pos rfl, hd, he, qpText_code hd he]
            dsimp only
            rw [qpPlain_of_plainCodes hs, Option.map_some]
      · obtain ⟨hplain, hs⟩ := (plainCodes_cons hc s).mp h
        rw [qpPlain_cons hc, qpPlain_of_plainCodes hs, qpText_cons hc, Option.map_some,
          (weight_masked c).1 hplain]

theorem plainCodes_iff {s : Str} : PlainCodes s ↔ qpPlain s = some (qpText s) := by
  refine ⟨qpPlain_of_plainCodes, fun h => ?_⟩
  by_contra hno
  exact absurd ((qpPlain_weight h).2 hno) (Nat.lt_irrefl _)

instance (s : Str) : Decidable (PlainCodes s) := decidable_of_iff _ plainCodes_iff.symm

/-- Codes that are decoded end where other text begins. -/
theorem qpText_append : ∀ {s t : Str}, qpPlain s = some t → ∀ r : Str,
    qpText (s ++ r) = qpText s ++ qpText r
  | [], _, _, _ => rfl
  | c :: s, t, h, r => by
      by_cases hc : c = 61
      · subst hc
        obtain ⟨d, e, vh, vl, s', t', rfl, hd, he, ht', rfl⟩ := qpPlain_code h
        rw [List.cons_append, List.cons_append, List.cons_append, qpText_code hd he,
          qpText_code hd he, qpText_append ht' r, List.cons_append]
      · rw [qpPlain_cons hc] at h
        obtain ⟨t', ht', rfl⟩ := Option.map_eq_some_iff.mp h
        rw [List.cons_append, qpText_cons hc, qpText_cons hc, qpText_append ht' r,
          List.cons_append]

theorem digit_not_end {c v : UInt8} (h : mimeQptoint c = some v) :
    c ≠ lf ∧ c ≠ cr ∧ c ≠ 61 ∧ qpBlank c = false := by
  have key : ∀ c : UInt8, mimeQptoint c ≠ none → c ≠ lf ∧ c ≠ cr ∧ c ≠ 61 ∧ qpBlank c = false :=
    fun c => forall_byte (P := fun c => mimeQptoint c ≠ none →
      c ≠ lf ∧ c ≠ cr ∧ c ≠ 61 ∧ qpBlank c = false) (by decide +kernel) c
  exact key c (by rw [h]; exact Option.some_ne_none v)

theorem no_end {c : UInt8} {s : Str} (hcr : cr ∉ c :: s) (hlf : lf ∉ c :: s) :
    ¬ (c = lf || c = cr) = true := by
  rw [List.mem_cons, not_or] at hcr hlf
  simpa using ⟨fun h => hlf.1 h.symm, fun h => hcr.1 h.symm⟩

/-- The decoder takes such codes as they are. -/
theorem mimeQpDecode_append : ∀ {s t : Str}, qpPlain s = some t → cr ∉ s → lf ∉ s → ∀ r : Str,
    mimeQpDecode (s ++ r) = (mimeQpDecode r).map (t ++ ·)
  | [], t, h, _, _, r => by
      cases h
      rw [List.nil_append]
      cases mimeQpDecode r <;> rfl
  | c :: s, t, h, hcr, hlf, r => by
      have hend := no_end hcr hlf
      have hcr' : cr ∉ s := fun h => hcr (List.mem_cons_of_mem c h)
      have hlf' : lf ∉ s := fun h => hlf (List.mem_cons_of_mem c h)
      by_cases hc : c = 61
      · subst hc
        obtain ⟨d, e, vh, vl, s', t', rfl, hd, he, ht', rfl⟩ := qpPlain_code h
        obtain ⟨hdlf, hdcr, -, -⟩ := digit_not_end hd
        rw [List.cons_append, List.cons_append, List.cons_append, mimeQpDecode, if_neg hend,
          if_neg (by decide), if_neg (by decide), if_neg (by simp [hdlf, hdcr]), hd, he]
        dsimp only
        rw [mimeQpDecode_append ht' (fun h => hcr' (by simp [h])) (fun h => hlf' (by simp [h])) r,
          Option.map_map]
        rfl
      · rw [qpPlain_cons hc] at h
        obtain ⟨t', ht', rfl⟩ := Option.map_eq_some_iff.mp h
        rw [List.cons_append, mimeQpDecode.eq_def]
        dsimp only
        rw [if_neg hend, mimeQpDecode_append ht' hcr' hlf' r]
        by_cases h95 : c = 95
        · rw [if_pos h95, if_pos h95, Option.map_map]
          rfl
        · rw [if_neg h95, if_pos hc, if_neg h95, Option.map_map]
          rfl

/-- What a line end adds to what is decoded in front of it. -/
def qpMark (r : Str) : Str := if r = [] then [] else [lf]

theorem mimeQpDecode_end {r : Str} (h : ∀ c ∈ r.head?, c = cr ∨ c = lf) :
    mimeQpDecode r = some (qpMark r) := by
  cases r with
  | nil => rfl
  | cons c r =>
      have hc : (c = lf || c = cr) = true := by simpa [or_comm] using h c rfl
      rw [mimeQpDecode.eq_def]
      dsimp only
      rw [if_pos hc]
      rfl

theorem mimeQpDecode_soft {r : Str} (h : ∀ c ∈ r.head?, c = cr ∨ c = lf) :
    mimeQpDecode (61 :: r) = if r = [] then none else some [lf] := by
  rw [mimeQpDecode.eq_def]
  dsimp only
  rw [if_neg (by decide), if_neg (by decide), if_neg (by decide)]
  cases r with
  | nil => rfl
  | cons d r =>
      have hd : (d = lf || d = cr) = true := by simpa [or_comm] using h d rfl
      cases r with
      | nil =>
          dsimp only
          rw [if_pos hd]
          rfl
      | cons e r =>
          dsimp only
          rw [if_pos hd]
          rfl

theorem toint_end {c : UInt8} (h : c = cr ∨ c = lf) : mimeQptoint c = none := by
  rcases h with rfl | rfl <;> decide

/-- A code cut by a line end is refused. -/
theorem mimeQpDecode_cut {d : UInt8} {r : Str} (hd : ¬ (d = lf || d = cr) = true)
    (h : ∀ c ∈ r.head?, c = cr ∨ c = lf) : mimeQpDecode (61 :: d :: r) = none := by
  rw [mimeQpDecode.eq_def]
  dsimp only
  rw [if_neg (by decide), if_neg (by decide), if_neg (by decide)]
  cases r with
  | nil =>
      dsimp only
      rw [if_neg hd]
  | cons e r =>
      dsimp only
      rw [if_neg hd, toint_end (h e rfl)]
      cases mimeQptoint d <;> rfl

/-- What is no line end has to be a code with two digits. -/
theorem digits_of_mimeQpDecode {d e : UInt8} {s u : Str} (hd : ¬ (d = lf || d = cr) = true)
    (h : mimeQpDecode (61 :: d :: e :: s) = some u) : ∃ vh vl u', mimeQptoint d = some vh ∧
      mimeQptoint e = some vl ∧ mimeQpDecode s = some u' ∧ u = (vh * 16 + vl) :: u' := by
  rw [mimeQpDecode, if_neg (by decide), if_neg (by decide), if_neg (by decide), if_neg hd] at h
  cases hdig : mimeQptoint d with
  | none =>
      rw [hdig] at h
      cases h
  | some vh =>
  cases heig : mimeQptoint e with
  | none =>
      rw [hdig, heig] at h
      cases h
  | some vl =>
  rw [hdig, heig] at h
  obtain ⟨u', hu', rfl⟩ := Option.map_eq_some_iff.mp h
  exact ⟨vh, vl, u', rfl, rfl, hu', rfl⟩

/-- What is decoded in front of a line end are codes, but for a last `=`. -/
theorem codes_of_mimeQpDecode : ∀ {s r u : Str}, cr ∉ s → lf ∉ s →
    (∀ c ∈ r.head?, c = cr ∨ c = lf) → mimeQpDecode (s ++ r) = some u →
    ∃ s' t, qpPlain s' = some t ∧ u = t ++ qpMark r ∧ (s = s' ∨ r ≠ [] ∧ s = s' ++ [61])
  | [], r, u, _, _, hr, h => by
      rw [List.nil_append, mimeQpDecode_end hr] at h
      cases h
      exact ⟨[], [], rfl, rfl, Or.inl rfl⟩
  | c :: s, r, u, hcr, hlf, hr, h => by
      have hcr' : cr ∉ s := fun h => hcr (List.mem_cons_of_mem c h)
      have hlf' : lf ∉ s := fun h => hlf (List.mem_cons_of_mem c h)
      by_cases hc : c = 61
      · subst hc
        match s, hcr', hlf', h with
        | [], _, _, h =>
            rw [List.singleton_append, mimeQpDecode_soft hr] at h
            by_cases hnil : r = []
            · rw [if_pos hnil] at h
              cases h
            · rw [if_neg hnil] at h
              cases h
              exact ⟨[], [], rfl, (if_neg hnil).symm, Or.inr ⟨hnil, rfl⟩⟩
        | [d], hcr', hlf', h =>
            have hcut := mimeQpDecode_cut (no_end hcr' hlf') hr
            cases hcut.symm.trans h
        | d :: e :: s, hcr', hlf', h =>
            obtain ⟨vh, vl, u', hd, he, hu', rfl⟩ := digits_of_mimeQpDecode (no_end hcr' hlf') h
            obtain ⟨s', t, hs', rfl, hcases⟩ := codes_of_mimeQpDecode
              (fun h => hcr' (by simp [h])) (fun h => hlf' (by simp [h])) hr hu'
            refine ⟨61 :: d :: e :: s', (vh * 16 + vl) :: t, ?_, rfl, ?_⟩
            · rw [qpPlain, if_pos rfl, hd, he]
              dsimp only
              rw [hs', Option.map_some]
            · rcases hcases with rfl | ⟨hne, rfl⟩
              · exact Or.inl rfl
              · exact Or.inr ⟨hne, rfl⟩
      · rw [List.cons_append, mimeQpDecode.eq_def] at h
        dsimp only at h
        rw [if_neg (no_end hcr hlf), if_pos hc,
          ← apply_ite fun c => (mimeQpDecode (s ++ r)).map (c :: ·)] at h
        obtain ⟨u', hu', rfl⟩ := Option.map_eq_some_iff.mp h
        obtain ⟨s', t, hs', rfl, hcases⟩ := codes_of_mimeQpDecode hcr' hlf' hr hu'
        refine ⟨c :: s', (if c = 95 then sp else c &&& 0x7F) :: t, ?_, rfl, ?_⟩
        · rw [qpPlain_cons hc, hs', Option.map_some]
        · rcases hcases with rfl | ⟨hne, rfl⟩
          · exact Or.inl rfl
          · exact Or.inr ⟨hne, rfl⟩

/-! ## The end of a line -/

theorem weights_sublist {s t : Str} (h : s.Sublist t) : qpWeights s ≤ qpWeights t := by
  induction h with
  | slnil => exact Nat.le_refl _
  | cons c _ ih =>
      rw [qpWeights_cons]
      exact Nat.le_trans ih (Nat.le_add_left _ _)
  | cons_cons c _ ih =>
      rw [qpWeights_cons, qpWeights_cons]
      exact Nat.add_le_add_left ih _

/-- What `strip_crlf` and the end of the string leave of a text in front of a
line end. -/
def EndKept (t r : Str) : Prop :=
  nul ∉ t ∧ t.getLast? ≠ some cr ∧ (r = [] → t.getLast? ≠ some lf)

instance (t r : Str) : Decidable (EndKept t r) :=
  inferInstanceAs (Decidable (nul ∉ t ∧ t.getLast? ≠ some cr ∧ (r = [] → t.getLast? ≠ some lf)))

theorem weights_dropLast {t : Str} {c : UInt8} (h : t.getLast? = some c) (hc : qpWeight c ≠ 0) :
    qpWeights t.dropLast < qpWeights t := by
  obtain ⟨s, rfl⟩ := List.getLast?_eq_some_iff.mp h
  rw [List.dropLast_concat, qpWeights_append, qpWeights_cons, qpWeights_nil]
  omega

theorem strip_weight (t r : Str) : (EndKept t r → stripCrlf (cstr (t ++ qpMark r)) = t) ∧
    (¬ EndKept t r → qpWeights (stripCrlf (cstr (t ++ qpMark r))) < qpWeights t) := by
  by_cases hnul : nul ∈ t
  · refine ⟨fun h => absurd hnul h.1, fun _ => ?_⟩
    obtain ⟨a, b, rfl, ha⟩ := List.eq_append_cons_of_mem hnul
    have hweight : qpWeight nul = 1 := rfl
    have hle := weights_sublist (stripCrlf_sublist a)
    rw [List.append_assoc, List.cons_append, Buffer.cstr_append_nul ha, qpWeights_append,
      qpWeights_cons, hweight]
    omega
  · have hmark : nul ∉ t ++ qpMark r := by
      rw [List.mem_append, not_or, qpMark]
      exact ⟨hnul, by split <;> decide⟩
    have hcstr : cstr (t ++ qpMark r) = t ++ qpMark r :=
      List.takeWhile_eq_self_iff.mpr fun c hc => by simpa using ne_of_mem_of_not_mem hc hmark
    have hcr : qpWeight cr ≠ 0 := by decide
    have hlf : qpWeight lf ≠ 0 := by decide
    rw [hcstr]
    by_cases hr : r = []
    · rw [qpMark, if_pos hr, List.append_nil, stripCrlf]
      constructor
      · rintro ⟨-, h1, h2⟩
        rw [if_neg (h2 hr), if_neg h1]
      · intro h
        by_cases hlast : t.getLast? = some lf
        · rw [if_pos hlast]
          refine Nat.lt_of_le_of_lt (weights_sublist ?_) (weights_dropLast hlast hlf)
          split
          · exact List.dropLast_sublist _
          · exact List.Sublist.refl _
        · rw [if_neg hlast]
          have hlast' : t.getLast? = some cr := by
            by_contra hne
            exact h ⟨hnul, hne, fun _ => hlast⟩
          rw [if_pos hlast']
          exact weights_dropLast hlast' hcr
    · rw [qpMark, if_neg hr, stripCrlf_lf]
      constructor
      · rintro ⟨-, h1, -⟩
        rw [if_neg h1]
      · intro h
        have hlast : t.getLast? = some cr := by
          by_contra hne
          exact h ⟨hnul, hne, fun h => absurd h hr⟩
        rw [if_pos hlast]
        exact weights_dropLast hlast hcr

/-! ## One line -/

/-- A line and its end. -/
theorem line_split {l : Str} (hl : IsBodyLine l) : lineCore l ++ lineEnd l = l ∧ lf ∉ lineCore l ∧
    (lineEnd l = [] ∨ lineEnd l = [lf] ∧ (lineCore l).getLast? ≠ some cr ∨
      lineEnd l = [cr, lf]) := by
  have hsplit : ∀ s e : Str, lineEnd l = e → l = s ++ e → lineCore l = s := by
    rintro s e he rfl
    rw [lineCore, he, List.length_append, Nat.add_sub_cancel, List.take_left]
  have hcore : ∀ s e : Str, lineEnd l = e → l = s ++ e → e ≠ [] → lf ∉ s := by
    rintro s e he rfl hne hmem
    refine hl.2 ?_
    rw [List.dropLast_append_of_ne_nil hne]
    exact List.mem_append_left _ hmem
  rw [lineEnd]
  by_cases hcrlf : [cr, lf].isSuffixOf l = true
  · have he : lineEnd l = [cr, lf] := by rw [lineEnd, if_pos hcrlf]
    obtain ⟨s, hs⟩ := List.isSuffixOf_iff_suffix.mp hcrlf
    rw [if_pos hcrlf, hsplit s _ he hs.symm]
    exact ⟨hs, hcore s _ he hs.symm (List.cons_ne_nil _ _), Or.inr (Or.inr rfl)⟩
  · rw [if_neg hcrlf]
    by_cases hlf : l.getLast? = some lf
    · have he : lineEnd l = [lf] := by rw [lineEnd, if_neg hcrlf, if_pos hlf]
      obtain ⟨s, hs⟩ := List.getLast?_eq_some_iff.mp hlf
      rw [if_pos hlf, hsplit s _ he hs]
      refine ⟨hs.symm, hcore s _ he hs (List.cons_ne_nil _ _), Or.inr (Or.inl ⟨rfl, ?_⟩)⟩
      intro hcr
      obtain ⟨s', rfl⟩ := List.getLast?_eq_some_iff.mp hcr
      refine hcrlf (List.isSuffixOf_iff_suffix.mpr ⟨s', ?_⟩)
      rw [hs, List.append_assoc]
      rfl
    · have he : lineEnd l = [] := by rw [lineEnd, if_neg hcrlf, if_neg hlf]
      rw [if_neg hlf, hsplit l _ he (List.append_nil l).symm]
      refine ⟨List.append_nil l, ?_, Or.inl rfl⟩
      intro hmem
      obtain rfl | ⟨s, c, rfl⟩ := List.eq_nil_or_concat' l
      · exact List.not_mem_nil hmem
      · rw [List.mem_append, List.mem_singleton] at hmem
        have hl2 := hl.2
        rw [List.dropLast_concat] at hl2
        rcases hmem with hmem | rfl
        · exact hl2 hmem
        · exact hlf List.getLast?_concat

/-- How `mime_debody_qp` sees that a line is joined to the next one. -/
def mimeQpSoft (l : Str) : Bool :=
  (lit "=\n").isSuffixOf l || (lit "=\x0d\n").isSuffixOf l

theorem suffix_concat_iff (s e : Str) (c : UInt8) : e ++ [c] <:+ s ++ [c] ↔ e <:+ s := by
  constructor
  · rintro ⟨t, ht⟩
    rw [← List.append_assoc] at ht
    exact ⟨t, (List.append_inj' ht rfl).1⟩
  · rintro ⟨t, rfl⟩
    exact ⟨t, (List.append_assoc ..).symm⟩

theorem suffix_singleton_iff (s : Str) (c : UInt8) : [c] <:+ s ↔ s.getLast? = some c := by
  rw [List.getLast?_eq_some_iff]
  exact ⟨fun ⟨t, ht⟩ => ⟨t, ht.symm⟩, fun ⟨t, ht⟩ => ⟨t, ht.symm⟩⟩

theorem mimeQpSoft_iff {l : Str} (hl : IsBodyLine l) :
    mimeQpSoft l = true ↔ (lineCore l).getLast? = some 61 ∧ lineEnd l ≠ [] := by
  obtain ⟨hs, hlf, hend⟩ := line_split hl
  rw [mimeQpSoft, Bool.or_eq_true, List.isSuffixOf_iff_suffix, List.isSuffixOf_iff_suffix]
  change [61] ++ [lf] <:+ l ∨ [61] ++ [cr] ++ [lf] <:+ l ↔ _
  rcases hend with he | ⟨he, hcr⟩ | he
  · rw [he, List.append_nil] at hs
    rw [hs] at hlf
    refine iff_of_false ?_ (fun h => h.2 he)
    rintro (⟨t, rfl⟩ | ⟨t, rfl⟩)
    · exact hlf (by simp)
    · exact hlf (by simp)
  · have hne : lineEnd l ≠ [] := by rw [he]; exact List.cons_ne_nil _ _
    rw [he] at hs
    rw [and_iff_left hne]
    generalize lineCore l = core at hs hcr
    rw [← hs, suffix_concat_iff, suffix_concat_iff, suffix_singleton_iff]
    refine or_iff_left ?_
    rintro ⟨t, ht⟩
    refine hcr ?_
    rw [← ht, ← List.append_assoc, List.getLast?_concat]
  · have hne : lineEnd l ≠ [] := by rw [he]; exact List.cons_ne_nil _ _
    rw [he, ← List.singleton_append, ← List.append_assoc] at hs
    rw [and_iff_left hne]
    generalize lineCore l = core at hs
    rw [← hs, suffix_concat_iff, suffix_concat_iff, suffix_concat_iff, suffix_singleton_iff,
      suffix_singleton_iff, List.getLast?_concat]
    exact or_iff_right (by decide)

/-- The codes of a line, without a `=` at its end. -/
def lineCodes (l : Str) : Str :=
  if (lineCore l).getLast? = some 61 then (lineCore l).dropLast else lineCore l

/-- A line that keeps all it stands for, up to blanks at its end: no CR but in
its end, plain codes, nothing that counts as the end of a string or of a line
in what they stand for, and a line end behind a `=` at the end. -/
structure KeepsLine (l : Str) : Prop where
  noCr : cr ∉ lineCore l
  codes : PlainCodes (lineCodes l)
  kept : EndKept (qpText (lineCodes l)) (lineEnd l)
  ended : (lineCore l).getLast? = some 61 → lineEnd l ≠ []

instance (l : Str) : Decidable (KeepsLine l) :=
  decidable_of_iff (cr ∉ lineCore l ∧ PlainCodes (lineCodes l) ∧
      EndKept (qpText (lineCodes l)) (lineEnd l) ∧
      ((lineCore l).getLast? = some 61 → lineEnd l ≠ []))
    ⟨fun ⟨h1, h2, h3, h4⟩ => ⟨h1, h2, h3, h4⟩, fun ⟨h1, h2, h3, h4⟩ => ⟨h1, h2, h3, h4⟩⟩

/-- What `mime_debody_qp` makes of a line. -/
def qpLineOut (l : Str) : Str :=
  stripCrlf (cstr ((mimeQpDecode l).getD [])) ++ if mimeQpSoft l then [] else [lf]

theorem getLast_of_qpPlain : ∀ {s t : Str}, qpPlain s = some t → s.getLast? ≠ some 61
  | [], _, _ => by simp
  | c :: s, t, h => by
      by_cases hc : c = 61
      · subst hc
        obtain ⟨d, e, vh, vl, s', t', rfl, -, he, ht', -⟩ := qpPlain_code h
        have ih := getLast_of_qpPlain ht'
        cases s' with
        | nil =>
            rw [List.getLast?_cons_cons, List.getLast?_cons_cons, List.getLast?_singleton]
            exact fun h => (digit_not_end he).2.2.1 (Option.some.inj h)
        | cons f s' =>
            rw [List.getLast?_cons_cons, List.getLast?_cons_cons, List.getLast?_cons_cons]
            exact ih
      · rw [qpPlain_cons hc] at h
        obtain ⟨t', ht', rfl⟩ := Option.map_eq_some_iff.mp h
        have ih := getLast_of_qpPlain ht'
        cases s with
        | nil =>
            rw [List.getLast?_singleton]
            exact fun h => hc (Option.some.inj h)
        | cons f s =>
            rw [List.getLast?_cons_cons]
            exact ih

theorem not_blank_of_digit {c v : UInt8} (h : mimeQptoint c = some v) {b : Str}
    (hb : ∀ c ∈ b, qpBlank c = true) : c ∉ b := fun hc =>
  Bool.false_ne_true ((digit_not_end h).2.2.2.symm.trans (hb c hc))

/-- Blanks behind codes are no part of them. -/
theorem qpPlain_of_blanks {b : Str} (hb : ∀ c ∈ b, qpBlank c = true) : ∀ {s t : Str},
    qpPlain (s ++ b) = some t → ∃ t', qpPlain s = some t'
  | [], _, _ => ⟨[], rfl⟩
  | c :: s, t, h => by
      rw [List.cons_append] at h
      by_cases hc : c = 61
      · subst hc
        obtain ⟨d, e, vh, vl, s', t', hs, hd, he, ht', -⟩ := qpPlain_code h
        match s, hs with
        | [], hs =>
            rw [List.nil_append] at hs
            rw [hs] at hb
            exact absurd List.mem_cons_self (not_blank_of_digit hd hb)
        | [_], hs =>
            rw [List.singleton_append] at hs
            rw [(List.cons.inj hs).2] at hb
            exact absurd List.mem_cons_self (not_blank_of_digit he hb)
        | f :: g :: s, hs =>
            simp only [List.cons_append, List.cons.injEq] at hs
            obtain ⟨rfl, rfl, rfl⟩ := hs
            obtain ⟨t'', ht''⟩ := qpPlain_of_blanks hb ht'
            refine ⟨(vh * 16 + vl) :: t'', ?_⟩
            rw [qpPlain, if_pos rfl, hd, he]
            dsimp only
            rw [ht'', Option.map_some]
      · rw [qpPlain_cons hc] at h
        obtain ⟨t', ht', -⟩ := Option.map_eq_some_iff.mp h
        obtain ⟨t'', ht''⟩ := qpPlain_of_blanks hb ht'
        exact ⟨_, by rw [qpPlain_cons hc, ht'', Option.map_some]⟩

theorem qpText_blanks : ∀ {b : Str}, (∀ c ∈ b, qpBlank c = true) → qpText b = b
  | [], _ => rfl
  | c :: b, h => by
      have hc : c ≠ 61 := by
        rintro rfl
        exact absurd (h 61 List.mem_cons_self) (by decide)
      rw [qpText_cons hc, qpText_blanks fun c hc => h c (List.mem_cons_of_mem _ hc)]

theorem weights_blanks : ∀ {b : Str}, (∀ c ∈ b, qpBlank c = true) → qpWeights b = 0
  | [], _ => rfl
  | c :: b, h => by
      rw [qpWeights_cons, weights_blanks fun c hc => h c (List.mem_cons_of_mem _ hc), qpWeight,
        if_pos (h c List.mem_cons_self)]

/-- A line of codes with no `=` left over. -/
theorem lineText_hard {l t : Str} (h : qpPlain (lineCore l) = some t) : ∃ b,
    (∀ c ∈ b, qpBlank c = true) ∧ lineCore l = qpTrimmed l ++ b ∧ qpSoft l = false ∧
      qpLineText l = qpText (qpTrimmed l) ++ [lf] ∧
      qpText (lineCore l) = qpText (qpTrimmed l) ++ b := by
  have hsplit : lineCore l = qpTrimmed l ++ (lineCore l).rtakeWhile qpBlank :=
    List.rdropWhile_append_rtakeWhile.symm
  have hb : ∀ c ∈ (lineCore l).rtakeWhile qpBlank, qpBlank c = true :=
    fun c hc => List.mem_rtakeWhile_imp hc
  rw [hsplit] at h
  obtain ⟨t', ht'⟩ := qpPlain_of_blanks hb h
  have hsoft : qpSoft l = false := beq_eq_false_iff_ne.mpr (getLast_of_qpPlain ht')
  refine ⟨_, hb, hsplit, hsoft, ?_, ?_⟩
  · rw [qpLineText, hsoft, if_neg Bool.false_ne_true]
  · rw [hsplit, qpText_append ht', qpText_blanks hb, ← hsplit]

/-- A line of codes in front of a `=`. -/
theorem lineText_soft {l s : Str} (h : lineCore l = s ++ [61]) :
    qpTrimmed l = lineCore l ∧ qpSoft l = true ∧ qpLineText l = qpText s ∧ lineCodes l = s := by
  have htrim : qpTrimmed l = lineCore l := by
    rw [qpTrimmed, h, List.rdropWhile_concat_neg]
    decide
  have hsoft : qpSoft l = true := by
    rw [qpSoft, htrim, h, List.getLast?_concat]
    rfl
  refine ⟨htrim, hsoft, ?_, ?_⟩
  · rw [qpLineText, hsoft, if_pos rfl, htrim, h, List.dropLast_concat]
  · rw [lineCodes, h, List.getLast?_concat, if_pos rfl, List.dropLast_concat]

theorem lineCodes_hard {l t : Str} (h : qpPlain (lineCore l) = some t) :
    lineCodes l = lineCore l :=
  if_neg (getLast_of_qpPlain h)

theorem rdropWhile_append_cons {p : UInt8 → Bool} {c : UInt8} (hc : ¬ p c = true) (a b : Str) :
    (a ++ c :: b).rdropWhile p = a ++ c :: b.rdropWhile p := by
  induction b using List.reverseRecOn with
  | nil =>
      rw [List.rdropWhile_concat_neg _ _ _ hc]
      rfl
  | append_singleton b d ih =>
      rw [← List.cons_append, ← List.append_assoc]
      by_cases hd : p d = true
      · rw [List.rdropWhile_concat_pos _ _ _ hd, List.rdropWhile_concat_pos _ _ _ hd, ih]
      · rw [List.rdropWhile_concat_neg _ _ _ hd, List.rdropWhile_concat_neg _ _ _ hd,
          List.append_assoc]
        rfl

theorem weight_qpText_cr (y : Str) : 2 ≤ qpWeights (qpText (cr :: y)) ∧
    2 ≤ qpWeights (qpText (61 :: cr :: y)) := by
  have hw : qpWeight cr = 14 := by decide
  have hw' : qpWeight 61 = 62 := by decide
  constructor
  · rw [qpText_cons (by decide), qpWeights_cons]
    omega
  · cases y with
    | nil => decide
    | cons e y =>
        rw [qpText, if_pos rfl, toint_end (Or.inl rfl)]
        dsimp only
        rw [qpWeights_cons]
        omega

/-- A CR inside a line, and all that is behind it, is lost. -/
theorem weight_cr {l x y s' t : Str} (hcore : lineCore l = x ++ cr :: y)
    (hs' : qpPlain s' = some t) (hx : x = s' ∨ x = s' ++ [61]) :
    qpWeights (qpText s') + 2 ≤ qpWeights (qpLineText l) := by
  have hcodes : ∀ y', qpWeights (qpText s') + 2 ≤ qpWeights (qpText (x ++ cr :: y')) := by
    intro y'
    obtain ⟨h1, h2⟩ := weight_qpText_cr y'
    rcases hx with rfl | rfl
    · rw [qpText_append hs', qpWeights_append]
      omega
    · rw [List.append_assoc, List.singleton_append, qpText_append hs', qpWeights_append]
      omega
  have htrim : qpTrimmed l = x ++ cr :: y.rdropWhile qpBlank := by
    rw [qpTrimmed, hcore, rdropWhile_append_cons (by decide)]
  rw [qpLineText]
  split
  · next hsoft =>
      rw [qpSoft, htrim, beq_iff_eq] at hsoft
      obtain hnil | ⟨y', c, hy⟩ := List.eq_nil_or_concat' (y.rdropWhile qpBlank)
      · rw [hnil, List.getLast?_concat] at hsoft
        exact absurd hsoft (by decide)
      · rw [htrim, hy, ← List.cons_append, ← List.append_assoc, List.dropLast_concat]
        exact hcodes y'
  · rw [htrim, qpWeights_append]
    exact Nat.le_trans (hcodes _) (Nat.le_add_right _ _)

/-- What is left of decoded codes in front of a line end. -/
theorem piece_weight {s t : Str} (h : qpPlain s = some t) (r : Str) :
    qpWeights (stripCrlf (cstr (t ++ qpMark r))) ≤ qpWeights (qpText s) ∧
      (¬ (PlainCodes s ∧ EndKept (qpText s) r) →
        qpWeights (stripCrlf (cstr (t ++ qpMark r))) < qpWeights (qpText s)) := by
  obtain ⟨hplain, hless⟩ := qpPlain_weight h
  obtain ⟨hkept, hlost⟩ := strip_weight t r
  have hle : qpWeights (stripCrlf (cstr (t ++ qpMark r))) ≤ qpWeights t := by
    by_cases hk : EndKept t r
    · rw [hkept hk]
    · exact Nat.le_of_lt (hlost hk)
  by_cases hp : PlainCodes s
  · rw [← hplain hp]
    exact ⟨hle, fun hno => hlost fun hk => hno ⟨hp, hk⟩⟩
  · have hlt := Nat.lt_of_le_of_lt hle (hless hp)
    exact ⟨Nat.le_of_lt hlt, fun _ => hlt⟩

theorem lineEnd_head {l : Str} (hl : IsBodyLine l) : ∀ c ∈ (lineEnd l).head?, c = cr ∨ c = lf := by
  obtain ⟨-, -, he | ⟨he, -⟩ | he⟩ := line_split hl
  · rw [he]
    exact fun c hc => by cases hc
  · rw [he]
    exact fun c hc => Or.inr (Option.some.inj hc).symm
  · rw [he]
    exact fun c hc => Or.inl (Option.some.inj hc).symm

/-- A decoded line is lighter than what the line stands for, unless all is kept. -/
theorem lineOut_weight {l u : Str} (hl : IsBodyLine l) (hu : mimeQpDecode l = some u) :
    qpWeights (qpLineOut l) ≤ qpWeights (qpLineText l) ∧
      (¬ KeepsLine l → qpWeights (qpLineOut l) < qpWeights (qpLineText l)) := by
  obtain ⟨hs, hlf, -⟩ := line_split hl
  have hone : qpWeights [lf] = 1 := by decide
  rw [qpLineOut, hu, Option.getD_some, qpWeights_append]
  by_cases hcr : cr ∈ lineCore l
  · obtain ⟨x, y, hcore, hx⟩ := List.eq_append_cons_of_mem hcr
    have hlfx : lf ∉ x := fun h => hlf (by rw [hcore]; exact List.mem_append_left _ h)
    have hu' : mimeQpDecode (x ++ (cr :: (y ++ lineEnd l))) = some u := by
      rw [← List.cons_append, ← List.append_assoc, ← hcore, hs]
      exact hu
    obtain ⟨s', t, ht, rfl, hcases⟩ := codes_of_mimeQpDecode hx hlfx
      (fun c hc => Or.inl (by simpa [eq_comm] using hc)) hu'
    have hpiece := (piece_weight ht (cr :: (y ++ lineEnd l))).1
    have hlost := weight_cr hcore ht (hcases.imp_right And.right)
    have hend : qpWeights (if mimeQpSoft l = true then [] else [lf]) ≤ 1 := by
      split
      · exact Nat.zero_le 1
      · exact Nat.le_of_eq hone
    exact ⟨by omega, fun _ => by omega⟩
  · have hu' : mimeQpDecode (lineCore l ++ lineEnd l) = some u := by rw [hs, hu]
    obtain ⟨s', t, ht, rfl, hcases⟩ := codes_of_mimeQpDecode hcr hlf (lineEnd_head hl) hu'
    obtain ⟨hpiece, hless⟩ := piece_weight ht (lineEnd l)
    rcases hcases with hcore | ⟨hended, hcore⟩
    · rw [← hcore] at ht hpiece hless
      have hcodes := lineCodes_hard ht
      obtain ⟨b, hb, -, -, hline, htext⟩ := lineText_hard ht
      have hsoft : ¬ mimeQpSoft l = true := fun h =>
        getLast_of_qpPlain ht ((mimeQpSoft_iff hl).mp h).1
      have hsame : qpWeights (qpText (lineCore l)) = qpWeights (qpText (qpTrimmed l)) := by
        rw [htext, qpWeights_append, weights_blanks hb, Nat.add_zero]
      rw [hsame] at hpiece hless
      rw [if_neg hsoft, hline, qpWeights_append]
      refine ⟨by omega, fun hno => Nat.add_lt_add_right (hless fun h => hno ?_) _⟩
      exact ⟨hcr, by rw [hcodes]; exact h.1, by rw [hcodes]; exact h.2, fun h61 =>
        absurd h61 (getLast_of_qpPlain ht)⟩
    · obtain ⟨-, -, hline, hcodes⟩ := lineText_soft hcore
      have hlast : (lineCore l).getLast? = some 61 := by rw [hcore, List.getLast?_concat]
      have hsoft : mimeQpSoft l = true := (mimeQpSoft_iff hl).mpr ⟨hlast, hended⟩
      rw [if_pos hsoft, hline, qpWeights_nil, Nat.add_zero]
      refine ⟨hpiece, fun hno => hless fun h => hno ?_⟩
      exact ⟨hcr, by rw [hcodes]; exact h.1, by rw [hcodes]; exact h.2, fun _ => hended⟩

/-- What becomes of a line that keeps all it stands for. -/
structure LineRight (l : Str) : Prop where
  decoded : mimeQpDecode l ≠ none
  soft : mimeQpSoft l = qpSoft l
  joined : qpSoft l = true → qpLineOut l = qpLineText l
  longer : (qpLineText l).length ≤ (qpLineOut l).length
  exact : qpTrimmed l = lineCore l → qpLineOut l = qpLineText l
  noBlank : (qpLineOut l).length = (qpLineText l).length → qpTrimmed l = lineCore l

theorem KeepsLine.right {l : Str} (hl : IsBodyLine l) (hk : KeepsLine l) : LineRight l := by
  obtain ⟨hs, hlf, -⟩ := line_split hl
  obtain ⟨hcr, hcodes, hkept, hended⟩ := hk
  have hend := mimeQpDecode_end (lineEnd_head hl)
  have hstrip := (strip_weight (qpText (lineCodes l)) (lineEnd l)).1 hkept
  have hplain := qpPlain_of_plainCodes hcodes
  by_cases hlast : (lineCore l).getLast? = some 61
  · obtain ⟨s, hcore⟩ := List.getLast?_eq_some_iff.mp hlast
    obtain ⟨htrim, hqsoft, hline, hlc⟩ := lineText_soft hcore
    have hne := hended hlast
    have hsoft : mimeQpSoft l = true := (mimeQpSoft_iff hl).mpr ⟨hlast, hne⟩
    rw [hlc] at hplain hstrip
    have hcr' : cr ∉ s := fun h => hcr (by rw [hcore]; exact List.mem_append_left _ h)
    have hlf' : lf ∉ s := fun h => hlf (by rw [hcore]; exact List.mem_append_left _ h)
    have hdec : mimeQpDecode l = some (qpText s ++ qpMark (lineEnd l)) := by
      conv_lhs => rw [← hs, hcore, List.append_assoc, List.singleton_append]
      rw [mimeQpDecode_append hplain hcr' hlf', mimeQpDecode_soft (lineEnd_head hl), if_neg hne,
        qpMark, if_neg hne, Option.map_some]
    have hout : qpLineOut l = qpLineText l := by
      rw [qpLineOut, hdec, Option.getD_some, hstrip, if_pos hsoft, hline, List.append_nil]
    exact ⟨by rw [hdec]; exact Option.some_ne_none _, hsoft.trans hqsoft.symm, fun _ => hout,
      Nat.le_of_eq (congrArg List.length hout.symm), fun _ => hout, fun _ => htrim⟩
  · have hlc : lineCodes l = lineCore l := if_neg hlast
    rw [hlc] at hplain hstrip
    obtain ⟨b, -, hcore, hqsoft, hline, htext⟩ := lineText_hard hplain
    have hsoft : mimeQpSoft l = false :=
      Bool.eq_false_iff.mpr fun h => hlast ((mimeQpSoft_iff hl).mp h).1
    have hdec : mimeQpDecode l = some (qpText (lineCore l) ++ qpMark (lineEnd l)) := by
      conv_lhs => rw [← hs]
      rw [mimeQpDecode_append hplain hcr hlf, hend, Option.map_some]
    have hout : qpLineOut l = qpText (qpTrimmed l) ++ b ++ [lf] := by
      rw [qpLineOut, hdec, Option.getD_some, hstrip, hsoft, if_neg Bool.false_ne_true, htext]
    refine ⟨by rw [hdec]; exact Option.some_ne_none _, hsoft.trans hqsoft.symm,
      fun h => absurd (hqsoft.symm.trans h) Bool.false_ne_true, ?_, fun h => ?_, fun h => ?_⟩
    · rw [hout, hline]
      simp only [List.length_append]
      omega
    · rw [h] at hcore
      rw [hout, hline, List.self_eq_append_right.mp hcore, List.append_nil]
    · rw [hout, hline] at h
      simp only [List.length_append] at h
      have hb : b = [] := List.eq_nil_of_length_eq_zero (by omega)
      rw [hb, List.append_nil] at hcore
      exact hcore.symm

/-! ## The whole body -/

/-- A line that is decoded right. -/
def CleanLine (l : Str) : Prop := KeepsLine l ∧ qpTrimmed l = lineCore l

instance (l : Str) : Decidable (CleanLine l) :=
  inferInstanceAs (Decidable (KeepsLine l ∧ qpTrimmed l = lineCore l))

/-- Behind the last line without a soft line break there is nothing but `=`. -/
def QpClosed : List Str → Prop
  | [] => True
  | l :: body => ((∀ k ∈ l :: body, qpSoft k = true) → lineCore l = [61]) ∧ QpClosed body

instance decidableQpClosed : ∀ body : List Str, Decidable (QpClosed body)
  | [] => isTrue trivial
  | l :: body =>
      have := decidableQpClosed body
      inferInstanceAs (Decidable
        (((∀ k ∈ l :: body, qpSoft k = true) → lineCore l = [61]) ∧ QpClosed body))

/-- The lines up to the last one that ends a line. -/
def qpWritten : List Str → Str
  | [] => []
  | l :: body => if (l :: body).all mimeQpSoft then [] else qpLineOut l ++ qpWritten body

/-- The lines behind it. -/
def qpLost : List Str → Str
  | [] => []
  | l :: body => if (l :: body).all mimeQpSoft then qpLineOut l ++ qpLost body else qpLost body

theorem qpWritten_soft {body : List Str} (h : body.all mimeQpSoft = true) :
    qpWritten body = [] := by
  cases body with
  | nil => rfl
  | cons l body => rw [qpWritten, if_pos h]

theorem written_lost : ∀ body : List Str,
    qpWritten body ++ qpLost body = body.flatMap qpLineOut
  | [] => rfl
  | l :: body => by
      have ih := written_lost body
      rw [qpWritten, qpLost, List.flatMap_cons, ← ih]
      by_cases h : (l :: body).all mimeQpSoft = true
      · rw [if_pos h, if_pos h, qpWritten_soft (by simp at h ⊢; exact h.2)]
        rfl
      · rw [if_neg h, if_neg h, List.append_assoc]

/-- What is written. -/
theorem mimeDebodyQpLoop_written : ∀ {body : List Str} {full : Str} {dec dec' : List Str},
    mimeDebodyQpLoop body full dec = some dec' → (∀ l ∈ body, mimeQpDecode l ≠ none) ∧
      dec'.flatten = dec.flatten ++ if body.all mimeQpSoft then [] else full ++ qpWritten body
  | [], full, dec, dec', h => by
      cases h
      simp
  | l :: body, full, dec, dec', h => by
      rw [mimeDebodyQpLoop] at h
      cases hdec : mimeQpDecode l with
      | none =>
          rw [hdec] at h
          cases h
      | some u =>
          rw [hdec] at h
          change (if mimeQpSoft l then mimeDebodyQpLoop body (full ++ stripCrlf (cstr u)) dec
            else mimeDebodyQpLoop body [] (dec ++ [full ++ stripCrlf (cstr u) ++ [lf]])) =
              some dec' at h
          have hpiece : stripCrlf (cstr ((mimeQpDecode l).getD [])) = stripCrlf (cstr u) := by
            rw [hdec, Option.getD_some]
          have hne : mimeQpDecode l ≠ none := by
            rw [hdec]
            exact Option.some_ne_none u
          by_cases hsoft : mimeQpSoft l = true
          · rw [if_pos hsoft] at h
            obtain ⟨hall, hflat⟩ := mimeDebodyQpLoop_written h
            refine ⟨List.forall_mem_cons.mpr ⟨hne, hall⟩, ?_⟩
            rw [hflat, qpWritten, List.all_cons, hsoft, Bool.true_and, qpLineOut, hpiece,
              if_pos hsoft, List.append_nil]
            split
            · rfl
            · rw [List.append_assoc]
          · rw [if_neg hsoft] at h
            obtain ⟨hall, hflat⟩ := mimeDebodyQpLoop_written h
            refine ⟨List.forall_mem_cons.mpr ⟨hne, hall⟩, ?_⟩
            have hnot : ¬ (l :: body).all mimeQpSoft = true := by
              rw [List.all_cons, Bool.and_eq_true]
              exact fun h => hsoft h.1
            rw [hflat, qpWritten, if_neg hnot, if_neg hnot, qpLineOut, hpiece, if_neg hsoft,
              List.flatten_append, List.flatten_singleton, List.nil_append]
            by_cases hrest : body.all mimeQpSoft = true
            · rw [if_pos hrest, qpWritten_soft hrest]
              simp
            · rw [if_neg hrest]
              simp

theorem exists_mimeDebodyQpLoop : ∀ {body : List Str} (full : Str) (dec : List Str),
    (∀ l ∈ body, mimeQpDecode l ≠ none) → ∃ dec', mimeDebodyQpLoop body full dec = some dec'
  | [], _, dec, _ => ⟨dec, rfl⟩
  | l :: body, full, dec, h => by
      obtain ⟨hl, hbody⟩ := List.forall_mem_cons.mp h
      obtain ⟨u, hu⟩ := Option.ne_none_iff_exists'.mp hl
      rw [mimeDebodyQpLoop, hu]
      dsimp only
      split
      · exact exists_mimeDebodyQpLoop _ _ hbody
      · exact exists_mimeDebodyQpLoop _ _ hbody

/-- Weights and lengths line by line. -/
theorem flatMap_measure {m : Str → Nat} (hm : ∀ s t, m (s ++ t) = m s + m t) {f g : Str → Str} :
    ∀ {body : List Str}, (∀ l ∈ body, m (f l) ≤ m (g l)) →
      m (body.flatMap f) ≤ m (body.flatMap g) ∧
        (m (body.flatMap g) ≤ m (body.flatMap f) → ∀ l ∈ body, m (g l) ≤ m (f l))
  | [], _ => ⟨Nat.le_refl _, fun _ l hl => absurd hl List.not_mem_nil⟩
  | l :: body, h => by
      obtain ⟨hl, hbody⟩ := List.forall_mem_cons.mp h
      obtain ⟨hle, hback⟩ := flatMap_measure hm hbody
      rw [List.flatMap_cons, List.flatMap_cons, hm, hm]
      refine ⟨Nat.add_le_add hl hle, fun hge => ?_⟩
      exact List.forall_mem_cons.mpr ⟨by omega, hback (by omega)⟩

theorem getLast_written : ∀ {body : List Str}, ¬ body.all mimeQpSoft = true →
    (qpWritten body).getLast? = some lf
  | [], h => absurd rfl h
  | l :: body, h => by
      rw [qpWritten, if_neg h, List.getLast?_append]
      by_cases hbody : body.all mimeQpSoft = true
      · have hsoft : ¬ mimeQpSoft l = true := fun hl => h (by rw [List.all_cons, hl, hbody]; rfl)
        rw [qpWritten_soft hbody, qpLineOut, if_neg hsoft, List.getLast?_concat]
        rfl
      · rw [getLast_written hbody]
        rfl

section

variable {body : List Str}

theorem all_soft (h : ∀ l ∈ body, LineRight l) :
    body.all mimeQpSoft = true ↔ ∀ l ∈ body, qpSoft l = true := by
  rw [List.all_eq_true]
  exact forall₂_congr fun l hl => by rw [(h l hl).soft]

/-- What is lost is the end of the text. -/
theorem lost_suffix : ∀ {body : List Str}, (∀ l ∈ body, LineRight l) →
    qpLost body <:+ qpBodyText body ∧
      (body.all mimeQpSoft = true → qpLost body = qpBodyText body)
  | [], _ => ⟨List.suffix_refl _, fun _ => rfl⟩
  | l :: body, h => by
      obtain ⟨hl, hbody⟩ := List.forall_mem_cons.mp h
      obtain ⟨hsuffix, heq⟩ := lost_suffix hbody
      rw [qpLost, qpBodyText, List.flatMap_cons, ← qpBodyText]
      by_cases hall : (l :: body).all mimeQpSoft = true
      · have hall' := hall
        rw [List.all_cons, Bool.and_eq_true] at hall'
        rw [if_pos hall, hl.joined (hl.soft ▸ hall'.1), heq hall'.2]
        exact ⟨List.suffix_refl _, fun _ => rfl⟩
      · rw [if_neg hall]
        exact ⟨hsuffix.trans (List.suffix_append _ _), fun h => absurd h hall⟩

/-- A soft line that stands for nothing is a `=`. -/
theorem core_of_soft {l : Str} (hk : KeepsLine l) (htrim : qpTrimmed l = lineCore l)
    (hsoft : qpSoft l = true) : qpLineText l = [] ↔ lineCore l = [61] := by
  rw [qpSoft, htrim, beq_iff_eq] at hsoft
  obtain ⟨s, hcore⟩ := List.getLast?_eq_some_iff.mp hsoft
  obtain ⟨-, -, hline, hlc⟩ := lineText_soft hcore
  have hcodes := hk.codes
  rw [hlc] at hcodes
  rw [hline, hcore]
  constructor
  · intro h
    cases s with
    | nil => rfl
    | cons c s =>
        by_cases hc : c = 61
        · subst hc
          obtain ⟨d, e, vh, vl, s', t', rfl, hd, he, -, -⟩ :=
            qpPlain_code (qpPlain_of_plainCodes hcodes)
          rw [qpText_code hd he] at h
          cases h
        · rw [qpText_cons hc] at h
          cases h
  · intro h
    have hs : s = [] := by simpa using h
    rw [hs]
    rfl

theorem lost_nil_iff : ∀ {body : List Str}, (∀ l ∈ body, CleanLine l) →
    (∀ l ∈ body, LineRight l) → (qpLost body = [] ↔ QpClosed body)
  | [], _, _ => iff_of_true rfl trivial
  | l :: body, hclean, hright => by
      obtain ⟨⟨hk, htrim⟩, hclean'⟩ := List.forall_mem_cons.mp hclean
      obtain ⟨hl, hright'⟩ := List.forall_mem_cons.mp hright
      have ih := lost_nil_iff hclean' hright'
      rw [qpLost, QpClosed, ← ih]
      by_cases hall : (l :: body).all mimeQpSoft = true
      · have hsoft := (all_soft hright).mp hall
        have hs := hsoft l List.mem_cons_self
        rw [if_pos hall, List.append_eq_nil_iff, hl.joined hs, core_of_soft hk htrim hs,
          forall_prop_of_true hsoft]
      · rw [if_neg hall]
        exact (and_iff_right fun h => absurd ((all_soft hright).mpr h) hall).symm

/-- The text of the body is the one RFC 2045 takes it for. -/
def DecodesQp (body : List Str) : Prop :=
  ∃ dec, mimeDebodyQp body = some dec ∧ dec.flatten = qpBodyText body

/-- A body is decoded right if every line is one of codes that are decoded
right, with no blank at its end, and nothing is behind the last line end. -/
theorem decodesQp_iff (h : ∀ l ∈ body, IsBodyLine l) :
    DecodesQp body ↔ (∀ l ∈ body, CleanLine l) ∧ QpClosed body := by
  constructor
  · rintro ⟨dec, hdec, htext⟩
    obtain ⟨hall, hflat⟩ := mimeDebodyQpLoop_written hdec
    have hwritten : qpWritten body = qpBodyText body := by
      rw [← htext, hflat]
      split
      · next hsoft => exact qpWritten_soft hsoft
      · rfl
    have hout := written_lost body
    rw [hwritten] at hout
    have hle : ∀ l ∈ body, qpWeights (qpLineOut l) ≤ qpWeights (qpLineText l) := fun l hl => by
      obtain ⟨u, hu⟩ := Option.ne_none_iff_exists'.mp (hall l hl)
      exact (lineOut_weight (h l hl) hu).1
    -- No line is lighter than what it stands for, so all is kept up to blanks.
    obtain ⟨htotal, hback⟩ := flatMap_measure qpWeights_append hle
    change _ ≤ qpWeights (qpBodyText body) at htotal
    rw [← hout, qpWeights_append] at htotal hback
    have hkeeps : ∀ l ∈ body, KeepsLine l := fun l hl => by
      by_contra hno
      obtain ⟨u, hu⟩ := Option.ne_none_iff_exists'.mp (hall l hl)
      have hlt := (lineOut_weight (h l hl) hu).2 hno
      exact absurd (hback (Nat.le_add_right _ _) l hl) (Nat.not_le.mpr hlt)
    have hright : ∀ l ∈ body, LineRight l := fun l hl => (hkeeps l hl).right (h l hl)
    -- A text that ends in what was lost ends in a blank, and the other in a LF.
    have hlost : qpLost body = [] := by
      by_contra hne
      obtain ⟨hsuffix, hsoft⟩ := lost_suffix hright
      have hlast : (qpLost body).getLast? = some lf := by
        by_cases hs : body.all mimeQpSoft = true
        · rw [hsoft hs, ← hwritten, qpWritten_soft hs] at hne
          exact absurd rfl hne
        · obtain ⟨t, ht⟩ := hsuffix
          have hlf := getLast_written hs
          rw [hwritten, ← ht, List.getLast?_append_of_ne_nil _ hne] at hlf
          exact hlf
      have hlt := weights_dropLast hlast (by decide)
      omega
    rw [hlost, List.append_nil] at hout
    have hlength : ∀ l ∈ body, (qpLineOut l).length ≤ (qpLineText l).length :=
      (flatMap_measure (m := List.length) (fun _ _ => List.length_append)
        fun l hl => (hright l hl).longer).2 (Nat.le_of_eq (congrArg List.length hout.symm))
    have hclean : ∀ l ∈ body, CleanLine l := fun l hl =>
      ⟨hkeeps l hl, (hright l hl).noBlank (Nat.le_antisymm (hlength l hl) (hright l hl).longer)⟩
    exact ⟨hclean, (lost_nil_iff hclean hright).mp hlost⟩
  · rintro ⟨hclean, hclosed⟩
    have hright : ∀ l ∈ body, LineRight l := fun l hl => (hclean l hl).1.right (h l hl)
    obtain ⟨dec, hdec⟩ := exists_mimeDebodyQpLoop [] [] fun l hl => (hright l hl).decoded
    refine ⟨dec, hdec, ?_⟩
    have hout := written_lost body
    rw [(lost_nil_iff hclean hright).mpr hclosed, List.append_nil] at hout
    have heq : body.flatMap qpLineOut = qpBodyText body :=
      List.flatMap_congr fun l hl => (hright l hl).exact (hclean l hl).2
    rw [(mimeDebodyQpLoop_written hdec).2, ← heq, ← hout]
    split
    · next hsoft => exact (qpWritten_soft hsoft).symm
    · rfl

end

/-- A soft line break, an escape, and a space in front of a line break. -/
theorem decodesQp_joined : DecodesQp [lit "caf=C3=A9 au =\n", lit "lait\n"] :=
  (decodesQp_iff (by decide)).mpr (by decide +kernel)

/-- The `_` of a name becomes a space. -/
theorem decodesQp_underscore : ¬ DecodesQp [lit "to_upper\n"] := by
  rintro ⟨dec, hdec, htext⟩
  have hspace : mimeDebodyQp [lit "to_upper\n"] = some [lit "to upper\n"] := by decide +kernel
  cases hspace.symm.trans hdec
  exact absurd htext (by decide +kernel)

end Fidogate

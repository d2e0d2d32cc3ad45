/-
# `Fidogate.Common.MimeQp` — mime.c: a body in quoted-printable text and back

The encoder takes the bytes of a text list one after the other, whatever its
lines are, and breaks the line where the next code may not fit.  The decoder
strips each line it has decoded, and joins those with a soft line break.
-/
import Fidogate.Common.MimeBody
import Fidogate.Common.Msgid
import Fidogate.Lib.Parts

namespace Fidogate

open Bytes Parts

/-- `MIME_STRING_LIMIT` -/
def MIME_STRING_LIMIT : Nat := 76

/-- `tl_char_iterator_next`: at most `len` bytes, and what is left. -/
def tlCharIteratorNext : Nat → List Str → Str × List Str
  | 0, iter => ([], iter)
  | _, [] => ([], [])
  | len + 1, line :: iter =>
      if len + 1 < line.length then (line.take (len + 1), line.drop (len + 1) :: iter)
      else
        let r := tlCharIteratorNext (len + 1 - line.length) iter
        (line ++ r.1, r.2)

/-! ## Quoted-printable -/

/-- `mime_qp_is_plain` -/
def mimeQpIsPlain (c : UInt8) : Bool :=
  37 ≤ c && c < 64 && c != 61 || 65 ≤ c && c ≤ 90 || 97 ≤ c && c ≤ 122

/-- `_mime_qp_encode_octet` -/
def mimeQpEncodeOctet (c : UInt8) : Str := if mimeQpIsPlain c then [c] else 61 :: putHexByte c

/-- `QP_NLET_MAX` -/
def QP_NLET_MAX : Nat := 3

/-- The loop of `mime_qp_encode_tl`, with what is in `buf`. -/
def mimeQpEncodeLoop : Nat → Str → List Str → List Str
  | 0, buf, _ => [buf ++ [lf]]
  | n + 1, buf, iter =>
      match tlCharIteratorNext 1 iter with
      | ([], _) => [buf ++ [lf]]
      | (c :: _, iter) =>
          if buf.length + QP_NLET_MAX > MIME_STRING_LIMIT then
            (buf ++ lit "=\n") :: mimeQpEncodeLoop n (mimeQpEncodeOctet c) iter
          else mimeQpEncodeLoop n (buf ++ mimeQpEncodeOctet c) iter

/-- `mime_qp_encode_tl` -/
def mimeQpEncodeTl (lines : List Str) : List Str :=
  mimeQpEncodeLoop (lines.flatten.length + 1) [] lines

/-- The codes of some bytes. -/
def qpCodes (s : Str) : Str := s.flatMap mimeQpEncodeOctet

/-- There is a soft line break behind these bytes, if another one follows. -/
def qpFull (part : Str) : Bool := decide ((qpCodes part).length + QP_NLET_MAX > MIME_STRING_LIMIT)

/-- The bytes in front of each soft line break, and those behind the last one. -/
def qpParts (s : Str) : List Str × Str := parts qpFull [] s

/-- The texts are the same, up to one line end at the end. -/
def SameText (s t : Str) : Prop := s = t ∨ s = t ++ [lf] ∨ s ++ [lf] = t

instance (s t : Str) : Decidable (SameText s t) :=
  inferInstanceAs (Decidable (s = t ∨ s = t ++ [lf] ∨ s ++ [lf] = t))

/-- A soft line break that neither takes a CR with it nor makes the line too
long. -/
def GoodBreak (part : Str) : Prop :=
  part.getLast? ≠ some cr ∧ (qpCodes part).length + 1 ≤ MIME_STRING_LIMIT

instance (part : Str) : Decidable (GoodBreak part) :=
  inferInstanceAs (Decidable
    (part.getLast? ≠ some cr ∧ (qpCodes part).length + 1 ≤ MIME_STRING_LIMIT))

/-- The lines of a body that can be in a text list. -/
def IsBody (lines : List Str) : Prop := ∀ l ∈ lines, l.getLast? = some lf ∧ nul ∉ l

instance (lines : List Str) : Decidable (IsBody lines) :=
  inferInstanceAs (Decidable (∀ l ∈ lines, l.getLast? = some lf ∧ nul ∉ l))

/-! ## The bytes of a text list -/

theorem tlCharIteratorNext_flatten : ∀ (len : Nat) (lines : List Str),
    (tlCharIteratorNext len lines).1 = lines.flatten.take len ∧
      (tlCharIteratorNext len lines).2.flatten = lines.flatten.drop len
  | 0, lines => by cases lines <;> exact ⟨rfl, rfl⟩
  | len + 1, [] => ⟨rfl, rfl⟩
  | len + 1, line :: iter => by
      rw [tlCharIteratorNext, List.flatten_cons]
      split
      · next h =>
          rw [List.take_append_of_le_length (Nat.le_of_lt h),
            List.drop_append_of_le_length (Nat.le_of_lt h)]
          exact ⟨rfl, rfl⟩
      · next h =>
          obtain ⟨htake, hdrop⟩ := tlCharIteratorNext_flatten (len + 1 - line.length) iter
          rw [List.take_append, List.take_of_length_le (Nat.le_of_not_lt h), List.drop_append,
            List.drop_of_length_le (Nat.le_of_not_lt h), List.nil_append]
          exact ⟨congrArg (line ++ ·) htake, hdrop⟩

theorem IsBody.flatten {lines : List Str} (h : IsBody lines) :
    nul ∉ lines.flatten ∧ ∀ c ∈ lines.flatten.getLast?, c = lf := by
  constructor
  · intro hmem
    obtain ⟨l, hl, hnul⟩ := List.mem_flatten.mp hmem
    exact (h l hl).2 hnul
  · obtain rfl | ⟨lines, l, rfl⟩ := List.eq_nil_or_concat lines
    · exact fun c hc => (nomatch hc)
    · have hmem : l ∈ lines.concat l := by
        rw [List.concat_eq_append]
        exact List.mem_append_right lines (List.mem_singleton_self l)
      have hl := (h l hmem).1
      rw [List.concat_eq_append, List.flatten_append, List.flatten_singleton,
        List.getLast?_append, hl, Option.some_or]
      exact fun c hc => (Option.some.inj hc).symm

/-! ## Encoding to quoted-printable -/

/-- The lines for the parts. -/
def qpLines (parts : List Str × Str) : List Str :=
  (parts.1.map fun part => qpCodes part ++ lit "=\n") ++ [qpCodes parts.2 ++ [lf]]

theorem qpCodes_concat (s : Str) (c : UInt8) :
    qpCodes (s ++ [c]) = qpCodes s ++ mimeQpEncodeOctet c := by
  rw [qpCodes, List.flatMap_append, List.flatMap_singleton, ← qpCodes]

theorem mimeQpEncodeLoop_eq : ∀ (n : Nat) (part : Str) (iter : List Str),
    iter.flatten.length < n →
    mimeQpEncodeLoop n (qpCodes part) iter = qpLines (parts qpFull part iter.flatten)
  | 0, _, _, h => absurd h (Nat.not_lt_zero _)
  | n + 1, part, iter, h => by
      obtain ⟨htake, hdrop⟩ := tlCharIteratorNext_flatten 1 iter
      rw [mimeQpEncodeLoop]
      generalize tlCharIteratorNext 1 iter = r at htake hdrop ⊢
      obtain ⟨s, iter'⟩ := r
      dsimp only at htake hdrop
      cases hs : iter.flatten with
      | nil =>
          rw [hs, List.take_nil] at htake
          rw [htake]
          rfl
      | cons c s' =>
          rw [hs, List.take_succ_cons, List.take_zero] at htake
          rw [hs, List.drop_succ_cons, List.drop_zero] at hdrop
          rw [hs, List.length_cons, ← hdrop] at h
          have ih := fun part => mimeQpEncodeLoop_eq n part iter' (Nat.lt_of_succ_lt_succ h)
          have hone : qpCodes [c] = mimeQpEncodeOctet c := List.append_nil _
          rw [htake]
          dsimp only
          split
          · next hfull =>
              rw [parts_full (decide_eq_true hfull), ← hone, ih, hdrop]
              rfl
          · next hfull => rw [parts_cons (decide_eq_false hfull), ← qpCodes_concat, ih, hdrop]

/-- The encoded body, part by part. -/
theorem mimeQpEncodeTl_eq (lines : List Str) :
    mimeQpEncodeTl lines = qpLines (qpParts lines.flatten) :=
  mimeQpEncodeLoop_eq _ [] lines (Nat.lt_succ_self _)

theorem length_mimeQpEncodeOctet (c : UInt8) : (mimeQpEncodeOctet c).length ≤ QP_NLET_MAX := by
  rw [mimeQpEncodeOctet]
  split
  · exact Nat.le_add_left 1 2
  · exact Nat.le_refl 3

theorem length_qpParts (s : Str) : (qpCodes (qpParts s).2).length ≤ MIME_STRING_LIMIT := by
  refine parts_induct (P := fun part => (qpCodes part).length ≤ MIME_STRING_LIMIT)
    (fun c => ?_) (fun part c _ hfull => ?_) [] s (Nat.zero_le _)
  · have hone : qpCodes [c] = mimeQpEncodeOctet c := List.append_nil _
    rw [hone]
    exact (length_mimeQpEncodeOctet c).trans (by decide)
  · have hc := length_mimeQpEncodeOctet c
    have hroom := of_decide_eq_false hfull
    rw [qpCodes_concat, List.length_append]
    omega

/-! ## Decoding it -/

theorem mimeQptoint_digit {d : Nat} (h : d < 16) :
    mimeQptoint (toUpper d.digitChar.toUInt8) = some (UInt8.ofNat d) := by
  have key : ∀ d : Fin 16, mimeQptoint (toUpper d.val.digitChar.toUInt8) =
      some (UInt8.ofNat d.val) := by decide +kernel
  exact key ⟨d, h⟩

/-- A byte is decoded from its code. -/
theorem mimeQpDecode_octet (c : UInt8) (s : Str) :
    mimeQpDecode (mimeQpEncodeOctet c ++ s) = (mimeQpDecode s).map (c :: ·) := by
  rw [mimeQpEncodeOctet]
  split
  · next h =>
      have key : ∀ c : UInt8, mimeQpIsPlain c = true →
          (c = lf || c = cr) = false ∧ c ≠ 95 ∧ c ≠ 61 ∧ c &&& 0x7F = c :=
        forall_byte (by decide +kernel)
      obtain ⟨hend, h95, h61, hmask⟩ := key c h
      rw [List.singleton_append, mimeQpDecode.eq_def]
      dsimp only
      rw [if_neg (by rw [hend]; exact Bool.false_ne_true),
        if_neg h95, if_pos h61, hmask]
  · have hlt := c.toNat_lt
    have key : ∀ d : Fin 16, toUpper d.val.digitChar.toUInt8 ≠ lf ∧
        toUpper d.val.digitChar.toUInt8 ≠ cr := by decide +kernel
    obtain ⟨hlf, hcr⟩ := key ⟨c.toNat / 16, by omega⟩
    have hval : UInt8.ofNat (c.toNat / 16) * 16 + UInt8.ofNat (c.toNat % 16) = c := by
      have key : ∀ c : UInt8, UInt8.ofNat (c.toNat / 16) * 16 + UInt8.ofNat (c.toNat % 16) = c :=
        forall_byte (by decide +kernel)
      exact key c
    change mimeQpDecode (61 :: toUpper (c.toNat / 16).digitChar.toUInt8 ::
      toUpper (c.toNat % 16).digitChar.toUInt8 :: s) = _
    rw [mimeQpDecode, if_neg (by decide), if_neg (by decide), if_neg (by decide)]
    rw [if_neg (by simp [hlf, hcr]), mimeQptoint_digit (by omega), mimeQptoint_digit (by omega)]
    dsimp only
    rw [hval]

theorem mimeQpDecode_codes : ∀ (s t : Str),
    mimeQpDecode (qpCodes s ++ t) = (mimeQpDecode t).map (s ++ ·)
  | [], t => by
      rw [qpCodes, List.flatMap_nil, List.nil_append]
      cases mimeQpDecode t <;> rfl
  | c :: s, t => by
      rw [qpCodes, List.flatMap_cons, List.append_assoc, mimeQpDecode_octet, ← qpCodes,
        mimeQpDecode_codes s t, Option.map_map]
      rfl

/-- What `strip_crlf` leaves of a part that was decoded. -/
def qpStripped (part : Str) : Str := if part.getLast? = some cr then part.dropLast else part

theorem stripped_decoded {part : Str} (h : nul ∉ part) :
    stripCrlf (cstr (part ++ [lf])) = qpStripped part := by
  have hkeep : ∀ c ∈ part ++ [lf], (c != nul) = true := by
    intro c hc
    obtain hc | hc := List.mem_append.mp hc
    · exact bne_iff_ne.mpr fun heq => h (heq ▸ hc)
    · rw [List.mem_singleton.mp hc]
      decide
  have hcstr : cstr (part ++ [lf]) = part ++ [lf] := List.takeWhile_eq_self_iff.mpr hkeep
  rw [hcstr, stripCrlf_lf, qpStripped]

/-- The codes do not end as a soft line break. -/
theorem not_soft (s : Str) :
    ((lit "=\n").isSuffixOf (qpCodes s ++ [lf]) ||
      (lit "=\x0d\n").isSuffixOf (qpCodes s ++ [lf])) = false := by
  have hlast : (qpCodes s).getLast? ≠ some 61 ∧ (qpCodes s).getLast? ≠ some cr := by
    obtain rfl | ⟨s, d, rfl⟩ := List.eq_nil_or_concat s
    · exact ⟨fun h => (nomatch h), fun h => (nomatch h)⟩
    · have key : ∀ d : UInt8, (mimeQpEncodeOctet d).getLast? ≠ some 61 ∧
          (mimeQpEncodeOctet d).getLast? ≠ some cr := forall_byte (by decide +kernel)
      have hne : (mimeQpEncodeOctet d).getLast? ≠ none := by
        rw [Ne, List.getLast?_eq_none_iff, mimeQpEncodeOctet]
        split <;> exact List.cons_ne_nil _ _
      obtain ⟨e, he⟩ := Option.ne_none_iff_exists'.mp hne
      have hd := key d
      rw [he] at hd
      rwa [List.concat_eq_append, qpCodes_concat, List.getLast?_append, he, Option.some_or]
  have hsuffix : ∀ {p : Str} {c : UInt8}, (c = 61 ∨ c = cr) →
      (p ++ [c] ++ [lf]).isSuffixOf (qpCodes s ++ [lf]) = false := by
    intro p c hc
    rw [Bool.eq_false_iff]
    intro h
    obtain ⟨t, ht⟩ := List.isSuffixOf_iff_suffix.mp h
    rw [← List.append_assoc] at ht
    obtain ⟨ht, -⟩ := List.append_inj' ht rfl
    have hend : (qpCodes s).getLast? = some c := by
      rw [← ht, ← List.append_assoc, List.getLast?_concat]
    obtain rfl | rfl := hc
    · exact hlast.1 hend
    · exact hlast.2 hend
  have h1 := hsuffix (p := []) (.inl rfl)
  have h2 := hsuffix (p := [61]) (.inr rfl)
  exact Bool.or_eq_false_iff.mpr ⟨h1, h2⟩

theorem mimeDebodyQpLoop_lines : ∀ {ws : List Str} {v : Str} (full : Str),
    (∀ w ∈ ws, nul ∉ w) → nul ∉ v →
    mimeDebodyQpLoop (qpLines (ws, v)) full [] =
      some [full ++ (ws.map qpStripped).flatten ++ qpStripped v ++ [lf]]
  | [], v, full, _, hv => by
      have hdecode : mimeQpDecode (qpCodes v ++ [lf]) = some (v ++ [lf]) :=
        mimeQpDecode_codes v [lf]
      change mimeDebodyQpLoop [qpCodes v ++ [lf]] full [] = _
      rw [mimeDebodyQpLoop, hdecode]
      dsimp only
      rw [if_neg (by rw [not_soft]; exact Bool.false_ne_true), stripped_decoded hv]
      rw [List.map_nil, List.flatten_nil, List.append_nil]
      rfl
  | w :: ws, v, full, hws, hv => by
      have hdecode : mimeQpDecode (qpCodes w ++ lit "=\n") = some (w ++ [lf]) :=
        mimeQpDecode_codes w (lit "=\n")
      have hsoft : (lit "=\n").isSuffixOf (qpCodes w ++ lit "=\n") = true :=
        List.isSuffixOf_iff_suffix.mpr (List.suffix_append _ _)
      change mimeDebodyQpLoop ((qpCodes w ++ lit "=\n") :: qpLines (ws, v)) full [] = _
      rw [mimeDebodyQpLoop, hdecode]
      dsimp only
      rw [hsoft, Bool.true_or, if_pos rfl, stripped_decoded (hws w List.mem_cons_self),
        mimeDebodyQpLoop_lines _ (fun x hx => hws x (List.mem_cons_of_mem w hx)) hv,
        List.map_cons, List.flatten_cons, List.append_assoc full]

/-! ## The round trip -/

theorem SameText.count {s t : Str} (h : SameText s t) {c : UInt8} (hc : c ≠ lf) :
    s.count c = t.count c := by
  have hend : [lf].count c = 0 := by
    rw [List.count_singleton, if_neg (by simpa using hc.symm)]
  obtain rfl | rfl | rfl := h
  · rfl
  · rw [List.count_append, hend, Nat.add_zero]
  · rw [List.count_append, hend, Nat.add_zero]

theorem count_qpStripped (w : Str) :
    (qpStripped w).count cr + (if w.getLast? = some cr then 1 else 0) = w.count cr := by
  rw [qpStripped]
  split
  · next h =>
      obtain ⟨u, rfl⟩ := List.getLast?_eq_some_iff.mp h
      rw [List.dropLast_concat, List.count_append, List.count_singleton_self]
  · rfl

theorem count_strippedParts : ∀ ws : List Str,
    (ws.map qpStripped).flatten.count cr + ws.countP (fun w => w.getLast? = some cr) =
      ws.flatten.count cr
  | [] => rfl
  | w :: ws => by
      have hw := count_qpStripped w
      have ih := count_strippedParts ws
      rw [List.map_cons, List.flatten_cons, List.flatten_cons, List.count_append,
        List.count_append, List.countP_cons]
      simp only [decide_eq_true_eq]
      omega

theorem strippedParts {ws : List Str} (h : ∀ w ∈ ws, w.getLast? ≠ some cr) :
    (ws.map qpStripped).flatten = ws.flatten := by
  have hmap : ws.map qpStripped = ws.map id := List.map_congr_left fun w hw => if_neg (h w hw)
  rw [hmap, List.map_id]

/-- The decoded text is the body, up to a line end at its end, if and only if
no part in front of a soft line break ends in CR. -/
theorem mimeDebodyQp_text_iff {lines : List Str} (hbody : IsBody lines) :
    (∃ dec, mimeDebodyQp (mimeQpEncodeTl lines) = some dec ∧
        SameText dec.flatten lines.flatten) ↔
      ∀ w ∈ (qpParts lines.flatten).1, w.getLast? ≠ some cr := by
  obtain ⟨hnul, hend⟩ := hbody.flatten
  have hflat := @flatten_parts _ qpFull [] lines.flatten
  have hlast := @getLast?_parts _ qpFull [] lines.flatten
  rw [mimeQpEncodeTl_eq, mimeDebodyQp]
  change (qpParts lines.flatten).1.flatten ++ (qpParts lines.flatten).2 = _ at hflat
  change (qpParts lines.flatten).2.getLast? = _ at hlast
  generalize qpParts lines.flatten = ps at hflat hlast ⊢
  obtain ⟨ws, v⟩ := ps
  rw [List.nil_append] at hflat hlast
  dsimp only at hflat hlast ⊢
  have hws : ∀ w ∈ ws, nul ∉ w := fun w hw h =>
    hnul (hflat ▸ List.mem_append_left v (List.mem_flatten_of_mem hw h))
  have hv : nul ∉ v := fun h => hnul (hflat ▸ List.mem_append_right _ h)
  have hvcr : v.getLast? ≠ some cr := by
    rw [hlast]
    exact fun h => absurd (hend cr h) (by decide)
  have hstripped : qpStripped v = v := if_neg hvcr
  rw [mimeDebodyQpLoop_lines [] hws hv, hstripped, List.nil_append]
  constructor
  · rintro ⟨dec, hdec, hsame⟩ w hw hcr
    have hcount := hsame.count (c := cr) (by decide)
    have hparts := count_strippedParts ws
    have hpos : 0 < ws.countP (fun w => w.getLast? = some cr) :=
      List.countP_pos_iff.mpr ⟨w, hw, decide_eq_true hcr⟩
    rw [← Option.some.inj hdec, List.flatten_singleton, ← hflat, List.count_append,
      List.count_append, List.count_append] at hcount
    have hlf : [lf].count cr = 0 := by decide
    omega
  · intro h
    refine ⟨_, rfl, .inr (.inl ?_)⟩
    rw [strippedParts h, List.flatten_singleton, hflat]

/-- No line is too long if and only if the line break fits behind each part. -/
theorem length_mimeQpEncodeTl_iff (lines : List Str) :
    (∀ l ∈ mimeQpEncodeTl lines, (stripCrlf l).length ≤ MIME_STRING_LIMIT) ↔
      ∀ w ∈ (qpParts lines.flatten).1, (qpCodes w).length + 1 ≤ MIME_STRING_LIMIT := by
  have hlast := length_qpParts lines.flatten
  have hsoft : ∀ w : Str, (stripCrlf (qpCodes w ++ lit "=\n")).length = (qpCodes w).length + 1 := by
    intro w
    have happ : qpCodes w ++ lit "=\n" = (qpCodes w ++ [61]) ++ [lf] := by
      rw [List.append_assoc]
      rfl
    rw [happ, stripCrlf_lf, List.getLast?_concat, if_neg (by decide), List.length_append,
      List.length_singleton]
  rw [mimeQpEncodeTl_eq, qpLines]
  constructor
  · intro h w hw
    have hl := h _ (List.mem_append_left _ (List.mem_map_of_mem hw))
    rwa [hsoft] at hl
  · intro h l hl
    obtain hl | hl := List.mem_append.mp hl
    · obtain ⟨w, hw, rfl⟩ := List.mem_map.mp hl
      rw [hsoft]
      exact h w hw
    · rw [List.mem_singleton.mp hl]
      exact (length_stripCrlf_lf _).trans hlast

/-- A body comes back from quoted-printable text, up to a line end at its end,
and no line of that is longer than 76 columns, if and only if each soft line
break comes behind no CR and leaves the line in its bounds. -/
theorem mimeQp_roundTrip_iff (lines : List Str) (hbody : IsBody lines) :
    ((∃ dec, mimeDebodyQp (mimeQpEncodeTl lines) = some dec ∧
        SameText dec.flatten lines.flatten) ∧
      ∀ l ∈ mimeQpEncodeTl lines, (stripCrlf l).length ≤ MIME_STRING_LIMIT) ↔
    ∀ part ∈ (qpParts lines.flatten).1, GoodBreak part := by
  rw [mimeDebodyQp_text_iff hbody, length_mimeQpEncodeTl_iff]
  exact forall₂_and.symm

/-- A line that is broken twice, with 8-bit characters and a trailing blank. -/
def qpBody : List Str :=
  [lit "From: =_" ++ List.replicate 80 97 ++ [0xE4, 0xF6, sp, cr, lf], [lf]]

example : (mimeQpEncodeTl qpBody).length = 2 := by
  decide +kernel

theorem mimeQp_roundTrip_two :
    ((∃ dec, mimeDebodyQp (mimeQpEncodeTl qpBody) = some dec ∧
        SameText dec.flatten qpBody.flatten) ∧
      ∀ l ∈ mimeQpEncodeTl qpBody, (stripCrlf l).length ≤ MIME_STRING_LIMIT) :=
  (mimeQp_roundTrip_iff qpBody (by decide +kernel)).mpr (by decide +kernel)

/-- A line with a CR whose code ends in column 76. -/
def qpBroken : List Str := [List.replicate 73 97 ++ [cr, lf]]

/-- The CR is lost, and the sign of the line break stands in column 77. -/
theorem mimeQp_broken : IsBody qpBroken ∧
    (¬ ∃ dec, mimeDebodyQp (mimeQpEncodeTl qpBroken) = some dec ∧
      SameText dec.flatten qpBroken.flatten) ∧
    ¬ ∀ l ∈ mimeQpEncodeTl qpBroken, (stripCrlf l).length ≤ MIME_STRING_LIMIT := by
  refine ⟨by decide +kernel, ?_, by decide +kernel⟩
  rintro ⟨dec, hdec, hsame⟩
  have hlost : mimeDebodyQp (mimeQpEncodeTl qpBroken) =
      some [List.replicate 73 97 ++ [lf, lf]] := by decide +kernel
  rw [hlost] at hdec
  obtain rfl := Option.some.inj hdec
  revert hsame
  decide +kernel

end Fidogate

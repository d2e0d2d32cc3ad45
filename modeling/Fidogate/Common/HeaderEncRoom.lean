/-
# `Fidogate.Common.HeaderEncRoom` — the room in the buffer of the header encoder

The buffer grows by a line and its end where a line is broken, and nowhere
else but at the end.  What is free behind `pos` is counted against what is left
of the line; a tail of a sequence is put out without a look at either.
-/
import Fidogate.Common.HeaderEnc
import Fidogate.Lib.Utf8

namespace Fidogate

open Bytes Utf8

/-- The write is inside what is allocated. -/
def EncWrite.Inside (w : EncWrite) : Prop := w.pos + w.len ≤ w.size

/-- The tail fits the buffer, with the end of the word, the LF and the zero byte
behind it. -/
def EncTail.Fits (t : EncTail) : Prop := t.pos + t.codes + 4 ≤ t.size

/-- All writes so far were inside. -/
def MimeWordEncState.Safe (s : MimeWordEncState) : Prop := ∀ w ∈ s.writes, w.Inside

/-- What is free is enough for the line, the end of a word and the end of the
line; and all writes were inside. -/
structure MimeWordEncState.Roomy (s : MimeWordEncState) : Prop where
  line : s.pos + 78 ≤ s.size + s.vpos
  word : s.isMime = true → s.pos + 4 ≤ s.size
  plain : s.pos + 2 ≤ s.size
  safe : s.Safe

section

variable {cs : Str} {enc : MimeEncType} {t : Str} {s : MimeWordEncState}

/-! ## Single writes -/

@[simp] theorem pos_encStore : (encStore t s).pos = s.pos + t.length := List.length_append
@[simp] theorem size_encStore : (encStore t s).size = s.size := rfl
@[simp] theorem pos_encTerminate : (encTerminate s).pos = s.pos := rfl
@[simp] theorem size_encTerminate : (encTerminate s).size = s.size := rfl
@[simp] theorem pos_mimeStrcat : (mimeStrcat t s).pos = s.pos + t.length := List.length_append
@[simp] theorem size_mimeStrcat : (mimeStrcat t s).size = s.size := rfl

theorem MimeWordEncState.Safe.concat {s' : MimeWordEncState} (h : s.Safe) (w : EncWrite)
    (hw : w.Inside) (hs' : s'.writes = s.writes ++ [w]) : s'.Safe := by
  intro v hv
  rw [hs'] at hv
  rcases List.mem_append.mp hv with hv | hv
  · exact h v hv
  · rw [List.mem_singleton.mp hv]
    exact hw

theorem MimeWordEncState.Safe.store (h : s.Safe) (ht : s.pos + t.length ≤ s.size) :
    (encStore t s).Safe := h.concat ⟨s.pos, t.length, s.size⟩ ht rfl

theorem MimeWordEncState.Safe.terminate (h : s.Safe) (hs : s.pos + 1 ≤ s.size) :
    (encTerminate s).Safe := h.concat ⟨s.pos, 1, s.size⟩ hs rfl

theorem MimeWordEncState.Safe.strcat (h : s.Safe) (ht : s.pos + t.length + 1 ≤ s.size) :
    (mimeStrcat t s).Safe :=
  (h.store (by omega)).terminate (by simpa using ht)

namespace MimeWordEncState.Roomy

/-- Bytes of an encoded word. -/
theorem store (h : s.Roomy) (hm : s.isMime = true) (ht : s.pos + t.length + 4 ≤ s.size) :
    (encStore t s).Roomy ∧ (encStore t s).isMime = true := by
  have hl := h.line
  refine ⟨⟨?_, fun _ => ?_, ?_, h.safe.store (by omega)⟩, hm⟩
  · simp only [pos_encStore, size_encStore, vpos_encStore]
    omega
  · simpa using ht
  · simp only [pos_encStore, size_encStore]
    omega

theorem terminate (h : s.Roomy) : (encTerminate s).Roomy :=
  ⟨h.line, h.word, h.plain, h.safe.terminate (Nat.le_of_succ_le h.plain)⟩

theorem remind (h : s.Roomy) {len : Nat} (hlen : s.rem.length + len ≤ B64_ENC_CHUNK) :
    (encRemind t len s).Roomy :=
  ⟨h.line, h.word, h.plain, h.safe.concat ⟨s.rem.length, len, B64_ENC_CHUNK⟩ hlen rfl⟩

/-- A word is begun. -/
theorem begun (hl : s.pos + 78 ≤ s.size + s.vpos) (hw : s.pos + 4 ≤ s.size) (h : s.Safe) :
    ({ s with isMime := true } : MimeWordEncState).Roomy :=
  ⟨hl, fun _ => hw, Nat.le_trans (Nat.add_le_add_left (by decide) _) hw, h⟩

/-- The line that is begun has all its room. -/
theorem lineBreak (h : s.Roomy) : (mimeLineBreak s).Roomy := by
  have hp := h.plain
  have hgrow : (mimeIncSize (encSize - 1) s).Safe := h.safe
  have hinc : (mimeIncSize (encSize - 1) s).pos = s.pos ∧
      (mimeIncSize (encSize - 1) s).size = s.size + 77 := ⟨rfl, rfl⟩
  have hcode : MIME_HEADER_CODE_END.length = 2 := rfl
  have hdelim : MIME_HEADER_STR_DELIM.length = 1 := rfl
  -- the end of the word
  have hend : (mimeWordEnd (mimeIncSize (encSize - 1) s)).Safe ∧
      (mimeWordEnd (mimeIncSize (encSize - 1) s)).pos + 1 + 78 ≤ s.size + 77 ∧
      (mimeWordEnd (mimeIncSize (encSize - 1) s)).size = s.size + 77 := by
    rw [mimeWordEnd]
    split
    · next hm =>
        have hw := h.word hm
        refine ⟨hgrow.strcat ?_, ?_, rfl⟩
        · rw [hinc.1, hinc.2, hcode]
          omega
        · show (mimeStrcat MIME_HEADER_CODE_END (mimeIncSize (encSize - 1) s)).pos + 1 + 78 ≤ _
          rw [pos_mimeStrcat, hinc.1, hcode]
          omega
    · refine ⟨hgrow, ?_, hinc.2⟩
      rw [hinc.1]
      omega
  obtain ⟨hsafe, hpos, hsize⟩ := hend
  have hpos' : (mimeLineBreak s).pos =
      (mimeWordEnd (mimeIncSize (encSize - 1) s)).pos + 1 := List.length_append
  have hsize' : (mimeLineBreak s).size = s.size + 77 := hsize
  refine ⟨?_, fun hm => absurd hm Bool.false_ne_true, ?_, hsafe.strcat ?_⟩
  · rw [hpos', hsize', vpos_mimeLineBreak]
    exact hpos
  · rw [hpos', hsize']
    omega
  · rw [hsize, hdelim]
    omega

end MimeWordEncState.Roomy

/-- The start of a word is put on a line that has room for a chunk, too. -/
theorem mimeWordStart_line (cs : Str) (enc : MimeEncType) (s : MimeWordEncState)
    (hcs : cs.length ≤ MIME_MAX_ENC_LEN) :
    ∃ s1 : MimeWordEncState, (s1 = s ∨ s1 = mimeLineBreak s) ∧ s1.vpos + 12 + cs.length ≤ 76 ∧
      mimeWordStart cs enc s = { mimeStrcat enc.encoding (mimeStrcat cs
        (mimeStrcat MIME_HEADER_CODE_START (mimeStrcat [sp] s1))) with isMime := true } := by
  have hmax : MIME_MAX_ENC_LEN = 31 := rfl
  have hstr : MIME_STRING_LIMIT = 76 := rfl
  have hstart : MIME_HEADER_CODE_START.length = 2 := rfl
  have hend : MIME_HEADER_CODE_END.length = 2 := rfl
  have hchunk : B64_NLET_PER_CHUNK = 4 := rfl
  rw [mimeWordStart]
  split
  · refine ⟨_, .inr rfl, ?_, rfl⟩
    rw [vpos_mimeLineBreak]
    omega
  · next hb =>
      refine ⟨s, .inl rfl, ?_, rfl⟩
      simp only [wordStartBreaks, length_encoding, decide_eq_true_eq, hstr, hstart] at hb
      omega

theorem vpos_mimeWordStart_le (s : MimeWordEncState) (hcs : cs.length ≤ MIME_MAX_ENC_LEN) :
    (mimeWordStart cs enc s).vpos ≤ B64_LIMIT := by
  obtain ⟨s1, -, hv, heq⟩ := mimeWordStart_line cs enc s hcs
  have hlimit : B64_LIMIT = 70 := rfl
  have hstart : MIME_HEADER_CODE_START.length = 2 := rfl
  rw [heq]
  simp only [vpos_mimeStrcat, length_encoding, hstart, List.length_singleton]
  omega

theorem mimeWordStart_roomy (hcs : cs.length ≤ MIME_MAX_ENC_LEN) (h : s.Roomy) :
    (mimeWordStart cs enc s).Roomy := by
  obtain ⟨s1, hs1, hv, heq⟩ := mimeWordStart_line cs enc s hcs
  have h1 : s1.Roomy := by
    rcases hs1 with rfl | rfl
    · exact h
    · exact h.lineBreak
  have hl := h1.line
  have hstart : MIME_HEADER_CODE_START.length = 2 := rfl
  rw [heq]
  refine .begun ?_ ?_ ?_
  · simp only [pos_mimeStrcat, size_mimeStrcat, vpos_mimeStrcat]
    omega
  · simp only [pos_mimeStrcat, size_mimeStrcat, length_encoding, hstart, List.length_singleton]
    omega
  · refine (((h1.safe.strcat ?_).strcat ?_).strcat ?_).strcat ?_ <;>
      simp only [pos_mimeStrcat, size_mimeStrcat, length_encoding, hstart,
        List.length_singleton] <;> omega


/-! ## The end of a word, and plain words -/

theorem length_mimeB64EncodeChunk_le (t : Str) : (mimeB64EncodeChunk t).length ≤ 4 := by
  unfold mimeB64EncodeChunk
  split <;> simp

theorem vpos_mimeFlushReminder_le (s : MimeWordEncState) :
    (mimeFlushReminder s).vpos ≤ s.vpos + B64_NLET_PER_CHUNK := by
  rw [mimeFlushReminder]
  split
  · exact Nat.le_add_right _ _
  · exact Nat.add_le_add_left (length_mimeB64EncodeChunk_le _) _

theorem mimeFlushReminder_roomy (h : s.Roomy) (hm : s.isMime = true)
    (hv : s.rem ≠ [] → s.vpos ≤ B64_LIMIT) : (mimeFlushReminder s).Roomy := by
  rw [mimeFlushReminder]
  split
  · exact h
  · next hrem =>
      have hl := h.line
      have hlen := length_mimeB64EncodeChunk_le s.rem
      have hlimit : B64_LIMIT = 70 := rfl
      have hv := hv hrem
      have hs := (h.store (t := mimeB64EncodeChunk s.rem) hm (by omega)).1
      exact ⟨hs.line, hs.word, hs.plain, hs.safe⟩

theorem mimeWordEnd_roomy (h : s.Roomy) : (mimeWordEnd s).Roomy := by
  rw [mimeWordEnd]
  split
  · next hm =>
      have hl := h.line
      have hw := h.word hm
      have hcode : MIME_HEADER_CODE_END.length = 2 := rfl
      refine ⟨?_, fun hf => absurd hf Bool.false_ne_true, ?_, h.safe.strcat ?_⟩
      · show (mimeStrcat _ s).pos + 78 ≤ s.size + (mimeStrcat _ s).vpos
        rw [pos_mimeStrcat, vpos_mimeStrcat]
        omega
      · show (mimeStrcat _ s).pos + 2 ≤ s.size
        rw [pos_mimeStrcat, hcode]
        omega
      · rw [hcode]
        omega
  · exact h

/-- An encoded word is ended on its line, or on one of its own. -/
theorem wordEnd_roomy (hcs : cs.length ≤ MIME_MAX_ENC_LEN) (h : s.Roomy) (hm : s.isMime = true)
    {b : Prop} [Decidable b] (hb : ¬ b → s.rem ≠ [] → s.vpos ≤ B64_LIMIT) :
    (mimeWordEnd (mimeFlushReminder
      (if b then mimeWordStart cs enc (mimeLineBreak s) else s))).Roomy := by
  refine mimeWordEnd_roomy ?_
  split
  · exact mimeFlushReminder_roomy (mimeWordStart_roomy hcs h.lineBreak) rfl fun _ =>
      vpos_mimeWordStart_le _ hcs
  · next hnb => exact mimeFlushReminder_roomy h hm (hb hnb)

theorem mimeSwitchToPlain_roomy (hcs : cs.length ≤ MIME_MAX_ENC_LEN) (h : s.Roomy) :
    (mimeSwitchToPlain cs enc s).Roomy := by
  rw [mimeSwitchToPlain]
  split
  · exact h
  · next hm =>
      refine wordEnd_roomy hcs h (by simpa using hm) fun hfit hrem => ?_
      have hcode : MIME_HEADER_CODE_END.length = 2 := rfl
      have hstr : MIME_STRING_LIMIT = 76 := rfl
      have hchunk : B64_NLET_PER_CHUNK = 4 := rfl
      have hlimit : B64_LIMIT = 70 := rfl
      rw [if_pos hrem] at hfit
      omega

namespace MimeWordEncState.Roomy

/-- Bytes of a plain word. -/
theorem storePlain (h : s.Roomy) (hm : s.isMime = false)
    (hv : s.vpos + t.length ≤ MIME_STRING_LIMIT) : (encStore t s).Roomy := by
  have hl := h.line
  have hstr : MIME_STRING_LIMIT = 76 := rfl
  refine ⟨?_, fun hf => absurd (hm.symm.trans hf) Bool.false_ne_true, ?_, h.safe.store (by omega)⟩
  · simp only [pos_encStore, size_encStore, vpos_encStore]
    omega
  · simp only [pos_encStore, size_encStore]
    omega

theorem checkAndInc (h : s.Roomy) (inc : Nat) : (mimeCheckAndIncSize inc s).Roomy := by
  rw [mimeCheckAndIncSize]
  split
  · exact h
  · refine ⟨?_, fun hm => ?_, ?_, h.safe⟩
    · exact Nat.le_trans h.line (by simp only [mimeIncSize]; omega)
    · exact Nat.le_trans (h.word hm) (Nat.le_add_right _ _)
    · exact Nat.le_trans h.plain (Nat.le_add_right _ _)

theorem strlcpy (h : s.Roomy) (hm : s.isMime = false) {len : Nat}
    (hv : s.vpos + (t.take len).length ≤ MIME_STRING_LIMIT) : (mimeStrlcpy t len s).Roomy :=
  ((h.storePlain hm hv).checkAndInc 1).terminate

end MimeWordEncState.Roomy

theorem mime7bitTry_roomy (hcs : cs.length ≤ MIME_MAX_ENC_LEN) (h : s.Roomy) {rest : Str}
    {len : Nat} (h7 : charsetIs7bit (rest.take len) = true) :
    (mime7bitTry cs enc s rest len).1.Roomy := by
  have hsw := @mimeSwitchToPlain_roomy cs enc s hcs h
  have hm := @isMime_mimeSwitchToPlain cs enc s
  rw [mime7bitTry]
  generalize mimeSwitchToPlain cs enc s = s1 at hsw hm ⊢
  dsimp only
  split
  · exact hsw
  · next hlen =>
      have hlen : len ≤ MIME_STRING_LIMIT := Nat.le_of_not_lt hlen
      -- a plain word is as long as it is
      have hcalc : len ≤ (mimeWordCalcLen cs enc s1 rest len).1 := by
        simp only [mimeWordCalcLen, hm, h7, if_neg Bool.false_ne_true, if_true]
        exact Nat.le_add_right _ _
      have hline : ∀ n, len ≤ n →
          (if s1.vpos + n > MIME_STRING_LIMIT then mimeLineBreak s1 else s1).Roomy ∧
          (if s1.vpos + n > MIME_STRING_LIMIT then mimeLineBreak s1 else s1).isMime = false ∧
          (if s1.vpos + n > MIME_STRING_LIMIT then mimeLineBreak s1 else s1).vpos + len ≤
            MIME_STRING_LIMIT := by
        intro n hn
        split
        · exact ⟨hsw.lineBreak, rfl, by rw [vpos_mimeLineBreak]; omega⟩
        · exact ⟨hsw, hm, by omega⟩
      obtain ⟨hr, hp, hv⟩ := hline _ hcalc
      generalize (if s1.vpos + (mimeWordCalcLen cs enc s1 rest len).1 > MIME_STRING_LIMIT then
        mimeLineBreak s1 else s1) = s2 at hr hp hv ⊢
      split
      · -- a space for the spaces in front of the word
        next hmem =>
          have hstart : 0 < (mimeWordCalcLen cs enc s1 rest len).2 := by
            refine Nat.pos_of_ne_zero fun h0 => ?_
            rw [h0, List.take_zero] at hmem
            exact absurd hmem List.not_mem_nil
          have htake := List.length_take_le (len - (mimeWordCalcLen cs enc s1 rest len).2)
            (rest.drop (mimeWordCalcLen cs enc s1 rest len).2)
          have hle : (mimeWordCalcLen cs enc s1 rest len).2 ≤ len :=
            Nat.le_trans (List.takeWhile_sublist _).length_le (List.length_take_le _ _)
          have hone : [sp].length = 1 := rfl
          have hblank : (mimeStrcat [sp] s2).Roomy :=
            (hr.storePlain hp (by omega)).terminate
          refine hblank.strlcpy hp ?_
          rw [vpos_mimeStrcat, hone]
          omega
      · have htake := List.length_take_le len rest
        exact hr.strlcpy hp (by omega)

/-! ## The encoders -/

/-- How far a sequence goes on. -/
def mbTailLen (p : Str) : Nat := (p.takeWhile isMbTail).length

theorem mimeGetMbTail_le (p : Str) : mimeGetMbTail cs enc p ≤ mbTailLen p := by
  rw [mimeGetMbTail]
  split
  · exact Nat.zero_le _
  · exact Nat.le_refl _

theorem mimeAddReminder_roomy (h : s.Roomy) (hm : s.isMime = true)
    (hrem : s.rem.length < B64_ENC_CHUNK) (p : Str) (len : Nat) :
    (mimeAddReminder s p len B64_LIMIT).1.Roomy ∧
      (s.vpos ≤ B64_LIMIT ∨ mimeGetMbTail cs .b64 p = 0 →
        len - (mimeAddReminder s p len B64_LIMIT).2 = 0 ∨
          (mimeAddReminder s p len B64_LIMIT).1.vpos ≤ B64_LIMIT ∨
          mimeGetMbTail cs .b64 (p.drop (mimeAddReminder s p len B64_LIMIT).2) = 0) := by
  rw [mimeAddReminder]
  split
  · exact ⟨h, fun hv => .inr hv⟩
  · split
    · exact ⟨h.remind (by omega), fun _ => .inl (Nat.sub_self len)⟩
    · split
      · exact ⟨h, fun hv => .inr hv⟩
      · next hv =>
          have hfour : B64_NLET_PER_CHUNK = 4 := rfl
          have hr : (encRemind (p.take (B64_ENC_CHUNK - s.rem.length))
            (B64_ENC_CHUNK - s.rem.length) s).Roomy := h.remind (by omega)
          have hroom : s.vpos ≤ B64_LIMIT := by omega
          refine ⟨mimeFlushReminder_roomy hr hm fun _ => hroom, fun _ => .inr (.inl ?_)⟩
          refine Nat.le_trans (vpos_mimeFlushReminder_le _) ?_
          show s.vpos + B64_NLET_PER_CHUNK ≤ B64_LIMIT
          omega

/-- A chunk is put out where there is room for it, or at the end of the line a
part of one. -/
theorem mimeWordEncB64Loop_roomy : ∀ (n : Nat) (e : B64Enc) {e' : B64Enc}, e.state.Roomy →
    e.state.isMime = true →
    (e.left = 0 ∨ e.state.vpos ≤ B64_LIMIT ∨ mimeGetMbTail cs .b64 e.p = 0 ∨ e.endOfLine = true) →
    mimeWordEncB64Loop cs B64_LIMIT n e = some e' → e'.state.Roomy
  | n + 1, e, e', h, hm, hv, he => by
      have hfour : B64_NLET_PER_CHUNK = 4 := rfl
      have hlimit : B64_LIMIT = 70 := rfl
      have hl := h.line
      rw [mimeWordEncB64Loop] at he
      split at he
      · cases he
        exact h
      · next hend =>
          simp only [Bool.or_eq_true, decide_eq_true_eq, not_or, Bool.not_eq_true] at hend
          have hchunk := length_mimeB64EncodeChunk_le
          by_cases heol : e.state.vpos +
              (MimeEncType.b64.maxMbChunks cs + 1) * B64_NLET_PER_CHUNK > B64_LIMIT
          · -- the tail of a sequence
            simp only [heol, decide_true, if_true] at he
            by_cases h0 : min (mimeGetMbTail cs .b64 e.p) B64_ENC_CHUNK = 0
            · rw [if_pos h0] at he
              refine mimeWordEncB64Loop_roomy n _ ?_ ?_ ?_ he
              · exact h
              · exact hm
              · exact .inr (.inr (.inr rfl))
            · rw [if_neg h0] at he
              have hroom : e.state.vpos ≤ B64_LIMIT := by
                rcases hv with hv | hv | hv | hv
                · rw [hv] at hend
                  exact absurd hend.1 (by decide)
                · exact hv
                · rw [hv] at h0
                  exact absurd (Nat.zero_min _) h0
                · rw [hend.2] at hv
                  exact absurd hv Bool.false_ne_true
              have hs := h.store (t := mimeB64EncodeChunk
                (e.p.take (min (mimeGetMbTail cs .b64 e.p) B64_ENC_CHUNK))) hm (by
                  have := hchunk (e.p.take (min (mimeGetMbTail cs .b64 e.p) B64_ENC_CHUNK))
                  omega)
              refine mimeWordEncB64Loop_roomy n _ ?_ ?_ ?_ he
              · exact hs.1
              · exact hs.2
              · exact .inr (.inr (.inr rfl))
          · have hmb : B64_NLET_PER_CHUNK ≤
                (MimeEncType.b64.maxMbChunks cs + 1) * B64_NLET_PER_CHUNK :=
              Nat.le_mul_of_pos_left _ (Nat.succ_pos _)
            have hc := hchunk (e.p.take (min e.left B64_ENC_CHUNK))
            simp only [heol, decide_false, if_neg Bool.false_ne_true] at he
            have hs := h.store (t := mimeB64EncodeChunk (e.p.take (min e.left B64_ENC_CHUNK)))
              hm (by omega)
            split at he
            · refine mimeWordEncB64Loop_roomy n _ ?_ ?_ ?_ he
              · exact h
              · exact hm
              · exact .inr (.inl (by dsimp only; omega))
            · refine mimeWordEncB64Loop_roomy n _ ?_ ?_ ?_ he
              · exact hs.1
              · exact hs.2
              · refine .inr (.inl ?_)
                show e.state.vpos + _ ≤ B64_LIMIT
                omega

theorem mimeWordEncB64_roomy {p : Str} {len k : Nat} {s' : MimeWordEncState} (h : s.Roomy)
    (hm : s.isMime = true) (hrem : s.rem.length < B64_ENC_CHUNK)
    (hv : s.vpos ≤ B64_LIMIT ∨ mimeGetMbTail cs .b64 p = 0)
    (he : mimeWordEncB64 cs s p len = some (s', k)) : s'.Roomy := by
  obtain ⟨hadd, hvadd⟩ := @mimeAddReminder_roomy cs s h hm hrem p len
  rw [mimeWordEncB64_eq, Option.map_eq_some_iff] at he
  obtain ⟨e, he, hleave⟩ := he
  have hvadd := hvadd hv
  have hr : e.state.Roomy := by
    refine mimeWordEncB64Loop_roomy _ _ hadd ?_ ?_ he
    · rw [isMime_mimeAddReminder]
      exact hm
    · exact hvadd.imp_right fun h => h.imp_right .inl
  have hs' : s' = (b64Leave e).1 := by rw [hleave]
  rw [hs', b64Leave]
  split
  · next hend =>
      simp only [Bool.and_eq_true, decide_eq_true_eq] at hend
      have ht := hr.terminate
      have hempty : ({ encTerminate e.state with rem := [] } : MimeWordEncState).Roomy :=
        ⟨ht.line, ht.word, ht.plain, ht.safe⟩
      exact hempty.remind (by simpa using Nat.le_of_lt hend.2)
  · exact hr.terminate

theorem foldl_encStore_roomy : ∀ (t : Str) {s : MimeWordEncState}, s.Roomy → s.isMime = true →
    s.pos + (qpCodes t).length + 4 ≤ s.size →
    (t.foldl (fun s c => encStore (mimeQpEncodeOctet c) s) s).Roomy ∧
      (t.foldl (fun s c => encStore (mimeQpEncodeOctet c) s) s).pos =
        s.pos + (qpCodes t).length ∧
      (t.foldl (fun s c => encStore (mimeQpEncodeOctet c) s) s).size = s.size
  | [], s, h, _, _ => ⟨h, rfl, rfl⟩
  | c :: t, s, h, hm, hfit => by
      rw [qpCodes, List.flatMap_cons, List.length_append, ← qpCodes] at hfit ⊢
      obtain ⟨hs, hm'⟩ := h.store (t := mimeQpEncodeOctet c) hm (by omega)
      obtain ⟨h1, h2, h3⟩ := foldl_encStore_roomy t hs hm' (by
        rw [pos_encStore, size_encStore]
        omega)
      rw [List.foldl_cons]
      refine ⟨h1, ?_, h3⟩
      rw [h2, pos_encStore]
      omega

theorem tails_foldl_encStore : ∀ (t : Str) (s : MimeWordEncState),
    (t.foldl (fun s c => encStore (mimeQpEncodeOctet c) s) s).tails = s.tails
  | [], _ => rfl
  | c :: t, s => tails_foldl_encStore t (encStore (mimeQpEncodeOctet c) s)

/-- The tail that is put out at the end of a line. -/
def encTail (cs : Str) (s : MimeWordEncState) (p : Str) : EncTail :=
  ⟨s.pos, (qpCodes (p.take (mimeGetMbTail cs .qp p))).length, s.size⟩

theorem mimeWordEncQpFlushMb_tails (p : Str) :
    (mimeWordEncQpFlushMb cs s p).1.tails = s.tails ++ [encTail cs s p] := by
  rw [mimeWordEncQpFlushMb]
  exact tails_foldl_encStore _ _

theorem mimeWordEncQpFlushMb_roomy {p : Str} (h : s.Roomy) (hm : s.isMime = true)
    (hfit : (encTail cs s p).Fits) :
    (mimeWordEncQpFlushMb cs s p).1.Roomy ∧
      (mimeWordEncQpFlushMb cs s p).1.pos = s.pos + (encTail cs s p).codes ∧
      (mimeWordEncQpFlushMb cs s p).1.size = s.size := by
  have hs : ({ s with tails := s.tails ++ [encTail cs s p] } : MimeWordEncState).Roomy :=
    ⟨h.line, h.word, h.plain, h.safe⟩
  exact foldl_encStore_roomy (p.take (mimeGetMbTail cs .qp p)) hs hm hfit

/-- The limit of `mime_word_enc_qp`. -/
def QP_LIMIT : Nat := MIME_STRING_LIMIT - MIME_HEADER_CODE_END.length

/-- Codes are put out where there is room for them, and tails that fit. -/
theorem mimeWordEncQpLoop_roomy : ∀ (left : Nat) {s : MimeWordEncState} (p : Str), s.Roomy →
    s.isMime = true → (∀ t ∈ (mimeWordEncQpLoop cs QP_LIMIT left s p).1.tails, t.Fits) →
    (mimeWordEncQpLoop cs QP_LIMIT left s p).1.Roomy
  | 0, s, p, h, _, _ => h
  | left + 1, s, p, h, hm, hfit => by
      have hlimit : QP_LIMIT = 74 := rfl
      have hthree : QP_NLET_MAX = 3 := rfl
      have hl := h.line
      have hlen := length_mimeQpEncodeOctet (p.headD nul)
      have hmb : QP_NLET_MAX ≤ (MimeEncType.qp.maxMbChunks cs + 1) * QP_NLET_MAX :=
        Nat.le_mul_of_pos_left _ (Nat.succ_pos _)
      rw [mimeWordEncQpLoop] at hfit ⊢
      split
      · next hend =>
          rw [if_pos hend, mimeWordEncQpFlushMb_tails] at hfit
          exact (mimeWordEncQpFlushMb_roomy h hm (hfit _ (by simp))).1
      · next hend =>
          rw [if_neg hend] at hfit
          obtain ⟨hs, hm'⟩ := h.store (t := mimeQpEncodeOctet (p.headD nul)) hm (by omega)
          exact mimeWordEncQpLoop_roomy left p.tail hs hm' hfit

/-! ## What was written and put out -/

/-- No tail was put out, and what was written before is still among the writes. -/
structure MimeWordEncState.Kept (s s' : MimeWordEncState) : Prop where
  tails : s'.tails = s.tails
  writes : s.writes ⊆ s'.writes

namespace MimeWordEncState.Kept

theorem refl (s : MimeWordEncState) : s.Kept s := ⟨rfl, List.Subset.refl _⟩

theorem trans {s1 s2 s3 : MimeWordEncState} (h1 : s1.Kept s2) (h2 : s2.Kept s3) : s1.Kept s3 :=
  ⟨h2.tails.trans h1.tails, List.Subset.trans h1.writes h2.writes⟩

theorem ite {b : Prop} [Decidable b] {s1 s2 : MimeWordEncState} (h1 : s.Kept s1)
    (h2 : s.Kept s2) : s.Kept (if b then s1 else s2) := by
  split
  · exact h1
  · exact h2

end MimeWordEncState.Kept

variable (s)

theorem kept_encStore (t : Str) : s.Kept (encStore t s) := ⟨rfl, List.subset_append_left _ _⟩

theorem kept_encTerminate : s.Kept (encTerminate s) := ⟨rfl, List.subset_append_left _ _⟩

theorem kept_encRemind (t : Str) (len : Nat) : s.Kept (encRemind t len s) :=
  ⟨rfl, List.subset_append_left _ _⟩

theorem kept_mimeStrcat (t : Str) : s.Kept (mimeStrcat t s) :=
  (kept_encStore s t).trans (kept_encTerminate _)

theorem kept_mimeCheckAndIncSize (inc : Nat) : s.Kept (mimeCheckAndIncSize inc s) :=
  .ite (.refl s) ⟨rfl, List.Subset.refl _⟩

theorem kept_mimeStrlcpy (t : Str) (len : Nat) : s.Kept (mimeStrlcpy t len s) :=
  ((kept_encStore s _).trans (kept_mimeCheckAndIncSize _ _)).trans (kept_encTerminate _)

theorem kept_mimeWordEnd : s.Kept (mimeWordEnd s) := by
  have h := kept_mimeStrcat s MIME_HEADER_CODE_END
  exact .ite ⟨h.tails, h.writes⟩ (.refl s)

theorem kept_mimeLineBreak : s.Kept (mimeLineBreak s) := by
  have h1 : s.Kept (mimeIncSize (encSize - 1) s) := ⟨rfl, List.Subset.refl _⟩
  have h := (h1.trans (kept_mimeWordEnd _)).trans (kept_mimeStrcat _ MIME_HEADER_STR_DELIM)
  exact ⟨h.tails, h.writes⟩

theorem kept_mimeWordStart : s.Kept (mimeWordStart cs enc s) := by
  have h1 : s.Kept (if wordStartBreaks cs enc s then mimeLineBreak s else s) :=
    .ite (kept_mimeLineBreak s) (.refl s)
  have h := (((h1.trans (kept_mimeStrcat _ [sp])).trans
    (kept_mimeStrcat _ MIME_HEADER_CODE_START)).trans (kept_mimeStrcat _ cs)).trans
      (kept_mimeStrcat _ enc.encoding)
  exact ⟨h.tails, h.writes⟩

theorem kept_mimeFlushReminder : s.Kept (mimeFlushReminder s) := by
  have h := kept_encStore s (mimeB64EncodeChunk s.rem)
  exact .ite (.refl s) ⟨h.tails, h.writes⟩

theorem kept_wordEnd {b : Prop} [Decidable b] :
    s.Kept (mimeWordEnd (mimeFlushReminder
      (if b then mimeWordStart cs enc (mimeLineBreak s) else s))) :=
  ((MimeWordEncState.Kept.ite ((kept_mimeLineBreak s).trans (kept_mimeWordStart _))
    (.refl s)).trans (kept_mimeFlushReminder _)).trans (kept_mimeWordEnd _)

theorem kept_mimeSwitchToPlain : s.Kept (mimeSwitchToPlain cs enc s) :=
  .ite (.refl s) (kept_wordEnd s)

theorem kept_mime7bitTry (rest : Str) (len : Nat) :
    s.Kept (mime7bitTry cs enc s rest len).1 := by
  have hsw := @kept_mimeSwitchToPlain cs enc s
  rw [mime7bitTry]
  generalize mimeSwitchToPlain cs enc s = s1 at hsw ⊢
  dsimp only
  have hline : ∀ n, s.Kept (if s1.vpos + n > MIME_STRING_LIMIT then mimeLineBreak s1 else s1) :=
    fun n => .ite (hsw.trans (kept_mimeLineBreak s1)) hsw
  split
  · exact hsw
  · split
    · exact ((hline _).trans (kept_mimeStrcat _ [sp])).trans (kept_mimeStrlcpy _ _ _)
    · exact (hline _).trans (kept_mimeStrlcpy _ _ _)

theorem kept_mimeAddReminder (p : Str) (len limit : Nat) :
    s.Kept (mimeAddReminder s p len limit).1 := by
  rw [mimeAddReminder]
  split
  · exact .refl s
  · split
    · exact kept_encRemind s _ _
    · split
      · exact .refl s
      · exact (kept_encRemind s _ _).trans (kept_mimeFlushReminder _)

variable {s}

theorem kept_mimeWordEncB64Loop {limit : Nat} : ∀ (n : Nat) (e : B64Enc) {e' : B64Enc},
    mimeWordEncB64Loop cs limit n e = some e' → e.state.Kept e'.state
  | n + 1, e, e', h => by
      rw [mimeWordEncB64Loop] at h
      split at h
      · cases h
        exact .refl _
      · exact (MimeWordEncState.Kept.ite (.refl _) (kept_encStore _ _)).trans
          (kept_mimeWordEncB64Loop n _ h)

theorem kept_mimeWordEncB64 {p : Str} {len k : Nat} {s' : MimeWordEncState}
    (he : mimeWordEncB64 cs s p len = some (s', k)) : s.Kept s' := by
  rw [mimeWordEncB64_eq, Option.map_eq_some_iff] at he
  obtain ⟨e, he, hleave⟩ := he
  have h := ((kept_mimeAddReminder s p len B64_LIMIT).trans (kept_mimeWordEncB64Loop _ _ he)).trans
    (kept_encTerminate _)
  have hs' : s' = (b64Leave e).1 := by rw [hleave]
  rw [hs', b64Leave]
  split
  · have hr := kept_encRemind { encTerminate e.state with rem := [] } (e.p.take e.left) e.left
    exact ⟨hr.tails.trans h.tails, List.Subset.trans h.writes hr.writes⟩
  · exact h

theorem foldl_encStore_pos : ∀ (t : Str) (s : MimeWordEncState),
    (t.foldl (fun s c => encStore (mimeQpEncodeOctet c) s) s).pos = s.pos + (qpCodes t).length ∧
      (t.foldl (fun s c => encStore (mimeQpEncodeOctet c) s) s).size = s.size ∧
      s.Kept (t.foldl (fun s c => encStore (mimeQpEncodeOctet c) s) s)
  | [], s => ⟨rfl, rfl, .refl s⟩
  | c :: t, s => by
      obtain ⟨h1, h2, h3⟩ := foldl_encStore_pos t (encStore (mimeQpEncodeOctet c) s)
      rw [List.foldl_cons, qpCodes, List.flatMap_cons, List.length_append, ← qpCodes]
      refine ⟨?_, h2, (kept_encStore s _).trans h3⟩
      rw [h1, pos_encStore]
      omega

/-- `mime_word_enc_qp` puts out one tail at most, and then stops behind it. -/
theorem mimeWordEncQpLoop_kept {limit : Nat} : ∀ (left : Nat) (s : MimeWordEncState) (p : Str),
    s.Kept (mimeWordEncQpLoop cs limit left s p).1 ∨
      ∃ t : EncTail, (mimeWordEncQpLoop cs limit left s p).1.tails = s.tails ++ [t] ∧
        s.writes ⊆ (mimeWordEncQpLoop cs limit left s p).1.writes ∧
        (mimeWordEncQpLoop cs limit left s p).1.pos = t.pos + t.codes ∧
        (mimeWordEncQpLoop cs limit left s p).1.size = t.size
  | 0, s, p => .inl (.refl s)
  | left + 1, s, p => by
      rw [mimeWordEncQpLoop]
      split
      · obtain ⟨hpos, hsize, hkept⟩ := foldl_encStore_pos (p.take (mimeGetMbTail cs .qp p))
          { s with tails := s.tails ++ [encTail cs s p] }
        exact .inr ⟨encTail cs s p, mimeWordEncQpFlushMb_tails p, hkept.writes, hpos, hsize⟩
      · have hstore := kept_encStore s (mimeQpEncodeOctet (p.headD nul))
        rcases mimeWordEncQpLoop_kept left (encStore (mimeQpEncodeOctet (p.headD nul)) s) p.tail
          with h | ⟨t, ht, hw, hpos, hsize⟩
        · exact .inl (hstore.trans h)
        · exact .inr ⟨t, ht, List.Subset.trans hstore.writes hw, hpos, hsize⟩

/-! ## Short tails -/

/-- A run of bytes that go on with a sequence has at most three bytes, and
stands behind a byte that is no space.  (Of UTF-8 this holds, and of any text
in another charset.) -/
structure ShortTails (cs w : Str) : Prop where
  three : ∀ q, q <:+ w → mimeGetMbTail cs .qp q ≤ 3
  space : ∀ c q, c :: q <:+ w → isspace c = true → mimeGetMbTail cs .qp q = 0
  first : mimeGetMbTail cs .qp w = 0

theorem length_qpCodes_le : ∀ t : Str, (qpCodes t).length ≤ 3 * t.length
  | [] => Nat.le_refl 0
  | c :: t => by
      have hc := length_mimeQpEncodeOctet c
      have ht := length_qpCodes_le t
      have hthree : QP_NLET_MAX = 3 := rfl
      rw [qpCodes, List.flatMap_cons, List.length_append, ← qpCodes, List.length_cons]
      omega

theorem maxMbChunks_qp (cs : Str) :
    MimeEncType.qp.maxMbChunks cs = 3 ∨ ∀ q, mimeGetMbTail cs .qp q = 0 := by
  by_cases hcs : strieq cs (lit "utf-8") = true
  · exact .inl (by simp [MimeEncType.maxMbChunks, hcs, MAX_UTF8_LEN])
  · exact .inr fun q => by simp [mimeGetMbTail, hcs]

/-- Short tails fit: behind a code there is room for three more on the line. -/
theorem mimeWordEncQpLoop_short : ∀ (left : Nat) {s : MimeWordEncState} (p : Str), s.Roomy →
    s.isMime = true → (∀ q, q <:+ p → mimeGetMbTail cs .qp q ≤ 3) →
    (s.vpos ≤ 65 ∨ mimeGetMbTail cs .qp p = 0) → (∀ t ∈ s.tails, t.Fits) →
    ∀ t ∈ (mimeWordEncQpLoop cs QP_LIMIT left s p).1.tails, t.Fits
  | 0, s, p, _, _, _, _, hfit => hfit
  | left + 1, s, p, h, hm, hp, hv, hfit => by
      have hlimit : QP_LIMIT = 74 := rfl
      have hthree : QP_NLET_MAX = 3 := rfl
      have hl := h.line
      have hlen := length_mimeQpEncodeOctet (p.headD nul)
      rw [mimeWordEncQpLoop]
      split
      · rw [mimeWordEncQpFlushMb_tails]
        intro t ht
        rcases List.mem_append.mp ht with ht | ht
        · exact hfit t ht
        · rw [List.mem_singleton.mp ht]
          have hcodes := length_qpCodes_le (p.take (mimeGetMbTail cs .qp p))
          have htake := List.length_take_le (mimeGetMbTail cs .qp p) p
          have hw := h.word hm
          have hp := hp p (List.suffix_refl p)
          show s.pos + (qpCodes (p.take (mimeGetMbTail cs .qp p))).length + 4 ≤ s.size
          rcases hv with hv | hv <;> omega
      · next hend =>
          have hmb : QP_NLET_MAX ≤ (MimeEncType.qp.maxMbChunks cs + 1) * QP_NLET_MAX :=
            Nat.le_mul_of_pos_left _ (Nat.succ_pos _)
          obtain ⟨hs, hm'⟩ := h.store (t := mimeQpEncodeOctet (p.headD nul)) hm (by omega)
          refine mimeWordEncQpLoop_short left p.tail hs hm'
            (fun q hq => hp q (hq.trans (List.tail_suffix p))) ?_ hfit
          rcases maxMbChunks_qp cs with hthree | hzero
          · refine .inl ?_
            rw [hthree] at hend
            rw [vpos_encStore]
            omega
          · exact .inr (hzero _)

end

/-! ## UTF-8 -/

theorem isMbTail_iff (c : UInt8) : isMbTail c = true ↔ Continuation c :=
  forall_byte (P := fun c => isMbTail c = true ↔ Continuation c) (by decide +kernel) c

/-- A lead byte goes on with no sequence. -/
theorem isMbTail_lead {c : UInt8} {n : Nat} (h : announced c = some n) : isMbTail c = false := by
  have key := forall_byte (P := fun c => announced c = none ∨ isMbTail c = false)
    (by decide +kernel) c
  exact key.resolve_left (by rw [h]; simp)

theorem announced_isspace {c : UInt8} (h : isspace c = true) : announced c = some 0 := by
  have key := forall_byte (P := fun c => isspace c = false ∨ announced c = some 0)
    (by decide +kernel) c
  exact key.resolve_left (by rw [h]; simp)

theorem announced_isCrlf {c : UInt8} (h : isCrlf c = true) : announced c = some 0 := by
  have key := forall_byte (P := fun c => isCrlf c = false ∨ announced c = some 0)
    (by decide +kernel) c
  exact key.resolve_left (by rw [h]; simp)

theorem mbTailLen_formed {s : Str} (h : Formed s) : mbTailLen s = 0 := by
  cases s with
  | nil => rfl
  | cons c s =>
      obtain ⟨n, hlead, -⟩ := formed_cons.mp h
      rw [mbTailLen, List.takeWhile_cons_of_neg (by rw [isMbTail_lead hlead]; simp)]
      rfl

/-- A text in UTF-8 goes on, from any byte, with the end of a sequence and more
sequences. -/
theorem suffix_formed : ∀ {cs : List Str} {q : Str}, (∀ c ∈ cs, Sequence c) → q <:+ cs.flatten →
    ∃ t r, q = t ++ r ∧ (∀ c ∈ t, Continuation c) ∧ t.length ≤ 3 ∧ Formed r
  | [], q, _, hq => by
      rw [List.flatten_nil, List.suffix_nil] at hq
      exact ⟨[], [], hq, fun c hc => absurd hc List.not_mem_nil, Nat.zero_le _, formed_nil⟩
  | [] :: _, _, hcs, _ => (hcs [] List.mem_cons_self).elim
  | (d :: t) :: cs, q, hcs, hq => by
      have hrest : ∀ c ∈ cs, Sequence c := fun c hc => hcs c (List.mem_cons_of_mem _ hc)
      obtain ⟨hlead, hcont⟩ := hcs (d :: t) List.mem_cons_self
      obtain ⟨pre, hpre⟩ := hq
      rw [List.flatten_cons] at hpre
      rcases List.append_eq_append_iff.mp hpre with ⟨back, hback, rfl⟩ | ⟨back, -, hback⟩
      · cases pre with
        | nil =>
            rw [List.nil_append] at hback
            refine ⟨[], back ++ cs.flatten, rfl, fun c hc => absurd hc List.not_mem_nil,
              Nat.zero_le _, (Formed.sequence ?_).append ⟨cs, hrest, rfl⟩⟩
            rw [← hback]
            exact hcs (d :: t) List.mem_cons_self
        | cons c pre =>
            obtain ⟨-, rfl⟩ := List.cons.inj hback
            refine ⟨back, cs.flatten, rfl, fun c hc => hcont c (List.mem_append_right _ hc), ?_,
              cs, hrest, rfl⟩
            have hlen : (pre ++ back).length ≤ 3 := announced_le hlead
            rw [List.length_append] at hlen
            omega
      · exact suffix_formed hrest ⟨back, hback.symm⟩

/-- The tails of UTF-8 are short. -/
theorem shortTails_formed {cs w : Str} (hw : Formed w) : ShortTails cs w := by
  obtain ⟨seqs, hseqs, rfl⟩ := hw
  refine ⟨fun q hq => ?_, fun c q hq hc => ?_, ?_⟩
  · obtain ⟨t, r, rfl, ht, hlen, hr⟩ := suffix_formed hseqs hq
    refine Nat.le_trans (mimeGetMbTail_le _) ?_
    rw [mbTailLen, List.takeWhile_append_of_pos fun c hc => (isMbTail_iff c).mpr (ht c hc),
      List.length_append, ← mbTailLen, mbTailLen_formed hr]
    exact hlen
  · -- a space is no byte that goes on with a sequence, so one begins behind it
    obtain ⟨t, r, hqt, ht, -, hr⟩ := suffix_formed hseqs hq
    have hlead := announced_isspace hc
    cases t with
    | nil =>
        rw [List.nil_append] at hqt
        rw [← hqt, formed_cons] at hr
        obtain ⟨n, hn, -, hq⟩ := hr
        cases hlead.symm.trans hn
        have hzero := mbTailLen_formed hq
        exact Nat.le_zero.mp ((mimeGetMbTail_le _).trans hzero.le)
    | cons d t =>
        obtain ⟨rfl, -⟩ := List.cons.inj hqt
        have := (isMbTail_iff c).mpr (ht c List.mem_cons_self)
        rw [isMbTail_lead hlead] at this
        exact absurd this Bool.false_ne_true
  · exact Nat.le_zero.mp
      (Nat.le_trans (mimeGetMbTail_le _) (Nat.le_of_eq (mbTailLen_formed ⟨seqs, hseqs, rfl⟩)))

theorem mimeHeaderUnfoldLoop_copy : ∀ {t : Str} (s d : Str), (∀ c ∈ t, isCrlf c = false) →
    mimeHeaderUnfoldLoop d (t ++ s) = mimeHeaderUnfoldLoop (d ++ t) s
  | [], s, d, _ => by rw [List.nil_append, List.append_nil]
  | c :: t, s, d, ht => by
      have hc := ht c List.mem_cons_self
      have ih := mimeHeaderUnfoldLoop_copy s (d ++ [c]) fun e he => ht e (List.mem_cons_of_mem _ he)
      rw [List.append_assoc, List.singleton_append] at ih
      rw [List.cons_append, mimeHeaderUnfoldLoop.eq_def]
      dsimp only
      rw [if_pos (by rw [hc]; rfl), ih]

/-- A header in UTF-8 is so when it is unfolded. -/
theorem formed_unfoldLoop : ∀ {cs : List Str} {d : Str}, (∀ c ∈ cs, Sequence c) → Formed d →
    Formed (mimeHeaderUnfoldLoop d cs.flatten)
  | [], _, _, hd => hd
  | [] :: _, _, hcs, _ => (hcs [] List.mem_cons_self).elim
  | (c :: t) :: cs, d, hcs, hd => by
      have hrest : ∀ c ∈ cs, Sequence c := fun c hc => hcs c (List.mem_cons_of_mem _ hc)
      obtain ⟨hlead, hcont⟩ := hcs (c :: t) List.mem_cons_self
      rw [List.flatten_cons]
      by_cases hc : isCrlf c = true
      · obtain rfl : t = [] := List.length_eq_zero_iff.mp
          (Option.some.inj (hlead.symm.trans (announced_isCrlf hc)))
        have hsp : Formed (d ++ [sp]) :=
          hd.append (.sequence ⟨rfl, fun c hc => absurd hc List.not_mem_nil⟩)
        rw [List.cons_append, List.nil_append, mimeHeaderUnfoldLoop.eq_def]
        dsimp only
        rw [if_neg (by rw [hc]; simp)]
        split
        · exact hd
        · split
          · exact formed_unfoldLoop hrest hsp
          · exact formed_unfoldLoop hrest hd
      · have hct : ∀ e ∈ c :: t, isCrlf e = false := by
          intro e he
          rcases List.mem_cons.mp he with rfl | he
          · exact Bool.eq_false_iff.mpr hc
          · refine Bool.eq_false_iff.mpr fun hf => ?_
            have := (isMbTail_iff e).mpr (hcont e he)
            rw [isMbTail_lead (announced_isCrlf hf)] at this
            exact absurd this Bool.false_ne_true
        rw [mimeHeaderUnfoldLoop_copy _ _ hct]
        exact formed_unfoldLoop hrest (hd.append (.sequence ⟨hlead, hcont⟩))

section

variable {cs : Str} {enc : MimeEncType} {s : MimeWordEncState}

/-! ## The account of a run -/

/-- What holds of the writes and the tails between two operations, `w` being the
string that is encoded. -/
structure Accounts (cs : Str) (enc : MimeEncType) (w : Str) (s : MimeWordEncState) : Prop where
  roomy : (∀ t ∈ s.tails, t.Fits) → s.Roomy
  logged : ∀ t ∈ s.tails, ⟨t.pos + t.codes, 1, t.size⟩ ∈ s.writes
  short : enc = .b64 ∨ ShortTails cs w → ∀ t ∈ s.tails, t.Fits

theorem Accounts.kept {w : Str} {s' : MimeWordEncState} (h : Accounts cs enc w s) (hk : s.Kept s')
    (hr : s.Roomy → s'.Roomy) : Accounts cs enc w s' where
  roomy := by
    rw [hk.tails]
    exact fun hfit => hr (h.roomy hfit)
  logged := by
    rw [hk.tails]
    exact fun t ht => hk.writes (h.logged t ht)
  short := by
    rw [hk.tails]
    exact h.short

theorem mimeWordEncQp_accounts {w p : Str} (hp : p <:+ w) (len : Nat) (h : Accounts cs .qp w s)
    (hm : s.isMime = true) (hv : ShortTails cs w → s.vpos ≤ 65 ∨ mimeGetMbTail cs .qp p = 0) :
    Accounts cs .qp w (mimeWordEncQp cs s p len).1 := by
  have hkept := @mimeWordEncQpLoop_kept cs QP_LIMIT len s p
  have htails : ∀ t ∈ s.tails, t ∈ (mimeWordEncQpLoop cs QP_LIMIT len s p).1.tails := by
    rcases hkept with hk | ⟨t, ht, -⟩
    · rw [hk.tails]
      exact fun t ht => ht
    · rw [ht]
      exact fun t ht => List.mem_append_left _ ht
  show Accounts cs .qp w (encTerminate (mimeWordEncQpLoop cs QP_LIMIT len s p).1)
  refine ⟨fun hfit => ?_, fun t ht => ?_, fun hshort => ?_⟩
  · have hr := h.roomy fun t ht => hfit t (htails t ht)
    exact (mimeWordEncQpLoop_roomy len p hr hm hfit).terminate
  · rcases hkept with hk | ⟨u, hu, hw, hpos, hsize⟩
    · exact List.mem_append_left _ (hk.writes (h.logged t (hk.tails ▸ ht)))
    · have ht : t ∈ s.tails ++ [u] := hu ▸ ht
      rcases List.mem_append.mp ht with ht | ht
      · exact List.mem_append_left _ (hw (h.logged t ht))
      · -- the zero byte behind the tail
        refine List.mem_append_right _ ?_
        rw [List.mem_singleton.mp ht, hpos, hsize]
        exact List.mem_singleton.mpr rfl
  · have hs := hshort.resolve_left (by simp)
    have hfit := h.short hshort
    exact mimeWordEncQpLoop_short len p (h.roomy hfit) hm (fun q hq => hs.three q (hq.trans hp))
      (hv hs) hfit

theorem encode_accounts {w p : Str} {len k : Nat} {s' : MimeWordEncState} (hp : p <:+ w)
    (h : Accounts cs enc w s) (hm : s.isMime = true) (hrem : s.rem.length < B64_ENC_CHUNK)
    (hb : s.vpos ≤ B64_LIMIT ∨ mbTailLen p = 0)
    (hq : ShortTails cs w → s.vpos ≤ 65 ∨ mimeGetMbTail cs .qp p = 0)
    (he : enc.encode cs s p len = some (s', k)) : Accounts cs enc w s' := by
  cases enc with
  | qp =>
      have hs' : (mimeWordEncQp cs s p len).1 = s' := congrArg Prod.fst (Option.some.inj he)
      rw [← hs']
      exact mimeWordEncQp_accounts hp len h hm hq
  | b64 =>
      have hv : s.vpos ≤ B64_LIMIT ∨ mimeGetMbTail cs .b64 p = 0 :=
        hb.imp_right fun h0 => Nat.le_zero.mp (Nat.le_trans (mimeGetMbTail_le p) (Nat.le_of_eq h0))
      exact h.kept (kept_mimeWordEncB64 he) fun hr => mimeWordEncB64_roomy hr hm hrem hv he

/-- The state in which a word goes on: with its start, if it needs one. -/
theorem goesOn_accounts (hcs : cs.length ≤ MIME_MAX_ENC_LEN) {w p : Str} {again : Bool}
    (hrem : s.rem.length < B64_ENC_CHUNK) (hagain : again = true → s.vpos = 0 ∧ s.isMime = false)
    (hfirst : again = false → (s.isMime = true → mbTailLen p = 0) ∧
      (ShortTails cs w → mimeGetMbTail cs .qp p = 0)) (h : Accounts cs enc w s) :
    Accounts cs enc w (if ! s.isMime then mimeWordStart cs enc s else s) ∧
      (if ! s.isMime then mimeWordStart cs enc s else s).isMime = true ∧
      (if ! s.isMime then mimeWordStart cs enc s else s).rem.length < B64_ENC_CHUNK ∧
      ((if ! s.isMime then mimeWordStart cs enc s else s).vpos ≤ B64_LIMIT ∨ mbTailLen p = 0) ∧
      (ShortTails cs w → (if ! s.isMime then mimeWordStart cs enc s else s).vpos ≤ 65 ∨
        mimeGetMbTail cs .qp p = 0) := by
  cases hm : s.isMime with
  | true =>
      have hno : again = false := by
        cases again with
        | false => rfl
        | true => exact absurd ((hagain rfl).2.symm.trans hm) Bool.false_ne_true
      rw [if_neg (by simp)]
      exact ⟨h, hm, hrem, .inr ((hfirst hno).1 hm), fun hs => .inr ((hfirst hno).2 hs)⟩
  | false =>
      rw [if_pos (by simp)]
      refine ⟨h.kept (kept_mimeWordStart s) (mimeWordStart_roomy hcs), rfl, ?_,
        .inl (vpos_mimeWordStart_le s hcs), fun hs => ?_⟩
      · rw [rem_mimeWordStart]
        exact hrem
      · cases again with
        | false => exact .inr ((hfirst rfl).2 hs)
        | true =>
            have hmax : MIME_MAX_ENC_LEN = 31 := rfl
            rw [vpos_mimeWordStart s (.inl (hagain rfl).1)]
            omega

theorem mimeWordEncLoop_accounts (hcs : cs.length ≤ MIME_MAX_ENC_LEN) {w : Str} : ∀ (n : Nat)
    (s : MimeWordEncState) (p : Str) (left : Nat) (again : Bool) {s' : MimeWordEncState},
    StopsAt p left → s.rem.length < B64_ENC_CHUNK → p <:+ w →
    (again = true → s.vpos = 0 ∧ s.isMime = false) →
    (again = false → (s.isMime = true → mbTailLen p = 0) ∧
      (ShortTails cs w → mimeGetMbTail cs .qp p = 0)) →
    Accounts cs enc w s → mimeWordEncLoop cs enc n s p left again = some s' →
    Accounts cs enc w s'
  | n + 1, s, p, left, again, s', hstop, hrem, hp, hagain, hfirst, h, he => by
      rw [mimeWordEncLoop] at he
      have hs1 := goesOn_accounts hcs hrem hagain hfirst h
      generalize (if ! s.isMime then mimeWordStart cs enc s else s) = s1 at hs1 he
      obtain ⟨h1, hm1, hrem1, hb1, hq1⟩ := hs1
      obtain ⟨s2, k, henc, hk, -⟩ := @encode_ends cs enc s1 p left hstop hrem1
      have h2 := encode_accounts hp h1 hm1 hrem1 hb1 hq1 henc
      simp only [henc, Option.bind_eq_bind, Option.bind_some, if_neg (Nat.not_lt.mpr hk.le)] at he
      generalize (again || ! s.isMime && wordStartBreaks cs enc s) = fresh at he
      have hcall : Accounts cs enc w
          { s2 with calls := s2.calls ++ [⟨left, k, again, fresh⟩] } :=
        ⟨fun hfit => ⟨(h2.roomy hfit).line, (h2.roomy hfit).word, (h2.roomy hfit).plain,
          (h2.roomy hfit).safe⟩, h2.logged, h2.short⟩
      split at he
      · cases he
        exact hcall
      · refine mimeWordEncLoop_accounts hcs n _ _ _ true (hstop.drop hk.le) ?_
          ((List.drop_suffix k p).trans hp) (fun _ => ⟨rfl, rfl⟩)
          (fun h => absurd h.symm Bool.false_ne_true) ?_ he
        · rw [rem_mimeLineBreak]
          exact hk.rem
        · exact hcall.kept (kept_mimeLineBreak _) MimeWordEncState.Roomy.lineBreak
/-- The bytes of a word behind its spaces do not begin with a short tail. -/
theorem ShortTails.start {w rest : Str} (hs : ShortTails cs w) (hrest : rest <:+ w)
    (hhead : rest = w ∨ mbTailLen rest = 0) (len : Nat) :
    mimeGetMbTail cs .qp (rest.drop ((rest.take len).takeWhile isspace).length) = 0 := by
  obtain ⟨spaces, hspaces⟩ := (List.takeWhile_prefix isspace (l := rest.take len)).trans
    (List.take_prefix len rest)
  have hall : ∀ c ∈ (rest.take len).takeWhile isspace, isspace c = true :=
    fun c hc => List.mem_takeWhile_imp hc
  generalize (rest.take len).takeWhile isspace = front at hspaces hall ⊢
  subst hspaces
  rw [List.drop_left]
  rcases List.eq_nil_or_concat front with rfl | ⟨front, c, rfl⟩
  · rw [List.nil_append] at hhead
    rcases hhead with rfl | h0
    · exact hs.first
    · exact Nat.le_zero.mp (Nat.le_trans (mimeGetMbTail_le spaces) (Nat.le_of_eq h0))
  · refine hs.space c spaces ?_ (hall c (by simp))
    refine List.IsSuffix.trans ?_ hrest
    exact ⟨front, by simp⟩

/-- A word that is too long for a line is tried in plain mode. -/
theorem isMime_mime7bitTry {rest : Str} {len : Nat}
    (h : (mime7bitTry cs enc s rest len).2 = false) :
    (mime7bitTry cs enc s rest len).1.isMime = false := by
  by_cases hlen : len > MIME_STRING_LIMIT
  · have htry : mime7bitTry cs enc s rest len = (mimeSwitchToPlain cs enc s, false) := if_pos hlen
    rw [htry]
    exact isMime_mimeSwitchToPlain s
  · rw [mime7bitTry] at h
    dsimp only at h
    rw [if_neg hlen] at h
    split at h <;> cases h

theorem mimeWordEnc_accounts (hcs : cs.length ≤ MIME_MAX_ENC_LEN) {w rest : Str} {len : Nat}
    {s' : MimeWordEncState} (hs : s.Goes) (hstop : StopsAt rest len) (hrest : rest <:+ w)
    (hhead : rest = w ∧ s.isMime = false ∨ mbTailLen rest = 0) (h : Accounts cs enc w s)
    (he : mimeWordEnc cs enc s rest len = some s') : Accounts cs enc w s' := by
  -- the word as a plain one
  have htry : ∃ s1 ok, (if charsetIs7bit (rest.take len) then mime7bitTry cs enc s rest len
      else (s, false)) = (s1, ok) ∧ Accounts cs enc w s1 ∧ s1.rem.length < B64_ENC_CHUNK ∧
        (ok = false → s1.isMime = true → s.isMime = true) := by
    by_cases h7 : charsetIs7bit (rest.take len) = true
    · refine ⟨_, _, if_pos h7, h.kept (kept_mime7bitTry s rest len)
        fun hr => mime7bitTry_roomy hcs hr h7, (mime7bitTry_goes hs rest len).rem, ?_⟩
      exact fun hok ht => absurd ((isMime_mime7bitTry hok).symm.trans ht) Bool.false_ne_true
    · exact ⟨s, false, if_neg h7, h, hs.rem, fun _ hm => hm⟩
  obtain ⟨s1, ok, heq, h1, hrem1, hmime⟩ := htry
  rw [mimeWordEnc, heq] at he
  dsimp only at he
  have hstart : ((rest.take len).takeWhile isspace).length ≤ len :=
    Nat.le_trans (List.takeWhile_sublist _).length_le (List.length_take_le _ _)
  cases ok with
  | true =>
      cases he
      exact h1
  | false =>
      rw [if_neg Bool.false_ne_true] at he
      split at he
      · next hm =>
          refine mimeWordEncLoop_accounts hcs _ _ _ _ false (hstop.drop hstart) hrem1
            ((List.drop_suffix _ _).trans hrest) (fun hf => absurd hf Bool.false_ne_true) ?_ h1 he
          refine fun _ => ⟨fun ht => absurd ht (by simpa using hm), fun hshort => ?_⟩
          exact hshort.start hrest (hhead.imp_left And.left) len
      · next hm =>
          have h0 : mbTailLen rest = 0 := by
            rcases hhead with ⟨-, hf⟩ | h0
            · have ht := hmime rfl (by simpa using hm)
              exact absurd (hf.symm.trans ht) Bool.false_ne_true
            · exact h0
          refine mimeWordEncLoop_accounts hcs _ _ _ _ false hstop hrem1 hrest
            (fun hf => absurd hf Bool.false_ne_true) (fun _ => ⟨fun _ => h0, fun _ => ?_⟩) h1 he
          exact Nat.le_zero.mp (Nat.le_trans (mimeGetMbTail_le rest) (Nat.le_of_eq h0))

theorem StopsAt.mbTailLen {rest : Str} {len : Nat} (h : StopsAt rest len) :
    Fidogate.mbTailLen (rest.drop len) = 0 := by
  refine Nat.le_zero.mp (length_takeWhile_le ?_)
  exact h

theorem mimeHeaderEncLoop_accounts (hcs : cs.length ≤ MIME_MAX_ENC_LEN) {w : Str} : ∀ (n : Nat)
    (s : MimeWordEncState) (rest : Str) (len : Nat) {s' : MimeWordEncState}, s.Goes →
    StopsAt rest len → rest <:+ w → (rest = w ∧ s.isMime = false ∨ mbTailLen rest = 0) →
    Accounts cs enc w s → mimeHeaderEncLoop cs enc n s rest len = some s' → Accounts cs enc w s'
  | n + 1, s, rest, len, s', hs, hstop, hrest, hhead, h, he => by
      obtain ⟨s1, h1, hs1⟩ := @mimeWordEnc_ends cs enc hcs s hs rest len hstop
      have ha := mimeWordEnc_accounts hcs hs hstop hrest hhead h h1
      rw [mimeHeaderEncLoop, h1] at he
      simp only [Option.bind_eq_bind, Option.bind_some] at he
      split at he
      · cases he
        exact ha
      · exact mimeHeaderEncLoop_accounts hcs n s1 (rest.drop len) _ hs1 (stopsAt_word _)
          ((List.drop_suffix len rest).trans hrest) (.inr hstop.mbTailLen) ha he

theorem kept_mimeHeaderEncEnd (s : MimeWordEncState) : s.Kept (mimeHeaderEncEnd cs enc s) := by
  rw [mimeHeaderEncEnd]
  dsimp only
  refine MimeWordEncState.Kept.trans ?_ (kept_encTerminate _)
  refine MimeWordEncState.Kept.trans ?_ (.ite (kept_mimeStrcat _ _) (.refl _))
  exact (MimeWordEncState.Kept.ite (kept_wordEnd s) (.refl s)).trans
    (kept_mimeCheckAndIncSize _ _)

/-- The end of the header has room of its own. -/
theorem mimeHeaderEncEnd_safe (hcs : cs.length ≤ MIME_MAX_ENC_LEN) (h : s.Roomy) :
    (mimeHeaderEncEnd cs enc s).Safe := by
  have hcode : MIME_HEADER_CODE_END.length = 2 := rfl
  have hdelim : MIME_HEADER_STR_DELIM.length = 1 := rfl
  have hstr : MIME_STRING_LIMIT = 76 := rfl
  have hlimit : B64_LIMIT = 70 := rfl
  have hchunk : B64_NLET_PER_CHUNK = 4 := rfl
  rw [mimeHeaderEncEnd]
  dsimp only
  -- the end of the last word
  have hword : ∀ n, s.rem ≠ [] → n = MIME_HEADER_CODE_END.length + B64_NLET_PER_CHUNK →
      ¬ s.vpos + n > MIME_STRING_LIMIT → s.vpos ≤ B64_LIMIT := by
    intro n _ hn hv
    omega
  have h1 : (if s.isMime = true then mimeWordEnd (mimeFlushReminder
      (if s.vpos + (MIME_HEADER_CODE_END.length + if s.rem ≠ [] then B64_NLET_PER_CHUNK else 0) >
        MIME_STRING_LIMIT then mimeWordStart cs enc (mimeLineBreak s) else s)) else s).Roomy := by
    split
    · next hm =>
        refine wordEnd_roomy hcs h hm fun hv hrem => hword _ hrem ?_ hv
        rw [if_pos hrem]
    · exact h
  generalize (if s.isMime = true then _ else s) = s1 at h1 ⊢
  -- the LF and the zero byte
  have h2 : (mimeCheckAndIncSize (MIME_HEADER_STR_DELIM.length + 1) s1).Safe ∧
      (mimeCheckAndIncSize (MIME_HEADER_STR_DELIM.length + 1) s1).pos + 3 ≤
        (mimeCheckAndIncSize (MIME_HEADER_STR_DELIM.length + 1) s1).size := by
    have hp := h1.plain
    refine ⟨(h1.checkAndInc _).safe, ?_⟩
    rw [mimeCheckAndIncSize, hdelim]
    split
    · omega
    · show s1.pos + 3 ≤ s1.size + 2
      omega
  generalize mimeCheckAndIncSize (MIME_HEADER_STR_DELIM.length + 1) s1 = s2 at h2 ⊢
  obtain ⟨hsafe, hroom⟩ := h2
  split
  · refine (hsafe.strcat ?_).terminate ?_
    · rw [hdelim]
      omega
    · rw [pos_mimeStrcat, size_mimeStrcat, hdelim]
      omega
  · exact hsafe.terminate (by omega)

theorem length_mimeHeaderUnfoldLoop : ∀ (s d : Str),
    (mimeHeaderUnfoldLoop d s).length ≤ d.length + s.length
  | [], d => Nat.le_refl _
  | c :: s, d => by
      have ih := length_mimeHeaderUnfoldLoop s
      rw [mimeHeaderUnfoldLoop.eq_def, List.length_cons]
      dsimp only
      split
      · have := ih (d ++ [c])
        rw [List.length_append, List.length_singleton] at this
        omega
      · split
        · exact Nat.le_add_right _ _
        · split
          · have := ih (d ++ [sp])
            rw [List.length_append, List.length_singleton] at this
            omega
          · have := ih d
            omega

theorem shortTails_charset {w : Str} (hcs : strieq cs (lit "utf-8") = false) :
    ShortTails cs w := by
  have h0 : ∀ q, mimeGetMbTail cs .qp q = 0 := fun q => by simp [mimeGetMbTail, hcs]
  exact ⟨fun q _ => by rw [h0]; exact Nat.zero_le _, fun _ q _ _ => h0 q, h0 w⟩

/-- All writes of the encoder are inside if the tails fit that it puts out at
the ends of lines, as they do in base64, in other charsets and in UTF-8; and a
tail that leaves no room for the zero byte behind it is not inside. -/
theorem mimeHeaderEnc_safe (src : Str) (hcs : cs.length ≤ MIME_MAX_ENC_LEN) :
    (mimeHeaderUnfold src).length + 1 ≤ src.length + 1 ∧
      ∃ r, mimeHeaderEnc cs enc src = some r ∧ ∀ s ∈ r,
        ((∀ t ∈ s.tails, t.Fits) → s.Safe) ∧
        (s.Safe → ∀ t ∈ s.tails, t.pos + t.codes + 1 ≤ t.size) ∧
        (enc = .b64 ∨ strieq cs (lit "utf-8") = false ∨ Formed src →
          ∀ t ∈ s.tails, t.Fits) := by
  refine ⟨?_, ?_⟩
  · have := length_mimeHeaderUnfoldLoop src []
    rw [List.length_nil, Nat.zero_add] at this
    exact Nat.succ_le_succ this
  · have hshort : enc = .b64 ∨ strieq cs (lit "utf-8") = false ∨ Formed src →
        enc = .b64 ∨ ShortTails cs (mimeHeaderUnfold src) := by
      rintro (h | h | ⟨seqs, hseqs, rfl⟩)
      · exact .inl h
      · exact .inr (shortTails_charset h)
      · exact .inr (shortTails_formed (formed_unfoldLoop hseqs formed_nil))
    rw [mimeHeaderEnc]
    dsimp only
    split
    · exact ⟨none, rfl, by simp⟩
    · have hstop := stopsAt_first (mimeHeaderUnfold src)
      have hgoes : mimeHeaderEncStart.Goes := ⟨by decide, by simp [mimeHeaderEncStart]⟩
      have hstart : Accounts cs enc (mimeHeaderUnfold src) mimeHeaderEncStart := by
        refine ⟨fun _ => ⟨by decide, by decide, by decide, ?_⟩, by simp [mimeHeaderEncStart],
          by simp [mimeHeaderEncStart]⟩
        intro v hv
        rw [List.mem_singleton.mp hv]
        show (0 + 1 : Nat) ≤ encSize
        decide
      obtain ⟨s, h, -⟩ := @mimeHeaderEncLoop_ends cs enc hcs ((mimeHeaderUnfold src).length + 1)
        mimeHeaderEncStart _ _ hstop hgoes (by omega)
      have ha := mimeHeaderEncLoop_accounts hcs _ _ _ _ hgoes hstop (List.suffix_refl _)
        (.inl ⟨rfl, rfl⟩) hstart h
      have hk := @kept_mimeHeaderEncEnd cs enc s
      refine ⟨_, by rw [h]; rfl, fun s' hs' => ?_⟩
      obtain rfl : mimeHeaderEncEnd cs enc s = s' := Option.some.inj hs'
      rw [hk.tails]
      refine ⟨fun hfit => mimeHeaderEncEnd_safe hcs (ha.roomy hfit), fun hsafe t ht => ?_,
        fun hkind => ha.short (hshort hkind)⟩
      exact hsafe _ (hk.writes (ha.logged t ht))

/-- A word of one letter. -/
theorem mimeHeaderEnc_safe_letter :
    (lit "utf-8").length ≤ MIME_MAX_ENC_LEN ∧
      (mimeHeaderUnfold (lit "a: \xd0\xb5")).length + 1 ≤ (lit "a: \xd0\xb5").length + 1 ∧
      ∃ r, mimeHeaderEnc (lit "utf-8") .qp (lit "a: \xd0\xb5") = some r ∧ ∀ s ∈ r,
        ((∀ t ∈ s.tails, t.Fits) → s.Safe) ∧
        (s.Safe → ∀ t ∈ s.tails, t.pos + t.codes + 1 ≤ t.size) ∧
        (MimeEncType.qp = .b64 ∨ strieq (lit "utf-8") (lit "utf-8") = false ∨
          Formed (lit "a: \xd0\xb5") → ∀ t ∈ s.tails, t.Fits) :=
  ⟨by decide, mimeHeaderEnc_safe _ (by decide)⟩

/-- A header whose only word is the tail of a sequence. -/
def longTail : Str := lit "a: " ++ List.replicate 22 0x80

/-- Its codes are put out behind the end of the buffer. -/
theorem mimeHeaderEnc_longTail :
    ¬ ∀ (cs : Str) (enc : MimeEncType) (src : Str), cs.length ≤ MIME_MAX_ENC_LEN →
      ∃ r, mimeHeaderEnc cs enc src = some r ∧ ∀ s ∈ r, s.Safe := by
  intro hall
  obtain ⟨r, hr, hsafe⟩ := hall (lit "utf-8") .qp longTail (by decide)
  have hbad : (mimeHeaderEnc (lit "utf-8") .qp longTail).any (fun r => r.any fun s =>
      s.writes.any fun w => w.size < w.pos + w.len) = true := by decide +kernel
  rw [hr, Option.any_some] at hbad
  cases r with
  | none => exact absurd hbad (by simp)
  | some s =>
      rw [Option.any_some, List.any_eq_true] at hbad
      obtain ⟨w, hw, hlt⟩ := hbad
      exact absurd (hsafe s rfl w hw) (Nat.not_le.mpr (by simpa using hlt))

end

end Fidogate

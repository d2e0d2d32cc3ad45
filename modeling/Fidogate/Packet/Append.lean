/-
# `Fidogate.Packet.Append` — what a read leaves of the file

A read leaves no more than there was.  One that did not run into the end of the
file gives the same where more bytes follow.
-/
import Fidogate.Packet.Line

namespace Fidogate

open Bytes

/-! ## How much is left -/

theorem length_pktGetInt16 : ∀ fp : Str, (pktGetInt16 fp).2.length ≤ fp.length - 1
  | [] | [_] => Nat.le_refl 0
  | _ :: _ :: fp => by
      simp only [pktGetInt16, List.length_cons]
      omega

theorem length_pktGetDate (ck : Clock) (fp : Str) : (pktGetDate ck fp).2.length ≤ fp.length := by
  unfold pktGetDate
  split
  · exact Nat.zero_le _
  · rw [List.length_drop]
    omega

theorem length_readMsgField {fp : Str} {size limit : Nat} {strict : Bool} {s fp' : Str}
    (h : readMsgField fp size limit strict = some (s, fp')) : fp'.length ≤ fp.length := by
  unfold readMsgField at h
  dsimp only at h
  split at h
  · cases h
  · obtain ⟨-, rfl⟩ := Prod.mk.inj (Option.some.inj h)
    simp only [pktGetString, List.length_drop]
    omega

/-- A header takes at least one byte. -/
theorem length_pktGetMsgHdr {ck : Clock} {strict : Bool} {msg msg' : Message} {fp fp' : Str}
    (hfp : fp ≠ []) (h : pktGetMsgHdr ck strict msg fp = some (msg', fp')) :
    fp'.length < fp.length := by
  have hpos := List.length_pos_of_ne_nil hfp
  unfold pktGetMsgHdr at h
  dsimp only at h
  generalize hd : (pktGetDate ck (pktGetInt16 (pktGetInt16 (pktGetInt16 (pktGetInt16
    (pktGetInt16 (pktGetInt16 fp).2).2).2).2).2).2).2 = s at h
  have hs : s.length < fp.length := by
    have h0 := length_pktGetDate ck (pktGetInt16 (pktGetInt16 (pktGetInt16 (pktGetInt16
      (pktGetInt16 (pktGetInt16 fp).2).2).2).2).2).2
    have h1 := length_pktGetInt16 fp
    have h2 := length_pktGetInt16 (pktGetInt16 fp).2
    have h3 := length_pktGetInt16 (pktGetInt16 (pktGetInt16 fp).2).2
    have h4 := length_pktGetInt16 (pktGetInt16 (pktGetInt16 (pktGetInt16 fp).2).2).2
    have h5 := length_pktGetInt16 (pktGetInt16 (pktGetInt16 (pktGetInt16 (pktGetInt16 fp).2).2).2).2
    have h6 := length_pktGetInt16
      (pktGetInt16 (pktGetInt16 (pktGetInt16 (pktGetInt16 (pktGetInt16 fp).2).2).2).2).2
    rw [hd] at h0
    omega
  split at h
  · cases h
  · next s1 fp1 h1 =>
      split at h
      · cases h
      · next s2 fp2 h2 =>
          split at h
          · cases h
          · next s3 fp3 h3 =>
              obtain ⟨-, rfl⟩ := Prod.mk.inj (Option.some.inj h)
              have h1 := length_readMsgField h1
              have h2 := length_readMsgField h2
              have h3 := length_readMsgField h3
              omega

theorem length_pktGetLineLoop (b : Str) : ∀ (size : Nat) (readLf : Bool) (p fp : Str),
    (pktGetLineLoop b size readLf p fp).fp.length ≤ fp.length := by
  intro size readLf p fp
  fun_induction pktGetLineLoop b size readLf p fp <;> simp_all <;> omega

theorem length_pktGetBodyParseLoop (dst : Node) : ∀ (n : Nat) (st : ParseState) (b fp : Str),
    (pktGetBodyParseLoop dst n st b fp).fp.length ≤ fp.length
  | 0, _, _, _ => Nat.le_refl _
  | n + 1, st, b, fp => by
      have hline := length_pktGetLineLoop b BUFFERSIZE false [] fp
      rw [pktGetBodyParseLoop]
      split
      · split
        · exact (length_pktGetBodyParseLoop dst n _ _ _).trans hline
        · exact hline
      · exact hline

/-! ## Files that go on -/

section

variable {fp lost : Str}

theorem pktGetInt16_append (h : (pktGetInt16 fp).2 ≠ []) :
    pktGetInt16 (fp ++ lost) = ((pktGetInt16 fp).1, (pktGetInt16 fp).2 ++ lost) := by
  match fp with
  | [] => exact absurd rfl h
  | [_] => exact absurd rfl h
  | _ :: _ :: _ => rfl

theorem ne_nil_of_pktGetInt16 (h : (pktGetInt16 fp).2 ≠ []) : fp ≠ [] := by
  rintro rfl
  exact h rfl

theorem pktGetDate_append {ck : Clock} (h : (pktGetDate ck fp).2 ≠ []) :
    pktGetDate ck (fp ++ lost) = ((pktGetDate ck fp).1, (pktGetDate ck fp).2 ++ lost) := by
  unfold pktGetDate at h ⊢
  by_cases hlen : fp.length < MSG_MAXDATE
  · rw [if_pos hlen] at h
    exact absurd rfl h
  · have hle : MSG_MAXDATE ≤ fp.length := Nat.le_of_not_lt hlen
    rw [if_neg hlen, if_neg (by rw [List.length_append]; omega), List.take_append_of_le_length hle,
      List.drop_append_of_le_length hle]

theorem ne_nil_of_pktGetDate {ck : Clock} (h : (pktGetDate ck fp).2 ≠ []) : fp ≠ [] := by
  rintro rfl
  exact h rfl

theorem pktGetString_append {size : Nat} (h : (pktGetString fp size).2.2 ≠ []) :
    pktGetString (fp ++ lost) size = ((pktGetString fp size).1, (pktGetString fp size).2.1,
      (pktGetString fp size).2.2 ++ lost) := by
  have hlt : (fp.takeWhile (· != nul)).length + 1 < fp.length := by
    by_contra hle
    refine h ?_
    simp only [pktGetString, List.drop_drop]
    exact List.drop_of_length_le (Nat.le_of_not_lt hle)
  have htake : (fp ++ lost).takeWhile (· != nul) = fp.takeWhile (· != nul) := by
    rw [List.takeWhile_append, if_neg (by omega)]
  have hne : fp.drop (fp.takeWhile (· != nul)).length ≠ [] := by
    intro hnil
    have := List.drop_eq_nil_iff.mp hnil
    omega
  simp only [pktGetString, htake, List.drop_append_of_le_length (Nat.le_of_lt (Nat.lt_of_succ_lt hlt))]
  rw [if_neg hne, if_neg (List.append_ne_nil_of_left_ne_nil hne lost), List.drop_append_of_le_length]
  rw [List.length_drop]
  omega

theorem ne_nil_of_pktGetString {size : Nat} (h : (pktGetString fp size).2.2 ≠ []) : fp ≠ [] := by
  rintro rfl
  exact h rfl

theorem readMsgField_append (lost : Str) {size limit : Nat} {strict : Bool} {s fp' : Str}
    (h : readMsgField fp size limit strict = some (s, fp')) (hne : fp' ≠ []) :
    fp ≠ [] ∧ readMsgField (fp ++ lost) size limit strict = some (s, fp' ++ lost) := by
  unfold readMsgField at h ⊢
  dsimp only at h ⊢
  split at h
  · cases h
  · next hlim =>
      obtain ⟨rfl, rfl⟩ := Prod.mk.inj (Option.some.inj h)
      rw [pktGetString_append hne]
      exact ⟨ne_nil_of_pktGetString hne, if_neg hlim⟩

/-- A header that leaves something. -/
theorem pktGetMsgHdr_append {ck : Clock} {strict : Bool} {msg msg' : Message} {fp' : Str}
    (h : pktGetMsgHdr ck strict msg fp = some (msg', fp')) (hne : fp' ≠ []) :
    pktGetMsgHdr ck strict msg (fp ++ lost) = some (msg', fp' ++ lost) := by
  unfold pktGetMsgHdr at h ⊢
  dsimp only at h ⊢
  split at h
  · cases h
  · next s1 fp1 h1 =>
      split at h
      · cases h
      · next s2 fp2 h2 =>
          split at h
          · cases h
          · next s3 fp3 h3 =>
              obtain ⟨hmsg, rfl⟩ := Prod.mk.inj (Option.some.inj h)
              obtain ⟨ne3, h3⟩ := readMsgField_append lost h3 hne
              obtain ⟨ne2, h2⟩ := readMsgField_append lost h2 ne3
              obtain ⟨ne1, h1⟩ := readMsgField_append lost h1 ne2
              have ne0 := ne_nil_of_pktGetDate ne1
              have nec := ne_nil_of_pktGetInt16 ne0
              have nea := ne_nil_of_pktGetInt16 nec
              have net := ne_nil_of_pktGetInt16 nea
              have nef := ne_nil_of_pktGetInt16 net
              have nen := ne_nil_of_pktGetInt16 nef
              rw [pktGetInt16_append nen]
              dsimp only
              rw [pktGetInt16_append nef]
              dsimp only
              rw [pktGetInt16_append net]
              dsimp only
              rw [pktGetInt16_append nea]
              dsimp only
              rw [pktGetInt16_append nec]
              dsimp only
              rw [pktGetInt16_append ne0]
              dsimp only
              rw [pktGetDate_append ne1]
              dsimp only
              rw [h1]
              dsimp only
              rw [h2]
              dsimp only
              rw [h3]
              dsimp only
              rw [hmsg]

/-- A line that ended, and not because the file did. -/
theorem pktGetLineLoop_append (b : Str) (lost : Str) :
    ∀ (size : Nat) (readLf : Bool) (p fp : Str),
      (pktGetLineLoop b size readLf p fp).type ≠ .error →
      ((pktGetLineLoop b size readLf p fp).type = .line →
        (pktGetLineLoop b size readLf p fp).fp ≠ []) →
      pktGetLineLoop b size readLf p (fp ++ lost) =
        { pktGetLineLoop b size readLf p fp with
          fp := (pktGetLineLoop b size readLf p fp).fp ++ lost } := by
  intro size readLf p fp
  fun_induction pktGetLineLoop b size readLf p fp with
  | case1 | case2 => exact fun _ hline => absurd rfl (hline rfl)
  | case3 | case9 | case10 => exact fun herr _ => absurd rfl herr
  | case4 size readLf p c fp h =>
      intro _ _
      rw [List.cons_append, pktGetLineLoop.eq_def]
      exact if_pos h
  | case5 size readLf p c fp h h' =>
      intro _ _
      rw [List.cons_append, pktGetLineLoop.eq_def]
      exact (if_neg h).trans (if_pos h')
  | case6 size readLf p c h h' hc c1 c2 fp hend =>
      intro _ _
      rw [List.cons_append, List.cons_append, List.cons_append, pktGetLineLoop.eq_def]
      dsimp only
      rw [if_neg h, if_neg h', if_pos hc, if_pos hend]
  | case7 size readLf p c h h' hc c1 c2 fp hend hend' =>
      intro _ _
      rw [List.cons_append, List.cons_append, List.cons_append, pktGetLineLoop.eq_def]
      dsimp only
      rw [if_neg h, if_neg h', if_pos hc, if_neg hend, if_pos hend']
  | case8 size readLf p c h h' hc c1 c2 fp hend hend' cs ih =>
      intro herr hline
      rw [List.cons_append, List.cons_append, List.cons_append, pktGetLineLoop.eq_def]
      dsimp only
      rw [if_neg h, if_neg h', if_pos hc, if_neg hend, if_neg hend']
      exact ih herr hline
  | case11 size readLf p c h h' hc hc' c1 fp hend =>
      intro _ _
      rw [List.cons_append, List.cons_append, pktGetLineLoop.eq_def]
      dsimp only
      rw [if_neg h, if_neg h', if_neg hc, if_pos hc', if_pos hend]
  | case12 size readLf p c h h' hc hc' c1 fp hend ih =>
      intro herr hline
      rw [List.cons_append, List.cons_append, pktGetLineLoop.eq_def]
      dsimp only
      rw [if_neg h, if_neg h', if_neg hc, if_pos hc', if_neg hend]
      exact ih herr hline
  | case13 size readLf p c fp h h' hc hc' ih =>
      intro herr hline
      rw [List.cons_append, pktGetLineLoop.eq_def]
      dsimp only
      rw [if_neg h, if_neg h', if_neg hc, if_neg hc']
      exact ih herr hline

/-- A body that ended, and not because the file did. -/
theorem pktGetBodyParseLoop_append (dst : Node) (lost : Str) : ∀ (n m : Nat) (st : ParseState)
    (b fp : Str), n ≤ m → (pktGetBodyParseLoop dst n st b fp).code = OK →
    (pktGetBodyParseLoop dst n st b fp).type ≠ .error →
    pktGetBodyParseLoop dst m st b (fp ++ lost) =
      { pktGetBodyParseLoop dst n st b fp with
        fp := (pktGetBodyParseLoop dst n st b fp).fp ++ lost }
  | 0, _, _, _, _, _, hcode, _ => absurd (show ERROR = OK from hcode) (by decide)
  | n + 1, 0, _, _, _, hm, _, _ => absurd hm (Nat.not_succ_le_zero n)
  | n + 1, m + 1, st, b, fp, hm, hcode, herr => by
      have happ := pktGetLineLoop_append b lost BUFFERSIZE false [] fp
      rw [pktGetBodyParseLoop] at hcode herr ⊢
      rw [pktGetBodyParseLoop]
      dsimp only at hcode herr ⊢
      have hline : pktGetLine b fp = pktGetLineLoop b BUFFERSIZE false [] fp := rfl
      have hline' : pktGetLine b (fp ++ lost) = pktGetLineLoop b BUFFERSIZE false [] (fp ++ lost) :=
        rfl
      rw [← hline, ← hline'] at happ
      by_cases htype : (pktGetLine b fp).type = .line
      · rw [if_pos htype] at hcode herr ⊢
        cases hst : parseLine st (cstr (pktGetLine b fp).buf) with
        | none =>
            rw [hst] at hcode
            exact absurd hcode (by decide : ERROR ≠ OK)
        | some st' =>
            rw [hst] at hcode herr
            dsimp only at hcode herr
            have hne : (pktGetLine b fp).fp ≠ [] := by
              intro hnil
              rw [hnil] at hcode herr
              cases n with
              | zero => exact absurd (show ERROR = OK from hcode) (by decide)
              | succ n => exact herr rfl
            have happ := happ (by rw [htype]; exact LineType.noConfusion) fun _ => hne
            rw [happ]
            dsimp only
            rw [if_pos htype, hst]
            exact pktGetBodyParseLoop_append dst lost n m st' _ _ (Nat.le_of_succ_le_succ hm) hcode
              herr
      · rw [if_neg htype] at hcode herr ⊢
        have happ := happ herr fun h => absurd h htype
        rw [happ]
        dsimp only
        rw [if_neg htype]

theorem pktGetBodyParse_append (lost : Str) {dst : Node} {b : Str}
    (hcode : (pktGetBodyParse dst b fp).code = OK)
    (herr : (pktGetBodyParse dst b fp).type ≠ .error) :
    pktGetBodyParse dst b (fp ++ lost) =
      { pktGetBodyParse dst b fp with fp := (pktGetBodyParse dst b fp).fp ++ lost } :=
  pktGetBodyParseLoop_append dst lost _ _ _ b fp (by rw [List.length_append]; omega) hcode herr

/-- A body that ended was not empty. -/
theorem ne_nil_of_pktGetBodyParse {dst : Node} {b : Str}
    (herr : (pktGetBodyParse dst b fp).type ≠ .error) : fp ≠ [] := by
  rintro rfl
  exact herr rfl

end

end Fidogate

/-
# `Fidogate.Packet.Line` — which body lines `pkt_get_line` gives back

A line of a body is its text, a CR and any number of LFs.  The reader takes
the byte behind every 0x02 along with it, because 02 00 may be the start of
the next message in a grunged packet.  So a CR behind a 0x02 that is not
itself taken along by an earlier one does not end the line, and the reader
runs on into the next one — unless its buffer happens to be full at that
point.  `BodyLine.Kept` is the exact condition (`pktGetLine_kept`,
`pktGetLine_lost`).
-/
import Fidogate.Common.Message

namespace Fidogate

open Bytes

/-- A line of a message body. -/
structure BodyLine where
  text : Str
  lfs : Nat
  noNul : nul ∉ text
  noCr : cr ∉ text
  deriving DecidableEq

def BodyLine.bytes (l : BodyLine) : Str := l.text ++ cr :: List.replicate l.lfs lf

theorem BodyLine.nul_not_mem (l : BodyLine) : nul ∉ l.bytes := by
  intro h
  simp only [bytes, List.mem_append, List.mem_cons, List.mem_replicate] at h
  rcases h with h | h | ⟨-, h⟩
  · exact l.noNul h
  · exact absurd h (by decide)
  · exact absurd h (by decide)

theorem BodyLine.length_bytes (l : BodyLine) : l.bytes.length = l.text.length + 1 + l.lfs := by
  simp [bytes]
  omega

/-- Every 0x02 of the text has its second byte inside the text. -/
def stxPaired : Str → Bool
  | [] => true
  | c :: s =>
      if c == stx then
        match s with
        | [] => false
        | _ :: s => stxPaired s
      else stxPaired s

theorem stxPaired_cons {c : UInt8} (h : c ≠ stx) (s : Str) : stxPaired (c :: s) = stxPaired s := by
  rw [stxPaired.eq_def]
  simp [h]

/-- The line is read as it was written. -/
def BodyLine.Kept (l : BodyLine) : Prop :=
  if stxPaired l.text then l.bytes.length ≤ 32765
  else l.bytes.length = 32765 ∨ (l.lfs = 0 ∧ l.bytes.length = 32766)

instance (l : BodyLine) : Decidable l.Kept := by
  unfold BodyLine.Kept
  infer_instance

/-! ## One unit of the line after the other -/

section Loop

variable {b p rest : Str} {size : Nat} {r : Bool}

example : pktGetLineLoop [] 256 false [] [] = ⟨.error, overwrite [] [], []⟩ := by
  rw [pktGetLineLoop.eq_def]
  rfl

theorem loop_full (h : size ≤ 3) (fp : Str) :
    pktGetLineLoop b size r p fp = ⟨.line, store b p, fp⟩ := by
  rw [pktGetLineLoop.eq_def]
  cases fp with
  | nil => simp [h]
  | cons c fp => simp [h]

/-- Behind the CR anything but a LF ends the line. -/
theorem loop_eol (h : rest.head? ≠ some lf) :
    pktGetLineLoop b size true p rest = ⟨.line, store b p, rest⟩ := by
  rw [pktGetLineLoop.eq_def]
  cases rest with
  | nil => simp
  | cons c fp =>
      have hc : c ≠ lf := fun e => h (by rw [e]; rfl)
      simp [hc]

theorem loop_plain {c : UInt8} (hs : 3 < size) (h0 : c ≠ nul) (h2 : c ≠ stx) (hc : c ≠ cr)
    (fp : Str) :
    pktGetLineLoop b size false p (c :: fp) =
      pktGetLineLoop b (size - 1) false (p ++ [c]) fp := by
  have : ¬ size ≤ 3 := by omega
  have h4 : (c == cr) = false := beq_eq_false_iff_ne.mpr hc
  rw [pktGetLineLoop.eq_def]
  simp [this, h0, h2, h4]

theorem loop_cr (hs : 3 < size) (fp : Str) :
    pktGetLineLoop b size false p (cr :: fp) =
      pktGetLineLoop b (size - 1) true (p ++ [cr]) fp := by
  have : ¬ size ≤ 3 := by omega
  have h1 : (cr == nul) = false := rfl
  have h2 : (cr == stx) = false := rfl
  rw [pktGetLineLoop.eq_def]
  simp [this, h1, h2]

theorem loop_lf (hs : 3 < size) (fp : Str) :
    pktGetLineLoop b size r p (lf :: fp) = pktGetLineLoop b (size - 1) r (p ++ [lf]) fp := by
  have : ¬ size ≤ 3 := by omega
  have h1 : (lf == nul) = false := rfl
  have h2 : (lf == stx) = false := rfl
  have h3 : (lf == cr) = false := rfl
  rw [pktGetLineLoop.eq_def]
  simp [this, h1, h2, h3]

theorem loop_stx {c : UInt8} (hs : 3 < size) (hc : c ≠ nul) (fp : Str) :
    pktGetLineLoop b size false p (stx :: c :: fp) =
      pktGetLineLoop b (size - 2) false (p ++ [stx, c]) fp := by
  have : ¬ size ≤ 3 := by omega
  have h1 : (stx == nul) = false := rfl
  rw [pktGetLineLoop.eq_def]
  simp [this, h1, hc]

theorem loop_lfs : ∀ (k : Nat) {p : Str} {size : Nat}, k ≤ size - 3 →
    pktGetLineLoop b size r p (List.replicate k lf ++ rest) =
      pktGetLineLoop b (size - k) r (p ++ List.replicate k lf) rest
  | 0, p, size, _ => by simp
  | k + 1, p, size, h => by
      rw [List.replicate_succ, List.cons_append, loop_lf (by omega),
        loop_lfs k (by omega), List.append_assoc, List.singleton_append, Nat.sub_sub,
        Nat.add_comm 1 k]

/-- A text in which every 0x02 is paired goes into the buffer as it is. -/
theorem loop_text (t : Str) (p : Str) (size : Nat) (h0 : nul ∉ t) (hcr : cr ∉ t)
    (hp : stxPaired t = true) (hs : t.length + 3 ≤ size) :
    pktGetLineLoop b size false p (t ++ rest) =
      pktGetLineLoop b (size - t.length) false (p ++ t) rest := by
  induction t using stxPaired.induct generalizing p size with
  | case1 => simp
  | case2 c h => simp [stxPaired, h] at hp
  | case3 c h d s ih =>
      rw [beq_iff_eq] at h
      subst h
      have hd : d ≠ nul := fun e => h0 (by simp [e])
      rw [List.cons_append, List.cons_append, loop_stx (by simp at hs; omega) hd]
      rw [ih _ _ (fun h => h0 (by simp [h])) (fun h => hcr (by simp [h]))
        (by simpa [stxPaired] using hp) (by simp at hs; omega)]
      have hn : size - 2 - s.length = size - (s.length + 1 + 1) := by omega
      simp [hn]
  | case4 c s h ih =>
      have h2 : c ≠ stx := by simpa using h
      rw [List.cons_append, loop_plain (by simp at hs; omega) (fun e => h0 (by simp [e])) h2
        (fun e => hcr (by simp [e]))]
      rw [ih _ _ (fun h => h0 (by simp [h])) (fun h => hcr (by simp [h]))
        (by rwa [stxPaired_cons h2] at hp) (by simp at hs; omega)]
      simp [Nat.sub_sub, Nat.add_comm]

end Loop

theorem exists_of_not_stxPaired : ∀ {t : Str}, stxPaired t = false →
    ∃ s, t = s ++ [stx] ∧ stxPaired s = true := by
  intro t h
  induction t using stxPaired.induct with
  | case1 => simp [stxPaired] at h
  | case2 c hc =>
      rw [beq_iff_eq] at hc
      exact ⟨[], by simp [hc], rfl⟩
  | case3 c hc d s ih =>
      obtain ⟨s', rfl, hs'⟩ := ih (by simpa [stxPaired, hc] using h)
      exact ⟨c :: d :: s', rfl, by simpa [stxPaired, hc] using hs'⟩
  | case4 c s hc ih =>
      have h2 : c ≠ stx := by simpa using hc
      rw [stxPaired_cons h2] at h
      obtain ⟨s', rfl, hs'⟩ := ih h
      exact ⟨c :: s', rfl, by rwa [stxPaired_cons h2]⟩

/-! ## What the buffer can hold at the end -/

/-- What a result of the loop has in common with the arguments it started
from: the buffer text grew by a `q` there was room for, and by something where
a line ended with room left. -/
def Grew (b : Str) (size : Nat) (r : Bool) (p : Str) (g : GotLine) : Prop :=
  g.type = .error ∨ ∃ q, nul ∉ q ∧ g.buf = store b (p ++ q) ∧ (q ≠ [] → q.length + 2 ≤ size) ∧
    (g.type = .line → r = false → 3 < size → q ≠ [])

theorem Grew.stay {b p : Str} {size : Nat} {r : Bool} {t : LineType} {fp : Str}
    (h : t = .line → r = false → 3 < size → False) :
    Grew b size r p ⟨t, store b p, fp⟩ :=
  .inr ⟨[], by simp, by simp, by simp, fun h1 h2 h3 => (h h1 h2 h3).elim⟩

/-- A unit `u` went into the buffer first. -/
theorem Grew.unit {b p : Str} {size : Nat} {r r' : Bool} {g : GotLine} (u : Str) (hu : nul ∉ u)
    (hu0 : u ≠ []) (hlen : u.length ≤ 2) (hs : 3 < size)
    (h : Grew b (size - u.length) r' (p ++ u) g) : Grew b size r p g := by
  rcases h with h | ⟨q, hq, hbuf, hlq, -⟩
  · exact .inl h
  · refine .inr ⟨u ++ q, ?_, ?_, ?_, ?_⟩
    · simpa using ⟨hu, hq⟩
    · rw [hbuf, List.append_assoc]
    · intro _
      by_cases hq0 : q = []
      · subst hq0
        simp
        omega
      · have := hlq hq0
        simp
        omega
    · intro _ _ _ h
      exact hu0 (List.append_eq_nil_iff.mp h).1

theorem loop_grew (b : Str) (size : Nat) (r : Bool) (p fp : Str) :
    Grew b size r p (pktGetLineLoop b size r p fp) := by
  fun_induction pktGetLineLoop b size r p fp with
  | case1 size r p h => exact .stay (fun _ _ h' => by omega)
  | case2 size p h => exact .stay (fun _ h' _ => by cases h')
  | case3 => exact .inl rfl
  | case4 size r p c fp h => exact .stay (fun _ _ h' => by omega)
  | case5 size r p c fp h hr => exact .stay (fun _ h' _ => by simp [h'] at hr)
  | case6 => exact .stay (fun h => by cases h)
  | case7 => exact .stay (fun h => by cases h)
  | case8 size r p c h hr hc c1 c2 fp h1 h2 cs ih =>
      refine .unit cs ?_ ?_ ?_ (by omega) ih
      · simp [cs]
      · intro he
        simp only [cs, List.filter_eq_nil_iff, List.mem_cons, List.not_mem_nil, or_false,
          bne_iff_ne, ne_eq, not_not] at he
        have e1 := he c1 (Or.inl rfl)
        have e2 := he c2 (Or.inr rfl)
        simp [e1, e2] at h2
      · exact List.length_filter_le _ _
  | case9 => exact .inl rfl
  | case10 => exact .inl rfl
  | case11 => exact .stay (fun h => by cases h)
  | case12 size r p c h hr hc hstx c1 fp h1 ih =>
      have h0 : nul ≠ c := fun e => hc (by rw [← e]; rfl)
      have h2 : nul ≠ c1 := fun e => h1 (by rw [← e]; rfl)
      exact .unit [c, c1] (by simp [h0, h2]) (by simp) (by simp) (by omega) ih
  | case13 size r p c fp h hr hc hstx ih =>
      have h0 : nul ≠ c := fun e => hc (by rw [← e]; rfl)
      exact .unit [c] (by simp [h0]) (by simp) (by simp) (by omega) ih

/-! ## The two directions -/

/-- The text, the CR and `k` LFs, where the CR ends the line. -/
theorem loop_paired {t : Str} (h0 : nul ∉ t) (hcr : cr ∉ t) (hp : stxPaired t = true)
    (b : Str) (k : Nat) (rest : Str) (hs : t.length + k ≤ 32764) :
    pktGetLine b (t ++ cr :: (List.replicate k lf ++ rest)) =
      pktGetLineLoop b (32768 - (t.length + 1 + k)) true (t ++ cr :: List.replicate k lf) rest := by
  rw [pktGetLine, show BUFFERSIZE = 32768 from rfl, loop_text _ _ _ h0 hcr hp (by omega),
    loop_cr (by omega), loop_lfs k (by omega), Nat.sub_sub, Nat.sub_sub]
  simp [Nat.add_assoc]

/-- The same where a 0x02 at the end of the text takes the CR along. -/
theorem loop_unpaired {t : Str} (h0 : nul ∉ t) (hcr : cr ∉ t) (hp : ¬ stxPaired t = true)
    (b : Str) (k : Nat) (rest : Str) (hs : t.length + k ≤ 32764 ∨ t.length = 32765 ∧ k = 0) :
    pktGetLine b (t ++ cr :: (List.replicate k lf ++ rest)) =
      pktGetLineLoop b (32768 - (t.length + 1 + k)) false (t ++ cr :: List.replicate k lf) rest := by
  obtain ⟨s, rfl, hsp⟩ := exists_of_not_stxPaired (Bool.not_eq_true _ ▸ hp)
  simp only [List.length_append, List.length_singleton] at hs
  have h0' : nul ∉ s := fun hm => h0 (by simp [hm])
  have hc' : cr ∉ s := fun hm => hcr (by simp [hm])
  rw [List.append_assoc, List.singleton_append, pktGetLine, show BUFFERSIZE = 32768 from rfl,
    loop_text _ _ _ h0' hc' hsp (by omega),
    loop_stx (show 3 < 32768 - s.length by omega) (show cr ≠ nul by decide),
    loop_lfs k (by omega), Nat.sub_sub, Nat.sub_sub]
  simp [Nat.add_assoc]

/-- A kept line is the next line read, whatever follows it. -/
theorem pktGetLine_kept {l : BodyLine} (h : l.Kept) (b : Str) {rest : Str}
    (hr : rest.head? ≠ some lf) :
    pktGetLine b (l.bytes ++ rest) = ⟨.line, store b l.bytes, rest⟩ := by
  have hlen := l.length_bytes
  have happ : l.bytes ++ rest = l.text ++ cr :: (List.replicate l.lfs lf ++ rest) := by
    simp [BodyLine.bytes]
  rw [happ]
  by_cases hp : stxPaired l.text = true
  · rw [BodyLine.Kept, if_pos hp] at h
    rw [loop_paired l.noNul l.noCr hp b _ _ (by omega), loop_eol hr]
    rfl
  · rw [BodyLine.Kept, if_neg hp] at h
    rw [loop_unpaired l.noNul l.noCr hp b _ _ (by omega), loop_full (by omega)]
    rfl

/-- Bytes without a NUL that fill the buffer end the line. -/
theorem loop_line (b rest : Str) : ∀ (s : Str) (size : Nat) (r : Bool) (p : Str), nul ∉ s →
    size ≤ s.length + 2 → (pktGetLineLoop b size r p (s ++ rest)).type = .line
  | [], size, r, p, _, hs => by
      rw [loop_full (by simp at hs; omega)]
  | c :: s, size, r, p, h0, hs => by
      by_cases h3 : size ≤ 3
      · rw [loop_full h3]
      by_cases he : (r && c != lf) = true
      · rw [List.cons_append, pktGetLineLoop.eq_def]
        simp only [h3, if_false, he, if_true]
      have hc : (c == nul) = false := beq_eq_false_iff_ne.mpr fun e => h0 (by simp [e])
      by_cases hstx : c = stx
      · subst hstx
        match s, h0, hs with
        | [], _, hs => exact absurd hs (by simp; omega)
        | d :: s, h0, hs =>
            have hd : (d == nul) = false := beq_eq_false_iff_ne.mpr fun e => h0 (by simp [e])
            have ih := loop_line b rest s (size - 2) r (p ++ [stx, d])
              (fun h => h0 (by simp [h])) (by simp at hs; omega)
            rw [List.cons_append, List.cons_append, pktGetLineLoop.eq_def]
            simp only [h3, he, hc, hd, if_false, beq_self_eq_true, if_true, Bool.false_eq_true]
            exact ih
      · have ih := loop_line b rest s (size - 1) (r || c == cr) (p ++ [c])
          (fun h => h0 (by simp [h])) (by simp at hs; omega)
        rw [List.cons_append, pktGetLineLoop.eq_def]
        simp only [h3, he, hc, if_false, beq_iff_eq, hstx, Bool.false_eq_true]
        exact ih

/-- What the reader breaks off in front of the last byte is not the line. -/
theorem broken_off {l : BodyLine} {b rest : Str} {k : Nat} {fp : Str}
    (h : pktGetLine b (l.bytes ++ rest) = ⟨.line, store b (l.text ++ cr :: List.replicate k lf), fp⟩)
    (hk : k + 1 = l.lfs) :
    ∃ q, nul ∉ q ∧ pktGetLine b (l.bytes ++ rest) = ⟨.line, store b q, fp⟩ ∧
      q.length + 1 = l.bytes.length := by
  refine ⟨_, ?_, h, ?_⟩
  · intro hm
    simp only [List.mem_append, List.mem_cons, List.mem_replicate] at hm
    rcases hm with hm | hm | ⟨-, hm⟩
    · exact l.noNul hm
    · exact absurd hm (by decide)
    · exact absurd hm (by decide)
  · rw [l.length_bytes]
    simp
    omega

/-- What is in the buffer behind a line that is not kept: the reader broke it
off, or it ran on behind its end. -/
theorem pktGetLine_lost {l : BodyLine} (h : ¬ l.Kept) (b rest : Str) :
    (pktGetLine b (l.bytes ++ rest)).type = .error ∨
    ∃ q, nul ∉ q ∧ (pktGetLine b (l.bytes ++ rest)).buf = store b q ∧ q.length ≤ 32766 ∧
      ((pktGetLine b (l.bytes ++ rest)).type = .line ∧ q ≠ l.bytes ∨
        (pktGetLine b (l.bytes ++ rest)).type ≠ .line ∧ l.bytes <+: q) := by
  have hlen := l.length_bytes
  by_cases hlong : 32767 ≤ l.bytes.length
  · -- longer than anything the buffer can hold
    have hline := loop_line b rest l.bytes BUFFERSIZE false [] l.nul_not_mem
      (by simp [BUFFERSIZE]; omega)
    rcases loop_grew b BUFFERSIZE false [] (l.bytes ++ rest) with he | ⟨q, hq, hbuf, hlq, -⟩
    · exact .inl he
    · have hql : q.length ≤ 32766 := by
        by_cases hq0 : q = []
        · simp [hq0]
        · have := hlq hq0
          simp [BUFFERSIZE] at this
          omega
      exact .inr ⟨q, hq, hbuf, hql, .inl ⟨hline, fun e => by rw [e] at hql; omega⟩⟩
  by_cases hfull : l.bytes.length = 32766
  · -- broken off in front of its last byte
    obtain ⟨q, fp, hq, hget, hql⟩ : ∃ q fp, nul ∉ q ∧
        pktGetLine b (l.bytes ++ rest) = ⟨.line, store b q, fp⟩ ∧
        q.length + 1 = l.bytes.length := by
      by_cases hlfs : l.lfs = 0
      · have hp : stxPaired l.text = true := by
          by_contra hp
          exact h (by rw [BodyLine.Kept, if_neg hp]; exact .inr ⟨hlfs, hfull⟩)
        refine ⟨l.text, cr :: rest, l.noNul, ?_, by omega⟩
        have happ : l.bytes ++ rest = l.text ++ cr :: rest := by simp [BodyLine.bytes, hlfs]
        rw [happ, pktGetLine, show BUFFERSIZE = 32768 from rfl,
          loop_text _ _ _ l.noNul l.noCr hp (by omega), loop_full (by omega)]
        rfl
      · obtain ⟨k, hk⟩ : ∃ k, k + 1 = l.lfs := ⟨l.lfs - 1, by omega⟩
        have happ : l.bytes ++ rest = l.text ++ cr :: (List.replicate k lf ++ lf :: rest) := by
          simp [BodyLine.bytes, ← hk, List.replicate_succ']
        have hget : pktGetLine b (l.bytes ++ rest) =
            ⟨.line, store b (l.text ++ cr :: List.replicate k lf), lf :: rest⟩ := by
          rw [happ]
          by_cases hp : stxPaired l.text = true
          · rw [loop_paired l.noNul l.noCr hp b _ _ (by omega), loop_full (by omega)]
          · rw [loop_unpaired l.noNul l.noCr hp b _ _ (by omega), loop_full (by omega)]
        obtain ⟨q, hq, hget, hql⟩ := broken_off hget hk
        exact ⟨q, _, hq, hget, hql⟩
    right
    rw [hget]
    exact ⟨q, hq, rfl, by omega, .inl ⟨rfl, fun e => by rw [e] at hql; omega⟩⟩
  · -- a 0x02 took the CR along, and there is room for more
    have hp : ¬ stxPaired l.text = true := fun hp =>
      h (by rw [BodyLine.Kept, if_pos hp]; omega)
    rw [BodyLine.Kept, if_neg hp] at h
    have hget : pktGetLine b (l.bytes ++ rest) =
        pktGetLineLoop b (32768 - l.bytes.length) false l.bytes rest := by
      have happ : l.bytes ++ rest = l.text ++ cr :: (List.replicate l.lfs lf ++ rest) := by
        simp [BodyLine.bytes]
      rw [happ, loop_unpaired l.noNul l.noCr hp b _ _ (by omega), hlen]
      rfl
    rw [hget]
    rcases loop_grew b (32768 - l.bytes.length) false l.bytes rest with he | ⟨q, hq, hbuf, hlq, hl⟩
    · exact .inl he
    · refine .inr ⟨l.bytes ++ q, ?_, hbuf, ?_, ?_⟩
      · simpa using ⟨l.nul_not_mem, hq⟩
      · by_cases hq0 : q = []
        · simp [hq0]
          omega
        · have := hlq hq0
          simp
          omega
      · by_cases ht : (pktGetLineLoop b (32768 - l.bytes.length) false l.bytes rest).type = .line
        · have hq0 := hl ht rfl (by omega)
          exact .inl ⟨ht, by simpa using hq0⟩
        · exact .inr ⟨ht, List.prefix_append _ _⟩

end Fidogate

/-
# `Fidogate.Gate.PutLine` — packet.c: the line ends of a text in a packet

`pkt_put_line` beside what it is for.  Its `met_cr` is reset by a byte of the
text, but not by the LF that belongs to the CR: of the LFs behind one CR all are
dropped, and so are the empty lines that a text with CR LF and LF ends has there.
-/
import Fidogate.Gate.Split

namespace Fidogate

open Bytes

/-! ## Line ends -/

/-- The text with one CR for every LF and every CR LF. -/
def lineEndsCr : Str → Str
  | [] => []
  | [c] => [if c = lf then cr else c]
  | c :: d :: s =>
      if c = lf then cr :: lineEndsCr (d :: s)
      else if c = cr ∧ d = lf then cr :: lineEndsCr s
      else c :: lineEndsCr (d :: s)

/-- The line ends of a text: each has one LF. -/
def lineEnds (s : Str) : Nat := s.count lf

/-- The text is written with its line ends, and a reader sees as many lines. -/
def PutsLines (s : Str) : Prop :=
  pktPutLine s = lineEndsCr s ∧ (pktPutLine s).count cr = lineEnds s

/-- Every CR belongs to a CR LF. -/
def CrPaired (s : Str) : Prop := ∀ a b, s = a ++ cr :: b → b.head? = some lf

theorem crPaired_cons {c : UInt8} {s : Str} :
    CrPaired (c :: s) ↔ (c = cr → s.head? = some lf) ∧ CrPaired s := by
  constructor
  · intro h
    exact ⟨fun hc => h [] s (hc ▸ rfl), fun a b hs => h (c :: a) b (hs ▸ rfl)⟩
  · rintro ⟨hc, hs⟩ a b h
    cases a with
    | nil =>
      obtain ⟨rfl, rfl⟩ := List.cons.inj h
      exact hc rfl
    | cons x a => exact hs a b (List.cons.inj h).2

/-! ## The loop -/

theorem putLine_lf (b : Bool) (s : Str) :
    pktPutLineLoop b (lf :: s) = (if b then [] else [cr]) ++ pktPutLineLoop b s := rfl

theorem putLine_cr (b : Bool) (s : Str) :
    pktPutLineLoop b (cr :: s) = cr :: pktPutLineLoop true s := rfl

theorem putLine_byte {c : UInt8} (hcr : c ≠ cr) (hlf : c ≠ lf) (b : Bool) (s : Str) :
    pktPutLineLoop b (c :: s) = c :: pktPutLineLoop false s := by
  rw [pktPutLineLoop, if_neg hcr, if_neg hlf]

/-- `met_cr` matters to an LF only. -/
theorem putLine_metCr {s : Str} (h : s.head? ≠ some lf) :
    pktPutLineLoop true s = pktPutLineLoop false s := by
  cases s with
  | nil => rfl
  | cons c s =>
    have hlf : c ≠ lf := fun hc => h (congrArg some hc)
    by_cases hcr : c = cr
    · rw [hcr, putLine_cr, putLine_cr]
    · rw [putLine_byte hcr hlf, putLine_byte hcr hlf]

/-! ## The text by its line ends -/

theorem lineEndsCr_lf (s : Str) : lineEndsCr (lf :: s) = cr :: lineEndsCr s := by
  cases s <;> rfl

theorem lineEndsCr_crlf (s : Str) : lineEndsCr (cr :: lf :: s) = cr :: lineEndsCr s := rfl

theorem lineEndsCr_byte {c : UInt8} {s : Str} (hlf : c ≠ lf)
    (h : c = cr → s.head? ≠ some lf) : lineEndsCr (c :: s) = c :: lineEndsCr s := by
  cases s with
  | nil => exact congrArg (· :: []) (if_neg hlf)
  | cons d s => rw [lineEndsCr, if_neg hlf, if_neg fun hcd => h hcd.1 (congrArg some hcd.2)]

/-- A text is read an LF, a CR LF or another byte at a time. -/
@[elab_as_elim]
theorem lineEnds_induction {P : Str → Prop} (nil : P []) (lone : ∀ s, P s → P (lf :: s))
    (pair : ∀ s, P s → P (cr :: lf :: s))
    (byte : ∀ c s, c ≠ lf → (c = cr → s.head? ≠ some lf) → P s → P (c :: s)) (s : Str) : P s := by
  induction s using lineEndsCr.induct with
  | case1 => exact nil
  | case2 c =>
    by_cases hc : c = lf
    · rw [hc]
      exact lone [] nil
    · exact byte c [] hc (fun _ => Option.some_ne_none lf |>.symm) nil
  | case3 d s ih => exact lone _ ih
  | case4 c d s _ h ih =>
    obtain ⟨rfl, rfl⟩ := h
    exact pair s ih
  | case5 c d s hc h ih => exact byte c _ hc (fun hcr hd => h ⟨hcr, Option.some.inj hd⟩) ih

/-- The loop never writes a CR too many. -/
theorem count_putLine_le (s : Str) :
    ∀ b, (pktPutLineLoop b s).count cr ≤ (lineEndsCr s).count cr := by
  induction s using lineEnds_induction with
  | nil => exact fun b => Nat.le_refl _
  | lone s ih =>
    intro b
    rw [putLine_lf, lineEndsCr_lf, List.count_cons_self, List.count_append]
    have := ih b
    cases b
    · rw [if_neg Bool.false_ne_true, List.count_cons_self, List.count_nil]
      omega
    · rw [if_pos rfl, List.count_nil]
      omega
  | pair s ih =>
    intro b
    rw [putLine_cr, putLine_lf, if_pos rfl, List.nil_append, lineEndsCr_crlf,
      List.count_cons_self, List.count_cons_self]
    exact Nat.succ_le_succ (ih true)
  | byte c s hlf hcr ih =>
    intro b
    rw [lineEndsCr_byte hlf hcr]
    by_cases hc : c = cr
    · rw [hc, putLine_cr, List.count_cons_self, List.count_cons_self]
      exact Nat.succ_le_succ (ih true)
    · rw [putLine_byte hc hlf, List.count_cons_of_ne hc, List.count_cons_of_ne hc]
      exact ih false

/-- An LF behind one that a CR has taken along is lost. -/
theorem putLine_lost (s : Str) : pktPutLineLoop true (lf :: s) ≠ lineEndsCr (lf :: s) := by
  intro h
  have hle := count_putLine_le s true
  rw [putLine_lf, if_pos rfl, List.nil_append, lineEndsCr_lf] at h
  rw [h, List.count_cons_self] at hle
  omega

theorem infix_cons_of_ne {a c : UInt8} {x s : Str} (h : a ≠ c) :
    a :: x <:+: c :: s ↔ a :: x <:+: s := by
  rw [List.infix_cons_iff, List.cons_prefix_cons]
  exact or_iff_right fun hp => h hp.1

/-- The line ends are written right exactly where no LF follows a CR LF. -/
theorem pktPutLine_eq_iff (s : Str) : pktPutLine s = lineEndsCr s ↔ ¬ [cr, lf, lf] <:+: s := by
  unfold pktPutLine
  induction s using lineEnds_induction with
  | nil => simp [pktPutLineLoop, lineEndsCr]
  | lone s ih =>
    rw [putLine_lf, if_neg Bool.false_ne_true, lineEndsCr_lf, List.singleton_append,
      List.cons_inj_right, ih, infix_cons_of_ne (by decide)]
  | pair s ih =>
    rw [putLine_cr, putLine_lf, if_pos rfl, List.nil_append, lineEndsCr_crlf, List.cons_inj_right,
      List.infix_cons_iff, infix_cons_of_ne (by decide), not_or, ← ih]
    by_cases hs : s.head? = some lf
    · obtain ⟨t, rfl⟩ : ∃ t, s = lf :: t := by
        cases s with
        | nil => cases hs
        | cons d t => exact ⟨t, by rw [Option.some.inj hs]⟩
      exact iff_of_false (putLine_lost t) fun h => h.1 ⟨t, rfl⟩
    · have hp : ¬ [cr, lf, lf] <+: cr :: lf :: s := by
        rintro ⟨t, ht⟩
        have hs' : lf :: t = s := (List.cons.inj (List.cons.inj ht).2).2
        exact hs (hs' ▸ rfl)
      rw [putLine_metCr hs]
      exact (and_iff_right hp).symm
  | byte c s hlf hcr ih =>
    rw [lineEndsCr_byte hlf hcr]
    by_cases hc : c = cr
    · subst hc
      have hp : ¬ [cr, lf, lf] <+: cr :: s := by
        rintro ⟨t, ht⟩
        have hs' : lf :: lf :: t = s := (List.cons.inj ht).2
        exact hcr rfl (hs' ▸ rfl)
      rw [putLine_cr, putLine_metCr (hcr rfl), List.cons_inj_right, List.infix_cons_iff, ih]
      exact not_congr (or_iff_right hp).symm
    · rw [putLine_byte hc hlf, List.cons_inj_right, ih, infix_cons_of_ne (Ne.symm hc)]

/-- With the line ends written right, a reader sees the CRs that belong to none as well. -/
theorem count_lineEndsCr (s : Str) :
    lineEnds s ≤ (lineEndsCr s).count cr ∧
      ((lineEndsCr s).count cr = lineEnds s ↔ CrPaired s) := by
  unfold lineEnds
  induction s using lineEnds_induction with
  | nil => exact ⟨Nat.le_refl _, fun _ a b h => by simp at h, fun _ => rfl⟩
  | lone s ih =>
    rw [lineEndsCr_lf, List.count_cons_self, List.count_cons_self, crPaired_cons, ← ih.2]
    simp only [Nat.add_le_add_iff_right, Nat.add_right_cancel_iff]
    exact ⟨ih.1, (and_iff_right fun h => absurd h (by decide)).symm⟩
  | pair s ih =>
    rw [lineEndsCr_crlf, List.count_cons_self, List.count_cons_of_ne (by decide),
      List.count_cons_self, crPaired_cons, crPaired_cons, ← ih.2]
    simp only [Nat.add_le_add_iff_right, Nat.add_right_cancel_iff]
    exact ⟨ih.1, ((and_iff_right fun _ => rfl).trans
      (and_iff_right fun h => absurd h (by decide))).symm⟩
  | byte c s hlf hcr ih =>
    rw [lineEndsCr_byte hlf hcr, crPaired_cons, ← ih.2, List.count_cons_of_ne hlf]
    by_cases hc : c = cr
    · rw [hc, List.count_cons_self]
      exact ⟨by omega, iff_of_false (by omega) fun h => hcr hc (h.1 rfl)⟩
    · rw [List.count_cons_of_ne hc]
      exact ⟨ih.1, (and_iff_right fun h => absurd h hc).symm⟩

/-- Of an empty line behind a CR LF nothing is written. -/
theorem putsLines_lost : ¬ PutsLines [97, cr, lf, lf, 98] := by
  rintro ⟨h, -⟩
  exact absurd h (by decide)

/-- A text is written with its lines exactly where no LF follows a CR LF and no CR stands
alone. -/
theorem putsLines_iff (s : Str) : PutsLines s ↔ ¬ [cr, lf, lf] <:+: s ∧ CrPaired s := by
  rw [PutsLines, ← pktPutLine_eq_iff, ← (count_lineEndsCr s).2]
  exact and_congr_right fun h => by rw [h]

example : pktPutLine [97, cr, lf, cr, lf, lf, 98] = [97, cr, cr, 98] := by decide

end Fidogate

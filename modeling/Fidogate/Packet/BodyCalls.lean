/-
# `Fidogate.Packet.BodyCalls` — message.c: `pkt_get_line` call after call

The lines of a body read with a buffer of any size, up to the end that follows
it, and what they are to be: `BodySplit`.  `linesFrom` is all calls in one.
-/
import Fidogate.Packet.RoundTrip

namespace Fidogate

open Bytes

/-! ## The calls -/

/-- What the calls give: the lines returned with 1, and what the last call found. -/
structure BodyLines where
  lines : List Str
  last : Str
  type : LineType
  fp : Str

/-- Lines in front. -/
def BodyLines.after (ls : List Str) (g : BodyLines) : BodyLines := { g with lines := ls ++ g.lines }

/-- `pkt_get_line(fp, buf, size)` up to the call that does not return 1; no outcome on an
error. -/
def pktGetLines (size : Nat) : Nat → Str → Str → Option BodyLines
  | 0, _, _ => none
  | calls + 1, b, fp =>
      let r := pktGetLineLoop b size false [] fp
      match r.type with
      | .line => (pktGetLines size calls r.buf r.fp).map (BodyLines.after [cstr r.buf])
      | .error => none
      | t => some ⟨[], cstr r.buf, t, r.fp⟩

/-! ## What the lines are to be -/

/-- The buffer has no room for another unit behind the line. -/
def LineFull (size : Nat) (l : Str) : Prop := size ≤ l.length + 3

/-- A line ends with a CR and all LFs behind it, or where the buffer is full. -/
def LineEnd (size : Nat) (l rest : Str) : Prop :=
  (∃ t k, cr ∉ t ∧ l = t ++ cr :: List.replicate k lf ∧ (rest.head? ≠ some lf ∨ LineFull size l)) ∨
    cr ∉ l ∧ LineFull size l

/-- A text in lines, with the incomplete line at its end. -/
inductive InLines (size : Nat) : Str → List Str → Str → Prop
  | last {t : Str} : cr ∉ t → InLines size t [] t
  | line {l rest t : Str} {ls : List Str} : LineEnd size l rest → InLines size rest ls t →
      InLines size (l ++ rest) (l :: ls) t

/-- The body, but for its orphans, is returned in lines, and the end is found where it is. -/
def BodySplit (size : Nat) (body : Str) (t : LineType) : Prop :=
  ∀ b rest, ∃ calls g, pktGetLines size calls b (body ++ nul :: endByte t :: nul :: rest) = some g ∧
    g.type = t ∧ g.fp = rest ∧ InLines size (body.filter (· != nul)) g.lines g.last

/-! ## All calls in one -/

/-- All calls, from `room` places left behind what `p` has of a line on. -/
def linesFrom (size : Nat) : Nat → Bool → Str → Str → Option BodyLines
  | _, _, _, [] => none
  | room, r, p, c :: fp =>
      let ended := room ≤ 3 || (r && c != lf)
      let ls := if ended then [p] else []
      let room := if ended then size else room
      let r := if ended then false else r
      let p := if ended then [] else p
      Option.map (BodyLines.after ls)
        (if c == nul then
          match fp with
          | c1 :: c2 :: fp =>
              if c2 == nul && c1 == stx then some ⟨[], p, .msgType, fp⟩
              else if c2 == nul && c1 == nul then some ⟨[], p, .msgEnd, fp⟩
              else
                let cs := [c1, c2].filter (· != nul)
                linesFrom size (room - cs.length) r (p ++ cs) fp
          | _ => none
        else if c == stx then
          match fp with
          | [] => none
          | c1 :: fp =>
              if c1 == nul then some ⟨[], p, .msgType, fp⟩
              else linesFrom size (room - 2) r (p ++ [c, c1]) fp
        else linesFrom size (room - 1) (r || c == cr) (p ++ [c]) fp)

example : linesFrom 256 256 false [] [] = none := by
  rw [linesFrom.eq_def]

/-- The line is over in front of the next byte. -/
def LineEnds (room : Nat) (r : Bool) (c : UInt8) : Prop := room ≤ 3 ∨ r = true ∧ c ≠ lf

theorem after_nil (x : Option BodyLines) : x.map (BodyLines.after []) = x := by
  cases x <;> rfl

section

variable {size room : Nat} {r : Bool} {c : UInt8} {p fp : Str}

theorem ended_iff : (decide (room ≤ 3) || (r && c != lf)) = true ↔ LineEnds room r c := by
  simp [LineEnds]

theorem ended_false (h : ¬ LineEnds room r c) : (decide (room ≤ 3) || (r && c != lf)) = false :=
  Bool.eq_false_iff.mpr (mt ended_iff.mp h)

theorem not_ended_new (hs : 3 < size) : ¬ LineEnds size false c := by
  rintro (h | ⟨h, -⟩)
  · omega
  · cases h

theorem not_ended (h : ¬ room ≤ 3) (hr : ¬ (r && c != lf) = true) : ¬ LineEnds room r c :=
  fun he => absurd (ended_iff.mpr he) (by simp [h, hr])

theorem linesFrom_ended (hs : 3 < size) (h : LineEnds room r c) :
    linesFrom size room r p (c :: fp) =
      (linesFrom size size false [] (c :: fp)).map (BodyLines.after [p]) := by
  conv_rhs => rw [linesFrom.eq_def]
  rw [linesFrom.eq_def]
  dsimp only
  rw [ended_iff.mpr h, ended_false (not_ended_new (c := c) hs)]
  simp only [if_true, Bool.false_eq_true, if_false, after_nil]

theorem linesFrom_byte (h : ¬ LineEnds room r c) (h0 : c ≠ nul) (h2 : c ≠ stx) :
    linesFrom size room r p (c :: fp) =
      linesFrom size (room - 1) (r || c == cr) (p ++ [c]) fp := by
  rw [linesFrom.eq_def]
  dsimp only
  rw [ended_false h, beq_false_of_ne h0, beq_false_of_ne h2]
  exact after_nil _

theorem linesFrom_stx {d : UInt8} (h : ¬ LineEnds room r stx) (hd : d ≠ nul) :
    linesFrom size room r p (stx :: d :: fp) =
      linesFrom size (room - 2) r (p ++ [stx, d]) fp := by
  rw [linesFrom.eq_def]
  dsimp only
  rw [ended_false h, beq_false_of_ne hd]
  exact after_nil _

theorem linesFrom_grunged (h : ¬ LineEnds room r stx) :
    linesFrom size room r p (stx :: nul :: fp) = some ⟨[], p, .msgType, fp⟩ := by
  rw [linesFrom.eq_def]
  dsimp only
  rw [ended_false h]
  rfl

theorem linesFrom_end {t : LineType} (ht : t = .msgType ∨ t = .msgEnd) (h : ¬ LineEnds room r nul) :
    linesFrom size room r p (nul :: endByte t :: nul :: fp) = some ⟨[], p, t, fp⟩ := by
  rw [linesFrom.eq_def]
  dsimp only
  rw [ended_false h]
  rcases ht with rfl | rfl
  · rfl
  · rfl

theorem linesFrom_orphan {x y : UInt8} (h : ¬ LineEnds room r nul)
    (hxy : y = nul → x ≠ stx ∧ x ≠ nul) :
    linesFrom size room r p (nul :: x :: y :: fp) =
      linesFrom size (room - ([x, y].filter (· != nul)).length) r
        (p ++ [x, y].filter (· != nul)) fp := by
  have h1 : (y == nul && x == stx) = false := by
    rw [Bool.and_eq_false_imp, beq_iff_eq, beq_eq_false_iff_ne]
    exact fun h => (hxy h).1
  have h2 : (y == nul && x == nul) = false := by
    rw [Bool.and_eq_false_imp, beq_iff_eq, beq_eq_false_iff_ne]
    exact fun h => (hxy h).2
  rw [linesFrom.eq_def]
  dsimp only
  rw [ended_false h, h1, h2]
  exact after_nil _

end

/-- One call, and the calls behind it. -/
def restOfCalls (size calls : Nat) (r : GotLine) : Option BodyLines :=
  match r.type with
  | .line => (pktGetLines size calls r.buf r.fp).map (BodyLines.after [cstr r.buf])
  | .error => none
  | t => some ⟨[], cstr r.buf, t, r.fp⟩

/-- What is left of the first call and the calls behind it give the lines, if each of these has
less to read. -/
theorem restOfCalls_eq {size calls : Nat} (hs : 3 < size)
    (hcalls : ∀ b fp, fp.length < calls →
      pktGetLines size calls b fp = linesFrom size size false [] fp)
    (b : Str) (room : Nat) (r : Bool) (p fp : Str) (hp : nul ∉ p)
    (hlen : fp.length < calls ∨
      fp.length ≤ calls ∧ 3 < room ∧ (r = true → fp.head? = some lf)) :
    restOfCalls size calls (pktGetLineLoop b room r p fp) = linesFrom size room r p fp := by
  have hline : ∀ {p fp : Str}, nul ∉ p → fp.length < calls →
      restOfCalls size calls ⟨.line, store b p, fp⟩ =
        (linesFrom size size false [] fp).map (BodyLines.after [p]) := by
    intro p fp hp hlt
    rw [restOfCalls, cstr_store hp, hcalls _ _ hlt]
  have hstop : ∀ {p fp : Str} {t : LineType}, nul ∉ p → t = .msgType ∨ t = .msgEnd →
      restOfCalls size calls ⟨t, store b p, fp⟩ = some ⟨[], p, t, fp⟩ := by
    intro p fp t hp ht
    rw [restOfCalls, cstr_store hp]
    rcases ht with rfl | rfl
    · rfl
    · rfl
  fun_induction pktGetLineLoop b room r p fp with
  | case1 room r p h => 
    rw [hline hp (by simp at hlen ⊢; omega)]
    rfl
  | case2 room p h =>
    rw [hline hp (by simp at hlen ⊢; omega)]
    rfl
  | case3 room r p h hr => rfl
  | case4 room r p c fp h =>
    have hended : LineEnds room r c := .inl h
    rw [hline hp (hlen.resolve_right fun hl => by omega), linesFrom_ended hs hended]
  | case5 room r p c fp h hr =>
    rw [Bool.and_eq_true, bne_iff_ne] at hr
    have hlt : (c :: fp).length < calls := by
      refine hlen.resolve_right fun hl => hr.2 ?_
      exact Option.some.inj (hl.2.2 hr.1)
    rw [hline hp hlt, linesFrom_ended hs (.inr hr)]
  | case6 room r p c h hr hc c1 c2 fp h1 =>
    rw [Bool.and_eq_true, beq_iff_eq, beq_iff_eq] at h1
    obtain ⟨rfl, rfl⟩ := h1
    obtain rfl := beq_iff_eq.mp hc
    rw [hstop hp (.inl rfl)]
    exact (linesFrom_end (.inl rfl) (not_ended h hr)).symm
  | case7 room r p c h hr hc c1 c2 fp h1 h2 =>
    rw [Bool.and_eq_true, beq_iff_eq, beq_iff_eq] at h2
    obtain ⟨rfl, rfl⟩ := h2
    obtain rfl := beq_iff_eq.mp hc
    rw [hstop hp (.inr rfl)]
    exact (linesFrom_end (.inr rfl) (not_ended h hr)).symm
  | case8 room r p c h hr hc c1 c2 fp h1 h2 cs ih =>
    obtain rfl := beq_iff_eq.mp hc
    have hcs : nul ∉ p ++ cs := by simp [cs, hp]
    have hxy : c2 = nul → c1 ≠ stx ∧ c1 ≠ nul := by
      rintro rfl
      exact ⟨fun he => h1 (by rw [he]; rfl), fun he => h2 (by rw [he]; rfl)⟩
    simp only [List.length_cons] at hlen
    rw [ih hcs (.inl (by omega)), linesFrom_orphan (not_ended h hr) hxy]
  | case9 room r p c fp h hr hc hfp =>
    rw [linesFrom.eq_def]
    dsimp only
    rw [ended_false (not_ended h hr), if_pos hc]
    cases fp with
    | nil => rfl
    | cons c1 fp =>
      cases fp with
      | nil => rfl
      | cons c2 fp => exact absurd rfl (hfp c1 c2 fp)
  | case10 room r p c h hr hc hstx =>
    rw [linesFrom.eq_def]
    dsimp only
    rw [ended_false (not_ended h hr), if_neg hc, if_pos hstx]
    rfl
  | case11 room r p c h hr hc hstx c1 fp h1 =>
    obtain rfl := beq_iff_eq.mp hstx
    obtain rfl := beq_iff_eq.mp h1
    rw [hstop hp (.inl rfl), linesFrom_grunged (not_ended h hr)]
  | case12 room r p c h hr hc hstx c1 fp h1 ih =>
    obtain rfl := beq_iff_eq.mp hstx
    have hc1 : c1 ≠ nul := fun he => h1 (beq_iff_eq.mpr he)
    simp only [List.length_cons] at hlen
    rw [ih (by simp [hp, hc1.symm]; decide) (.inl (by omega)),
      linesFrom_stx (not_ended h hr) hc1]
  | case13 room r p c fp h hr hc hstx ih =>
    have hc0 : c ≠ nul := fun he => hc (beq_iff_eq.mpr he)
    have hc2 : c ≠ stx := fun he => hstx (beq_iff_eq.mpr he)
    simp only [List.length_cons] at hlen
    rw [ih (by simp [hp, hc0.symm]) (.inl (by omega)),
      linesFrom_byte (not_ended h hr) hc0 hc2]

theorem pktGetLines_eq {size : Nat} (hs : 3 < size) : ∀ (calls : Nat) (b fp : Str),
    fp.length < calls → pktGetLines size calls b fp = linesFrom size size false [] fp
  | 0, _, _, h => absurd h (Nat.not_lt_zero _)
  | calls + 1, b, fp, h =>
      restOfCalls_eq hs (pktGetLines_eq hs calls) b size false [] fp List.not_mem_nil
        (.inr ⟨Nat.le_of_lt_succ h, hs, fun h => nomatch h⟩)

/-- A buffer of no more than three bytes is full before anything is read. -/
theorem pktGetLines_small {size : Nat} (hs : size ≤ 3) : ∀ (calls : Nat) (b fp : Str),
    pktGetLines size calls b fp = none
  | 0, _, _ => rfl
  | calls + 1, b, fp => by
      rw [pktGetLines, loop_full hs]
      dsimp only
      rw [pktGetLines_small hs calls]
      rfl

/-- More calls do not change what was found. -/
theorem pktGetLines_succ {size : Nat} : ∀ (calls : Nat) (b fp : Str) (g : BodyLines),
    pktGetLines size calls b fp = some g → pktGetLines size (calls + 1) b fp = some g
  | 0, _, _, _, h => nomatch h
  | calls + 1, b, fp, g, h => by
      rw [pktGetLines] at h ⊢
      cases htype : (pktGetLineLoop b size false [] fp).type with
      | line =>
        rw [htype] at h
        obtain ⟨g', hg', rfl⟩ := Option.map_eq_some_iff.mp h
        dsimp only
        rw [pktGetLines_succ calls _ _ g' hg']
        rfl
      | error =>
        rw [htype] at h
        cases h
      | msgEnd =>
        rw [htype] at h
        exact h
      | msgType =>
        rw [htype] at h
        exact h

theorem pktGetLines_add {size calls : Nat} {b fp : Str} {g : BodyLines}
    (h : pktGetLines size calls b fp = some g) : ∀ k, pktGetLines size (calls + k) b fp = some g
  | 0 => h
  | k + 1 => pktGetLines_succ (calls + k) b fp g (pktGetLines_add h k)

/-- What the calls give is what all calls in one give. -/
theorem linesFrom_of_calls {size calls : Nat} (hs : 3 < size) {b fp : Str} {g : BodyLines}
    (h : pktGetLines size calls b fp = some g) : linesFrom size size false [] fp = some g := by
  rw [← pktGetLines_eq hs (calls + (fp.length + 1)) b fp (by omega)]
  exact pktGetLines_add h (fp.length + 1)

/-! ## What has been put into a line stays in it -/

/-- The first of the lines, or the incomplete one, goes on from `p`. -/
def GoesOn (p : Str) (g : BodyLines) : Prop :=
  (g.lines = [] ∧ p <+: g.last) ∨ ∃ l ls, g.lines = l :: ls ∧ p <+: l

theorem GoesOn.mono {p u : Str} {g : BodyLines} (h : GoesOn (p ++ u) g) : GoesOn p g := by
  have hp := List.prefix_append p u
  rcases h with ⟨h, hl⟩ | ⟨l, ls, h, hl⟩
  · exact .inl ⟨h, hp.trans hl⟩
  · exact .inr ⟨l, ls, h, hp.trans hl⟩

theorem linesFrom_goesOn {size : Nat} (hs : 3 < size) : ∀ (n : Nat) (fp : Str) (room : Nat)
    (r : Bool) (p : Str) (g : BodyLines), fp.length ≤ n →
    linesFrom size room r p fp = some g → GoesOn p g
  | _, [], _, _, _, _, _, h => nomatch h
  | 0, _ :: _, _, _, _, _, hn, _ => absurd hn (Nat.not_succ_le_zero _)
  | n + 1, c :: fp, room, r, p, g, hn, h => by
      have hn := Nat.le_of_succ_le_succ hn
      by_cases he : LineEnds room r c
      · rw [linesFrom_ended hs he] at h
        obtain ⟨g', -, rfl⟩ := Option.map_eq_some_iff.mp h
        exact .inr ⟨p, g'.lines, rfl, List.prefix_refl p⟩
      · rw [linesFrom.eq_def] at h
        dsimp only at h
        rw [ended_false he] at h
        simp only [Bool.false_eq_true, if_false, after_nil] at h
        have hstay : ∀ {t fp'}, some (BodyLines.mk [] p t fp') = some g → GoesOn p g := by
          intro t fp' h
          obtain rfl := Option.some.inj h
          exact .inl ⟨rfl, List.prefix_refl p⟩
        split at h
        · match fp, hn with
          | [], _ => cases h
          | [_], _ => cases h
          | c1 :: c2 :: fp, hn =>
            dsimp only at h
            split at h
            · exact hstay h
            · split at h
              · exact hstay h
              · simp only [List.length_cons] at hn
                exact (linesFrom_goesOn hs n fp _ _ _ g (by omega) h).mono
        · split at h
          · match fp, hn with
            | [], _ => cases h
            | c1 :: fp, hn =>
              dsimp only at h
              split at h
              · exact hstay h
              · simp only [List.length_cons] at hn
                exact (linesFrom_goesOn hs n fp _ _ _ g (by omega) h).mono
          · exact (linesFrom_goesOn hs n fp _ _ _ g hn h).mono

/-- Nothing but LFs stands behind a CR. -/
def Whole (p : Str) : Prop := cr ∉ p ∨ ∃ t k, cr ∉ t ∧ p = t ++ cr :: List.replicate k lf

theorem Whole.of_front {p q : Str} (h : p <+: q) (hq : Whole q) : Whole p := by
  obtain ⟨u, rfl⟩ := h
  rcases hq with hq | ⟨t, k, ht, hq⟩
  · exact .inl fun hm => hq (List.mem_append_left _ hm)
  · rcases List.append_eq_append_iff.mp hq with ⟨a, rfl, -⟩ | ⟨a, rfl, ha⟩
    · exact .inl fun hm => ht (List.mem_append_left _ hm)
    · cases a with
      | nil => exact .inl (by simpa using ht)
      | cons c a =>
        obtain ⟨hc, hlfs⟩ := List.cons.inj ha
        have ha : a = List.replicate a.length lf := by
          refine List.eq_replicate_iff.mpr ⟨rfl, fun d hd => ?_⟩
          have hd' : d ∈ List.replicate k lf := hlfs ▸ List.mem_append_left u hd
          exact List.eq_of_mem_replicate hd'
        exact .inr ⟨t, a.length, ht, by rw [← hc, ← ha]⟩

theorem LineEnd.whole {size : Nat} {l rest : Str} (h : LineEnd size l rest) : Whole l := by
  rcases h with ⟨t, k, ht, hl, -⟩ | ⟨h, -⟩
  · exact .inr ⟨t, k, ht, hl⟩
  · exact .inl h

theorem InLines.text {size : Nat} {text t : Str} {ls : List Str} (h : InLines size text ls t) :
    text = ls.flatten ++ t := by
  induction h with
  | last => rfl
  | line _ _ ih => rw [ih, List.flatten_cons, List.append_assoc]

theorem inLines_last_iff {size : Nat} {text t : Str} :
    InLines size text [] t ↔ text = t ∧ cr ∉ t := by
  constructor
  · rintro ⟨h⟩
    exact ⟨rfl, h⟩
  · rintro ⟨rfl, h⟩
    exact .last h

theorem inLines_line_iff {size : Nat} {l text t : Str} {ls : List Str} :
    InLines size (l ++ text) (l :: ls) t ↔ LineEnd size l text ∧ InLines size text ls t := by
  constructor
  · intro h
    generalize hx : l ++ text = x at h
    cases h with
    | line he ht =>
      rw [List.append_cancel_left hx]
      exact ⟨he, ht⟩
  · rintro ⟨he, ht⟩
    exact .line he ht

/-- The calls found the end, and the text in lines in front of it. -/
def Found (size : Nat) (t : LineType) (rest : Str) (x : Option BodyLines) (text : Str) : Prop :=
  ∃ g, x = some g ∧ g.type = t ∧ g.fp = rest ∧ InLines size text g.lines g.last

section

variable {size room : Nat} {t : LineType} {rest p text fp : Str} {r : Bool}

theorem GoesOn.front {g : BodyLines} (hg : GoesOn p g) (h : InLines size text g.lines g.last) :
    p <+: text := by
  rw [h.text]
  rcases hg with ⟨hl, hp⟩ | ⟨l, ls, hl, hp⟩
  · rw [hl]
    exact hp
  · rw [hl, List.flatten_cons, List.append_assoc]
    exact hp.trans (List.prefix_append _ _)

theorem Found.front (hs : 3 < size) (h : Found size t rest (linesFrom size room r p fp) text) :
    p <+: text := by
  obtain ⟨g, hg, -, -, hl⟩ := h
  exact (linesFrom_goesOn hs _ fp room r p g (Nat.le_refl _) hg).front hl

theorem Found.whole (hs : 3 < size) (h : Found size t rest (linesFrom size room r p fp) text) :
    Whole p := by
  obtain ⟨g, hg, -, -, hl⟩ := h
  rcases linesFrom_goesOn hs _ fp room r p g (Nat.le_refl _) hg with ⟨hn, hp⟩ | ⟨l, ls, hn, hp⟩
  · rw [hn] at hl
    exact .of_front hp (.inl (inLines_last_iff.mp hl).2)
  · rw [hn] at hl
    cases hl with
    | line he _ => exact .of_front hp he.whole

/-- The end that was found is not the one of the body if too much is left behind it. -/
theorem not_found_of_fp {g : BodyLines} (h : g.fp.length ≠ rest.length) :
    ¬ Found size t rest (some g) text := by
  rintro ⟨g', hg, -, rfl, -⟩
  exact h (by rw [Option.some.inj hg])

theorem foundLines_some {g : BodyLines} : Found size t rest (some g) text ↔
    g.type = t ∧ g.fp = rest ∧ InLines size text g.lines g.last := by
  constructor
  · rintro ⟨g', hg, h⟩
    obtain rfl := Option.some.inj hg
    exact h
  · exact fun h => ⟨g, rfl, h⟩

theorem found_after {x : Option BodyLines} {l : Str} :
    Found size t rest (x.map (BodyLines.after [l])) (l ++ text) ↔
      LineEnd size l text ∧ Found size t rest x text := by
  cases x with
  | none =>
    refine iff_of_false ?_ fun h => ?_
    · rintro ⟨g, hg, -⟩
      cases hg
    · obtain ⟨g, hg, -⟩ := h.2
      cases hg
  | some g =>
    rw [Option.map_some, foundLines_some, foundLines_some]
    change _ ∧ _ ∧ InLines size (l ++ text) (l :: g.lines) g.last ↔ _
    rw [inLines_line_iff]
    constructor
    · rintro ⟨h1, h2, h3, h4⟩
      exact ⟨h3, h1, h2, h4⟩
    · rintro ⟨h3, h1, h2, h4⟩
      exact ⟨h1, h2, h3, h4⟩

end

end Fidogate

/-
# `Fidogate.Packet.BodySplit` — message.c: a body as `pkt_get_line` takes it apart

A NUL inside a body is an orphan.  The reader has bytes that it does not read as
such: the one behind a 0x02 and the two behind an orphan go into the buffer
unseen, so that a CR among them does not end the line, and neither does the end
of the body.  `bodyReads` follows these bytes; `bodySplit_iff` says that it
decides which bodies are split right.
-/
import Fidogate.Packet.BodyCalls

namespace Fidogate

open Bytes

/-! ## The bytes that are not looked at -/

/-- What a line holds: text, a CR with LFs behind it, or a CR that was not seen. -/
inductive BodyMode
  | text
  | eol
  | unseen
  deriving DecidableEq, Repr

namespace BodyMode

/-- A byte put into the buffer unseen; behind an unseen CR only LFs may follow. -/
def take : BodyMode → UInt8 → Option BodyMode
  | unseen, c => if c = lf then some unseen else none
  | _, c => some (if c = cr then unseen else text)

/-- A byte that is read as such. -/
def read : BodyMode → UInt8 → Option BodyMode
  | text, c => some (if c = cr then eol else text)
  | m, c => if c = lf then some m else none

def Holds : BodyMode → Str → Prop
  | text, p => cr ∉ p
  | _, p => ∃ t k, cr ∉ t ∧ p = t ++ cr :: List.replicate k lf

end BodyMode

/-- The body is split right from a place on, with `room` in the buffer.  The byte behind a 0x02
and the two behind an orphan are taken unseen; an unseen CR must be followed by LFs until the
buffer is full.  An orphan must not cut LFs off their CR, and needs two bytes behind it, or
another than 0x02 in front of the end 00 02 00, whose last two bytes are taken for the start
of a message again. -/
def bodyReads (size : Nat) (t : LineType) : Nat → BodyMode → Str → Bool
  | room, m, [] => room ≤ 3 || m != .unseen
  | room, m, c :: s =>
      let ended := room ≤ 3 || (m == .eol && c != lf)
      let cut := ! decide (room ≤ 3) && m == .eol
      let room := if ended then size else room
      let m := if ended then .text else m
      if c == nul then
        match s with
        | [] => false
        | [x] => t == .msgType && x != stx && ! (cut && x == lf) &&
            (m.take x).any fun m => room - 1 ≤ 3 || m != .unseen
        | x :: y :: s => ! (cut && x == lf) &&
            ((m.take x).bind (·.take y)).any fun m => bodyReads size t (room - 2) m s
      else if c == stx then
        match s with
        | [] => false
        | d :: s => d != nul &&
            ((m.take stx).bind (·.take d)).any fun m => bodyReads size t (room - 2) m s
      else (m.read c).any fun m => bodyReads size t (room - 1) m s

example : bodyReads 256 .msgEnd 256 .text [nul] = false := by
  rw [bodyReads.eq_def]
  rfl

theorem holds_lf {m : BodyMode} {p : Str} (hm : m ≠ .text) (h : m.Holds p) :
    m.Holds (p ++ [lf]) := by
  have key : ∀ {p : Str}, (∃ t k, cr ∉ t ∧ p = t ++ cr :: List.replicate k lf) →
      ∃ t k, cr ∉ t ∧ p ++ [lf] = t ++ cr :: List.replicate k lf := by
    rintro p ⟨t, k, ht, rfl⟩
    exact ⟨t, k + 1, ht, by rw [List.append_assoc, List.cons_append, List.replicate_succ']⟩
  cases m with
  | text => exact absurd rfl hm
  | eol => exact key h
  | unseen => exact key h

/-- Behind a CR nothing but a LF leaves the line whole. -/
theorem not_whole_append {p t u : Str} {k : Nat} {c : UInt8} (ht : cr ∉ t)
    (h : p = t ++ cr :: List.replicate k lf) (hc : c ≠ lf) : ¬ Whole (p ++ c :: u) := by
  rw [h, List.append_assoc, List.cons_append]
  rintro (hw | ⟨t', k', ht', he⟩)
  · exact hw (by simp)
  · have hdrop := (takeWhile_not_mem ht (List.replicate k lf ++ c :: u)).2
    rw [he, (takeWhile_not_mem ht' _).2] at hdrop
    have hmem : c ∈ List.replicate k' lf := by
      rw [(List.cons.inj hdrop).2]
      simp
    exact hc (List.eq_of_mem_replicate hmem)

theorem holds_take {m m' : BodyMode} {p : Str} {c : UInt8} (hm : m ≠ .eol) (h : m.Holds p)
    (ht : m.take c = some m') : m'.Holds (p ++ [c]) := by
  cases m with
  | eol => exact absurd rfl hm
  | text =>
    obtain rfl := Option.some.inj ht
    have hp : cr ∉ p := h
    split
    next hc => exact ⟨p, 0, hp, by rw [hc]; rfl⟩
    next hc =>
      show cr ∉ p ++ [c]
      simp [hp, Ne.symm hc]
  | unseen =>
    rw [BodyMode.take] at ht
    split at ht
    next hc =>
      obtain rfl := Option.some.inj ht
      rw [hc]
      exact holds_lf (by decide) h
    next => cases ht

theorem take_ne_eol {m m' : BodyMode} {c : UInt8} (h : m.take c = some m') : m' ≠ .eol := by
  cases m with
  | unseen =>
    rw [BodyMode.take] at h
    split at h
    · obtain rfl := Option.some.inj h
      decide
    · cases h
  | text =>
    obtain rfl := Option.some.inj h
    split <;> decide
  | eol =>
    obtain rfl := Option.some.inj h
    split <;> decide

theorem not_whole_take {m : BodyMode} {p u : Str} {c : UInt8} (h : m.Holds p)
    (ht : m.take c = none) : ¬ Whole (p ++ c :: u) := by
  cases m with
  | text => cases ht
  | eol => cases ht
  | unseen =>
    rw [BodyMode.take] at ht
    split at ht
    next => cases ht
    next hc =>
      obtain ⟨t, k, htc, hp⟩ := h
      exact not_whole_append htc hp hc

/-- `read_lf` is set behind a CR that was read, and stays so behind a LF. -/
theorem read_eol {m m' : BodyMode} {c : UInt8} (h : m.read c = some m') :
    (m == .eol || c == cr) = (m' == .eol) := by
  have key : ∀ n : BodyMode, (if c = lf then some n else none) = some m' →
      (n == .eol || c == cr) = (m' == .eol) := by
    intro n hn
    split at hn
    next hc =>
      obtain rfl := Option.some.inj hn
      rw [hc]
      exact Bool.or_false _
    next => cases hn
  cases m with
  | text =>
    obtain rfl := Option.some.inj h
    by_cases hc : c = cr
    · rw [if_pos hc, hc]
      rfl
    · rw [if_neg hc, beq_false_of_ne hc]
      rfl
  | eol => exact key .eol h
  | unseen => exact key .unseen h

theorem holds_read {m m' : BodyMode} {p : Str} {c : UInt8} (h : m.Holds p)
    (hr : m.read c = some m') : m'.Holds (p ++ [c]) := by
  cases m with
  | text =>
    obtain rfl := Option.some.inj hr
    have hp : cr ∉ p := h
    split
    next hc => exact ⟨p, 0, hp, by rw [hc]; rfl⟩
    next hc =>
      show cr ∉ p ++ [c]
      simp [hp, Ne.symm hc]
  | eol =>
    change (if c = lf then some BodyMode.eol else none) = some m' at hr
    split at hr
    next hc =>
      obtain rfl := Option.some.inj hr
      rw [hc]
      exact holds_lf (by decide) h
    next => cases hr
  | unseen =>
    change (if c = lf then some BodyMode.unseen else none) = some m' at hr
    split at hr
    next hc =>
      obtain rfl := Option.some.inj hr
      rw [hc]
      exact holds_lf (by decide) h
    next => cases hr

/-- Where a byte cannot be read the CR in front of it was not seen. -/
theorem not_whole_read {m : BodyMode} {p u : Str} {c : UInt8} (h : m.Holds p)
    (hr : m.read c = none) : ¬ Whole (p ++ c :: u) := by
  have key : m ≠ .text ∧ c ≠ lf := by
    cases m with
    | text => cases hr
    | eol => exact ⟨by decide, fun hc => by rw [hc] at hr; cases hr⟩
    | unseen => exact ⟨by decide, fun hc => by rw [hc] at hr; cases hr⟩
  cases m with
  | text => exact absurd rfl key.1
  | eol =>
    obtain ⟨t, k, htc, hp⟩ := h
    exact not_whole_append htc hp key.2
  | unseen =>
    obtain ⟨t, k, htc, hp⟩ := h
    exact not_whole_append htc hp key.2

section

variable {size room : Nat} {t : LineType} {m : BodyMode} {s : Str}

theorem bodyReads_byte {c : UInt8} (h : ¬ LineEnds room (m == .eol) c) (h0 : c ≠ nul)
    (h2 : c ≠ stx) :
    bodyReads size t room m (c :: s) =
      (m.read c).any fun m => bodyReads size t (room - 1) m s := by
  rw [bodyReads.eq_def]
  dsimp only
  rw [ended_false h, beq_false_of_ne h0, beq_false_of_ne h2]
  rfl

theorem bodyReads_stx {d : UInt8} (h : ¬ LineEnds room (m == .eol) stx) :
    bodyReads size t room m (stx :: d :: s) = (d != nul &&
      ((m.take stx).bind (·.take d)).any fun m => bodyReads size t (room - 2) m s) := by
  rw [bodyReads.eq_def]
  dsimp only
  rw [ended_false h]
  rfl

theorem not_eol (h : ¬ LineEnds room (m == .eol) nul) : m ≠ .eol := fun hm =>
  h (.inr ⟨beq_iff_eq.mpr hm, by decide⟩)

theorem bodyReads_orphan {x y : UInt8} (h : ¬ LineEnds room (m == .eol) nul) :
    bodyReads size t room m (nul :: x :: y :: s) =
      ((m.take x).bind (·.take y)).any fun m => bodyReads size t (room - 2) m s := by
  rw [bodyReads.eq_def]
  dsimp only
  rw [ended_false h, beq_false_of_ne (not_eol h)]
  simp

theorem bodyReads_last {x : UInt8} (h : ¬ LineEnds room (m == .eol) nul) :
    bodyReads size t room m [nul, x] = (t == .msgType && x != stx &&
      (m.take x).any fun m => room - 1 ≤ 3 || m != .unseen) := by
  rw [bodyReads.eq_def]
  dsimp only
  rw [ended_false h, beq_false_of_ne (not_eol h)]
  simp

/-- In front of the next unit the line may be over; an orphan may then cut LFs off. -/
theorem bodyReads_ended {c : UInt8} (hs : 3 < size) (h : LineEnds room (m == .eol) c) :
    bodyReads size t room m (c :: s) = true ↔
      (c = nul → 3 < room → m = .eol → s.head? ≠ some lf) ∧
        bodyReads size t size .text (c :: s) = true := by
  have hnew : ¬ LineEnds size (BodyMode.text == .eol) c := not_ended_new hs
  by_cases hc : c = nul
  · subst hc
    have hcut : ((! decide (room ≤ 3) && m == .eol) = true) ↔ 3 < room ∧ m = .eol := by
      simp
    cases s with
    | nil =>
      have hno : ∀ room m, bodyReads size t room m [nul] = false := by
        intro room m
        rw [bodyReads.eq_def]
        rfl
      simp [hno]
    | cons x s =>
      have hx : (3 < room → m = .eol → (x :: s).head? ≠ some lf) ↔
          (! ((! decide (room ≤ 3) && m == .eol) && x == lf)) = true := by
        rw [Bool.not_eq_true', Bool.and_eq_false_imp, hcut, List.head?_cons]
        simp
      rw [forall_prop_of_true rfl, hx]
      cases s with
      | nil =>
        rw [bodyReads_last hnew, bodyReads.eq_def]
        dsimp only
        rw [ended_iff.mpr h]
        simp only [beq_self_eq_true, if_true, Bool.and_eq_true]
        tauto
      | cons y s =>
        rw [bodyReads_orphan hnew, bodyReads.eq_def]
        dsimp only
        rw [ended_iff.mpr h]
        simp only [beq_self_eq_true, if_true, Bool.and_eq_true]
  · rw [and_iff_right fun hn => absurd hn hc]
    conv_lhs => rw [bodyReads.eq_def]
    conv_rhs => rw [bodyReads.eq_def]
    dsimp only
    rw [ended_iff.mpr h, ended_false hnew, beq_false_of_ne hc]
    simp

end

/-! ## The run -/

/-- The calls find the end and the right lines from a place on exactly where `bodyReads` says so. -/
def ReadsRight (size : Nat) (t : LineType) (rest s : Str) : Prop :=
  ∀ (room : Nat) (m : BodyMode) (p : Str), m.Holds p → room + p.length = size →
    (Found size t rest
        (linesFrom size room (m == .eol) p (s ++ nul :: endByte t :: nul :: rest))
        (p ++ s.filter (· != nul)) ↔
      bodyReads size t room m s = true)

/-- The same where the line is not over. -/
def ReadsRightOn (size : Nat) (t : LineType) (rest s : Str) : Prop :=
  ∀ (room : Nat) (m : BodyMode) (p : Str), m.Holds p → room + p.length = size →
    ¬ LineEnds room (m == .eol) ((s ++ [nul]).head?.getD nul) →
    (Found size t rest
        (linesFrom size room (m == .eol) p (s ++ nul :: endByte t :: nul :: rest))
        (p ++ s.filter (· != nul)) ↔
      bodyReads size t room m s = true)

section

variable {size : Nat} {t : LineType} {rest s : Str}

/-- A line that is over ends as it should, unless LFs follow that an orphan has cut off. -/
theorem lineEnd_iff {room : Nat} {m : BodyMode} {p text : Str} (hm : m.Holds p)
    (hroom : room + p.length = size) (he : room ≤ 3 ∨ m = .eol) :
    LineEnd size p text ↔ (3 < room → text.head? ≠ some lf) := by
  have hfull : LineFull size p ↔ room ≤ 3 := by
    unfold LineFull
    omega
  constructor
  · rintro (⟨u, k, -, -, h | h⟩ | ⟨-, h⟩) h3
    · exact h
    · exact absurd (hfull.mp h) (Nat.not_le.mpr h3)
    · exact absurd (hfull.mp h) (Nat.not_le.mpr h3)
  · intro h
    have hend : text.head? ≠ some lf ∨ LineFull size p := by
      by_cases h3 : 3 < room
      · exact .inl (h h3)
      · exact .inr (hfull.mpr (Nat.not_lt.mp h3))
    cases m with
    | text => exact .inr ⟨hm, hfull.mpr (he.resolve_right (by decide))⟩
    | eol =>
      obtain ⟨u, k, hu, hp⟩ := hm
      exact .inl ⟨u, k, hu, hp, hend⟩
    | unseen =>
      obtain ⟨u, k, hu, hp⟩ := hm
      exact .inl ⟨u, k, hu, hp, hend⟩

/-- In front of an end that is found the line may not hold an unseen CR. -/
theorem found_end_iff (hs : 3 < size) {room : Nat} {m : BodyMode} {p fp : Str} {c : UInt8}
    (hc : c ≠ lf) (hend : ∀ room r p, ¬ LineEnds room r c →
      linesFrom size room r p (c :: fp) = some ⟨[], p, t, rest⟩)
    (hm : m.Holds p) (hroom : room + p.length = size) :
    Found size t rest (linesFrom size room (m == .eol) p (c :: fp)) p ↔
      bodyReads size t room m [] = true := by
  have hbase : bodyReads size t room m [] = true ↔ room ≤ 3 ∨ m ≠ .unseen := by
    rw [bodyReads, Bool.or_eq_true, decide_eq_true_iff, bne_iff_ne]
  rw [hbase]
  by_cases he : LineEnds room (m == .eol) c
  · have hover : room ≤ 3 ∨ m = .eol := he.imp_right fun h => beq_iff_eq.mp h.1
    have hnew : Found size t rest (linesFrom size size false [] (c :: fp)) [] := by
      rw [hend _ _ _ (not_ended_new hs), foundLines_some]
      exact ⟨rfl, rfl, .last List.not_mem_nil⟩
    have hadd : Found size t rest ((linesFrom size size false [] (c :: fp)).map
        (BodyLines.after [p])) (p ++ []) ↔ _ := found_after
    rw [List.append_nil] at hadd
    rw [linesFrom_ended hs he, hadd, lineEnd_iff hm hroom hover]
    refine iff_of_true ⟨fun _ => Option.some_ne_none lf |>.symm, hnew⟩ (hover.imp_right ?_)
    rintro rfl
    decide
  · have hne : m ≠ .eol := fun h => he (.inr ⟨beq_iff_eq.mpr h, hc⟩)
    rw [hend _ _ _ he, foundLines_some, inLines_last_iff, or_iff_right fun h => he (.inl h)]
    simp only [true_and]
    cases m with
    | text => exact iff_of_true hm (by decide)
    | eol => exact absurd rfl hne
    | unseen =>
      obtain ⟨u, k, -, rfl⟩ := hm
      exact iff_of_false (fun h => h (by simp)) fun h => h rfl

theorem readsRight_nil (hs : 3 < size) (ht : t = .msgType ∨ t = .msgEnd) :
    ReadsRight size t rest [] := by
  intro room m p hm hroom
  rw [List.nil_append, List.filter_nil, List.append_nil]
  exact found_end_iff hs (by decide) (fun _ _ _ he => linesFrom_end ht he) hm hroom

theorem readsRight_of_on (hs : 3 < size) (ht : t = .msgType ∨ t = .msgEnd)
    (hcount : s.count nul ≤ 1) (h : ReadsRightOn size t rest s) : ReadsRight size t rest s := by
  intro room m p hm hroom
  by_cases he : LineEnds room (m == .eol) ((s ++ [nul]).head?.getD nul)
  · have hnew := h size .text [] List.not_mem_nil (Nat.add_zero size) (not_ended_new hs)
    have hover : room ≤ 3 ∨ m = .eol := he.imp_right fun h => beq_iff_eq.mp h.1
    cases s with
    | nil => exact readsRight_nil hs ht room m p hm hroom
    | cons c s =>
      have he : LineEnds room (m == .eol) c := he
      have hc : (c :: s).filter (· != nul) = if c = nul then s else c :: s.filter (· != nul) := by
        split
        next hc =>
          rw [hc, List.count_cons_self] at hcount
          have hno : nul ∉ s := List.count_eq_zero.mp (by omega)
          rw [hc, List.filter_cons_of_neg (by decide), List.filter_eq_self]
          exact fun d hd => bne_iff_ne.mpr fun h => hno (h ▸ hd)
        next hc => exact List.filter_cons_of_pos (by simpa using hc)
      have hhead : (3 < room → ((c :: s).filter (· != nul)).head? ≠ some lf) ↔
          (c = nul → 3 < room → m = .eol → s.head? ≠ some lf) := by
        rw [hc]
        split
        next hcn =>
          constructor
          · exact fun h _ h3 _ => h h3
          · exact fun h h3 => h hcn h3 (hover.resolve_left (Nat.not_le.mpr h3))
        next hcn =>
          refine iff_of_true (fun h3 hlf => ?_) fun h => absurd h hcn
          have hcl : c = lf := Option.some.inj hlf
          rcases he with he | ⟨-, he⟩
          · exact Nat.not_le.mpr h3 he
          · exact he hcl
      rw [bodyReads_ended hs he, ← hhead, ← hnew, List.cons_append, linesFrom_ended hs he,
        found_after, lineEnd_iff hm hroom hover]
      rfl
  · exact h room m p hm hroom he

/-- The bytes `u` go into the buffer: with a mode behind them the calls go on, and without one
the line is spoilt. -/
theorem found_next (hs : 3 < size) {room : Nat} {p u fp text : Str} {next : Option BodyMode}
    {reads : BodyMode → Bool} {r : Bool} (hnone : next = none → ¬ Whole (p ++ u))
    (hsome : ∀ m', next = some m' →
      (Found size t rest (linesFrom size room r (p ++ u) fp) text ↔ reads m' = true)) :
    Found size t rest (linesFrom size room r (p ++ u) fp) text ↔ next.any reads = true := by
  cases next with
  | none => exact iff_of_false (fun h => hnone rfl (h.whole hs)) Bool.false_ne_true
  | some m' => exact hsome m' rfl

/-- Two bytes that are taken unseen. -/
theorem found_taken (hs : 3 < size) {room : Nat} {m : BodyMode} {p : Str} {x y : UInt8}
    (hm : m ≠ .eol) (hp : m.Holds p) (hroom : room + p.length = size) (h3 : 3 < room)
    (ih : ReadsRight size t rest s) :
    Found size t rest
        (linesFrom size (room - 2) (m == .eol) (p ++ [x, y])
          (s ++ nul :: endByte t :: nul :: rest)) (p ++ [x, y] ++ s.filter (· != nul)) ↔
      ((m.take x).bind (·.take y)).any (fun m => bodyReads size t (room - 2) m s) = true := by
  have happ : p ++ [x, y] = p ++ [x] ++ [y] := by rw [List.append_assoc]; rfl
  refine found_next hs (fun hn => ?_) fun m' hm' => ?_
  · cases hx : m.take x with
    | none => exact not_whole_take hp hx
    | some mx =>
      rw [hx, Option.bind_some] at hn
      rw [happ]
      exact not_whole_take (holds_take hm hp hx) hn
  · obtain ⟨mx, hx, hy⟩ := Option.bind_eq_some_iff.mp hm'
    have hmx := take_ne_eol hx
    have hm'' := take_ne_eol hy
    have hr : (m == .eol) = (m' == .eol) := by
      rw [beq_false_of_ne hm, beq_false_of_ne hm'']
    rw [hr]
    refine ih (room - 2) m' (p ++ [x, y]) ?_ ?_
    · rw [happ]
      exact holds_take hmx (holds_take hm hp hx) hy
    · rw [List.length_append, List.length_cons, List.length_singleton]
      omega

/-- 0x02 with the byte behind it. -/
theorem readsRightOn_stx (hs : 3 < size) (ih : ∀ s', s'.length ≤ s.length → s'.count nul ≤ 1 →
    ReadsRight size t rest s') (hcount : s.count nul ≤ 1) :
    ReadsRightOn size t rest (stx :: s) := by
  intro room m p hm hroom he
  have he : ¬ LineEnds room (m == .eol) stx := he
  have h3 : 3 < room := Nat.not_le.mp fun h => he (.inl h)
  have hne : m ≠ .eol := fun h => he (.inr ⟨beq_iff_eq.mpr h, by decide⟩)
  cases s with
  | nil =>
    have hno : bodyReads size t room m [stx] = false := by
      rw [bodyReads.eq_def]
      rfl
    rw [List.singleton_append, linesFrom_grunged he, hno]
    refine iff_of_false (not_found_of_fp ?_) Bool.false_ne_true
    simp only [List.length_cons]
    omega
  | cons d s =>
    rw [bodyReads_stx he]
    by_cases hd : d = nul
    · subst hd
      rw [List.cons_append, List.cons_append, linesFrom_grunged he]
      refine iff_of_false (not_found_of_fp ?_) Bool.false_ne_true
      simp only [List.length_append, List.length_cons]
      omega
    · have hfilter : (stx :: d :: s).filter (· != nul) = [stx, d] ++ s.filter (· != nul) := by
        rw [List.filter_cons_of_pos (by decide), List.filter_cons_of_pos (by simpa using hd)]
        rfl
      rw [List.count_cons_of_ne hd] at hcount
      rw [List.cons_append, List.cons_append, linesFrom_stx he hd, hfilter,
        ← List.append_assoc, bne_iff_ne.mpr hd, Bool.true_and]
      exact found_taken hs hne hm hroom h3 (ih s (by simp) hcount)

theorem readsRightOn_byte {c : UInt8} (hs : 3 < size) (h0 : c ≠ nul) (h2 : c ≠ stx)
    (ih : ReadsRight size t rest s) : ReadsRightOn size t rest (c :: s) := by
  intro room m p hm hroom he
  have he : ¬ LineEnds room (m == .eol) c := he
  have h3 : 3 < room := Nat.not_le.mp fun h => he (.inl h)
  have hfilter : (c :: s).filter (· != nul) = [c] ++ s.filter (· != nul) :=
    List.filter_cons_of_pos (by simpa using h0)
  rw [List.cons_append, linesFrom_byte he h0 h2, bodyReads_byte he h0 h2, hfilter,
    ← List.append_assoc]
  refine found_next hs (fun hn => not_whole_read hm hn) fun m' hm' => ?_
  have hr : (m == .eol || c == cr) = (m' == .eol) := read_eol hm'
  rw [hr]
  refine ih (room - 1) m' (p ++ [c]) (holds_read hm hm') ?_
  rw [List.length_append, List.length_singleton]
  omega

theorem found_some_stop {room : Nat} {r : Bool} {p fp text : Str} {g : BodyLines}
    (h : linesFrom size room r p fp = some g) (hfp : g.fp.length ≠ rest.length) :
    ¬ Found size t rest (linesFrom size room r p fp) text := by
  rw [h]
  exact not_found_of_fp hfp

/-- A byte more than the body in the line. -/
theorem not_found_of_more (hs : 3 < size) {room : Nat} {r : Bool} {p u fp : Str} (hu : u ≠ []) :
    ¬ Found size t rest (linesFrom size room r (p ++ u) fp) p := by
  intro h
  have hle := (h.front hs).length_le
  have hpos := List.length_pos_of_ne_nil hu
  rw [List.length_append] at hle
  omega

/-- Behind 00 00 the end is not found any more. -/
theorem not_found_zeros (hs : 3 < size) {room : Nat} {r : Bool} {p : Str} :
    ¬ Found size t rest (linesFrom size room r p (nul :: nul :: rest)) p := by
  have hon : ∀ (room : Nat) (r : Bool) (p : Str), ¬ LineEnds room r nul →
      ¬ Found size t rest (linesFrom size room r p (nul :: nul :: rest)) p := by
    intro room r p he
    cases rest with
    | nil =>
      have hnone : linesFrom size room r p [nul, nul] = none := by
        rw [linesFrom.eq_def]
        dsimp only
        rw [ended_false he]
        rfl
      rw [hnone]
      rintro ⟨g, hg, -⟩
      cases hg
    | cons c rest =>
      by_cases hc : c = nul
      · subst hc
        refine found_some_stop (linesFrom_end (.inr rfl) he) ?_
        simp only [List.length_cons]
        omega
      · have hfilter : [nul, c].filter (· != nul) = [c] := by simp [hc]
        rw [linesFrom_orphan he fun h => absurd h hc, hfilter]
        exact not_found_of_more hs (List.cons_ne_nil c [])
  by_cases he : LineEnds room r nul
  · have hadd : Found size t rest ((linesFrom size size false [] (nul :: nul :: rest)).map
        (BodyLines.after [p])) (p ++ []) ↔ _ := found_after
    rw [List.append_nil] at hadd
    rw [linesFrom_ended hs he, hadd]
    exact fun h => hon size false [] (not_ended_new hs) h.2
  · exact hon room r p he

/-- An orphan with the two bytes behind it. -/
theorem readsRightOn_orphan (hs : 3 < size) (ht : t = .msgType ∨ t = .msgEnd)
    (ih : ∀ s', s'.length ≤ s.length → s'.count nul ≤ 1 → ReadsRight size t rest s')
    (hnul : nul ∉ s) : ReadsRightOn size t rest (nul :: s) := by
  intro room m p hm hroom he
  have he : ¬ LineEnds room (m == .eol) nul := he
  have h3 : 3 < room := Nat.not_le.mp fun h => he (.inl h)
  have hne := not_eol he
  have hfilter : (nul :: s).filter (· != nul) = s := by
    rw [List.filter_cons_of_neg (by decide), List.filter_eq_self]
    exact fun d hd => bne_iff_ne.mpr fun h => hnul (h ▸ hd)
  rw [hfilter]
  match s, ih, hnul with
  | [], _, _ =>
    have hno : bodyReads size t room m [nul] = false := by
      rw [bodyReads.eq_def]
      rfl
    rw [hno, List.append_nil]
    refine iff_of_false ?_ Bool.false_ne_true
    rcases ht with rfl | rfl
    · have hstep := @linesFrom_orphan size room (m == .eol) p (nul :: rest) nul stx he (by decide)
      have hx : [nul, stx].filter (· != nul) = [stx] := by decide
      rw [hx] at hstep
      change ¬ Found size _ rest (linesFrom size room (m == .eol) p (nul :: nul :: stx :: nul ::
        rest)) p
      rw [hstep]
      exact not_found_of_more hs (List.cons_ne_nil stx [])
    · refine found_some_stop (@linesFrom_end size room (m == .eol) p (nul :: rest) .msgEnd
        (.inr rfl) he) ?_
      simp only [List.length_cons]
      omega
  | [x], _, hnul =>
    have hx0 : x ≠ nul := fun h => hnul (h ▸ List.mem_singleton_self x)
    rw [bodyReads_last he]
    by_cases hx2 : x = stx
    · subst hx2
      rw [bne_self_eq_false, Bool.and_false, Bool.false_and]
      refine iff_of_false ?_ Bool.false_ne_true
      refine found_some_stop (@linesFrom_end size room (m == .eol) p (endByte t :: nul :: rest)
        .msgType (.inl rfl) he) ?_
      simp only [List.length_cons]
      omega
    · have hstep := @linesFrom_orphan size room (m == .eol) p (endByte t :: nul :: rest) x nul he
        fun _ => ⟨hx2, hx0⟩
      have hx : [x, nul].filter (· != nul) = [x] := by simp [hx0]
      rw [hx] at hstep
      change Found size t rest (linesFrom size room (m == .eol) p
        (nul :: x :: nul :: endByte t :: nul :: rest)) (p ++ [x]) ↔ _
      rw [hstep, List.length_singleton, bne_iff_ne.mpr hx2, Bool.and_true]
      rcases ht with rfl | rfl
      · rw [beq_self_eq_true, Bool.true_and]
        refine found_next hs (fun hn => not_whole_take hm hn) fun m' hm' => ?_
        have hr : (m == .eol) = (m' == .eol) := by
          rw [beq_false_of_ne hne, beq_false_of_ne (take_ne_eol hm')]
        rw [hr]
        refine found_end_iff hs (by decide) (fun _ _ _ he => linesFrom_grunged he)
          (holds_take hne hm hm') ?_
        rw [List.length_append, List.length_singleton]
        omega
      · exact iff_of_false (not_found_zeros hs) Bool.false_ne_true
  | x :: y :: s, ih, hnul =>
    rw [List.mem_cons, List.mem_cons, not_or, not_or] at hnul
    obtain ⟨hx, hy, hs0⟩ := hnul
    have hxy : [x, y].filter (· != nul) = [x, y] := by simp [Ne.symm hx, Ne.symm hy]
    have hfs : s.filter (· != nul) = s :=
      List.filter_eq_self.mpr fun d hd => bne_iff_ne.mpr fun h => hs0 (h ▸ hd)
    have htext : p ++ x :: y :: s = p ++ [x, y] ++ s.filter (· != nul) := by
      rw [List.append_assoc, hfs]
      rfl
    have hcount : s.count nul ≤ 1 := by
      rw [List.count_eq_zero.mpr hs0]
      exact Nat.zero_le 1
    rw [bodyReads_orphan he, List.cons_append, List.cons_append, List.cons_append,
      linesFrom_orphan he fun h => absurd h.symm hy, hxy, htext]
    refine found_taken hs hne hm hroom h3 (ih s ?_ hcount)
    simp only [List.length_cons]
    omega

theorem readsRight_all (hs : 3 < size) (ht : t = .msgType ∨ t = .msgEnd) : ∀ (n : Nat) (s : Str),
    s.length ≤ n → s.count nul ≤ 1 → ReadsRight size t rest s
  | _, [], _, _ => readsRight_nil hs ht
  | 0, _ :: _, hn, _ => absurd hn (Nat.not_succ_le_zero _)
  | n + 1, c :: s, hn, hcount => by
      have hs' : s.count nul ≤ 1 := (List.count_le_count_cons).trans hcount
      have ih : ∀ s', s'.length ≤ s.length → s'.count nul ≤ 1 → ReadsRight size t rest s' :=
        fun s' hl hc => readsRight_all hs ht n s' (hl.trans (Nat.le_of_succ_le_succ hn)) hc
      refine readsRight_of_on hs ht hcount ?_
      by_cases h0 : c = nul
      · subst h0
        rw [List.count_cons_self] at hcount
        exact readsRightOn_orphan hs ht ih (List.count_eq_zero.mp (by omega))
      · by_cases h2 : c = stx
        · subst h2
          exact readsRightOn_stx hs ih hs'
        · exact readsRightOn_byte hs h0 h2 (ih s (Nat.le_refl _) hs')

end

/-! ## Which bodies are split right -/

section

variable {size : Nat} {t : LineType} {body : Str}

theorem found_body_iff (hs : 4 ≤ size) (ht : t = .msgType ∨ t = .msgEnd)
    (hcount : body.count nul ≤ 1) (rest : Str) :
    Found size t rest (linesFrom size size false [] (body ++ nul :: endByte t :: nul :: rest))
        (body.filter (· != nul)) ↔ bodyReads size t size .text body = true :=
  readsRight_all hs ht _ body (Nat.le_refl _) hcount size .text [] List.not_mem_nil
    (Nat.add_zero size)

theorem reads_of_bodySplit (ht : t = .msgType ∨ t = .msgEnd) (hcount : body.count nul ≤ 1)
    (h : BodySplit size body t) : 4 ≤ size ∧ bodyReads size t size .text body = true := by
  obtain ⟨calls, g, hg, hfound⟩ := h [] []
  have hs : 4 ≤ size := by
    by_contra hno
    rw [pktGetLines_small (by omega)] at hg
    cases hg
  exact ⟨hs, (found_body_iff hs ht hcount []).mp ⟨g, linesFrom_of_calls hs hg, hfound⟩⟩

theorem bodySplit_of_reads (ht : t = .msgType ∨ t = .msgEnd) (hcount : body.count nul ≤ 1)
    (hs : 4 ≤ size) (hr : bodyReads size t size .text body = true) : BodySplit size body t := by
  intro b rest
  obtain ⟨g, hg, hfound⟩ := (found_body_iff hs ht hcount rest).mpr hr
  exact ⟨_, g, (pktGetLines_eq hs _ b _ (Nat.lt_succ_self _)).trans hg, hfound⟩

/-- Nothing is taken unseen where there is no 0x02 and no orphan. -/
theorem bodyReads_plain (hs : 4 ≤ size) : ∀ (s : Str) (room : Nat) (m : BodyMode), m ≠ .unseen →
    stx ∉ s → nul ∉ s → bodyReads size t room m s = true
  | [], room, m, hm, _, _ => by
      rw [bodyReads, bne_iff_ne.mpr hm, Bool.or_true]
  | c :: s, room, m, hm, h2, h0 => by
      rw [List.mem_cons, not_or] at h2 h0
      have hgo : ∀ (room : Nat) (m : BodyMode), m ≠ .unseen → ¬ LineEnds room (m == .eol) c →
          bodyReads size t room m (c :: s) = true := by
        intro room m hm he
        obtain ⟨m', hm', hread⟩ : ∃ m', m' ≠ .unseen ∧ m.read c = some m' := by
          cases m with
          | text => exact ⟨_, by split <;> decide, rfl⟩
          | eol =>
            have hc : c = lf := by_contra fun hc => he (.inr ⟨rfl, hc⟩)
            exact ⟨.eol, by decide, by rw [hc]; rfl⟩
          | unseen => exact absurd rfl hm
        rw [bodyReads_byte he (Ne.symm h0.1) (Ne.symm h2.1), hread]
        exact bodyReads_plain hs s (room - 1) m' hm' h2.2 h0.2
      by_cases he : LineEnds room (m == .eol) c
      · exact (bodyReads_ended hs he).mpr ⟨fun h => absurd h.symm h0.1,
          hgo size .text (by decide) (not_ended_new hs)⟩
      · exact hgo room m hm he

/-- A body without 0x02 and orphans is split right by every buffer of four bytes or more. -/
theorem bodySplit_plain (ht : t = .msgType ∨ t = .msgEnd) (hs : 4 ≤ size) (h2 : stx ∉ body)
    (h0 : nul ∉ body) : BodySplit size body t :=
  bodySplit_of_reads ht (by rw [List.count_eq_zero.mpr h0]; exact Nat.zero_le 1) hs
    (bodyReads_plain hs body size .text (by decide) h2 h0)

end

/-- A CR behind a 0x02 does not end its line. -/
theorem bodySplit_unseen : ¬ BodySplit 80 [97, stx, cr, 98, cr] .msgEnd := fun h =>
  absurd (reads_of_bodySplit (.inr rfl) (by decide) h).2 (by decide)

/-- A body with at most one orphan is split right exactly where the buffer has four bytes and
no byte that is taken unseen ends a line or the body. -/
theorem bodySplit_iff {t : LineType} (ht : t = .msgType ∨ t = .msgEnd) (size : Nat) {body : Str}
    (hcount : body.count nul ≤ 1) :
    BodySplit size body t ↔ 4 ≤ size ∧ bodyReads size t size .text body = true :=
  ⟨reads_of_bodySplit ht hcount, fun h => bodySplit_of_reads ht hcount h.1 h.2⟩

theorem bodySplit_orphan : BodySplit 80 [97, cr, lf, 98, nul, 99, 100, cr] .msgType :=
  (bodySplit_iff (.inl rfl) 80 (by decide)).mpr ⟨by decide, by decide⟩

end Fidogate

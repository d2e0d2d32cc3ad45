/-
# `Fidogate.Common.TextlistRuns` — textlist.c: any number of lists, call by call

Here a list has its counter as well.  `tl_addtl_move` is the one function that
leaves a link unset: the lines it moves are behind the last pointer, and the
first of them is not linked back.
-/
import Fidogate.Common.Textlist
import Fidogate.Lib.Run
import Mathlib.Logic.Function.Basic

namespace Fidogate

open Bytes Chain

/-- Textlist, with the counter -/
structure CountedList extends Textlist where
  n : Nat
deriving DecidableEq, Repr

namespace CountedList

/-- `tl_init` -/
def tlInit : CountedList := ⟨Fidogate.tlInit, 0⟩

/-- `tl_add` -/
def tlAdd (h : Lines) (list : CountedList) (line : Nat) : Option (CountedList × Lines) := do
  let (l, h) ← Fidogate.tlAdd h list.toTextlist line
  some (⟨l, list.n + 1⟩, h)

/-- `tl_append`; no string, no line. -/
def tlAppend (h : Lines) (list : CountedList) : Option Str → Option (CountedList × Lines)
  | none => some (list, h)
  | some s => do
      let (l, h) ← Fidogate.tlAppend h list.toTextlist s
      some (⟨l, list.n + 1⟩, h)

/-- `tl_remove` -/
def tlRemove (h : Lines) (list : CountedList) (line : Nat) : Option (CountedList × Lines) := do
  let (l, h) ← Fidogate.tlRemove h list.toTextlist line
  some (⟨l, list.n - 1⟩, h)

/-- `tl_delete` -/
def tlDelete (h : Lines) (list : CountedList) (line : Nat) : Option (CountedList × Lines) := do
  let (l, h) ← Fidogate.tlDelete h list.toTextlist line
  some (⟨l, list.n - 1⟩, h)

/-- `tl_clear` -/
def tlClear (h : Lines) (list : CountedList) : Option (CountedList × Lines) := do
  let (l, h) ← Fidogate.tlClear h list.toTextlist
  some (⟨l, 0⟩, h)

/-- `tl_addtl_move`: the list `d` afterwards, before `tl_init` of `s`. -/
def tlAddtlMove (h : Lines) (d s : CountedList) : Option (CountedList × Lines) := do
  let (l, h) ← Fidogate.tlAddtlMove h d.toTextlist s.toTextlist
  some (⟨l, if d.first = none then s.n else d.n + s.n⟩, h)

end CountedList

/-- The lines, and the lists that hold them. -/
structure Texts (ι : Type) where
  heap : Lines
  lists : ι → CountedList

/-- A call.  `newLine` is a caller's own line, in no list yet, whose links are
whatever `malloc` left there. -/
inductive TextOp (ι : Type)
  | newLine (line : Str) (next prev : Option Nat)
  | tlAdd (list : ι) (line : Nat)
  | tlAppend (list : ι) (s : Option Str)
  | tlRemove (list : ι) (line : Nat)
  | tlDelete (list : ι) (line : Nat)
  | tlAddtlMove (d s : ι)
  | tlClear (list : ι)

namespace Texts

section Steps

variable {ι : Type} [DecidableEq ι]

/-- One list is changed. -/
def set (t : Texts ι) (i : ι) (r : CountedList × Lines) : Texts ι :=
  ⟨r.2, Function.update t.lists i r.1⟩

/-- A call with the memory it finds; there is no memory left after an access
to a line that is not there. -/
def step (t : Option (Texts ι)) (op : TextOp ι) : Option (Texts ι) := do
  let t ← t
  match op with
  | .newLine line next prev => some ⟨alloc t.heap ⟨line, next, prev⟩, t.lists⟩
  | .tlAdd i line => return t.set i (← (t.lists i).tlAdd t.heap line)
  | .tlAppend i s => return t.set i (← (t.lists i).tlAppend t.heap s)
  | .tlRemove i line => return t.set i (← (t.lists i).tlRemove t.heap line)
  | .tlDelete i line => return t.set i (← (t.lists i).tlDelete t.heap line)
  | .tlAddtlMove d s => do
      let t := t.set d (← (t.lists d).tlAddtlMove t.heap (t.lists s))
      return t.set s (.tlInit, t.heap)
  | .tlClear i => return t.set i (← (t.lists i).tlClear t.heap)

/-- The lists after `tl_init`. -/
def start : Option (Texts ι) := some ⟨[], fun _ => .tlInit⟩

/-- The lines of a list, along `next`. -/
def lines (t : Texts ι) (i : ι) : List Nat := addrs (chain t.heap (t.lists i).first)

/-- What callers keep to: a line that is added is there and in no list, one
that is removed is in the list. -/
def Proper : Option (Texts ι) → TextOp ι → Prop
  | some t, .tlAdd _ line => (cell t.heap line).isSome = true ∧ ∀ j, line ∉ t.lines j
  | some t, .tlRemove i line => line ∈ t.lines i
  | some t, .tlDelete i line => line ∈ t.lines i
  | _, _ => True

/-- Nothing is moved from a list with lines to another one with lines. -/
def Keeps : Option (Texts ι) → TextOp ι → Prop
  | some t, .tlAddtlMove d s => d = s ∨ (t.lists d).first = none ∨ (t.lists s).first = none
  | _, _ => True

end Steps

/-! ## Lists in order -/

/-- Along `next` from `first` and along `prev` from `last` the same lines are
met, in opposite order; they are counted, and no line is in two lists. -/
structure Holds {ι : Type} (t : Texts ι) (f : ι → List (Nat × Str)) : Prop where
  forward : ∀ i, Chain.Linked t.heap (t.lists i).first (f i)
  backward : ∀ i, Chain.Linked (mirror t.heap) (t.lists i).last (f i).reverse
  count : ∀ i, (t.lists i).n = (f i).length
  apart : ∀ i j, i ≠ j → ∀ a ∈ addrs (f i), a ∉ addrs (f j)

def InOrder {ι : Type} : Option (Texts ι) → Prop
  | none => False
  | some t => ∃ f, t.Holds f

section InOrder

variable {ι : Type} {t : Texts ι} {f : ι → List (Nat × Str)}

theorem Holds.list (hh : t.Holds f) (i : ι) :
    Fidogate.Holds t.heap (t.lists i).toTextlist (f i) :=
  holds_iff.mpr ⟨hh.forward i, hh.backward i⟩

theorem Holds.of_lists (hl : ∀ i, Fidogate.Holds t.heap (t.lists i).toTextlist (f i))
    (hn : ∀ i, (t.lists i).n = (f i).length)
    (ha : ∀ i j, i ≠ j → ∀ a ∈ addrs (f i), a ∉ addrs (f j)) : t.Holds f :=
  ⟨fun i => (holds_iff.mp (hl i)).1, fun i => (holds_iff.mp (hl i)).2, hn, ha⟩

theorem Holds.lines_eq (hh : t.Holds f) (i : ι) : t.lines i = addrs (f i) := by
  rw [lines, (hh.forward i).chain_eq]

theorem Holds.first_eq_none (hh : t.Holds f) (i : ι) : (t.lists i).first = none ↔ f i = [] := by
  refine ⟨fun hfirst => (hfirst ▸ hh.forward i).eq_nil, fun hi => ?_⟩
  rw [(hh.forward i).head, hi]
  rfl

theorem holds_start : (⟨[], fun _ => .tlInit⟩ : Texts ι).Holds fun _ => [] :=
  .of_lists (fun _ => holds_tlInit []) (fun _ => rfl) fun _ _ _ _ ha => absurd ha List.not_mem_nil

theorem Holds.newLine (hh : t.Holds f) (line : Str) (next prev : Option Nat) :
    (⟨alloc t.heap ⟨line, next, prev⟩, t.lists⟩ : Texts ι).Holds f :=
  .of_lists (fun i => (hh.list i).of_frame (frame_alloc t.heap _) fun _ _ => List.not_mem_nil)
    hh.count hh.apart

/-- A line of the list, with those before and behind it. -/
theorem Holds.split (hh : t.Holds f) {i : ι} {line : Nat} (hp : line ∈ t.lines i) :
    ∃ as x bs, f i = as ++ (line, x) :: bs := by
  rw [hh.lines_eq] at hp
  obtain ⟨⟨_, x⟩, hm, rfl⟩ := List.mem_map.mp hp
  obtain ⟨as, bs, heq⟩ := List.append_of_mem hm
  exact ⟨as, x, bs, heq⟩

variable [DecidableEq ι]

/-- What a function does to one list leaves the others as they are. -/
theorem Holds.set {i : ι} {l : CountedList} {h : Lines} {as : List (Nat × Str)} {S : List Nat}
    (hh : t.Holds f) (hl : Fidogate.Holds h l.toTextlist as) (hn : l.n = as.length)
    (hf : Chain.Frame S t.heap h) (hS : ∀ j, j ≠ i → ∀ a ∈ addrs (f j), a ∉ S)
    (has : ∀ j, j ≠ i → ∀ a ∈ addrs (f j), a ∉ addrs as) :
    (t.set i (l, h)).Holds (Function.update f i as) := by
  refine .of_lists (fun j => ?_) (fun j => ?_) fun j k hjk a ha => ?_
  · change Fidogate.Holds h (Function.update t.lists i l j).toTextlist _
    by_cases hj : j = i
    · subst hj
      rw [Function.update_self, Function.update_self]
      exact hl
    · rw [Function.update_of_ne hj, Function.update_of_ne hj]
      exact (hh.list j).of_frame hf (hS j hj)
  · change (Function.update t.lists i l j).n = _
    by_cases hj : j = i
    · subst hj
      rw [Function.update_self, Function.update_self, hn]
    · rw [Function.update_of_ne hj, Function.update_of_ne hj, hh.count]
  · by_cases hj : j = i
    · subst hj
      rw [Function.update_self] at ha
      rw [Function.update_of_ne hjk.symm]
      exact fun hm => has k hjk.symm a hm ha
    · rw [Function.update_of_ne hj] at ha
      by_cases hk : k = i
      · subst hk
        rw [Function.update_self]
        exact has j hj a ha
      · rw [Function.update_of_ne hk]
        exact hh.apart j k hjk a ha

/-- The same for a function that touches no line but those of its list. -/
theorem Holds.set_own {i : ι} {l : CountedList} {h : Lines} {as : List (Nat × Str)}
    (hh : t.Holds f) (hl : Fidogate.Holds h l.toTextlist as) (hn : l.n = as.length)
    (hf : Chain.Frame (addrs (f i)) t.heap h) (hsub : addrs as ⊆ addrs (f i)) :
    (t.set i (l, h)).Holds (Function.update f i as) :=
  hh.set hl hn hf (fun j hj a ha => hh.apart j i hj a ha)
    fun j hj a ha hm => hh.apart j i hj a ha (hsub hm)

/-! ## What the calls do -/

/-- A call that changes one list. -/
theorem set_of_call {i : ι} {o : Option (Textlist × Lines)} {l : Textlist} {h : Lines}
    (e : o = some (l, h)) (n : Nat) :
    (do return t.set i (← (do
      let (l, h) ← o
      some ((⟨l, n⟩ : CountedList), h)))) = some (t.set i (⟨l, n⟩, h)) := by
  rw [e]
  rfl

/-- A line more that was in no list, none of the others touched. -/
theorem Holds.set_with (hh : t.Holds f) {i : ι} {line : Nat} {x : Str} {l : Textlist} {h : Lines}
    (hnot : ∀ j, line ∉ addrs (f j)) (hl : Fidogate.Holds h l (f i ++ [(line, x)]))
    (hf : Chain.Frame (line :: addrs (f i)) t.heap h) :
    (t.set i (⟨l, (t.lists i).n + 1⟩, h)).Holds
      (Function.update f i (f i ++ [(line, x)])) := by
  have hother : ∀ j, j ≠ i → ∀ a ∈ addrs (f j), a ∉ line :: addrs (f i) := by
    intro j hj a ha hm
    rcases List.mem_cons.mp hm with rfl | hm
    · exact hnot j ha
    · exact hh.apart j i hj a ha hm
  refine hh.set hl ?_ hf hother fun j hj a ha hm => hother j hj a ha ?_
  · rw [hh.count, List.length_append, List.length_singleton]
  · rw [addrs, List.map_append, List.mem_append, or_comm] at hm
    exact List.mem_cons.mpr (hm.imp_left List.mem_singleton.mp)

theorem Holds.tlAdd (hh : t.Holds f) (i : ι) {line : Nat}
    (hp : Proper (some t) (.tlAdd i line)) : InOrder (step (some t) (.tlAdd i line)) := by
  obtain ⟨hthere, hfree⟩ := hp
  obtain ⟨c, hc⟩ := Option.isSome_iff_exists.mp hthere
  have hnot : ∀ j, line ∉ addrs (f j) := fun j => hh.lines_eq j ▸ hfree j
  obtain ⟨l, h, e, hl, hf⟩ := (hh.list i).tlAdd hc (hnot i)
  have hstep : step (some t) (.tlAdd i line) = some (t.set i (⟨l, (t.lists i).n + 1⟩, h)) :=
    set_of_call e _
  rw [hstep]
  exact ⟨_, hh.set_with hnot hl hf⟩

theorem Holds.tlAppend (hh : t.Holds f) (i : ι) (s : Option Str) :
    InOrder (step (some t) (.tlAppend i s)) := by
  cases s with
  | none => exact ⟨_, hh.set_own (hh.list i) (hh.count i) (.refl _ _) fun _ => id⟩
  | some s =>
      -- the new line is at an address of its own
      have hnot : ∀ j, t.heap.length ∉ addrs (f j) := fun j hm =>
        Nat.lt_irrefl _ ((hh.forward j).lt _ hm)
      obtain ⟨l, h, e, hl, hf⟩ := (hh.list i).tlAppend s
      have hstep : step (some t) (.tlAppend i (some s)) =
          some (t.set i (⟨l, (t.lists i).n + 1⟩, h)) :=
        set_of_call e _
      rw [hstep]
      exact ⟨_, hh.set_with hnot hl (hf.mono (List.subset_cons_self _ _))⟩

/-- A line less, none of the others touched. -/
theorem Holds.set_without (hh : t.Holds f) {i : ι} {line : Nat} {x : Str}
    {as bs : List (Nat × Str)} {l : Textlist} {h : Lines} (hi : f i = as ++ (line, x) :: bs)
    (hl : Fidogate.Holds h l (as ++ bs)) (hf : Chain.Frame (addrs (f i)) t.heap h) :
    (t.set i (⟨l, (t.lists i).n - 1⟩, h)).Holds (Function.update f i (as ++ bs)) := by
  refine hh.set_own hl ?_ hf ?_
  · rw [hh.count, hi, List.length_append, List.length_append, List.length_cons]
    rfl
  · rw [hi, addrs, List.map_append, addrs, List.map_append, List.map_cons]
    exact ((List.sublist_cons_self line _).append_left _).subset

theorem Holds.tlRemove (hh : t.Holds f) (i : ι) {line : Nat}
    (hp : Proper (some t) (.tlRemove i line)) : InOrder (step (some t) (.tlRemove i line)) := by
  obtain ⟨as, x, bs, hi⟩ := hh.split hp
  obtain ⟨l, h, e, hl, -, hf⟩ := (hi ▸ hh.list i).tlRemove
  have hstep : step (some t) (.tlRemove i line) = some (t.set i (⟨l, (t.lists i).n - 1⟩, h)) :=
    set_of_call e _
  rw [hstep]
  exact ⟨_, hh.set_without hi hl (hi ▸ hf)⟩

theorem Holds.tlDelete (hh : t.Holds f) (i : ι) {line : Nat}
    (hp : Proper (some t) (.tlDelete i line)) : InOrder (step (some t) (.tlDelete i line)) := by
  obtain ⟨as, x, bs, hi⟩ := hh.split hp
  obtain ⟨l, h, e, hl, hf⟩ := (hi ▸ hh.list i).tlDelete_line
  have hstep : step (some t) (.tlDelete i line) = some (t.set i (⟨l, (t.lists i).n - 1⟩, h)) :=
    set_of_call e _
  rw [hstep]
  exact ⟨_, hh.set_without hi hl (hi ▸ hf)⟩

theorem Holds.tlClear (hh : t.Holds f) (i : ι) : InOrder (step (some t) (.tlClear i)) := by
  obtain ⟨h, e, hf⟩ := tlClear_spec (hh.forward i)
  have hstep : step (some t) (.tlClear i) = some (t.set i (.tlInit, h)) :=
    set_of_call e _
  rw [hstep]
  exact ⟨_, hh.set_own (holds_tlInit h) rfl hf (List.nil_subset _)⟩

/-! ## Moving lines -/

/-- A move behind other lines stores into the last of them only. -/
theorem tlAddtlMove_last {h : Lines} {d : Textlist} {as : List (Nat × Str)} {z : Nat} {y : Str}
    (hd : Fidogate.Holds h d (as ++ [(z, y)])) (s : Textlist) :
    ∃ c, cell h z = some c ∧
      tlAddtlMove h d s = some (d, write h z (some { c with next := s.first })) := by
  obtain ⟨first, last⟩ := d
  obtain ⟨c, hc, -⟩ := hd.links.linked.cell_mem (List.mem_append_right _ List.mem_cons_self)
  obtain rfl : last = some z := hd.last.trans (by rw [List.getLast?_concat]; rfl)
  obtain ⟨f, hf⟩ : ∃ f, first = some f := by
    have := hd.links.linked.head
    cases as <;> exact ⟨_, this⟩
  refine ⟨c, hc, ?_⟩
  rw [tlAddtlMove]
  simp [hf, setNext_eq hc]

theorem step_tlAddtlMove {d s : ι} {l : Textlist} {h : Lines}
    (e : tlAddtlMove t.heap (t.lists d).toTextlist (t.lists s).toTextlist = some (l, h)) :
    step (some t) (.tlAddtlMove d s) = some ((t.set d
      (⟨l, if (t.lists d).first = none then (t.lists s).n else (t.lists d).n + (t.lists s).n⟩,
        h)).set s (.tlInit, h)) := by
  change (do
    let r ← (t.lists d).tlAddtlMove t.heap (t.lists s)
    return (t.set d r).set s (.tlInit, r.2)) = _
  rw [CountedList.tlAddtlMove, e]
  rfl

theorem set_set_of_ne {d s : ι} (hds : d ≠ s) {r r' : CountedList × Lines} :
    ((t.set d r).set s r').lists d = r.1 := by
  change Function.update (Function.update t.lists d r.1) s r'.1 d = r.1
  rw [Function.update_of_ne hds, Function.update_self]

/-- Whatever is moved from a list to itself, the list is empty then. -/
theorem Holds.move_self (hh : t.Holds f) {d : ι} {r : CountedList × Lines}
    (hf : Chain.Frame (addrs (f d)) t.heap r.2) :
    ((t.set d r).set d (.tlInit, r.2)).Holds (Function.update f d []) := by
  have hset : (t.set d r).set d (.tlInit, r.2) = t.set d (.tlInit, r.2) := by
    rw [Texts.set, Texts.set, Texts.set, Function.update_idem]
  rw [hset]
  exact hh.set_own (holds_tlInit r.2) rfl hf (List.nil_subset _)

/-- An empty list takes over the lines of another. -/
theorem Holds.move_nil (hh : t.Holds f) {d s : ι} (hds : d ≠ s) :
    ((t.set d (t.lists s, t.heap)).set s (.tlInit, t.heap)).Holds
      (Function.update (Function.update f s []) d (f s)) := by
  have hset : (t.set d (t.lists s, t.heap)).set s (.tlInit, t.heap) =
      (t.set s (.tlInit, t.heap)).set d (t.lists s, t.heap) := by
    rw [Texts.set, Texts.set, Texts.set, Texts.set, Function.update_comm hds.symm]
  have hempty : (t.set s (.tlInit, t.heap)).Holds (Function.update f s []) :=
    hh.set_own (holds_tlInit t.heap) rfl (.refl _ _) (List.nil_subset _)
  rw [hset]
  refine hempty.set (hh.list s) (hh.count s) (.refl [] _) (fun _ _ _ _ => List.not_mem_nil)
    fun j _ a ha => ?_
  by_cases hjs : j = s
  · subst hjs
    rw [Function.update_self] at ha
    exact absurd ha List.not_mem_nil
  · rw [Function.update_of_ne hjs] at ha
    exact hh.apart j s hjs a ha

/-- What a move makes of the two lists when the target has lines: along `next`
those of the source are behind them, along `prev` they are not. -/
structure Behind (t : Texts ι) (f : ι → List (Nat × Str)) (d s : ι) (h : Lines) : Prop where
  call : step (some t) (.tlAddtlMove d s) = some ((t.set d
    (⟨(t.lists d).toTextlist, (t.lists d).n + (t.lists s).n⟩, h)).set s (.tlInit, h))
  frame : Chain.Frame (addrs (f d)) t.heap h
  forward : d ≠ s → Chain.Linked h (t.lists d).first (f d ++ f s)
  backward : Chain.Linked (mirror h) (t.lists d).last (f d).reverse

theorem Holds.behind (hh : t.Holds f) {d : ι} (hd : f d ≠ []) (s : ι) :
    ∃ h, Behind t f d s h := by
  obtain ⟨as, ⟨z, y⟩, hconcat⟩ := (List.eq_nil_or_concat (f d)).resolve_left hd
  rw [List.concat_eq_append] at hconcat
  have hfirst : (t.lists d).first ≠ none := (hh.first_eq_none d).not.mpr hd
  obtain ⟨c, hc, e⟩ := tlAddtlMove_last (hconcat ▸ hh.list d) (t.lists s).toTextlist
  have hzd : z ∈ addrs (f d) := by
    rw [hconcat]
    simp
  refine ⟨write t.heap z (some { c with next := (t.lists s).first }), ?_, ?_, fun hds => ?_, ?_⟩
  · rw [step_tlAddtlMove e, if_neg hfirst]
  · exact (frame_write t.heap z _).mono fun b hb => List.mem_singleton.mp hb ▸ hzd
  · obtain ⟨c', hc', hl⟩ :=
      (hconcat ▸ hh.forward d).append (hh.forward s) (hh.apart d s hds z hzd)
    obtain rfl : c = c' := Option.some.inj (hc.symm.trans hc')
    rwa [hconcat]
  · exact (hh.backward d).write_next hc (t.lists s).first

/-- There is nothing to be moved. -/
theorem Holds.move_none (hh : t.Holds f) {d s : ι} {h : Lines} (hds : d ≠ s)
    (hb : Behind t f d s h) (hs : f s = []) : InOrder (step (some t) (.tlAddtlMove d s)) := by
  have hforward := hb.forward hds
  rw [hs, List.append_nil] at hforward
  have hsame : (t.set d (⟨(t.lists d).toTextlist, (t.lists d).n + (t.lists s).n⟩, h)).Holds
      (Function.update f d (f d)) := by
    refine hh.set_own (holds_iff.mpr ⟨hforward, hb.backward⟩) ?_ hb.frame (List.Subset.refl _)
    change (t.lists d).n + (t.lists s).n = _
    rw [hh.count, hh.count, hs, List.length_nil, Nat.add_zero]
  rw [hb.call]
  exact ⟨_, hsame.set_own (holds_tlInit h) rfl (.refl _ _) (List.nil_subset _)⟩

/-- The first line moved is met along `next`, but not along `prev`. -/
theorem Behind.not_inOrder {d s : ι} {h : Lines} (hb : Behind t f d s h) (hds : d ≠ s)
    (hs : f s ≠ []) : ¬ InOrder (step (some t) (.tlAddtlMove d s)) := by
  rw [hb.call]
  rintro ⟨f', hh'⟩
  have hf' := hh'.forward d
  have hb' := hh'.backward d
  rw [set_set_of_ne hds] at hf' hb'
  have hnext : f d ++ f s = f' d := (hb.forward hds).det hf'
  have hprev : (f d).reverse = (f' d).reverse := hb.backward.det hb'
  rw [← hnext, List.reverse_inj] at hprev
  exact hs (List.append_right_eq_self.mp hprev.symm)

/-- Moving keeps the lists in order unless both have lines. -/
theorem Holds.tlAddtlMove_iff (hh : t.Holds f) (d s : ι) :
    InOrder (step (some t) (.tlAddtlMove d s)) ↔
      d = s ∨ (t.lists d).first = none ∨ (t.lists s).first = none := by
  by_cases hd : f d = []
  · have hfirst := (hh.first_eq_none d).mpr hd
    have e : tlAddtlMove t.heap (t.lists d).toTextlist (t.lists s).toTextlist =
        some ((t.lists s).toTextlist, t.heap) := by
      rw [tlAddtlMove, hfirst]
    rw [step_tlAddtlMove e, if_pos hfirst]
    refine iff_of_true ?_ (.inr (.inl hfirst))
    by_cases hds : d = s
    · subst hds
      exact ⟨_, hh.move_self (.refl _ _)⟩
    · exact ⟨_, hh.move_nil hds⟩
  · obtain ⟨h, hb⟩ := hh.behind hd s
    rw [hh.first_eq_none, hh.first_eq_none]
    by_cases hds : d = s
    · subst hds
      rw [hb.call]
      exact iff_of_true ⟨_, hh.move_self hb.frame⟩ (.inl rfl)
    by_cases hs : f s = []
    · exact iff_of_true (hh.move_none hds hb hs) (.inr (.inr hs))
    · exact iff_of_false (hb.not_inOrder hds hs) (not_or.mpr ⟨hds, not_or.mpr ⟨hd, hs⟩⟩)

/-- One call keeps lists in order exactly when it meets the condition. -/
theorem inOrder_step_iff (t : Option (Texts ι)) (op : TextOp ι) (ht : InOrder t)
    (hp : Proper t op) : InOrder (step t op) ↔ Keeps t op := by
  match t, ht with
  | some t, ⟨f, hh⟩ =>
      cases op with
      | newLine line next prev => exact iff_of_true ⟨f, hh.newLine line next prev⟩ trivial
      | tlAdd i line => exact iff_of_true (hh.tlAdd i hp) trivial
      | tlAppend i s => exact iff_of_true (hh.tlAppend i s) trivial
      | tlRemove i line => exact iff_of_true (hh.tlRemove i hp) trivial
      | tlDelete i line => exact iff_of_true (hh.tlDelete i hp) trivial
      | tlAddtlMove d s => exact hh.tlAddtlMove_iff d s
      | tlClear i => exact iff_of_true (hh.tlClear i) trivial

/-- Calls that keep to what callers promise leave all lists in order at every
point exactly when no lines are moved behind other lines. -/
theorem texts_inOrder_iff (ops : List (TextOp ι)) (hp : Run.Met step Proper start ops) :
    (∀ ops', ops' <+: ops → InOrder (Run.run step start ops')) ↔ Run.Met step Keeps start ops :=
  Run.all_run_iff_met inOrder_step_iff ops ⟨_, holds_start⟩ hp

end InOrder

/-- A caller's line is added to one list and another line appended, the first
is taken out and deleted from the list it was added to next, and what is left
moves to the empty list, which is cleared. -/
def someCalls : List (TextOp Bool) :=
  [.newLine (lit "a\n") (some 7) none, .tlAdd false 0, .tlAppend false (some (lit "b\n")),
    .tlRemove false 0, .tlAdd true 0, .tlDelete true 0, .tlAddtlMove true false, .tlClear true]

theorem texts_inOrder_someCalls : InOrder (Run.run step start someCalls) := by
  have hp : Run.Met step Proper start someCalls := by
    refine ⟨trivial, ⟨rfl, ?_⟩, trivial, ?_, ⟨rfl, ?_⟩, ?_, trivial, trivial, trivial⟩
    · intro j
      cases j <;> decide
    · exact List.mem_cons_self
    · intro j
      cases j <;> decide
    · exact List.mem_cons_self
  have hk : Run.Met step Keeps start someCalls :=
    ⟨trivial, trivial, trivial, trivial, trivial, trivial, .inr (.inl rfl), trivial, trivial⟩
  exact (texts_inOrder_iff someCalls hp).mpr hk someCalls (List.prefix_refl _)

/-- One line moves behind another. -/
theorem not_inOrder_move :
    ¬ ∀ ops : List (TextOp Bool), Run.Met step Proper start ops →
      InOrder (Run.run step start ops) := by
  intro h
  have hbefore := h [.tlAppend false (some (lit "a\n")), .tlAppend true (some (lit "b\n"))]
    ⟨trivial, trivial, trivial⟩
  have hafter := h [.tlAppend false (some (lit "a\n")), .tlAppend true (some (lit "b\n")),
    .tlAddtlMove false true] ⟨trivial, trivial, trivial, trivial⟩
  have hkeeps := (inOrder_step_iff _ (.tlAddtlMove false true) hbefore trivial).mp hafter
  rcases hkeeps with hk | hk | hk <;> cases hk

end Texts

end Fidogate

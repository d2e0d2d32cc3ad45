/-
# `Fidogate.Common.Textlist` — textlist.c

A `Textlist` is the addresses of its first and last line.  The counter `n` is
left out: no function below reads it.  A dereference of NULL or of a freed
line is `none`.
-/
import Fidogate.Lib.Bytes
import Fidogate.Lib.Chain
import Fidogate.Lib.Mirror

namespace Fidogate

open Bytes Chain

/-- Textlist -/
structure Textlist where
  first : Option Nat
  last : Option Nat
deriving DecidableEq, Repr

abbrev Lines := Heap Str

def tlInit : Textlist := ⟨none, none⟩

/-- The lines a reader of the list meets. -/
def tlLines (h : Lines) (l : Textlist) : List Str := vals (chain h l.first)

/-- `tl_add` -/
def tlAdd (h : Lines) (list : Textlist) (line : Nat) : Option (Textlist × Lines) := do
  let (first, h) ←
    match list.last with
    | some z => do pure (list.first, ← setNext h z (some line))
    | none => some (some line, h)
  let h ← setNext h line none
  let h ← setPrev h line list.last
  some (⟨first, some line⟩, h)

/-- `tl_append`; the links of the new line are not set before `tl_add`. -/
def tlAppend (h : Lines) (list : Textlist) (s : Str) : Option (Textlist × Lines) :=
  tlAdd (alloc h ⟨s, none, none⟩) list h.length

/-- `tl_remove` -/
def tlRemove (h : Lines) (list : Textlist) (line : Nat) : Option (Textlist × Lines) := do
  let c ← cell h line
  let (first, h) ←
    if list.first = some line then some (c.next, h)
    else do pure (list.first, ← setNext h (← c.prev) c.next)
  let (last, h) ←
    if list.last = some line then some (c.prev, h)
    else do pure (list.last, ← setPrev h (← c.next) c.prev)
  let h ← setNext h line none
  let h ← setPrev h line none
  some (⟨first, last⟩, h)

/-- `tl_delete` -/
def tlDelete (h : Lines) (list : Textlist) (line : Nat) : Option (Textlist × Lines) := do
  let (list, h) ← tlRemove h list line
  some (list, write h line none)

/-- The loop of `tl_clear`; every turn frees a line, so it makes at most
`n = h.length` of them. -/
def freeLines : Nat → Lines → Option Nat → Option Lines
  | _, h, none => some h
  | 0, _, some _ => none
  | n + 1, h, some p => do
      let c ← cell h p
      freeLines n (write h p none) c.next

/-- `tl_clear` -/
def tlClear (h : Lines) (list : Textlist) : Option (Textlist × Lines) := do
  let h ← freeLines h.length h list.first
  some (tlInit, h)

/-- `tl_copy` of lines read from some list -/
def tlCopy (h : Lines) (dst : Textlist) (src : List Str) : Option (Textlist × Lines) :=
  src.foldlM (fun s line => tlAppend s.2 s.1 line) (dst, h)

/-- `tl_addtl_move`: the list `d` afterwards; `s` is empty then. -/
def tlAddtlMove (h : Lines) (d s : Textlist) : Option (Textlist × Lines) :=
  match d.first with
  | none => some (s, h)
  | some _ => do
      let last ← d.last
      let h ← setNext h last s.first
      some (d, h)

/-! ## Lists in order -/

/-- The list has exactly these lines, all links in order. -/
structure Holds (h : Lines) (l : Textlist) (as : List (Nat × Str)) : Prop where
  links : Doubly h none l.first as
  last : l.last = as.getLast?.map Prod.fst

theorem holds_tlInit (h : Lines) : Holds h tlInit [] := ⟨.nil, rfl⟩

theorem Holds.lines {h : Lines} {l : Textlist} {as : List (Nat × Str)} (hh : Holds h l as) :
    tlLines h l = vals as := by
  rw [tlLines, hh.links.linked.chain_eq]

theorem Holds.frame {h h' : Lines} {l : Textlist} {as : List (Nat × Str)} (hh : Holds h l as)
    (hs : ∀ a ∈ addrs as, cell h' a = cell h a) : Holds h' l as :=
  ⟨hh.links.frame hs, hh.last⟩

theorem Holds.of_frame {h h' : Lines} {l : Textlist} {as : List (Nat × Str)} {S : List Nat}
    (hh : Holds h l as) (hf : Frame S h h') (hd : ∀ a ∈ addrs as, a ∉ S) : Holds h' l as :=
  hh.frame fun a ha => hf.same a (hh.links.linked.lt a ha) (hd a ha)

/-- Both ways through the list lead along the same lines. -/
theorem holds_iff {h : Lines} {l : Textlist} {as : List (Nat × Str)} :
    Holds h l as ↔ Linked h l.first as ∧ Linked (mirror h) l.last as.reverse :=
  ⟨fun hh => doubly_iff.mp ⟨hh.links, hh.last⟩, fun hl =>
    ⟨(doubly_iff.mpr hl).1, (doubly_iff.mpr hl).2⟩⟩

/-- The end of `tl_add` and `tl_remove`: both links of a line are set. -/
theorem setLinks {h : Lines} {a : Nat} {x : Str} {n p : Option Nat}
    (hc : cell h a = some ⟨x, n, p⟩) (nx pv : Option Nat) :
    ∃ h1 h2, setNext h a nx = some h1 ∧ setPrev h1 a pv = some h2 ∧
      cell h2 a = some ⟨x, nx, pv⟩ ∧ Frame [a] h h2 := by
  have ha := lt_of_cell hc
  have hc1 := cell_write_self ha (some { (⟨x, n, p⟩ : Cell Str) with next := nx })
  refine ⟨_, _, setNext_eq hc nx, setPrev_eq hc1 pv, ?_, ?_⟩
  · exact cell_write_self (by simpa using ha) _
  · exact (frame_write h a _).trans (frame_write _ a _) fun b _ hb => hb.elim id id

/-- `tl_add` puts a line that is not in the list behind the last one. -/
theorem Holds.tlAdd {h : Lines} {l : Textlist} {as : List (Nat × Str)} (hh : Holds h l as)
    {a : Nat} {c : Cell Str} (hc : cell h a = some c) (ha : a ∉ addrs as) :
    ∃ l' h', tlAdd h l a = some (l', h') ∧ Holds h' l' (as ++ [(a, c.val)]) ∧
      Frame (a :: addrs as) h h' := by
  obtain ⟨first, last⟩ := l
  obtain ⟨hd, hl⟩ := hh
  rcases List.eq_nil_or_concat as with rfl | ⟨bs, ⟨z, y⟩, rfl⟩
  · -- the list was empty
    obtain rfl : last = none := hl
    cases hd
    obtain ⟨h1, h2, e1, e2, hc2, hf⟩ := setLinks hc none none
    refine ⟨⟨some a, some a⟩, h2, ?_, ⟨.cons hc2 .nil, rfl⟩, hf⟩
    simp [Fidogate.tlAdd, e1, e2]
  · -- the last line is at `z`
    rw [List.concat_eq_append] at hd hl ha ⊢
    obtain rfl : last = some z := by simpa using hl
    obtain ⟨cz, hcz, -⟩ := hd.linked.cell_mem (a := z) (x := y) (by simp)
    have haz : a ≠ z := fun e => ha (by simp [e])
    have hfw := frame_write h z (some { cz with next := some a })
    have hc1 := (cell_write_ne haz (some { cz with next := some a })).trans hc
    obtain ⟨h1, h2, e1, e2, hc2, hf⟩ := setLinks hc1 none (some z)
    have hcz2 : cell h2 z = some { cz with next := some a } := by
      rw [hf.same z (by simpa using lt_of_cell hcz) (by simpa using haz.symm),
        cell_write_self (lt_of_cell hcz)]
    have hfr : Frame (z :: [a]) h h2 := hfw.trans hf fun b _ hb => by simpa using hb
    refine ⟨⟨first, some a⟩, h2, ?_, ⟨hd.snoc hcz hcz2 hc2 ?_, by simp⟩, hfr.mono ?_⟩
    · simp [Fidogate.tlAdd, setNext_eq hcz, e1, e2]
    · intro b hb
      have hbz : b ≠ z := ne_of_mem_of_not_mem hb hd.linked.not_mem_of_append.1
      have hbs : b ∈ addrs (bs ++ [(z, y)]) := by
        rw [addrs, List.map_append]
        exact List.mem_append_left _ hb
      exact hfr.same b (hd.linked.lt b hbs) (by simp [hbz, ne_of_mem_of_not_mem hbs ha])
    · simp

/-- `tl_append` puts the line behind the last one. -/
theorem Holds.tlAppend {h : Lines} {l : Textlist} {as : List (Nat × Str)} (hh : Holds h l as)
    (s : Str) : ∃ l' h', tlAppend h l s = some (l', h') ∧
      Holds h' l' (as ++ [(h.length, s)]) ∧ Frame (addrs as) h h' := by
  have hold : Holds (alloc h ⟨s, none, none⟩) l as :=
    hh.of_frame (frame_alloc h _) fun _ _ => List.not_mem_nil
  have hfresh : h.length ∉ addrs as := fun hm => Nat.lt_irrefl _ (hh.links.linked.lt _ hm)
  obtain ⟨l', h', e, hh', hf⟩ := hold.tlAdd (cell_alloc_self h ⟨s, none, none⟩) hfresh
  refine ⟨l', h', e, hh', (frame_alloc h _).trans hf fun b hb hm => ?_⟩
  have hm := hm.resolve_left List.not_mem_nil
  exact (List.mem_cons.mp hm).resolve_left (Nat.ne_of_lt hb)

/-- `tl_copy` puts the lines behind the last one. -/
theorem Holds.tlCopy {h : Lines} {l : Textlist} {as : List (Nat × Str)} (hh : Holds h l as)
    (src : List Str) : ∃ l' h' bs, tlCopy h l src = some (l', h') ∧ Holds h' l' (as ++ bs) ∧
      vals bs = src ∧ (∀ b ∈ addrs bs, h.length ≤ b) ∧ Frame (addrs as) h h' := by
  induction src generalizing h l as with
  | nil =>
      exact ⟨l, h, [], rfl, by rwa [List.append_nil], rfl, by simp, .refl _ h⟩
  | cons s src ih =>
      obtain ⟨l1, h1, e1, hh1, hf1⟩ := hh.tlAppend s
      obtain ⟨l2, h2, bs, e2, hh2, hv, hlo, hf2⟩ := ih hh1
      refine ⟨l2, h2, (h.length, s) :: bs, ?_, ?_, congrArg (s :: ·) hv, ?_, ?_⟩
      · rw [Fidogate.tlCopy, List.foldlM_cons, e1]
        exact e2
      · rw [List.append_assoc] at hh2
        exact hh2
      · intro b hb
        rcases List.mem_cons.mp hb with rfl | hb
        · exact Nat.le_refl _
        · exact Nat.le_trans hf1.le (hlo b hb)
      · refine hf1.trans hf2 fun b hb hm => hm.elim id fun hm => ?_
        rw [addrs, List.map_append, List.mem_append] at hm
        refine hm.resolve_right fun e => Nat.ne_of_lt hb ?_
        simpa using e

/-- The two halves of `tl_remove`, and its end. -/
theorem tlRemove_eq {h : Lines} {l : Textlist} {a : Nat} {c : Cell Str} {p q : Option Nat}
    {h1 h2 h3 h4 : Lines} (hc : cell h a = some c) (e1 : unlinkNext h l.first a c = some (p, h1))
    (e2 : unlinkPrev h1 l.last a c = some (q, h2)) (e3 : setNext h2 a none = some h3)
    (e4 : setPrev h3 a none = some h4) : tlRemove h l a = some (⟨p, q⟩, h4) := by
  obtain ⟨first, last⟩ := l
  rcases unlinkNext_eq_some.mp e1 with ⟨rfl, rfl, rfl⟩ | ⟨hf, rfl, z, hz, hset1⟩ <;>
    rcases unlinkPrev_eq_some.mp e2 with ⟨rfl, rfl, rfl⟩ | ⟨hl, rfl, b, hb, hset2⟩
  · simp [tlRemove, hc, e3, e4]
  · simp [tlRemove, hc, hb, hl, hset2, e3, e4]
  · simp [tlRemove, hc, hz, hf, hset1, e3, e4]
  · rw [hz] at hset2
    rw [hb] at hset1
    simp [tlRemove, hc, hz, hf, hb, hl, hset1, hset2, e3, e4]

/-- `tl_remove` takes a line out of the list, wherever it is. -/
theorem Holds.tlRemove {h : Lines} {l : Textlist} {a : Nat} {x : Str} {as bs : List (Nat × Str)}
    (hh : Holds h l (as ++ (a, x) :: bs)) :
    ∃ l' h', tlRemove h l a = some (l', h') ∧ Holds h' l' (as ++ bs) ∧
      cell h' a = some ⟨x, none, none⟩ ∧ Frame (addrs (as ++ (a, x) :: bs)) h h' := by
  obtain ⟨hf, hb⟩ := holds_iff.mp hh
  obtain ⟨hnas, hnbs⟩ := hf.not_mem_of_append
  obtain ⟨c, p, q, h1, h2, hc, rfl, e1, e2, hc2, hf2, hb2, hfr⟩ := unlink_spec hf hb
  obtain ⟨h3, h4, e3, e4, hc4, hfr'⟩ := setLinks hc2 none none
  have hrest : Holds h2 ⟨p, q⟩ (as ++ bs) := holds_iff.mpr ⟨hf2, hb2⟩
  refine ⟨⟨p, q⟩, h4, ?_, hrest.of_frame hfr' fun b hm hba => ?_, hc4, hfr.trans hfr' ?_⟩
  · exact tlRemove_eq hc e1 e2 e3 e4
  · rw [addrs, List.map_append, List.mem_append] at hm
    obtain rfl := List.mem_singleton.mp hba
    exact hm.elim hnas hnbs
  · intro b _ hm
    rw [addrs, List.map_append, List.map_cons, List.mem_append, List.mem_cons]
    rw [List.mem_append, List.mem_singleton] at hm
    rcases hm with (hm | hm) | hm
    · exact .inl hm
    · exact .inr (.inr hm)
    · exact .inr (.inl hm)

/-- `tl_delete` frees the line besides. -/
theorem Holds.tlDelete_line {h : Lines} {l : Textlist} {a : Nat} {x : Str}
    {as bs : List (Nat × Str)} (hh : Holds h l (as ++ (a, x) :: bs)) :
    ∃ l' h', tlDelete h l a = some (l', h') ∧ Holds h' l' (as ++ bs) ∧
      Frame (addrs (as ++ (a, x) :: bs)) h h' := by
  obtain ⟨l', h', e, hh', -, hf⟩ := hh.tlRemove
  obtain ⟨hnas, hnbs⟩ := hh.links.linked.not_mem_of_append
  refine ⟨l', write h' a none, ?_, hh'.of_frame (frame_write h' a none) fun b hm hba => ?_,
    hf.trans (frame_write h' a none) fun b _ hm => hm.elim id fun hba => ?_⟩
  · rw [tlDelete, e]
    rfl
  · rw [addrs, List.map_append, List.mem_append] at hm
    obtain rfl := List.mem_singleton.mp hba
    exact hm.elim hnas hnbs
  · rw [List.mem_singleton.mp hba]
    simp

/-- `tl_delete` of the first line. -/
theorem Holds.tlDelete_first {h : Lines} {l : Textlist} {a : Nat} {x : Str}
    {as : List (Nat × Str)} (hh : Holds h l ((a, x) :: as)) :
    ∃ l' h', tlDelete h l a = some (l', h') ∧ Holds h' l' as ∧
      Frame (a :: addrs as) h h' :=
  (show Holds h l ([] ++ (a, x) :: as) from hh).tlDelete_line

/-- `tl_clear` frees the lines of a list, whatever its other links are. -/
theorem freeLines_spec {h : Lines} {p : Option Nat} {as : List (Nat × Str)}
    (hl : Linked h p as) : ∀ {n}, as.length ≤ n →
      ∃ h', freeLines n h p = some h' ∧ Frame (addrs as) h h' := by
  induction as generalizing h p with
  | nil =>
      intro n _
      cases hl
      exact ⟨h, by cases n <;> rfl, .refl _ h⟩
  | cons a as ih =>
      intro n hn
      cases n with
      | zero => exact absurd hn (by simp)
      | succ n =>
          have hnd := List.nodup_cons.mp hl.nodup
          cases hl with
          | @cons a x nx pv _ hc hl =>
              have hl' : Linked (write h a none) nx as :=
                hl.frame fun b hb => cell_write_ne (ne_of_mem_of_not_mem hb hnd.1) none
              obtain ⟨h', e, hf⟩ := ih hl' (Nat.le_of_succ_le_succ hn)
              refine ⟨h', by simp [freeLines, hc, e], ?_⟩
              exact (frame_write h a none).trans hf fun b _ hb => by simpa using hb

theorem tlClear_spec {h : Lines} {l : Textlist} {as : List (Nat × Str)}
    (hl : Linked h l.first as) :
    ∃ h', tlClear h l = some (tlInit, h') ∧ Frame (addrs as) h h' := by
  obtain ⟨h', e, hf⟩ := freeLines_spec hl hl.length_le
  exact ⟨h', by simp [tlClear, e], hf⟩

/-! ## Lists whose `last` may lag behind -/

/-- The list's lines are those at `keep` and `rest`, and `last` points to the
last line of `keep`.  `tl_addtl_move` leaves such lists. -/
structure Lags (h : Lines) (l : Textlist) (keep rest : List (Nat × Str)) : Prop where
  links : Linked h l.first (keep ++ rest)
  last : l.last = keep.getLast?.map Prod.fst
  empty : keep = [] → rest = []

theorem Lags.lines {h : Lines} {l : Textlist} {keep rest : List (Nat × Str)}
    (hg : Lags h l keep rest) : tlLines h l = vals (keep ++ rest) := by
  rw [tlLines, hg.links.chain_eq]

theorem Holds.lags {h : Lines} {l : Textlist} {as : List (Nat × Str)} (hh : Holds h l as) :
    Lags h l as [] :=
  ⟨by rw [List.append_nil]; exact hh.links.linked, hh.last, fun _ => rfl⟩

theorem Lags.of_frame {h h' : Lines} {l : Textlist} {keep rest : List (Nat × Str)}
    {S : List Nat} (hg : Lags h l keep rest) (hf : Frame S h h')
    (hd : ∀ a ∈ addrs (keep ++ rest), a ∉ S) : Lags h' l keep rest :=
  ⟨hg.links.of_frame hf hd, hg.last, hg.empty⟩

/-- Moving to an empty list copies the head. -/
theorem tlAddtlMove_nil {h : Lines} {d s : Textlist} (hd : Lags h d [] []) :
    tlAddtlMove h d s = some (s, h) := by
  have hf : d.first = none := hd.links.head
  rw [tlAddtlMove, hf]

/-- Moving to another list links the lines behind `last`: what was behind it
is lost, and `last` stays. -/
theorem tlAddtlMove_cons {h : Lines} {d s : Textlist} {k r k' r' : List (Nat × Str)}
    (hd : Lags h d k r) (hs : Lags h s k' r') (hk : k ≠ [])
    (hdis : ∀ a ∈ addrs k, a ∉ addrs (k' ++ r')) :
    ∃ h', tlAddtlMove h d s = some (d, h') ∧ Lags h' d k (k' ++ r') ∧
      Frame (addrs k) h h' := by
  obtain ⟨first, last⟩ := d
  obtain ⟨hl, hlast, -⟩ := hd
  rcases List.eq_nil_or_concat k with rfl | ⟨bs, ⟨z, y⟩, rfl⟩
  · exact absurd rfl hk
  rw [List.concat_eq_append] at hl hlast hdis ⊢
  rw [List.append_assoc, List.singleton_append] at hl
  obtain rfl : last = some z := by simpa using hlast
  obtain ⟨f, hf⟩ : ∃ f, first = some f := by
    have := hl.head
    cases bs <;> exact ⟨_, this⟩
  obtain ⟨c, hc, hr⟩ := hl.relink hs.links (hdis z (by simp))
  refine ⟨write h z (some { c with next := s.first }), ?_, ⟨?_, by simp, by simp⟩,
    (frame_write h z _).mono (by simp)⟩
  · simp [tlAddtlMove, hf, setNext_eq hc]
  · rw [List.append_assoc, List.singleton_append]
    exact hr

end Fidogate

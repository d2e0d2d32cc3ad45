/-
# `Fidogate.Common.Tmps` — tmps.c: temporary strings

The strings are kept in a singly linked list with a pointer to its first and
one to its last element, so the backward links of the cells are not used.  An
address is never used again: a pointer to something freed stays what it is,
and to read or write through it is a `fault`.
-/
import Fidogate.Lib.Bytes
import Fidogate.Lib.Chain
import Fidogate.Lib.Run

namespace Fidogate

open Bytes Chain

/-- TmpS: the address of the string, and its size. -/
structure TmpS where
  s : Nat
  len : Nat
deriving DecidableEq, Repr

/-- `tmps_list` and `tmps_last`, with the elements and the strings. -/
structure Tmps where
  cells : Heap TmpS
  strings : List (Option Str)
  list : Option Nat
  last : Option Nat

/-- How the program ends: by `exit`, with a text on stderr, or by an access to
memory it does not own. -/
inductive TmpsStop
  | exit (ex : Int) (msg : String)
  | fault
deriving DecidableEq, Repr

def EX_SOFTWARE : Int := 70

def EX_OSERR : Int := 71

/-- What is behind a pointer. -/
def deref {α : Type} : Option α → Except TmpsStop α
  | none => .error .fault
  | some x => .ok x

/-- The `int` that `xmalloc` and `xrealloc` make of a size is negative, and no
such block can be had. -/
def Negative (size : Nat) : Prop := 2 ^ 31 ≤ size % 2 ^ 32

instance (size : Nat) : Decidable (Negative size) := inferInstanceAs (Decidable (_ ≤ _))

def exhausted : TmpsStop := .exit EX_OSERR "Memory exhausted."

/-- `xmalloc` of a block, which goes to the address `strings.length`. -/
def xmalloc (strings : List (Option Str)) (size : Nat) : Except TmpsStop (List (Option Str)) :=
  if Negative size then .error exhausted
  else .ok (strings ++ [some (List.replicate (size % 2 ^ 32) nul)])

/-- `xfree` of a block -/
def xfree (strings : List (Option Str)) (s : Nat) : Except TmpsStop (List (Option Str)) := do
  let _ ← deref strings[s]?.join
  .ok (strings.set s none)

/-- `xrealloc` of a block: what fits of its bytes moves to a new one. -/
def xrealloc (strings : List (Option Str)) (s size : Nat) :
    Except TmpsStop (Nat × List (Option Str)) := do
  let b ← deref strings[s]?.join
  let n := size % 2 ^ 32
  if Negative size ∨ n = 0 then .error exhausted
  else
    .ok (strings.length,
      strings.set s none ++ [some (b.take n ++ List.replicate (n - b.length) nul)])

namespace Tmps

/-- `tmps_alloc`; the address of the new element is returned. -/
def tmpsAlloc (t : Tmps) (len : Nat) : Except TmpsStop (Nat × Tmps) := do
  let strings ← xmalloc t.strings len
  let p := t.cells.length
  let new : Cell TmpS := ⟨⟨t.strings.length, len⟩, none, none⟩
  -- `memset` clears `len` bytes
  if len % 2 ^ 32 < len then .error .fault
  else
    match t.list with
    | some _ => do
        -- the last pointer is older than the new element, and does not point to it
        let z ← deref t.last
        let cells ← deref (setNext t.cells z (some p))
        .ok (p, ⟨alloc cells new, strings, t.list, some p⟩)
    | none => .ok (p, ⟨alloc t.cells new, strings, some p, some p⟩)

/-- `tmps_realloc` -/
def tmpsRealloc (t : Tmps) (p len : Nat) : Except TmpsStop Tmps := do
  let c ← deref (cell t.cells p)
  let (s, strings) ← xrealloc t.strings c.val.s len
  .ok { t with cells := write t.cells p (some { c with val := ⟨s, len⟩ }), strings }

/-- The loop of `tmps_free` and `s_free` from the element `p` on; `pp` is the
one before it.  It makes at most `n = t.cells.length` turns. -/
def freeLoop (found : Nat → TmpS → Bool) (msg : String) :
    Nat → Tmps → Option Nat → Option Nat → Except TmpsStop Tmps
  | _, _, _, none => .error (.exit EX_SOFTWARE msg)
  | 0, _, _, some _ => .error .fault
  | n + 1, t, pp, some p => do
      let c ← deref (cell t.cells p)
      if found p c.val then
        let (cells, list) ←
          match pp with
          | some q => do pure (← deref (setNext t.cells q c.next), t.list)
          | none => pure (t.cells, c.next)
        let strings ← xfree t.strings c.val.s
        .ok ⟨write cells p none, strings, list, t.last⟩
      else freeLoop found msg n t (some p) c.next

/-- `p == s` -/
def isTmps (s : Option Nat) (p : Nat) (_ : TmpS) : Bool := some p == s

/-- `p->s == s` -/
def isString (s : Option Nat) (_ : Nat) (p : TmpS) : Bool := some p.s == s

/-- `tmps_free`; what `exit_free` frees before the end are other tables. -/
def tmpsFree (t : Tmps) (s : Option Nat) : Except TmpsStop Tmps :=
  freeLoop (isTmps s) "tmps_free() internal error - freeing invalid temp string"
    t.cells.length t none t.list

/-- The loop of `tmps_freeall`, of at most `n = t.cells.length` turns. -/
def freeallLoop : Nat → Tmps → Option Nat → Except TmpsStop Tmps
  | _, t, none => .ok t
  | 0, _, some _ => .error .fault
  | n + 1, t, some p => do
      let c ← deref (cell t.cells p)
      let strings ← xfree t.strings c.val.s
      freeallLoop n { t with cells := write t.cells p none, strings } c.next

/-- `tmps_freeall` -/
def tmpsFreeall (t : Tmps) : Except TmpsStop Tmps := do
  let t ← freeallLoop t.cells.length t t.list
  .ok { t with list := none, last := none }

/-- `s_alloc` -/
def sAlloc (t : Tmps) (len : Nat) : Except TmpsStop (Nat × Tmps) := do
  let (p, t) ← t.tmpsAlloc len
  let c ← deref (cell t.cells p)
  .ok (c.val.s, t)

/-- `s_free` -/
def sFree (t : Tmps) (s : Option Nat) : Except TmpsStop Tmps :=
  freeLoop (isString s) "s_free() internal error - freeing invalid temp string"
    t.cells.length t none t.list

/-! ## The list in order -/

/-- The elements are these: the list leads through them, the last pointer
points to the last of them, no other element is in use, and no other string. -/
structure Holds (t : Tmps) (as : List (Nat × TmpS)) : Prop where
  links : Chain.Linked t.cells t.list as
  last : t.last = as.getLast?.map Prod.fst
  elements : ∀ p, (cell t.cells p).isSome = true ↔ p ∈ addrs as
  strings : ∀ s, t.strings[s]?.join.isSome = true ↔ s ∈ (vals as).map TmpS.s
  once : ((vals as).map TmpS.s).Nodup

/-- An element `(a, x)` is taken out from between `as` and `bs`, and freed. -/
structure Unlinked (t t' : Tmps) (as bs : List (Nat × TmpS)) (a : Nat) (x : TmpS) : Prop where
  links : Chain.Linked t'.cells t'.list (as ++ bs)
  last : t'.last = t.last
  elements : ∀ p, (cell t'.cells p).isSome = true ↔ p ≠ a ∧ (cell t.cells p).isSome = true
  strings : t'.strings = t.strings.set x.s none

@[simp] theorem deref_some {α : Type} (x : α) : deref (some x) = .ok x := rfl

theorem xfree_live {strings : List (Option Str)} {s : Nat}
    (h : strings[s]?.join.isSome = true) : xfree strings s = .ok (strings.set s none) := by
  obtain ⟨b, hb⟩ := Option.isSome_iff_exists.mp h
  rw [xfree, hb]
  rfl

theorem holds_nil : Holds ⟨[], [], none, none⟩ [] :=
  ⟨.nil, rfl, by simp [cell], by simp, List.nodup_nil⟩

section FreeLoop

variable {found : Nat → TmpS → Bool} {msg : String} {t : Tmps} {as bs : List (Nat × TmpS)}

/-- An element that is not the one goes by. -/
theorem freeLoop_next {p : Nat} {c : Cell TmpS} (hc : cell t.cells p = some c)
    (hno : found p c.val = false) (n : Nat) (pp : Option Nat) :
    freeLoop found msg (n + 1) t pp (some p) = freeLoop found msg n t (some p) c.next := by
  rw [freeLoop, hc, deref_some]
  change (if found p c.val then _ else _) = _
  rw [if_neg (by rw [hno]; decide)]

/-- Nothing is found: the program ends. -/
theorem freeLoop_none {p : Option Nat} (hl : Chain.Linked t.cells p as)
    (hno : ∀ y ∈ as, found y.1 y.2 = false) : ∀ {n : Nat} {pp : Option Nat}, as.length ≤ n →
      freeLoop found msg n t pp p = .error (.exit EX_SOFTWARE msg) := by
  induction as generalizing p with
  | nil =>
      intro n pp _
      cases hl
      cases n <;> rfl
  | cons b as ih =>
      intro n pp hn
      obtain ⟨b, y⟩ := b
      obtain ⟨c, rfl, hc, rfl, hrest⟩ := hl.first
      cases n with
      | zero => exact absurd hn (by simp)
      | succ n =>
          rw [freeLoop_next hc (hno _ List.mem_cons_self)]
          exact ih hrest (fun y hy => hno y (List.mem_cons_of_mem _ hy))
            (Nat.le_of_succ_le_succ hn)

/-- The element that is found goes, and the one before it takes over its link. -/
theorem freeLoop_here {a : Nat} {x : TmpS} {c : Cell TmpS} (hc : cell t.cells a = some c)
    (hcx : c.val = x) (ha : found a x = true) (hx : t.strings[x.s]?.join.isSome = true)
    (hall : Chain.Linked t.cells t.list (as ++ (a, x) :: bs)) (n : Nat) :
    ∃ t', freeLoop found msg (n + 1) t (as.getLast?.map Prod.fst) (some a) = .ok t' ∧
      Unlinked t t' as bs a x := by
  subst hcx
  have hfree := xfree_live hx
  obtain ⟨hfront, hback⟩ := hall.not_mem_of_append
  rcases List.eq_nil_or_concat as with rfl | ⟨as, ⟨z, y⟩, rfl⟩
  · -- the first element
    obtain ⟨ca, -, hca, -, hrest⟩ := hall.first
    obtain rfl : c = ca := Option.some.inj (hc.symm.trans hca)
    refine ⟨⟨write t.cells a none, t.strings.set c.val.s none, c.next, t.last⟩, ?_,
      ⟨?_, rfl, fun b => isSome_cell_free, rfl⟩⟩
    · simp [freeLoop, hc, ha, hfree, bind, Except.bind, pure, Except.pure]
    · exact hrest.frame fun b hb => cell_write_ne (ne_of_mem_of_not_mem hb hback) none
  · -- `z` is before it
    rw [List.concat_eq_append] at hall hfront ⊢
    obtain ⟨cz, ca, hcz, hca, hcut⟩ := hall.unlink
    obtain rfl : c = ca := Option.some.inj (hc.symm.trans hca)
    refine ⟨⟨write (write t.cells z (some { cz with next := c.next })) a none,
      t.strings.set c.val.s none, t.list, t.last⟩, ?_, ⟨?_, rfl, fun b => ?_, rfl⟩⟩
    · simp [freeLoop, hc, ha, hfree, setNext_eq hcz, bind, Except.bind, pure, Except.pure]
    · refine hcut.frame fun b hb => cell_write_ne (ne_of_mem_of_not_mem hb ?_) none
      rw [addrs, List.map_append, List.mem_append]
      exact not_or.mpr ⟨hfront, hback⟩
    · rw [isSome_cell_free, isSome_cell_write hcz]

theorem freeLoop_found {a : Nat} {x : TmpS} (ha : found a x = true)
    (hx : t.strings[x.s]?.join.isSome = true) {p : Option Nat}
    (hl : Chain.Linked t.cells p (as ++ (a, x) :: bs)) (hno : ∀ y ∈ as, found y.1 y.2 = false) :
    ∀ {n : Nat} (l : List (Nat × TmpS)), Chain.Linked t.cells t.list (l ++ (as ++ (a, x) :: bs)) →
      as.length < n →
      ∃ t', freeLoop found msg n t (l.getLast?.map Prod.fst) p = .ok t' ∧
        Unlinked t t' (l ++ as) bs a x := by
  induction as generalizing p with
  | nil =>
      intro n l hall hn
      obtain ⟨c, rfl, hc, hcx, -⟩ := hl.first
      cases n with
      | zero => exact absurd hn (by simp)
      | succ n =>
          rw [List.append_nil]
          exact freeLoop_here hc hcx ha hx hall n
  | cons b as ih =>
      intro n l hall hn
      obtain ⟨b, y⟩ := b
      obtain ⟨c, rfl, hc, rfl, hrest⟩ := hl.first
      cases n with
      | zero => exact absurd hn (by simp)
      | succ n =>
          rw [List.cons_append, List.append_cons] at hall
          obtain ⟨t', heq, hout⟩ := ih hrest (fun y hy => hno y (List.mem_cons_of_mem _ hy)) _
            hall (Nat.lt_of_succ_lt_succ hn)
          rw [List.getLast?_concat, Option.map_some] at heq
          rw [← List.append_cons] at hout
          refine ⟨t', ?_, hout⟩
          rw [freeLoop_next hc (hno _ List.mem_cons_self)]
          exact heq

end FreeLoop

/-! ## What the operations do to a list in order -/

/-- The element found is that of the last pointer. -/
def FreesLast (found : Nat → TmpS → Bool) (t : Tmps) : Prop :=
  ∃ p ∈ t.last, ∃ c ∈ cell t.cells p, found p c.val = true

instance (found : Nat → TmpS → Bool) (t : Tmps) : Decidable (FreesLast found t) :=
  inferInstanceAs (Decidable (∃ p, p ∈ t.last ∧ ∃ c, c ∈ cell t.cells p ∧ found p c.val = true))

/-- The list is in order, as long as there is one. -/
def InOrder : Except TmpsStop Tmps → Prop
  | .ok t => ∃ as, t.Holds as
  | .error (.exit _ _) => True
  | .error .fault => False

theorem mem_without {α : Type} {as bs : List α} {a b : α} (hn : (as ++ a :: bs).Nodup) :
    b ≠ a ∧ b ∈ as ++ a :: bs ↔ b ∈ as ++ bs := by
  have hna : a ∉ as ++ bs := (List.nodup_cons.mp (List.nodup_middle.mp hn)).1
  rw [List.mem_append, List.mem_cons, List.mem_append]
  constructor
  · rintro ⟨hne, h | h | h⟩
    · exact .inl h
    · exact absurd h hne
    · exact .inr h
  · intro h
    refine ⟨ne_of_mem_of_not_mem (List.mem_append.mpr h) hna, ?_⟩
    exact h.imp_right .inr

theorem mem_tail {α : Type} {as : List α} {a b : α} (hn : (a :: as).Nodup) :
    b ≠ a ∧ b ∈ a :: as ↔ b ∈ as :=
  mem_without (show ([] ++ a :: as).Nodup from hn)

variable {t t' : Tmps} {as bs : List (Nat × TmpS)}

/-- Taking out an element leaves a list in order unless it was the last: the
last pointer then still points to it. -/
theorem Holds.unlinked_iff {a : Nat} {x : TmpS} (hh : t.Holds (as ++ (a, x) :: bs))
    (hu : Unlinked t t' as bs a x) : (∃ cs, t'.Holds cs) ↔ bs ≠ [] := by
  have hnodup := hh.links.nodup
  have honce := hh.once
  rw [addrs, List.map_append, List.map_cons] at hnodup
  rw [vals, List.map_append, List.map_append, List.map_cons, List.map_cons] at honce
  constructor
  · rintro ⟨cs, hcs⟩ rfl
    have hsame : as ++ [] = cs := hu.links.det hcs.links
    rw [List.append_nil] at hsame
    subst hsame
    have hlast := hcs.last
    rw [hu.last, hh.last, List.getLast?_concat] at hlast
    obtain ⟨⟨b, y⟩, hb, hba⟩ := Option.map_eq_some_iff.mp hlast.symm
    have hmem : a ∈ addrs as := List.mem_map.mpr ⟨_, List.mem_of_getLast? hb, hba⟩
    exact hh.links.not_mem_of_append.1 hmem
  · intro hne
    refine ⟨as ++ bs, hu.links, ?_, fun p => ?_, fun s => ?_, ?_⟩
    · rw [hu.last, hh.last, List.getLast?_append_of_ne_nil _ (List.cons_ne_nil _ _),
        List.getLast?_append_of_ne_nil _ hne]
      obtain ⟨b, bs, rfl⟩ := List.exists_cons_of_ne_nil hne
      rw [List.getLast?_cons_cons]
    · rw [hu.elements, hh.elements, addrs, List.map_append, List.map_cons, mem_without hnodup,
        addrs, List.map_append]
    · rw [hu.strings, isSome_set_none, hh.strings, vals, List.map_append, List.map_append,
        List.map_cons, List.map_cons, mem_without honce, vals, List.map_append, List.map_append]
    · rw [vals, List.map_append, List.map_append]
      exact (List.nodup_cons.mp (List.nodup_middle.mp honce)).2

theorem Holds.freesLast_iff {found : Nat → TmpS → Bool} (hh : t.Holds as) :
    FreesLast found t ↔ ∃ y ∈ as.getLast?, found y.1 y.2 = true := by
  constructor
  · rintro ⟨p, hp, c, hc, hfound⟩
    obtain ⟨⟨b, y⟩, hy, rfl⟩ := Option.map_eq_some_iff.mp (hh.last.symm.trans hp)
    obtain ⟨c', hc', hval⟩ := hh.links.cell_mem (List.mem_of_getLast? hy)
    obtain rfl : c = c' := Option.some.inj (hc.symm.trans hc')
    exact ⟨_, hy, hval ▸ hfound⟩
  · rintro ⟨⟨b, y⟩, hy, hfound⟩
    obtain ⟨c, hc, rfl⟩ := hh.links.cell_mem (List.mem_of_getLast? hy)
    refine ⟨b, ?_, c, hc, hfound⟩
    rw [hh.last, Option.mem_def.mp hy]
    rfl

/-- `tmps_free` and `s_free`, where what is looked for is one element at most. -/
theorem Holds.freeLoop_iff {found : Nat → TmpS → Bool} (hh : t.Holds as)
    (huniq : ∀ y ∈ as, ∀ z ∈ as, found y.1 y.2 = true → found z.1 z.2 = true → y = z)
    (msg : String) :
    InOrder (freeLoop found msg t.cells.length t none t.list) ↔ ¬ FreesLast found t := by
  have hlen := hh.links.length_le
  rw [hh.freesLast_iff]
  by_cases hex : ∃ y ∈ as, found y.1 y.2 = true
  · obtain ⟨⟨a, x⟩, hmem, hfound⟩ := hex
    obtain ⟨as, bs, rfl⟩ := List.append_of_mem hmem
    have hx : t.strings[x.s]?.join.isSome = true := by
      rw [hh.strings]
      exact List.mem_map.mpr ⟨x, List.mem_map.mpr ⟨_, hmem, rfl⟩, rfl⟩
    obtain ⟨hfront, hback⟩ := hh.links.not_mem_of_append
    -- of the others none is found
    have hother : ∀ y ∈ as ++ (a, x) :: bs, y.1 ≠ a → found y.1 y.2 = false := by
      intro y hy hne
      by_contra hf
      exact hne (congrArg Prod.fst (huniq y hy _ hmem (Bool.of_not_eq_false hf) hfound))
    have hno : ∀ y ∈ as, found y.1 y.2 = false := fun y hy =>
      hother y (List.mem_append_left _ hy) (ne_of_mem_of_not_mem (List.mem_map_of_mem hy) hfront)
    rw [List.length_append, List.length_cons] at hlen
    obtain ⟨t', heq, hout⟩ :
        ∃ t', freeLoop found msg t.cells.length t none t.list = .ok t' ∧ Unlinked t t' as bs a x :=
      freeLoop_found hfound hx hh.links hno [] hh.links (by omega)
    rw [heq]
    refine (hh.unlinked_iff hout).trans (not_congr ⟨?_, ?_⟩)
    · rintro rfl
      exact ⟨(a, x), List.getLast?_concat, hfound⟩
    · rintro ⟨y, hy, hf⟩
      by_contra hne
      rw [List.getLast?_append_of_ne_nil _ (List.cons_ne_nil _ _)] at hy
      obtain ⟨b, bs, rfl⟩ := List.exists_cons_of_ne_nil hne
      rw [List.getLast?_cons_cons] at hy
      have hy := List.mem_of_getLast? hy
      have hya : y.1 ≠ a := ne_of_mem_of_not_mem (List.mem_map_of_mem hy) hback
      rw [hother y (List.mem_append_right _ (List.mem_cons_of_mem _ hy)) hya] at hf
      exact absurd hf (by decide)
  · have hno : ∀ y ∈ as, found y.1 y.2 = false := fun y hy =>
      Bool.of_not_eq_true fun hf => hex ⟨y, hy, hf⟩
    rw [freeLoop_none hh.links hno hlen]
    refine ⟨fun _ ⟨y, hy, hf⟩ => hex ⟨y, List.mem_of_getLast? hy, hf⟩, fun _ => trivial⟩

/-- `tmps_freeall` frees all there is. -/
theorem freeallLoop_spec {p : Option Nat} (hl : Chain.Linked t.cells p as)
    (he : ∀ p, (cell t.cells p).isSome = true ↔ p ∈ addrs as)
    (hs : ∀ s, t.strings[s]?.join.isSome = true ↔ s ∈ (vals as).map TmpS.s)
    (ho : ((vals as).map TmpS.s).Nodup) : ∀ {n : Nat}, as.length ≤ n →
      ∃ t' : Tmps, freeallLoop n t p = .ok t' ∧ (∀ p, ¬ (cell t'.cells p).isSome = true) ∧
        ∀ s : Nat, ¬ t'.strings[s]?.join.isSome = true := by
  induction as generalizing p t with
  | nil =>
      intro n _
      cases hl
      refine ⟨t, by cases n <;> rfl, fun p h => ?_, fun s h => ?_⟩
      · exact List.not_mem_nil ((he p).mp h)
      · exact List.not_mem_nil ((hs s).mp h)
  | cons b as ih =>
      intro n hn
      obtain ⟨b, y⟩ := b
      have hnodup := hl.nodup
      obtain ⟨c, rfl, hc, rfl, hrest⟩ := hl.first
      cases n with
      | zero => exact absurd hn (by simp)
      | succ n =>
          have hfree := xfree_live ((hs c.val.s).mpr List.mem_cons_self)
          have hrest' : Chain.Linked (write t.cells b none) c.next as :=
            hrest.frame fun p hp =>
              cell_write_ne (ne_of_mem_of_not_mem hp (List.nodup_cons.mp hnodup).1) none
          obtain ⟨t', heq, hout⟩ := ih
            (t := { t with cells := write t.cells b none, strings := t.strings.set c.val.s none })
            hrest' (fun p => by rw [isSome_cell_free, he]; exact mem_tail hnodup)
            (fun s => by rw [isSome_set_none, hs]; exact mem_tail ho)
            (List.nodup_cons.mp ho).2 (Nat.le_of_succ_le_succ hn)
          refine ⟨t', ?_, hout⟩
          rw [freeallLoop, hc, deref_some]
          change (do let strings ← xfree t.strings c.val.s; _) = _
          rw [hfree]
          exact heq

theorem Holds.tmpsFreeall (hh : t.Holds as) : ∃ t', t.tmpsFreeall = .ok t' ∧ t'.Holds [] := by
  obtain ⟨t', heq, he, hs⟩ := freeallLoop_spec hh.links hh.elements hh.strings hh.once
    hh.links.length_le
  refine ⟨{ t' with list := none, last := none }, ?_, ⟨.nil, rfl, fun p => ?_, fun s => ?_, ?_⟩⟩
  · rw [Tmps.tmpsFreeall, heq]
    rfl
  · exact iff_of_false (he p) List.not_mem_nil
  · exact iff_of_false (hs s) List.not_mem_nil
  · exact List.nodup_nil

/-- The list can take one more: it is empty, or its last pointer is good. -/
def Usable (t : Tmps) : Prop :=
  t.list = none ∨ ∃ z ∈ t.last, (cell t.cells z).isSome = true

theorem Holds.usable (hh : t.Holds as) : t.Usable := by
  rcases List.eq_nil_or_concat as with rfl | ⟨bs, ⟨z, y⟩, rfl⟩
  · exact .inl hh.links.head
  · refine .inr ⟨z, ?_, ?_⟩
    · rw [hh.last, List.concat_eq_append, List.getLast?_concat]
      rfl
    · rw [hh.elements, List.concat_eq_append, addrs, List.map_append]
      exact List.mem_append_right _ List.mem_cons_self

section Alloc

variable {len : Nat}

/-- The new element, without the links. -/
def newCells (t : Tmps) (len : Nat) : Heap TmpS :=
  alloc t.cells ⟨⟨t.strings.length, len⟩, none, none⟩

def newStrings (t : Tmps) (len : Nat) : List (Option Str) :=
  t.strings ++ [some (List.replicate len nul)]

theorem tmpsAlloc_refused (hneg : Negative len) : t.tmpsAlloc len = .error exhausted := by
  rw [tmpsAlloc, xmalloc, if_pos hneg]
  rfl

theorem tmpsAlloc_overrun (hneg : ¬ Negative len) (hlen : ¬ len < 2 ^ 32) :
    t.tmpsAlloc len = .error .fault := by
  have hlt : len % 2 ^ 32 < len :=
    Nat.lt_of_lt_of_le (Nat.mod_lt _ (by decide)) (Nat.le_of_not_lt hlen)
  rw [tmpsAlloc, xmalloc, if_neg hneg]
  change (if len % 2 ^ 32 < len then Except.error TmpsStop.fault else _) = _
  rw [if_pos hlt]

theorem tmpsAlloc_first (hneg : ¬ Negative len) (hlen : len < 2 ^ 32) (hl : t.list = none) :
    t.tmpsAlloc len = .ok (t.cells.length,
      ⟨t.newCells len, t.newStrings len, some t.cells.length, some t.cells.length⟩) := by
  have hmod : len % 2 ^ 32 = len := Nat.mod_eq_of_lt hlen
  rw [tmpsAlloc, xmalloc, if_neg hneg, hmod]
  change (if len < len then _ else _) = _
  rw [if_neg (Nat.lt_irrefl len), hl]
  rfl

theorem tmpsAlloc_more {f z : Nat} {c : Cell TmpS} (hneg : ¬ Negative len) (hlen : len < 2 ^ 32)
    (hl : t.list = some f) (hz : t.last = some z) (hc : cell t.cells z = some c) :
    t.tmpsAlloc len = .ok (t.cells.length,
      ⟨write (t.newCells len) z (some { c with next := some t.cells.length }),
        t.newStrings len, t.list, some t.cells.length⟩) := by
  have hmod : len % 2 ^ 32 = len := Nat.mod_eq_of_lt hlen
  rw [tmpsAlloc, xmalloc, if_neg hneg, hmod]
  change (if len < len then _ else _) = _
  rw [if_neg (Nat.lt_irrefl len), hl, hz]
  change (do let cells ← deref (setNext t.cells z _); _) = _
  rw [setNext_eq hc, newCells, ← alloc_write (lt_of_cell hc)]
  rfl

/-- The new element. -/
abbrev newTmps (t : Tmps) (len : Nat) : Nat × TmpS := (t.cells.length, ⟨t.strings.length, len⟩)

theorem Holds.elements_new (hh : t.Holds as) (len p : Nat) :
    (cell (t.newCells len) p).isSome = true ↔ p ∈ addrs (as ++ [t.newTmps len]) := by
  rw [newCells, isSome_cell_alloc, hh.elements, addrs, addrs, List.map_append, List.mem_append]
  exact or_congr_right List.mem_singleton.symm

theorem Holds.strings_new (hh : t.Holds as) (len s : Nat) :
    (t.newStrings len)[s]?.join.isSome = true ↔
      s ∈ (vals (as ++ [t.newTmps len])).map TmpS.s := by
  rw [newStrings, isSome_append, hh.strings, vals, vals, List.map_append, List.map_append,
    List.mem_append]
  exact or_congr_right List.mem_singleton.symm

/-- The new string is at an address of its own. -/
theorem Holds.once_new (hh : t.Holds as) (len : Nat) :
    ((vals (as ++ [t.newTmps len])).map TmpS.s).Nodup := by
  rw [vals, List.map_append, List.map_append]
  refine List.nodup_append.mpr ⟨hh.once, List.nodup_singleton _, fun s hs u hu hsu => ?_⟩
  have hlive := (hh.strings s).mpr hs
  rw [hsu, List.mem_singleton.mp hu, List.getElem?_eq_none (Nat.le_refl _)] at hlive
  exact absurd hlive (by decide)

/-- `tmps_alloc` puts the new element behind the last one. -/
theorem Holds.tmpsAlloc (hh : t.Holds as) (hneg : ¬ Negative len) (hlen : len < 2 ^ 32) :
    ∃ t', t.tmpsAlloc len = .ok (t.cells.length, t') ∧ t'.Holds (as ++ [t.newTmps len]) := by
  have hfresh : Chain.Linked (t.newCells len) (some t.cells.length) [t.newTmps len] :=
    .cons (cell_alloc_self _ _) .nil
  have hold : Chain.Linked (t.newCells len) t.list as :=
    hh.links.frame fun a ha => cell_alloc_lt (hh.links.lt a ha) _
  have hlast : some t.cells.length = (as ++ [t.newTmps len]).getLast?.map Prod.fst := by
    rw [List.getLast?_concat]
    rfl
  rcases List.eq_nil_or_concat as with rfl | ⟨bs, ⟨z, y⟩, rfl⟩
  · exact ⟨_, tmpsAlloc_first hneg hlen hh.links.head, hfresh, hlast, hh.elements_new len,
      hh.strings_new len, hh.once_new len⟩
  · rw [List.concat_eq_append] at *
    have hz : z < t.cells.length := hh.links.lt z (by simp)
    obtain ⟨c, hc, hlinks⟩ := hold.append hfresh
      (fun hm => Nat.ne_of_lt hz (List.mem_singleton.mp hm))
    have hc' : cell t.cells z = some c := (cell_alloc_lt hz _).symm.trans hc
    obtain ⟨f, hf⟩ : ∃ f, t.list = some f := by
      have := hh.links.head
      cases bs <;> exact ⟨_, this⟩
    refine ⟨_, tmpsAlloc_more hneg hlen hf (hh.last.trans (by simp)) hc', hlinks, hlast,
      fun p => ?_, hh.strings_new len, hh.once_new len⟩
    rw [isSome_cell_write hc, hh.elements_new]

end Alloc

/-! ## The list along a run -/

/-- A call; the pointer to be freed may be any. -/
inductive TmpsOp
  | tmpsAlloc (len : Nat)
  | sAlloc (len : Nat)
  | tmpsFree (s : Option Nat)
  | sFree (s : Option Nat)
  | tmpsFreeall
deriving DecidableEq, Repr

/-- The program makes the call, if it has not ended. -/
def step (t : Except TmpsStop Tmps) (op : TmpsOp) : Except TmpsStop Tmps := do
  let t ← t
  match op with
  | .tmpsAlloc len => return (← t.tmpsAlloc len).2
  | .sAlloc len => return (← t.sAlloc len).2
  | .tmpsFree s => t.tmpsFree s
  | .sFree s => t.sFree s
  | .tmpsFreeall => t.tmpsFreeall

/-- `tmps_list` and `tmps_last` at the start of the program. -/
def start : Except TmpsStop Tmps := .ok ⟨[], [], none, none⟩

/-- A size that `xmalloc` refuses, or that its `int` holds: `memset` stays
inside the block. -/
def Clears (len : Nat) : Prop := Negative len ∨ len < 2 ^ 32

/-- The call leaves the list in order. -/
def Keeps : Except TmpsStop Tmps → TmpsOp → Prop
  | .ok _, .tmpsAlloc len => Clears len
  | .ok _, .sAlloc len => Clears len
  | .ok t, .tmpsFree s => ¬ FreesLast (isTmps s) t
  | .ok t, .sFree s => ¬ FreesLast (isString s) t
  | _, _ => True

theorem Holds.step_tmpsAlloc (hh : t.Holds as) (len : Nat) :
    InOrder (step (.ok t) (.tmpsAlloc len)) ↔ Clears len := by
  change InOrder (do return (← t.tmpsAlloc len).2) ↔ _
  by_cases hneg : Negative len
  · rw [tmpsAlloc_refused hneg]
    exact iff_of_true trivial (.inl hneg)
  by_cases hlen : len < 2 ^ 32
  · obtain ⟨t', heq, hh'⟩ := hh.tmpsAlloc hneg hlen
    rw [heq]
    exact iff_of_true ⟨_, hh'⟩ (.inr hlen)
  · rw [tmpsAlloc_overrun hneg hlen]
    exact iff_of_false id (not_or.mpr ⟨hneg, hlen⟩)

/-- `s_alloc` does what `tmps_alloc` does. -/
theorem Holds.step_sAlloc (hh : t.Holds as) (len : Nat) :
    step (.ok t) (.sAlloc len) = step (.ok t) (.tmpsAlloc len) := by
  change (do return (← t.sAlloc len).2) = (do return (← t.tmpsAlloc len).2 : Except TmpsStop Tmps)
  rw [sAlloc]
  by_cases hneg : Negative len
  · rw [tmpsAlloc_refused hneg]
    rfl
  by_cases hlen : len < 2 ^ 32
  · obtain ⟨t', heq, hh'⟩ := hh.tmpsAlloc hneg hlen
    obtain ⟨c, hc, -⟩ := hh'.links.cell_mem (List.mem_append_right _ List.mem_cons_self)
    rw [heq]
    change (do let r ← (do let c ← deref (cell t'.cells t.cells.length); _); _) = _
    rw [hc]
    rfl
  · rw [tmpsAlloc_overrun hneg hlen]
    rfl

/-- One call keeps a list in order exactly when it meets the condition. -/
theorem inOrder_step_iff (t : Except TmpsStop Tmps) (op : TmpsOp) (ht : InOrder t) :
    InOrder (step t op) ↔ Keeps t op := by
  match t, ht with
  | .error (.exit ex msg), _ => exact iff_of_true trivial trivial
  | .ok t, ⟨as, hh⟩ =>
      cases op with
      | tmpsAlloc len => exact hh.step_tmpsAlloc len
      | sAlloc len =>
          rw [hh.step_sAlloc]
          exact hh.step_tmpsAlloc len
      | tmpsFree s =>
          refine hh.freeLoop_iff (fun y hy z hz hys hzs => ?_) _
          have hsame : some y.1 = some z.1 := (beq_iff_eq.mp hys).trans (beq_iff_eq.mp hzs).symm
          exact List.inj_on_of_nodup_map hh.links.nodup hy hz (Option.some.inj hsame)
      | sFree s =>
          refine hh.freeLoop_iff (fun y hy z hz hys hzs => ?_) _
          have hsame : some y.2.s = some z.2.s := (beq_iff_eq.mp hys).trans (beq_iff_eq.mp hzs).symm
          have honce := hh.once
          rw [vals, List.map_map] at honce
          exact List.inj_on_of_nodup_map honce hy hz (Option.some.inj hsame)
      | tmpsFreeall =>
          obtain ⟨t', heq, hh'⟩ := hh.tmpsFreeall
          refine iff_of_true ?_ trivial
          change InOrder t.tmpsFreeall
          rw [heq]
          exact ⟨[], hh'⟩

/-- The list stays in order as long as no call frees the element of the last
pointer, and none asks for more bytes than the `int` of `xmalloc` holds. -/
theorem tmps_inOrder_iff (ops : List TmpsOp) :
    (∀ ops', ops' <+: ops → InOrder (Run.run step start ops')) ↔ Run.Met step Keeps start ops :=
  Run.all_run_iff_met (fun t op ht (_ : True) => inOrder_step_iff t op ht) ops ⟨[], holds_nil⟩
    (Run.met_of_forall (fun _ _ => trivial) ops)

/-- The second of two strings is freed, and another one is allocated: it is
linked to the element that was freed. -/
theorem not_inOrder_alloc :
    ¬ ∀ ops, InOrder (Run.run step start ops) :=
  fun h => h [.tmpsAlloc 8, .sAlloc 8, .sFree (some 1), .tmpsAlloc 8]

end Tmps

end Fidogate

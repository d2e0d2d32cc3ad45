/-
# `Fidogate.Lib.Chain` — linked lists in a store of cells

A cell holds a value and the addresses of its neighbours.  The store never
reuses an address, and a freed cell is gone: reading it is an error.  `Linked`
says what a walk along the forward links meets, `Doubly` also where the
backward links point.
-/
import Mathlib.Data.List.Nodup
import Mathlib.Data.List.Lattice
import Mathlib.Data.List.Perm.Subperm
import Mathlib.Tactic.Common

namespace Chain

variable {α : Type*}

structure Cell (α : Type*) where
  val : α
  next : Option Nat
  prev : Option Nat

abbrev Heap (α : Type*) := List (Option (Cell α))

/-- What is stored at an address. -/
def cell (h : Heap α) (a : Nat) : Option (Cell α) := h[a]?.join

def write (h : Heap α) (a : Nat) (c : Option (Cell α)) : Heap α := h.set a c

/-- The cell goes to the address `h.length`. -/
def alloc (h : Heap α) (c : Cell α) : Heap α := h ++ [some c]

theorem lt_of_cell {h : Heap α} {a : Nat} {c : Cell α} (hc : cell h a = some c) :
    a < h.length := by
  by_contra hn
  rw [cell, List.getElem?_eq_none (Nat.le_of_not_lt hn)] at hc
  exact absurd hc (by simp)

@[simp] theorem length_write (h : Heap α) (a : Nat) (c : Option (Cell α)) :
    (write h a c).length = h.length := List.length_set

@[simp] theorem length_alloc (h : Heap α) (c : Cell α) :
    (alloc h c).length = h.length + 1 := by simp [alloc]

theorem cell_write_self {h : Heap α} {a : Nat} (ha : a < h.length) (c : Option (Cell α)) :
    cell (write h a c) a = c := by
  simp [cell, write, ha]

theorem cell_write_ne {h : Heap α} {a b : Nat} (hab : b ≠ a) (c : Option (Cell α)) :
    cell (write h a c) b = cell h b := by
  simp [cell, write, Ne.symm hab]

@[simp] theorem cell_alloc_self (h : Heap α) (c : Cell α) :
    cell (alloc h c) h.length = some c := by
  simp [cell, alloc]

theorem cell_alloc_lt {h : Heap α} {b : Nat} (hb : b < h.length) (c : Cell α) :
    cell (alloc h c) b = cell h b := by
  simp [cell, alloc, List.getElem?_append_left hb]

theorem alloc_write {h : Heap α} {a : Nat} (ha : a < h.length) (c : Option (Cell α))
    (d : Cell α) : alloc (write h a c) d = write (alloc h d) a c :=
  (List.set_append_left a c ha).symm

/-- Store into a link of a cell that is there. -/
def setNext (h : Heap α) (a : Nat) (p : Option Nat) : Option (Heap α) :=
  (cell h a).map fun c => write h a (some { c with next := p })

def setPrev (h : Heap α) (a : Nat) (p : Option Nat) : Option (Heap α) :=
  (cell h a).map fun c => write h a (some { c with prev := p })

theorem setNext_eq {h : Heap α} {a : Nat} {c : Cell α} (hc : cell h a = some c)
    (p : Option Nat) : setNext h a p = some (write h a (some { c with next := p })) := by
  rw [setNext, hc, Option.map_some]

theorem setPrev_eq {h : Heap α} {a : Nat} {c : Cell α} (hc : cell h a = some c)
    (p : Option Nat) : setPrev h a p = some (write h a (some { c with prev := p })) := by
  rw [setPrev, hc, Option.map_some]

/-! ## What is in use -/

section Slots

variable {β : Type*} {l : List (Option β)} {a b : Nat}

theorem isSome_append (x : β) :
    (l ++ [some x])[b]?.join.isSome = true ↔ l[b]?.join.isSome = true ∨ b = l.length := by
  rcases Nat.lt_trichotomy b l.length with hb | rfl | hb
  · rw [List.getElem?_append_left hb]
    exact ⟨.inl, fun h => h.resolve_right (Nat.ne_of_lt hb)⟩
  · simp
  · have hlen : (l ++ [some x]).length ≤ b := by
      rw [List.length_append, List.length_singleton]
      exact hb
    rw [List.getElem?_eq_none hlen, List.getElem?_eq_none (Nat.le_of_lt hb)]
    simpa using Nat.ne_of_gt hb

theorem isSome_set_none :
    (l.set a none)[b]?.join.isSome = true ↔ b ≠ a ∧ l[b]?.join.isSome = true := by
  by_cases hb : b = a
  · subst hb
    rw [List.getElem?_set_self']
    cases l[b]? <;> simp
  · rw [List.getElem?_set_ne (Ne.symm hb)]
    exact ⟨fun h => ⟨hb, h⟩, fun h => h.2⟩

theorem isSome_set_some {x y : β} (hx : l[a]?.join = some x) :
    (l.set a (some y))[b]?.join.isSome = true ↔ l[b]?.join.isSome = true := by
  by_cases hb : b = a
  · subst hb
    rw [List.getElem?_set_self', hx]
    cases hl : l[b]? with
    | none =>
        rw [hl] at hx
        cases hx
    | some _ => simp
  · rw [List.getElem?_set_ne (Ne.symm hb)]

end Slots

theorem isSome_cell_alloc {h : Heap α} {c : Cell α} {b : Nat} :
    (cell (alloc h c) b).isSome = true ↔ (cell h b).isSome = true ∨ b = h.length :=
  isSome_append c

theorem isSome_cell_free {h : Heap α} {a b : Nat} :
    (cell (write h a none) b).isSome = true ↔ b ≠ a ∧ (cell h b).isSome = true :=
  isSome_set_none

theorem isSome_cell_write {h : Heap α} {a b : Nat} {c d : Cell α} (hc : cell h a = some c) :
    (cell (write h a (some d)) b).isSome = true ↔ (cell h b).isSome = true :=
  isSome_set_some hc

/-! ## What a computation leaves alone -/

/-- Of the cells of `h`, only those at `S` may differ in `h'`. -/
structure Frame (S : List Nat) (h h' : Heap α) : Prop where
  le : h.length ≤ h'.length
  same : ∀ b, b < h.length → b ∉ S → cell h' b = cell h b

theorem Frame.refl (S : List Nat) (h : Heap α) : Frame S h h :=
  ⟨Nat.le_refl _, fun _ _ _ => rfl⟩

theorem Frame.trans {S T U : List Nat} {h h' h'' : Heap α} (h1 : Frame S h h')
    (h2 : Frame T h' h'') (hU : ∀ b, b < h.length → b ∈ S ∨ b ∈ T → b ∈ U) :
    Frame U h h'' := by
  refine ⟨Nat.le_trans h1.le h2.le, fun b hb hbU => ?_⟩
  have hS : b ∉ S := fun hm => hbU (hU b hb (.inl hm))
  have hT : b ∉ T := fun hm => hbU (hU b hb (.inr hm))
  rw [h2.same b (Nat.lt_of_lt_of_le hb h1.le) hT, h1.same b hb hS]

theorem Frame.mono {S T : List Nat} {h h' : Heap α} (hf : Frame S h h') (hST : S ⊆ T) :
    Frame T h h' :=
  ⟨hf.le, fun b hb hT => hf.same b hb fun hS => hT (hST hS)⟩

theorem frame_write (h : Heap α) (a : Nat) (c : Option (Cell α)) :
    Frame [a] h (write h a c) :=
  ⟨Nat.le_of_eq (length_write h a c).symm,
    fun _ _ hS => cell_write_ne (fun e => hS (List.mem_singleton.mpr e)) c⟩

theorem frame_alloc (h : Heap α) (c : Cell α) : Frame [] h (alloc h c) :=
  ⟨by simp, fun _ hb _ => cell_alloc_lt hb c⟩

/-! ## Forward links -/

/-- From `p` the forward links lead through these addresses, which hold these
values, and end. -/
inductive Linked (h : Heap α) : Option Nat → List (Nat × α) → Prop
  | nil : Linked h none []
  | cons {a : Nat} {x : α} {nx pv : Option Nat} {as : List (Nat × α)} :
      cell h a = some ⟨x, nx, pv⟩ → Linked h nx as → Linked h (some a) ((a, x) :: as)

/-- The addresses of a chain. -/
abbrev addrs (as : List (Nat × α)) : List Nat := as.map Prod.fst

/-- The values of a chain. -/
abbrev vals (as : List (Nat × α)) : List α := as.map Prod.snd

/-- Follow the forward links for at most `n` cells. -/
def walk (h : Heap α) : Nat → Option Nat → List (Nat × α)
  | 0, _ => []
  | _ + 1, none => []
  | n + 1, some a =>
      match cell h a with
      | none => []
      | some c => (a, c.val) :: walk h n c.next

namespace Linked

variable {h h' : Heap α} {p q : Option Nat} {as bs cs : List (Nat × α)}

theorem head (hl : Linked h p as) : p = as.head?.map Prod.fst := by
  cases hl with
  | nil => rfl
  | cons _ _ => rfl

theorem head_mem {a : Nat} (hl : Linked h (some a) (as ++ bs)) (has : as ≠ []) :
    a ∈ addrs as := by
  cases as with
  | nil => exact absurd rfl has
  | cons b as =>
      obtain rfl : a = b.1 := Option.some.inj hl.head
      exact List.mem_cons_self

theorem eq_nil (hl : Linked h none as) : as = [] := by
  cases hl
  rfl

theorem det (h1 : Linked h p as) : ∀ {bs}, Linked h p bs → as = bs := by
  induction h1 with
  | nil =>
      intro bs h2
      exact h2.eq_nil.symm
  | cons hc _ ih =>
      intro bs h2
      cases h2 with
      | cons hc' hl' =>
          cases hc.symm.trans hc'
          rw [ih hl']

/-- Behind each of its cells a chain goes on as the chain from there. -/
theorem drop (hl : Linked h p (as ++ bs)) : ∃ q, Linked h q bs := by
  induction as generalizing p with
  | nil => exact ⟨p, hl⟩
  | cons a as ih =>
      cases hl with
      | cons _ hl => exact ih hl

theorem cell_mem {a : Nat} {x : α} (hl : Linked h p as) (ha : (a, x) ∈ as) :
    ∃ c, cell h a = some c ∧ c.val = x := by
  obtain ⟨l, r, rfl⟩ := List.append_of_mem ha
  obtain ⟨q, hq⟩ := hl.drop
  cases hq with
  | cons hc _ => exact ⟨_, hc, rfl⟩

theorem lt (hl : Linked h p as) : ∀ a ∈ addrs as, a < h.length := by
  induction hl with
  | nil => intro a ha; exact absurd ha List.not_mem_nil
  | cons hc _ ih =>
      intro a ha
      rcases List.mem_cons.mp ha with rfl | ha
      · exact lt_of_cell hc
      · exact ih a ha

/-- A chain that came back to one of its cells would not end. -/
theorem nodup (hl : Linked h p as) : (addrs as).Nodup := by
  induction hl with
  | nil => exact List.nodup_nil
  | @cons a x nx pv as hc hl ih =>
      refine List.nodup_cons.mpr ⟨fun hm => ?_, ih⟩
      obtain ⟨⟨b, y⟩, hb, rfl⟩ := List.mem_map.mp hm
      obtain ⟨l, r, rfl⟩ := List.append_of_mem hb
      obtain ⟨q, hq⟩ := hl.drop
      have hqa : q = some b := hq.head
      have heq := (Linked.cons hc hl).det (hqa ▸ hq)
      have := congrArg List.length heq
      simp only [List.length_cons, List.length_append] at this
      omega

theorem not_mem_of_append {a : Nat} {x : α} (hl : Linked h p (as ++ (a, x) :: bs)) :
    a ∉ addrs as ∧ a ∉ addrs bs := by
  have hn := hl.nodup
  rw [addrs, List.map_append, List.map_cons] at hn
  have hn' := List.nodup_middle.mp hn
  exact not_or.mp fun h => (List.nodup_cons.mp hn').1 (List.mem_append.mpr h)

theorem length_le (hl : Linked h p as) : as.length ≤ h.length := by
  have hsub : addrs as ⊆ List.range h.length := fun a ha => List.mem_range.mpr (hl.lt a ha)
  simpa using (List.subperm_of_subset hl.nodup hsub).length_le

theorem walk_eq (hl : Linked h p as) : ∀ {n}, as.length ≤ n → walk h n p = as := by
  induction hl with
  | nil =>
      intro n _
      cases n <;> rfl
  | cons hc _ ih =>
      intro n hn
      cases n with
      | zero => exact absurd hn (by simp)
      | succ n =>
          simp only [walk, hc]
          rw [ih (Nat.le_of_succ_le_succ hn)]

/-- The cells of a chain are all it depends on. -/
theorem frame (hl : Linked h p as) (hs : ∀ a ∈ addrs as, cell h' a = cell h a) :
    Linked h' p as := by
  induction hl with
  | nil => exact .nil
  | cons hc _ ih =>
      refine .cons ((hs _ (List.mem_cons_self)).trans hc) (ih fun a ha => ?_)
      exact hs a (List.mem_cons_of_mem _ ha)

theorem of_frame {S : List Nat} (hl : Linked h p as) (hf : Frame S h h')
    (hd : ∀ a ∈ addrs as, a ∉ S) : Linked h' p as :=
  hl.frame fun a ha => hf.same a (hl.lt a ha) (hd a ha)

/-- A link stored into one cell of a chain replaces what followed it. -/
theorem relink {a : Nat} {x : α} (hp : Linked h p (as ++ (a, x) :: bs)) (hq : Linked h q cs)
    (ha : a ∉ addrs cs) :
    ∃ c, cell h a = some c ∧ Linked (write h a (some { c with next := q })) p
      (as ++ (a, x) :: cs) := by
  induction as generalizing p with
  | nil =>
      cases hp with
      | cons hc hl =>
          refine ⟨_, hc, .cons (cell_write_self (lt_of_cell hc) _) (hq.frame fun b hb => ?_)⟩
          exact cell_write_ne (ne_of_mem_of_not_mem hb ha) _
  | cons b as ih =>
      have hn := hp.nodup
      cases hp with
      | @cons b' _ _ _ _ hc' hl =>
          obtain ⟨c, hc, hr⟩ := ih hl
          have hne : b' ≠ a := by
            rintro rfl
            exact (List.nodup_cons.mp hn).1 (by simp)
          exact ⟨c, hc, .cons ((cell_write_ne hne _).trans hc') hr⟩

/-- The first cell of a chain. -/
theorem first {a : Nat} {x : α} (hl : Linked h p ((a, x) :: as)) :
    ∃ c, p = some a ∧ cell h a = some c ∧ c.val = x ∧ Linked h c.next as := by
  cases hl with
  | cons hc hl => exact ⟨_, rfl, hc, rfl, hl⟩

/-- A link stored behind the last cell of a chain that is not empty. -/
theorem append {z : Nat} {y : α} (hp : Linked h p (as ++ [(z, y)])) (hq : Linked h q cs)
    (hz : z ∉ addrs cs) :
    ∃ c, cell h z = some c ∧ Linked (write h z (some { c with next := q })) p
      (as ++ [(z, y)] ++ cs) := by
  obtain ⟨c, hc, hl⟩ := hp.relink hq hz
  exact ⟨c, hc, by rwa [List.append_assoc]⟩

/-- The link of a cell's predecessor takes over the cell's own. -/
theorem unlink {z a : Nat} {x y : α} (hl : Linked h p (as ++ [(z, y)] ++ (a, x) :: bs)) :
    ∃ cz ca, cell h z = some cz ∧ cell h a = some ca ∧
      Linked (write h z (some { cz with next := ca.next })) p (as ++ [(z, y)] ++ bs) := by
  rw [List.append_assoc, List.singleton_append] at hl ⊢
  obtain ⟨q, hq⟩ := hl.drop
  obtain ⟨_, -, -, -, hza⟩ := hq.first
  obtain ⟨ca, -, hca, -, hrest⟩ := hza.first
  have hz : z ∉ addrs bs := fun hm =>
    hl.not_mem_of_append.2 (List.mem_cons_of_mem _ hm)
  obtain ⟨cz, hcz, hcut⟩ := hl.relink hrest hz
  exact ⟨cz, ca, hcz, hca, hcut⟩

end Linked

/-- All that is behind `p`, as far as the links lead. -/
def chain (h : Heap α) (p : Option Nat) : List (Nat × α) := walk h h.length p

theorem Linked.chain_eq {h : Heap α} {p : Option Nat} {as : List (Nat × α)}
    (hl : Linked h p as) : chain h p = as :=
  hl.walk_eq hl.length_le

/-! ## Backward links -/

/-- The chain from `p`, its first cell linked back to `pv` and every other one
to the cell before it. -/
inductive Doubly (h : Heap α) : Option Nat → Option Nat → List (Nat × α) → Prop
  | nil {pv : Option Nat} : Doubly h pv none []
  | cons {pv nx : Option Nat} {a : Nat} {x : α} {as : List (Nat × α)} :
      cell h a = some ⟨x, nx, pv⟩ → Doubly h (some a) nx as →
      Doubly h pv (some a) ((a, x) :: as)

namespace Doubly

variable {h h' : Heap α} {pv p : Option Nat} {as : List (Nat × α)}

theorem linked (hd : Doubly h pv p as) : Linked h p as := by
  induction hd with
  | nil => exact .nil
  | cons hc _ ih => exact .cons hc ih

theorem frame (hd : Doubly h pv p as) (hs : ∀ a ∈ addrs as, cell h' a = cell h a) :
    Doubly h' pv p as := by
  induction hd with
  | nil => exact .nil
  | cons hc _ ih =>
      refine .cons ((hs _ (List.mem_cons_self)).trans hc) (ih fun a ha => ?_)
      exact hs a (List.mem_cons_of_mem _ ha)

/-- A new last cell. -/
theorem snoc {a z : Nat} {x y : α} {c : Cell α} (hd : Doubly h pv p (as ++ [(z, y)]))
    (hc : cell h z = some c)
    (hz' : cell h' z = some { c with next := some a })
    (ha' : cell h' a = some ⟨x, none, some z⟩)
    (hs : ∀ b ∈ addrs as, cell h' b = cell h b) :
    Doubly h' pv p (as ++ [(z, y)] ++ [(a, x)]) := by
  induction as generalizing pv p with
  | nil =>
      cases hd with
      | cons hc' _ =>
          cases hc.symm.trans hc'
          exact .cons hz' (.cons ha' .nil)
  | cons b as ih =>
      cases hd with
      | cons hc' hd =>
          refine .cons ((hs _ List.mem_cons_self).trans hc') (ih hd fun b hb => ?_)
          exact hs b (List.mem_cons_of_mem _ hb)

end Doubly

end Chain

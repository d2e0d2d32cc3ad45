/-
# `Fidogate.Lib.Mirror` — doubly linked lists from either end

The mirror image of a store has the two links of every cell exchanged.  A list
is doubly linked when it is a chain in the store, and backwards a chain in the
mirror image (`doubly_iff`).  So what is done to the links in one direction is
proved once, and a store into the other link does not concern it.
-/
import Fidogate.Lib.Chain

namespace Chain

variable {α : Type*}

def Cell.mirror (c : Cell α) : Cell α := ⟨c.val, c.prev, c.next⟩

/-- Forward links for backward ones. -/
def mirror (h : Heap α) : Heap α := h.map (Option.map Cell.mirror)

theorem cell_mirror (h : Heap α) (a : Nat) : cell (mirror h) a = (cell h a).map Cell.mirror := by
  rw [cell, cell, mirror, List.getElem?_map]
  rcases h[a]? with _ | _ | c <;> rfl

@[simp] theorem mirror_mirror (h : Heap α) : mirror (mirror h) = h := by
  rw [mirror, mirror, List.map_map]
  refine (List.map_congr_left fun o _ => ?_).trans (List.map_id h)
  cases o <;> rfl

theorem mirror_write (h : Heap α) (a : Nat) (c : Option (Cell α)) :
    mirror (write h a c) = write (mirror h) a (c.map Cell.mirror) :=
  List.map_set

theorem setPrev_mirror (h : Heap α) (a : Nat) (p : Option Nat) :
    setPrev h a p = (setNext (mirror h) a p).map mirror := by
  rw [setPrev, setNext, cell_mirror]
  cases cell h a with
  | none => rfl
  | some c =>
      rw [Option.map_some, Option.map_some, Option.map_some, Option.map_some, mirror_write,
        mirror_mirror]
      rfl

theorem Frame.mirror {S : List Nat} {h h' : Heap α} (hf : Frame S h h') :
    Frame S (mirror h) (mirror h') := by
  refine ⟨?_, fun b hb hS => ?_⟩
  · simpa [Chain.mirror] using hf.le
  · rw [cell_mirror, cell_mirror, hf.same b (by simpa [Chain.mirror] using hb) hS]

/-! ## The two directions -/

section Directions

variable {h : Heap α} {p q : Option Nat} {as bs : List (Nat × α)}

/-- A store into a backward link is none of the chain's business. -/
theorem Linked.write_prev {a : Nat} {c : Cell α} (hl : Linked h p as) (hc : cell h a = some c)
    (v : Option Nat) : Linked (write h a (some { c with prev := v })) p as := by
  induction hl with
  | nil => exact .nil
  | @cons b x nx pv as hb _ ih =>
      by_cases hba : b = a
      · subst hba
        obtain rfl := Option.some.inj (hb.symm.trans hc)
        exact .cons (cell_write_self (lt_of_cell hb) _) ih
      · exact .cons ((cell_write_ne hba _).trans hb) ih

/-- Nor is a store into a forward link that of the chain backwards. -/
theorem Linked.write_next {a : Nat} {c : Cell α} (hl : Linked (mirror h) p as)
    (hc : cell h a = some c) (v : Option Nat) :
    Linked (mirror (write h a (some { c with next := v }))) p as := by
  have hm : cell (mirror h) a = some c.mirror := by rw [cell_mirror, hc, Option.map_some]
  rw [mirror_write]
  exact hl.write_prev hm v

/-- Backwards from the last cell of a doubly linked chain, and on from where
its first cell is linked back to. -/
theorem Doubly.backward {pv : Option Nat} (hd : Doubly h pv p as) :
    ∀ {bs}, Linked (mirror h) pv bs →
      Linked (mirror h) ((addrs as).getLast?.or pv) (as.reverse ++ bs) := by
  induction hd with
  | nil => exact fun hb => hb
  | @cons pv nx a x as hc _ ih =>
      intro bs hb
      have hm : cell (mirror h) a = some ⟨x, pv, nx⟩ := by
        rw [cell_mirror, hc]
        rfl
      have hback := ih (.cons hm hb)
      rw [List.reverse_cons, List.append_assoc, List.singleton_append, addrs, List.map_cons,
        List.getLast?_cons]
      cases hlast : (addrs as).getLast? with
      | none =>
          rw [hlast] at hback
          exact hback
      | some z =>
          rw [hlast] at hback
          exact hback

theorem doubly_of_linked {pv : Option Nat} (hpv : pv = bs.head?.map Prod.fst)
    (hf : Linked h p as) (hb : Linked (mirror h) q (as.reverse ++ bs)) : Doubly h pv p as := by
  induction as generalizing p pv bs with
  | nil =>
      cases hf
      exact .nil
  | cons a as ih =>
      obtain ⟨a, x⟩ := a
      rw [List.reverse_cons, List.append_assoc, List.singleton_append] at hb
      obtain ⟨q', hq'⟩ := hb.drop
      obtain ⟨c', -, hc', -, hrest⟩ := hq'.first
      obtain ⟨c, rfl, hc, rfl, hl⟩ := hf.first
      rw [cell_mirror, hc] at hc'
      obtain rfl := Option.some.inj hc'
      have hprev : c.prev = pv := hrest.head.trans hpv.symm
      exact .cons (hprev ▸ hc) (ih rfl hl hb)

/-- A list is doubly linked when both directions lead through the same cells. -/
theorem doubly_iff : Doubly h none p as ∧ q = as.getLast?.map Prod.fst ↔
    Linked h p as ∧ Linked (mirror h) q as.reverse := by
  constructor
  · rintro ⟨hd, rfl⟩
    have hback := hd.backward .nil
    rw [List.append_nil, Option.or_none, addrs, List.getLast?_map] at hback
    exact ⟨hd.linked, hback⟩
  · rintro ⟨hf, hb⟩
    have hnone : none = ([] : List (Nat × α)).head?.map Prod.fst := rfl
    refine ⟨doubly_of_linked hnone hf (by rw [List.append_nil]; exact hb), ?_⟩
    rw [hb.head, List.head?_reverse]

end Directions

/-! ## A cell is taken out -/

/-- The forward half: the first pointer, or the link of the cell before, goes
past the cell. -/
def unlinkNext (h : Heap α) (first : Option Nat) (a : Nat) (c : Cell α) :
    Option (Option Nat × Heap α) :=
  if first = some a then some (c.next, h)
  else c.prev.bind fun z => (setNext h z c.next).map fun h => (first, h)

/-- The backward half. -/
def unlinkPrev (h : Heap α) (last : Option Nat) (a : Nat) (c : Cell α) :
    Option (Option Nat × Heap α) :=
  if last = some a then some (c.prev, h)
  else c.next.bind fun b => (setPrev h b c.prev).map fun h => (last, h)

theorem setLink_eq_some {f : Nat → Option (Heap α)} {o x p : Option Nat} {h' : Heap α} :
    (o.bind fun z => (f z).map fun h => (x, h)) = some (p, h') ↔
      x = p ∧ ∃ z, o = some z ∧ f z = some h' := by
  simp only [Option.bind_eq_some_iff, Option.map_eq_some_iff, Prod.mk.injEq]
  constructor
  · rintro ⟨z, hz, h, hh, rfl, rfl⟩
    exact ⟨rfl, z, hz, hh⟩
  · rintro ⟨rfl, z, hz, hh⟩
    exact ⟨z, hz, _, hh, rfl, rfl⟩

theorem unlinkNext_eq_some {h h' : Heap α} {first p : Option Nat} {a : Nat} {c : Cell α} :
    unlinkNext h first a c = some (p, h') ↔
      first = some a ∧ c.next = p ∧ h = h' ∨
      first ≠ some a ∧ first = p ∧ ∃ z, c.prev = some z ∧ setNext h z c.next = some h' := by
  rw [unlinkNext]
  split
  · next hf => simp [hf]
  · next hf =>
      rw [setLink_eq_some]
      simp [hf]

theorem unlinkPrev_eq_some {h h' : Heap α} {last q : Option Nat} {a : Nat} {c : Cell α} :
    unlinkPrev h last a c = some (q, h') ↔
      last = some a ∧ c.prev = q ∧ h = h' ∨
      last ≠ some a ∧ last = q ∧ ∃ z, c.next = some z ∧ setPrev h z c.prev = some h' := by
  rw [unlinkPrev]
  split
  · next hl => simp [hl]
  · next hl =>
      rw [setLink_eq_some]
      simp [hl]

theorem unlinkPrev_mirror (h : Heap α) (last : Option Nat) (a : Nat) (c : Cell α) :
    unlinkPrev h last a c =
      (unlinkNext (mirror h) last a c.mirror).map fun r => (r.1, mirror r.2) := by
  rw [unlinkPrev, unlinkNext]
  split
  · rw [Option.map_some, mirror_mirror]
    rfl
  · change (c.next.bind fun b => (setPrev h b c.prev).map fun h => (last, h)) =
      (c.next.bind fun b => (setNext (mirror h) b c.prev).map fun h => (last, h)).map _
    cases c.next with
    | none => rfl
    | some b =>
        rw [Option.bind_some, Option.bind_some, setPrev_mirror, Option.map_map, Option.map_map]
        rfl

section Unlink

variable {h : Heap α} {p q : Option Nat} {as bs : List (Nat × α)} {a : Nat} {x : α}

theorem unlinkNext_spec {c : Cell α} (hl : Linked h p (as ++ (a, x) :: bs)) (hc : cell h a = some c)
    (hprev : c.prev = as.getLast?.map Prod.fst) :
    ∃ p' h', unlinkNext h p a c = some (p', h') ∧ Linked h' p' (as ++ bs) ∧
      (∀ {q ds}, Linked (mirror h) q ds → Linked (mirror h') q ds) ∧ Frame (addrs as) h h' := by
  rcases List.eq_nil_or_concat as with rfl | ⟨as, ⟨z, y⟩, rfl⟩
  · obtain ⟨c', rfl, hc', -, hrest⟩ := hl.first
    obtain rfl := Option.some.inj (hc.symm.trans hc')
    exact ⟨c.next, h, if_pos rfl, hrest, id, .refl _ h⟩
  · rw [List.concat_eq_append] at hl hprev ⊢
    rw [List.getLast?_concat] at hprev
    obtain ⟨cz, ca, hcz, hca, hcut⟩ := hl.unlink
    obtain rfl := Option.some.inj (hc.symm.trans hca)
    have hne : p ≠ some a := fun hp =>
      hl.not_mem_of_append.1 ((hp ▸ hl).head_mem (by simp))
    refine ⟨p, _, ?_, hcut, fun hm => hm.write_next hcz _, (frame_write h z _).mono (by simp)⟩
    rw [unlinkNext, if_neg hne, hprev, Option.map_some, Option.bind_some, setNext_eq hcz,
      Option.map_some]

/-- Both halves, for a cell of a doubly linked list: its neighbours are linked
to each other, and its own links are as before. -/
theorem unlink_spec (hf : Linked h p (as ++ (a, x) :: bs))
    (hb : Linked (mirror h) q (as ++ (a, x) :: bs).reverse) :
    ∃ c p' q' h1 h2, cell h a = some c ∧ c.val = x ∧ unlinkNext h p a c = some (p', h1) ∧
      unlinkPrev h1 q a c = some (q', h2) ∧ cell h2 a = some c ∧ Linked h2 p' (as ++ bs) ∧
      Linked (mirror h2) q' (as ++ bs).reverse ∧ Frame (addrs as ++ addrs bs) h h2 := by
  rw [List.reverse_append, List.reverse_cons, List.append_assoc, List.singleton_append] at hb
  obtain ⟨hnas, hnbs⟩ := hf.not_mem_of_append
  obtain ⟨_, hfa⟩ := hf.drop
  obtain ⟨c, -, hc, rfl, hnext⟩ := hfa.first
  obtain ⟨_, hba⟩ := hb.drop
  obtain ⟨c', -, hc', -, hprev⟩ := hba.first
  rw [cell_mirror, hc] at hc'
  obtain rfl := Option.some.inj hc'
  have hprev : c.prev = as.getLast?.map Prod.fst := by rw [← List.head?_reverse]; exact hprev.head
  obtain ⟨p', h1, e1, hf1, hkeep1, hfr1⟩ := unlinkNext_spec hf hc hprev
  have hc1 : cell h1 a = some c := (hfr1.same a (lt_of_cell hc) hnas).trans hc
  have hcm : cell (mirror h1) a = some c.mirror := by rw [cell_mirror, hc1, Option.map_some]
  have hnext' : c.mirror.prev = bs.reverse.getLast?.map Prod.fst := by
    rw [List.getLast?_reverse]
    exact hnext.head
  obtain ⟨q', h2, e2, hb2, hkeep2, hfr2⟩ := unlinkNext_spec (hkeep1 hb) hcm hnext'
  have hfr2' : Frame (addrs bs) h1 (mirror h2) := by
    have := hfr2.mirror
    rw [mirror_mirror] at this
    exact this.mono (by rw [addrs, List.map_reverse]; exact List.reverse_subset.mpr fun _ => id)
  have hc2 : cell (mirror h2) a = some c := by
    rw [hfr2'.same a (lt_of_cell hc1) hnbs, hc1]
  refine ⟨c, p', q', h1, mirror h2, hc, rfl, e1, ?_, hc2, hkeep2 ?_, ?_, ?_⟩
  · rw [unlinkPrev_mirror, e2, Option.map_some]
  · rwa [mirror_mirror]
  · rwa [mirror_mirror, List.reverse_append]
  · exact hfr1.trans hfr2' fun b _ hm => List.mem_append.mpr hm

end Unlink

end Chain

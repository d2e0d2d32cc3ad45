/-
# `Fidogate.Lib.Marks` — files that mark what a program works on

A program makes a mark before it writes to a thing, and removes it when it is
done; the marks of other programs are left alone.  `strays` are the writes
that were made without an own mark.  A call is `Disciplined` where it makes
none, leaves the marks of others, and none of its own.
-/
import Mathlib.Logic.Function.Basic
import Mathlib.Tactic.Common

namespace Marks

/-- Who made a mark. -/
inductive Owner
  | own
  | other
  deriving DecidableEq, Repr

/-- The marks, and the writes without an own one. -/
structure State (ν : Type*) where
  marks : ν → Option Owner
  strays : List ν

variable {ν : Type*} [DecidableEq ν]

def State.create (s : State ν) (b : ν) : State ν :=
  { s with marks := Function.update s.marks b (some .own) }

/-- Removing a mark, whoever made it; the removal may fail. -/
def State.delete (s : State ν) (b : ν) (ok : Bool) : State ν :=
  if ok then { s with marks := Function.update s.marks b none } else s

omit [DecidableEq ν] in
/-- Writing to what a mark stands for. -/
def State.write (s : State ν) (b : ν) : State ν :=
  if s.marks b = some .own then s else { s with strays := s.strays ++ [b] }

/-- Writing one after the other. -/
def State.writes (s : State ν) (bs : List ν) : State ν := bs.foldl State.write s

/-- There is no own mark. -/
def State.Idle (s : State ν) : Prop := ∀ b, s.marks b ≠ some .own

/-- A call writes under its marks, leaves those of others and none of its
own. -/
structure Disciplined (s s' : State ν) : Prop where
  strays : s'.strays = s.strays
  others : ∀ b, s.marks b = some .other → s'.marks b = some .other
  idle : s'.Idle

section

variable {s : State ν} {b c : ν}

omit [DecidableEq ν] in
theorem disciplined_refl (h : s.Idle) : Disciplined s s := ⟨rfl, fun _ hb => hb, h⟩

omit [DecidableEq ν] in
theorem write_own (h : s.marks b = some .own) : s.write b = s := if_pos h

omit [DecidableEq ν] in
@[simp] theorem marks_write (s : State ν) (b : ν) : (s.write b).marks = s.marks := by
  unfold State.write
  split <;> rfl

omit [DecidableEq ν] in
@[simp] theorem writes_nil (s : State ν) : s.writes [] = s := rfl

omit [DecidableEq ν] in
@[simp] theorem writes_cons (s : State ν) (b : ν) (bs : List ν) :
    s.writes (b :: bs) = (s.write b).writes bs := rfl

omit [DecidableEq ν] in
@[simp] theorem marks_writes (s : State ν) (bs : List ν) : (s.writes bs).marks = s.marks := by
  induction bs generalizing s with
  | nil => rfl
  | cons b bs ih => rw [writes_cons, ih, marks_write]

omit [DecidableEq ν] in
theorem length_strays_write (s : State ν) (b : ν) :
    s.strays.length ≤ (s.write b).strays.length := by
  unfold State.write
  split
  · exact Nat.le_refl _
  · rw [List.length_append]
    exact Nat.le_add_right _ _

omit [DecidableEq ν] in
theorem length_strays_writes (s : State ν) (bs : List ν) :
    s.strays.length ≤ (s.writes bs).strays.length := by
  induction bs generalizing s with
  | nil => exact Nat.le_refl _
  | cons b bs ih => exact Nat.le_trans (length_strays_write s b) (ih (s.write b))

omit [DecidableEq ν] in
/-- A write without an own mark is never forgotten. -/
theorem strays_writes_iff {bs : List ν} :
    (s.writes bs).strays = s.strays ↔ ∀ b ∈ bs, s.marks b = some .own := by
  induction bs generalizing s with
  | nil => exact ⟨fun _ => List.forall_mem_nil _, fun _ => rfl⟩
  | cons b bs ih =>
      rw [writes_cons, List.forall_mem_cons]
      by_cases h : s.marks b = some .own
      · rw [write_own h, ih]
        exact ⟨fun hbs => ⟨h, hbs⟩, fun hbs => hbs.2⟩
      · refine ⟨fun he => ?_, fun hbs => absurd hbs.1 h⟩
        have hlen := length_strays_writes (s.write b) bs
        rw [he, State.write, if_neg h, List.length_append, List.length_singleton] at hlen
        omega

omit [DecidableEq ν] in
/-- Writes under own marks change nothing. -/
theorem writes_own {bs : List ν} (h : ∀ b ∈ bs, s.marks b = some .own) : s.writes bs = s := by
  induction bs with
  | nil => rfl
  | cons b bs ih =>
      rw [writes_cons, write_own (h b List.mem_cons_self)]
      exact ih fun c hc => h c (List.mem_cons_of_mem b hc)

theorem strays_delete (s : State ν) (b : ν) (ok : Bool) : (s.delete b ok).strays = s.strays := by
  unfold State.delete
  split <;> rfl

theorem delete_none (h : s.marks b = none) (ok : Bool) : s.delete b ok = s := by
  unfold State.delete
  split
  · rw [← h, Function.update_eq_self]
  · rfl

/-- A mark that is made and removed leaves no trace. -/
theorem delete_create (h : s.marks b = none) : (s.create b).delete b true = s := by
  unfold State.delete State.create
  rw [if_pos rfl, Function.update_idem, ← h, Function.update_eq_self]

theorem marks_create (s : State ν) (b : ν) : (s.create b).marks b = some .own :=
  Function.update_self _ _ _

/-- Work on one thing is disciplined where it writes to nothing else and its
mark can be removed. -/
theorem disciplined_section_iff (h : s.Idle) (hb : s.marks b = none) (bs : List ν) (ok : Bool) :
    Disciplined s (((s.create b).writes bs).delete b ok) ↔ ok = true ∧ ∀ c ∈ bs, c = b := by
  refine ⟨fun hd => ⟨?_, ?_⟩, fun ⟨hok, hbs⟩ => ?_⟩
  · by_contra hok
    refine hd.idle b ?_
    rw [State.delete, if_neg hok, marks_writes, marks_create]
  · have hstrays := hd.strays
    rw [strays_delete] at hstrays
    intro c hc
    by_contra hne
    have hown := strays_writes_iff.mp (hstrays : _ = (s.create b).strays) c hc
    exact h c ((Function.update_of_ne hne _ _).symm.trans hown)
  · rw [writes_own fun c hc => hbs c hc ▸ marks_create s b, hok, delete_create hb]
    exact disciplined_refl h

omit [DecidableEq ν] in
/-- Without an own mark nothing may be written. -/
theorem strays_writes_idle (h : s.Idle) {bs : List ν} (hs : (s.writes bs).strays = s.strays) :
    bs = [] := by
  cases bs with
  | nil => rfl
  | cons b bs => exact absurd (strays_writes_iff.mp hs b List.mem_cons_self) (h b)

/-- A mark that was removed is not there. -/
theorem marks_delete_self (s : State ν) (b : ν) : (s.delete b true).marks b = none :=
  Function.update_self _ _ _

/-- Removing marks makes none. -/
theorem marks_delete_of_none (h : s.marks c = none) (b : ν) (ok : Bool) :
    (s.delete b ok).marks c = none := by
  unfold State.delete
  split
  · by_cases hc : c = b
    · rw [hc]
      exact Function.update_self _ _ _
    · exact (Function.update_of_ne hc _ _).trans h
  · exact h

end

end Marks

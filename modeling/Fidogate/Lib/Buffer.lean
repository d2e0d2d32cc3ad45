/-
# `Fidogate.Lib.Buffer` — allocated bytes

A buffer is the list of the bytes that are allocated for it.  A write behind
them has no outcome (`none`), so a result says that every write was inside.
-/
import Fidogate.Lib.Bytes
import Mathlib.Data.List.TakeWhile

namespace Buffer

open Bytes

/-- The largest `int`. -/
def INT_MAX : Nat := 2 ^ 31 - 1

/-! ## Writes -/

/-- Store one byte. -/
def write (b : Str) (i : Nat) (c : UInt8) : Option Str :=
  if i < b.length then some (b.set i c) else none

/-- Store bytes from a place on. -/
def writes (b : Str) (i : Nat) (s : Str) : Option Str :=
  if i + s.length ≤ b.length then some (b.take i ++ s ++ b.drop (i + s.length)) else none

theorem write_append (done old : Str) (o c : UInt8) :
    write (done ++ o :: old) done.length c = some (done ++ c :: old) := by
  have hlt : done.length < (done ++ o :: old).length := by
    rw [List.length_append, List.length_cons]
    omega
  rw [write, if_pos hlt, List.set_append_right _ _ (Nat.le_refl _), Nat.sub_self,
    List.set_cons_zero]

theorem write_none {b : Str} {i : Nat} (h : b.length ≤ i) (c : UInt8) : write b i c = none :=
  if_neg (Nat.not_lt.mpr h)

theorem length_write {b b' : Str} {i : Nat} {c : UInt8} (h : write b i c = some b') :
    b'.length = b.length := by
  rw [write] at h
  split at h
  · obtain rfl := Option.some.inj h
    exact List.length_set
  · cases h

theorem writes_append (done s gone old : Str) (h : gone.length = s.length) :
    writes (done ++ gone ++ old) done.length s = some (done ++ s ++ old) := by
  have hle : done.length + s.length ≤ (done ++ gone ++ old).length := by
    rw [List.length_append, List.length_append]
    omega
  have hback : (done ++ gone ++ old).drop (done.length + s.length) = old := by
    rw [← h, ← List.length_append, List.drop_left]
  rw [writes, if_pos hle, hback, List.append_assoc done gone, List.take_left]

theorem length_writes {b b' s : Str} {i : Nat} (h : writes b i s = some b') :
    b'.length = b.length := by
  rw [writes] at h
  split at h
  · obtain rfl := Option.some.inj h
    simp only [List.length_append, List.length_take, List.length_drop]
    omega
  · cases h

theorem exists_write {b : Str} {i : Nat} (h : i < b.length) (c : UInt8) :
    ∃ b', write b i c = some b' ∧ b'.length = b.length :=
  ⟨_, if_pos h, List.length_set⟩

theorem exists_writes {b s : Str} {i : Nat} (h : i + s.length ≤ b.length) :
    ∃ b', writes b i s = some b' ∧ b'.length = b.length :=
  have hw : writes b i s = some _ := if_pos h
  ⟨_, hw, length_writes hw⟩

/-! ## The string in a buffer -/

@[simp] theorem cstr_nil : cstr [] = [] := rfl

@[simp] theorem cstr_nul_cons (fp : Str) : cstr (nul :: fp) = [] := rfl

theorem cstr_cons {c : UInt8} (h : c ≠ nul) (fp : Str) : cstr (c :: fp) = c :: cstr fp :=
  List.takeWhile_cons_of_pos (by simpa using h)

theorem nul_notMem_cstr (fp : Str) : nul ∉ cstr fp := fun h =>
  absurd (List.mem_takeWhile_imp h) (by decide)

theorem cstr_append_nul {s : Str} (h : nul ∉ s) (rest : Str) : cstr (s ++ nul :: rest) = s := by
  rw [cstr, List.takeWhile_append_of_pos fun c hc => by simpa using ne_of_mem_of_not_mem hc h]
  exact List.append_nil s

theorem cstr_eq_self_iff {s : Str} : cstr s = s ↔ nul ∉ s := by
  refine ⟨fun h => h ▸ nul_notMem_cstr s, fun h => ?_⟩
  rw [cstr, List.takeWhile_eq_self_iff]
  exact fun c hc => by simpa using ne_of_mem_of_not_mem hc h

/-- A string ends at the first NUL, also when one was put behind another. -/
theorem cstr_append_nul_eq (s rest : Str) : cstr (s ++ nul :: rest) = cstr s := by
  by_cases h : nul ∈ s
  · obtain ⟨a, b, rfl, ha⟩ := List.eq_append_cons_of_mem h
    rw [List.append_assoc, List.cons_append, cstr_append_nul ha, cstr_append_nul ha]
  · rw [cstr_append_nul h, cstr_eq_self_iff.mpr h]

/-- The bytes up to the NUL hold the whole string. -/
theorem cstr_take {b : Str} (h : nul ∈ b) : cstr (b.take ((cstr b).length + 1)) = cstr b := by
  obtain ⟨a, r, rfl, ha⟩ := List.eq_append_cons_of_mem h
  rw [cstr_append_nul ha, List.append_cons, List.take_left' (by simp), cstr_append_nul ha]

/-- A byte behind the NUL is not part of the string. -/
theorem cstr_write_behind {s old b : Str} {i : Nat} {c : UInt8} (hs : nul ∉ s) (hi : s.length < i)
    (h : write (s ++ nul :: old) i c = some b) : cstr b = s := by
  rw [write] at h
  split at h
  · obtain rfl := Option.some.inj h
    obtain ⟨k, rfl⟩ := Nat.exists_eq_add_of_lt hi
    have hk : s.length + k + 1 - s.length = k + 1 := by omega
    rw [List.set_append_right _ _ (Nat.le_of_lt hi), hk, List.set_cons_succ]
    exact cstr_append_nul hs _
  · cases h

end Buffer

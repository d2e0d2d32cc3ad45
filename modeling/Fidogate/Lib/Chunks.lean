/-
# `Fidogate.Lib.Chunks` — a list taken in chunks of given sizes

Every chunk is as long as asked for, as long as there is enough left; a shorter
one is the last that is not empty.
-/
import Mathlib.Algebra.Order.Ring.Nat
import Mathlib.Data.List.Basic

namespace Chunks

variable {α : Type*}

/-- What is taken by and by. -/
def chunks : List α → List Nat → List (List α)
  | _, [] => []
  | s, n :: ns => s.take n :: chunks (s.drop n) ns

example : chunks [1, 2, 3] [1, 5] = [[1], [2, 3]] := by
  rw [chunks, chunks, chunks]
  rfl

theorem length_chunks : ∀ (s : List α) (ns : List Nat), (chunks s ns).length = ns.length
  | _, [] => rfl
  | s, n :: ns => congrArg (· + 1) (length_chunks (s.drop n) ns)

theorem take_chunks : ∀ (s : List α) (ns : List Nat) (i : Nat),
    (chunks s ns).take i = chunks s (ns.take i)
  | _, _, 0 => by rw [List.take_zero, List.take_zero, chunks]
  | _, [], i + 1 => rfl
  | s, n :: ns, i + 1 => congrArg (s.take n :: ·) (take_chunks (s.drop n) ns i)

theorem drop_chunks : ∀ (s : List α) (ns : List Nat) (i : Nat),
    (chunks s ns).drop i = chunks (s.drop (ns.take i).sum) (ns.drop i)
  | s, ns, 0 => rfl
  | _, [], i + 1 => rfl
  | s, n :: ns, i + 1 => by
      rw [chunks, List.drop_succ_cons, drop_chunks (s.drop n) ns i, List.drop_drop,
        List.take_succ_cons, List.sum_cons, List.drop_succ_cons]

theorem flatten_chunks : ∀ (s : List α) (ns : List Nat), (chunks s ns).flatten = s.take ns.sum
  | s, [] => by rw [chunks, List.flatten_nil, List.sum_nil, List.take_zero]
  | s, n :: ns => by
      rw [chunks, List.flatten_cons, flatten_chunks (s.drop n) ns, List.sum_cons, List.take_add]

theorem eq_nil_of_mem_chunks_nil : ∀ {ns : List Nat} {c : List α}, c ∈ chunks [] ns → c = []
  | [], _, h => absurd h List.not_mem_nil
  | n :: ns, c, h => by
      rw [chunks, List.take_nil, List.drop_nil] at h
      exact (List.mem_cons.mp h).elim id eq_nil_of_mem_chunks_nil

section Exhausted

variable {s : List α} {ns : List Nat} {i n : Nat} {c : List α}

theorem getElem?_chunks (hn : ns[i]? = some n) :
    (chunks s ns)[i]? = some ((s.drop (ns.take i).sum).take n) := by
  have hdrop := drop_chunks s ns i
  obtain ⟨hi, hni⟩ := List.getElem?_eq_some_iff.mp hn
  rw [List.drop_eq_getElem_cons hi, hni, chunks] at hdrop
  rw [← List.head?_drop, hdrop, List.head?_cons]

/-- A chunk that is shorter than asked for completes the list. -/
theorem flatten_take_of_short (hn : ns[i]? = some n) (hc : (chunks s ns)[i]? = some c)
    (hlt : c.length < n) : ((chunks s ns).take (i + 1)).flatten = s := by
  obtain rfl : (s.drop (ns.take i).sum).take n = c :=
    Option.some.inj ((getElem?_chunks hn).symm.trans hc)
  obtain ⟨hi, rfl⟩ := List.getElem?_eq_some_iff.mp hn
  rw [List.length_take, List.length_drop] at hlt
  rw [take_chunks, flatten_chunks, List.take_of_length_le]
  rw [List.take_succ_eq_append_getElem hi, List.sum_append, List.sum_singleton]
  omega

/-- Once all of the list has been taken, nothing more comes. -/
theorem eq_nil_of_complete (h : ((chunks s ns).take i).flatten = s) :
    ∀ d ∈ (chunks s ns).drop i, d = [] := by
  intro d hd
  rw [take_chunks, flatten_chunks] at h
  have hle : s.length ≤ (ns.take i).sum := by
    rw [← h, List.length_take]
    exact Nat.min_le_left _ _
  rw [drop_chunks, List.drop_of_length_le hle] at hd
  exact eq_nil_of_mem_chunks_nil hd

end Exhausted

end Chunks

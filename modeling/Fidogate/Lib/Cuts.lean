/-
# `Fidogate.Lib.Cuts` — cutting a list behind the element that overflows

Elements have sizes, and a piece is closed by the element with which its size
first exceeds the maximum.  `cuts` counts how often that happens and `pieces`
lists the pieces; the last piece is what is left over, empty when the last
element closed the one before it.
-/
import Mathlib.Data.List.Basic
import Mathlib.Algebra.Order.BigOperators.Group.List
import Mathlib.Algebra.Order.Ring.Nat
import Mathlib.Tactic.Common

namespace Cuts

variable {α β : Type*} (size : α → Nat) (max : Nat)

/-- The size of a list. -/
def total (xs : List α) : Nat := (xs.map size).sum

@[simp] theorem total_nil : total size [] = 0 := rfl

@[simp] theorem total_cons (x : α) (xs : List α) :
    total size (x :: xs) = size x + total size xs := by
  simp [total]

@[simp] theorem total_append (xs ys : List α) :
    total size (xs ++ ys) = total size xs + total size ys := by
  simp [total]

/-- How often a piece is closed, `acc` being the size of the one at hand. -/
def cuts : Nat → List α → Nat
  | _, [] => 0
  | acc, x :: xs => if max < acc + size x then cuts 0 xs + 1 else cuts (acc + size x) xs

/-- The pieces, `cur` being the one at hand. -/
def pieces : List α → List α → List (List α)
  | cur, [] => [cur]
  | cur, x :: xs =>
      if max < total size cur + size x then (cur ++ [x]) :: pieces [] xs
      else pieces (cur ++ [x]) xs

theorem cuts_map (f : β → α) : ∀ (acc : Nat) (xs : List β),
    cuts size max acc (xs.map f) = cuts (fun x => size (f x)) max acc xs
  | _, [] => rfl
  | acc, x :: xs => by
      simp only [List.map_cons, cuts]
      rw [cuts_map f 0 xs, cuts_map f (acc + size (f x)) xs]

theorem cuts_congr {size' : α → Nat} : ∀ (acc : Nat) (xs : List α),
    (∀ x ∈ xs, size x = size' x) → cuts size max acc xs = cuts size' max acc xs
  | _, [], _ => rfl
  | acc, x :: xs, h => by
      have hx := h x List.mem_cons_self
      have hxs := fun y hy => h y (List.mem_cons_of_mem x hy)
      simp only [cuts, hx]
      rw [cuts_congr 0 xs hxs, cuts_congr (acc + size' x) xs hxs]

theorem total_congr {size' : α → Nat} {xs : List α} (h : ∀ x ∈ xs, size x = size' x) :
    total size xs = total size' xs := by
  rw [total, total, List.map_congr_left h]

theorem total_le {size' : α → Nat} {xs : List α} (h : ∀ x ∈ xs, size x ≤ size' x) :
    total size xs ≤ total size' xs :=
  List.sum_le_sum h

theorem le_total {x : α} {xs : List α} (h : x ∈ xs) : size x ≤ total size xs :=
  List.le_sum_of_mem (List.mem_map_of_mem h)

/-- Sizes that are nowhere larger and equal in sum are equal. -/
theorem eq_of_total_eq {size' : α → Nat} : ∀ {xs : List α}, (∀ x ∈ xs, size x ≤ size' x) →
    total size xs = total size' xs → ∀ x ∈ xs, size x = size' x
  | [], _, _ => by simp
  | x :: xs, h, he => by
      have hx := h x List.mem_cons_self
      have hxs := fun y hy => h y (List.mem_cons_of_mem x hy)
      have hle := total_le size hxs
      simp only [total_cons] at he
      intro y hy
      rcases List.mem_cons.mp hy with rfl | hy
      · omega
      · exact eq_of_total_eq hxs (by omega) y hy

/-! ## The pieces -/

theorem flatten_pieces : ∀ cur xs : List α, (pieces size max cur xs).flatten = cur ++ xs
  | cur, [] => by simp [pieces]
  | cur, x :: xs => by
      have hnew := flatten_pieces [] xs
      have hold := flatten_pieces (cur ++ [x]) xs
      simp only [pieces]
      split
      · simp [hnew]
      · simp [hold]

theorem length_pieces : ∀ cur xs : List α,
    (pieces size max cur xs).length = cuts size max (total size cur) xs + 1
  | cur, [] => rfl
  | cur, x :: xs => by
      have hnew := length_pieces [] xs
      have hold := length_pieces (cur ++ [x]) xs
      simp only [pieces, cuts]
      split
      · simpa using hnew
      · simpa using hold

/-- No piece exceeds the maximum by more than its last element. -/
theorem pieces_bounded : ∀ cur xs : List α, total size cur ≤ max →
    ∀ p ∈ pieces size max cur xs, total size p.dropLast ≤ max
  | cur, [], h, p, hp => by
      obtain rfl := List.mem_singleton.mp hp
      rcases List.eq_nil_or_concat p with rfl | ⟨q, x, rfl⟩
      · simp
      · rw [List.concat_eq_append] at *
        simp only [total_append, List.dropLast_concat] at h ⊢
        omega
  | cur, x :: xs, h, p, hp => by
      rw [pieces] at hp
      split at hp
      · rcases List.mem_cons.mp hp with rfl | hp
        · simpa using h
        · exact pieces_bounded [] xs (Nat.zero_le _) p hp
      · next hx =>
        refine pieces_bounded (cur ++ [x]) xs ?_ p hp
        simp only [total_append, total_cons, total_nil]
        omega

/-! ## When there is a cut -/

/-- Nothing is cut when the whole fits. -/
theorem cuts_eq_zero_iff : ∀ (acc : Nat) (xs : List α), acc ≤ max →
    (cuts size max acc xs = 0 ↔ acc + total size xs ≤ max)
  | acc, [], h => by simpa [cuts] using h
  | acc, x :: xs, h => by
      rw [cuts, total_cons]
      split
      · constructor
        · intro hc
          omega
        · intro hc
          omega
      · next hx =>
        rw [cuts_eq_zero_iff (acc + size x) xs (by omega)]
        omega

/-- One byte too much is one cut. -/
theorem cuts_of_total_eq_succ : ∀ (acc : Nat) (xs : List α), acc ≤ max →
    acc + total size xs = max + 1 → cuts size max acc xs = 1
  | acc, [], h, he => by
      simp only [total_nil] at he
      omega
  | acc, x :: xs, h, he => by
      rw [total_cons] at he
      rw [cuts]
      split
      · have h0 : cuts size max 0 xs = 0 :=
          (cuts_eq_zero_iff size max 0 xs (Nat.zero_le _)).mpr (by omega)
        omega
      · exact cuts_of_total_eq_succ (acc + size x) xs (by omega) (by omega)

end Cuts

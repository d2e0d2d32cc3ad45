/-
# `Fidogate.Lib.Paths` — files directly in a directory

A path is a text with separators.  A file lies directly in a directory if its
path is the directory, a separator and a name: no separator is in a name, and
neither is it one of the two names of a directory, one dot and two.
-/
import Mathlib.Data.List.Basic

namespace Paths

variable {α : Type*} {sep dot : α}

/-- A name of a file. -/
structure IsName (sep dot : α) (n : List α) : Prop where
  ne_nil : n ≠ []
  noSep : sep ∉ n
  notHere : n ≠ [dot]
  notUp : n ≠ [dot, dot]

/-- The path is that of a file in the directory. -/
def Directly (sep dot : α) (dir path : List α) : Prop :=
  ∃ n, IsName sep dot n ∧ path = dir ++ sep :: n

instance [DecidableEq α] (n : List α) : Decidable (IsName sep dot n) :=
  decidable_of_iff (n ≠ [] ∧ sep ∉ n ∧ n ≠ [dot] ∧ n ≠ [dot, dot])
    ⟨fun ⟨h1, h2, h3, h4⟩ => ⟨h1, h2, h3, h4⟩, fun ⟨h1, h2, h3, h4⟩ => ⟨h1, h2, h3, h4⟩⟩

theorem IsName.directly {n : List α} (h : IsName sep dot n) (dir : List α) :
    Directly sep dot dir (dir ++ sep :: n) :=
  ⟨n, h, rfl⟩

/-- A name that is not too short is none of the two. -/
theorem isName_of_length {n : List α} (hlen : 3 ≤ n.length) (hsep : sep ∉ n) :
    IsName sep dot n := by
  refine ⟨?_, hsep, ?_, ?_⟩ <;>
  · rintro rfl
    simp at hlen

/-- What is left of a name in a buffer is a name. -/
theorem IsName.take {n : List α} (h : IsName sep dot n) {k : Nat} (hk : 3 ≤ k) :
    IsName sep dot (n.take k) := by
  rcases Nat.le_total n.length k with hle | hle
  · rw [List.take_of_length_le hle]
    exact h
  · refine isName_of_length ?_ fun hmem => h.noSep (List.mem_of_mem_take hmem)
    rw [List.length_take]
    omega

/-- A path cut off behind three bytes of its name at least. -/
theorem IsName.directly_take {dir n : List α} (h : IsName sep dot n) {k : Nat}
    (hk : dir.length + 4 ≤ k) : Directly sep dot dir ((dir ++ sep :: n).take k) := by
  refine ⟨n.take (k - dir.length - 1), h.take (by omega), ?_⟩
  rw [List.take_append, List.take_of_length_le (by omega)]
  obtain ⟨j, hj⟩ : ∃ j, k - dir.length = j + 1 := ⟨k - dir.length - 1, by omega⟩
  rw [hj, List.take_succ_cons, Nat.add_sub_cancel]

/-- A map that leaves separator and dot alone, and makes no others, keeps names. -/
theorem IsName.map {β : Type*} {sep' dot' : β} {f : α → β} (hsep : ∀ c, f c = sep' ↔ c = sep)
    (hdot : ∀ c, f c = dot' ↔ c = dot) {n : List α} :
    IsName sep' dot' (n.map f) ↔ IsName sep dot n := by
  have hnil : n.map f = [] ↔ n = [] := List.map_eq_nil_iff
  have hmem : sep' ∈ n.map f ↔ sep ∈ n := by
    rw [List.mem_map]
    refine ⟨?_, fun h => ⟨sep, h, (hsep sep).mpr rfl⟩⟩
    rintro ⟨c, hc, hf⟩
    rwa [← (hsep c).mp hf]
  have hone : n.map f = [dot'] ↔ n = [dot] := by
    rw [List.map_eq_singleton_iff]
    simp [hdot]
  have htwo : n.map f = [dot', dot'] ↔ n = [dot, dot] := by
    constructor
    · intro h
      obtain ⟨c, m, rfl, hc, hm⟩ := List.map_eq_cons_iff.mp h
      obtain ⟨d, rfl, hd⟩ := List.map_eq_singleton_iff.mp hm
      rw [(hdot c).mp hc, (hdot d).mp hd]
    · rintro rfl
      simp [(hdot dot).mpr rfl]
  constructor
  · rintro ⟨h1, h2, h3, h4⟩
    exact ⟨mt hnil.mpr h1, mt hmem.mpr h2, mt hone.mpr h3, mt htwo.mpr h4⟩
  · rintro ⟨h1, h2, h3, h4⟩
    exact ⟨mt hnil.mp h1, mt hmem.mp h2, mt hone.mp h3, mt htwo.mp h4⟩

/-- A file lies directly in one directory. -/
theorem Directly.unique {dir dir' path : List α} (h : Directly sep dot dir path)
    (h' : Directly sep dot dir' path) : dir = dir' := by
  obtain ⟨n, hn, rfl⟩ := h
  obtain ⟨m, hm, heq⟩ := h'
  rcases List.append_eq_append_iff.mp heq with ⟨as, hdir, hrest⟩ | ⟨as, hdir, hrest⟩
  · cases as with
    | nil => rw [hdir, List.append_nil]
    | cons a as =>
        have htail : n = as ++ sep :: m := (List.cons.inj hrest).2
        exact absurd (htail ▸ List.mem_append_right _ List.mem_cons_self) hn.noSep
  · cases as with
    | nil => rw [hdir, List.append_nil]
    | cons a as =>
        have htail : m = as ++ sep :: n := (List.cons.inj hrest).2
        exact absurd (htail ▸ List.mem_append_right _ List.mem_cons_self) hm.noSep

end Paths

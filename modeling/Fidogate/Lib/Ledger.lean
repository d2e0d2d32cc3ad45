/-
# `Fidogate.Lib.Ledger` — a text of entries with an index of their places

Writing an entry appends its line to the text, and stores the place of the
line under the key of the entry.  A ledger is `Exact` for a list of entries
when the text is their lines, and the index knows their keys and gives for
each the last place.
-/
import Mathlib.Data.List.Basic
import Mathlib.Logic.Function.Basic

namespace Ledger

variable {ε κ α : Type*} [DecidableEq κ] (key : ε → κ) (line : ε → List α)

/-- The text, the index, and the entries that were written. -/
structure State (ε κ α : Type*) where
  text : List α
  index : κ → Option ℕ
  entries : List ε

def empty : State ε κ α := ⟨[], fun _ => none, []⟩

def write (l : State ε κ α) (e : ε) : State ε κ α :=
  ⟨l.text ++ line e, Function.update l.index (key e) (some l.text.length), l.entries ++ [e]⟩

/-- The text of some entries. -/
def textOf (es : List ε) : List α := es.flatMap line

structure Exact (l : State ε κ α) (es : List ε) : Prop where
  entries : l.entries = es
  text : l.text = textOf line es
  found : ∀ k, (l.index k).isSome = true ↔ k ∈ es.map key
  place : ∀ before e after, es = before ++ e :: after → key e ∉ after.map key →
    l.index (key e) = some (textOf line before).length

variable {key line}

omit [DecidableEq κ] in
theorem exact_empty : Exact key line (empty : State ε κ α) [] where
  entries := rfl
  text := rfl
  found := fun k => ⟨fun h => (nomatch h), fun h => (nomatch h)⟩
  place := fun before e after h => by
    cases before <;> cases h

theorem Exact.write {l : State ε κ α} {es : List ε} (h : Exact key line l es) (e : ε) :
    Exact key line (write key line l e) (es ++ [e]) where
  entries := congrArg (· ++ [e]) h.entries
  text := by
    rw [textOf, List.flatMap_append, ← textOf, ← h.text, List.flatMap_singleton]
    rfl
  found := fun k => by
    rw [Ledger.write, List.map_append, List.mem_append, List.map_singleton, List.mem_singleton]
    dsimp only
    by_cases hk : k = key e
    · rw [hk, Function.update_self]
      exact ⟨fun _ => .inr rfl, fun _ => rfl⟩
    · rw [Function.update_of_ne hk, h.found]
      exact ⟨.inl, fun h => h.resolve_right hk⟩
  place := fun before e' after hes hlast => by
    rw [Ledger.write]
    dsimp only
    obtain rfl | ⟨after, e'', rfl⟩ := List.eq_nil_or_concat after
    · obtain ⟨rfl, he⟩ := List.append_inj' hes rfl
      obtain rfl := List.singleton_inj.mp he
      rw [Function.update_self, h.text]
    · rw [List.concat_eq_append, ← List.cons_append, ← List.append_assoc] at hes
      obtain ⟨hes', he⟩ := List.append_inj' hes rfl
      obtain rfl := List.singleton_inj.mp he
      rw [List.concat_eq_append, List.map_append, List.mem_append, not_or] at hlast
      have hne : key e' ≠ key e := fun h => hlast.2 (List.mem_singleton.mpr h)
      rw [Function.update_of_ne hne, h.place before e' after hes' hlast.1]

/-- Writing one entry after the other. -/
theorem Exact.writes {l : State ε κ α} {es : List ε} (h : Exact key line l es) (es' : List ε) :
    Exact key line (es'.foldl (Ledger.write key line) l) (es ++ es') := by
  induction es' generalizing l es with
  | nil => rwa [List.append_nil]
  | cons e es' ih =>
      have hnext := ih (h.write e)
      rwa [List.append_assoc] at hnext

end Ledger

/-
# `Fidogate.Lib.Utf8` — the form of UTF-8 text

A text is in the form of UTF-8 if it is made of sequences of a lead byte and as
many continuation bytes as it announces (`Formed`).  Which characters the
sequences stand for does not matter here.
-/
import Fidogate.Lib.Bytes

namespace Utf8

open Bytes

/-- How many continuation bytes a lead byte announces. -/
def announced (c : UInt8) : Option Nat :=
  if c < 0x80 then some 0
  else if c < 0xC0 then none
  else if c < 0xE0 then some 1
  else if c < 0xF0 then some 2
  else if c < 0xF8 then some 3
  else none

def Continuation (c : UInt8) : Prop := 0x80 ≤ c ∧ c < 0xC0

instance (c : UInt8) : Decidable (Continuation c) :=
  inferInstanceAs (Decidable (0x80 ≤ c ∧ c < 0xC0))

/-- A lead byte with its continuation bytes. -/
def Sequence : Str → Prop
  | [] => False
  | c :: s => announced c = some s.length ∧ ∀ d ∈ s, Continuation d

/-- The text is made of sequences. -/
def Formed (s : Str) : Prop := ∃ cs : List Str, (∀ c ∈ cs, Sequence c) ∧ cs.flatten = s

theorem formed_nil : Formed [] := ⟨[], fun _ h => absurd h List.not_mem_nil, rfl⟩

theorem Formed.append {s t : Str} (hs : Formed s) (ht : Formed t) : Formed (s ++ t) := by
  obtain ⟨cs, hcs, rfl⟩ := hs
  obtain ⟨ds, hds, rfl⟩ := ht
  refine ⟨cs ++ ds, fun c hc => ?_, List.flatten_append⟩
  rcases List.mem_append.mp hc with hc | hc
  · exact hcs c hc
  · exact hds c hc

theorem Formed.sequence {s : Str} (h : Sequence s) : Formed s :=
  ⟨[s], fun c hc => by rwa [List.mem_singleton.mp hc], by rw [List.flatten_singleton]⟩

theorem announced_le {c : UInt8} {n : Nat} (h : announced c = some n) : n ≤ 3 := by
  rw [announced] at h
  repeat' split at h
  all_goals cases h
  all_goals decide

/-- The first byte says where the rest of the text begins. -/
theorem formed_cons {c : UInt8} {s : Str} : Formed (c :: s) ↔
    ∃ n, announced c = some n ∧ (n ≤ s.length ∧ ∀ d ∈ s.take n, Continuation d) ∧
      Formed (s.drop n) := by
  constructor
  · rintro ⟨cs, hcs, hs⟩
    match cs, hcs, hs with
    | [] :: _, hcs, _ => exact (hcs [] List.mem_cons_self).elim
    | (d :: t) :: cs, hcs, hs =>
        rw [List.flatten_cons, List.cons_append] at hs
        obtain ⟨rfl, rfl⟩ := List.cons.inj hs
        obtain ⟨hlead, hcont⟩ := hcs (d :: t) List.mem_cons_self
        refine ⟨t.length, hlead, ⟨?_, ?_⟩, ?_⟩
        · rw [List.length_append]
          exact Nat.le_add_right _ _
        · rwa [List.take_left]
        · rw [List.drop_left]
          exact ⟨cs, fun e he => hcs e (List.mem_cons_of_mem _ he), rfl⟩
  · rintro ⟨n, hlead, ⟨hlen, hcont⟩, cs, hcs, hs⟩
    refine ⟨(c :: s.take n) :: cs, List.forall_mem_cons.mpr ⟨⟨?_, hcont⟩, hcs⟩, ?_⟩
    · rw [List.length_take_of_le hlen]
      exact hlead
    · rw [List.flatten_cons, hs, List.cons_append, List.take_append_drop]

end Utf8

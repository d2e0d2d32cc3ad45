/-
# `Fidogate.Lib.Files` — a directory and the calls that change it

A directory maps names to contents.  A call that fails changes nothing, and
neither does one that asks for a file that is not there; a list of calls with
their outcomes is run one after the other, and a program that is interrupted
has run a front part of its list.

`rotate` is how saved files are renumbered: the last one first, each to the
next number.
-/
import Mathlib.Logic.Function.Basic
import Mathlib.Tactic.Common
import Fidogate.Lib.Run

namespace Files

variable {ν κ : Type*} [DecidableEq ν]

/-- A directory. -/
abbrev Dir (ν κ : Type*) := ν → Option κ

/-- The calls: a file gets a content, is removed, or gets another name, which
replaces a file of that name. -/
inductive Call (ν κ : Type*)
  | write (n : ν) (c : κ)
  | unlink (n : ν)
  | rename (a b : ν)

/-- The effect of a call. -/
def Call.apply (d : Dir ν κ) : Call ν κ → Dir ν κ
  | .write n c => Function.update d n (some c)
  | .unlink n => Function.update d n none
  | .rename a b =>
      match d a with
      | none => d
      | some c => Function.update (Function.update d a none) b (some c)

/-- The name a call may give a content to. -/
def Call.Target (n : ν) : Call ν κ → Prop
  | .write m _ => m = n
  | .unlink _ => False
  | .rename _ b => b = n

/-- The names a call may change. -/
def Call.Touches (n : ν) : Call ν κ → Prop
  | .write m _ => m = n
  | .unlink m => m = n
  | .rename a b => a = n ∨ b = n

/-- A call with its outcome. -/
def step (d : Dir ν κ) (c : Call ν κ × Bool) : Dir ν κ := if c.2 then c.1.apply d else d

/-- The directory after a list of calls. -/
def exec (d : Dir ν κ) (cs : List (Call ν κ × Bool)) : Dir ν κ := Run.run step d cs

@[simp] theorem exec_nil (d : Dir ν κ) : exec d [] = d := rfl

@[simp] theorem exec_cons (d : Dir ν κ) (c : Call ν κ × Bool) (cs : List (Call ν κ × Bool)) :
    exec d (c :: cs) = exec (step d c) cs := rfl

theorem exec_append (d : Dir ν κ) (cs cs' : List (Call ν κ × Bool)) :
    exec d (cs ++ cs') = exec (exec d cs) cs' :=
  Run.run_append d cs cs'

@[simp] theorem step_fails (d : Dir ν κ) (c : Call ν κ) : step d (c, false) = d := rfl

@[simp] theorem step_write (d : Dir ν κ) (n : ν) (c : κ) :
    step d (.write n c, true) = Function.update d n (some c) := rfl

@[simp] theorem step_unlink (d : Dir ν κ) (n : ν) :
    step d (.unlink n, true) = Function.update d n none := rfl

theorem apply_rename_some {d : Dir ν κ} {a b : ν} {c : κ} (h : d a = some c) :
    Call.apply d (.rename a b) = Function.update (Function.update d a none) b (some c) := by
  rw [Call.apply, h]

theorem apply_rename_none {d : Dir ν κ} {a b : ν} (h : d a = none) :
    Call.apply d (.rename a b) = d := by
  rw [Call.apply, h]

/-- A renamed file has its content under the new name. -/
theorem rename_target {d : Dir ν κ} {a b : ν} (hb : d b = none ∨ d a ≠ none) :
    Call.apply d (.rename a b) b = d a := by
  cases ha : d a with
  | none =>
      rw [apply_rename_none ha]
      exact hb.resolve_right fun h => h ha
  | some c => rw [apply_rename_some ha, Function.update_self]

/-- A renamed file is gone under the old name. -/
theorem rename_source {d : Dir ν κ} {a b : ν} (hab : a ≠ b) :
    Call.apply d (.rename a b) a = none := by
  cases ha : d a with
  | none => rw [apply_rename_none ha, ha]
  | some c => rw [apply_rename_some ha, Function.update_of_ne hab, Function.update_self]

/-! ## Names that are left alone -/

theorem apply_of_not_touches {d : Dir ν κ} {n : ν} :
    ∀ {c : Call ν κ}, ¬ c.Touches n → c.apply d n = d n
  | .write _ _, h => Function.update_of_ne (fun e => h e.symm) _ _
  | .unlink _, h => Function.update_of_ne (fun e => h e.symm) _ _
  | .rename a b, h => by
      cases ha : d a with
      | none => rw [apply_rename_none ha]
      | some c =>
          rw [apply_rename_some ha, Function.update_of_ne fun e => h (.inr e.symm),
            Function.update_of_ne fun e => h (.inl e.symm)]

/-- A name no call touches keeps its content. -/
theorem exec_of_not_touches {n : ν} {cs : List (Call ν κ × Bool)} :
    ∀ {d : Dir ν κ}, (∀ c ∈ cs, ¬ c.1.Touches n) → exec d cs n = d n := by
  induction cs with
  | nil => exact fun _ => rfl
  | cons c cs ih =>
      intro d h
      rw [exec_cons, ih fun c' hc => h c' (List.mem_cons_of_mem c hc), step]
      split
      · exact apply_of_not_touches (h c List.mem_cons_self)
      · rfl

theorem apply_none {d : Dir ν κ} {n : ν} (hn : d n = none) :
    ∀ {c : Call ν κ}, ¬ c.Target n → c.apply d n = none
  | .write _ _, h => (Function.update_of_ne (fun e => h e.symm) _ _).trans hn
  | .unlink m, _ => by
      by_cases hm : n = m
      · subst hm
        exact Function.update_self _ _ _
      · exact (Function.update_of_ne hm _ _).trans hn
  | .rename a b, h => by
      cases ha : d a with
      | none => rw [apply_rename_none ha, hn]
      | some c =>
          rw [apply_rename_some ha, Function.update_of_ne fun e => h e.symm]
          by_cases hna : n = a
          · subst hna
            exact Function.update_self _ _ _
          · exact (Function.update_of_ne hna _ _).trans hn

/-- A file that is not there does not appear unless a call that succeeds has
it for its target. -/
theorem exec_none {n : ν} {cs : List (Call ν κ × Bool)} :
    ∀ {d : Dir ν κ}, d n = none → (∀ c ∈ cs, c.2 = true → ¬ c.1.Target n) →
      exec d cs n = none := by
  induction cs with
  | nil => exact fun hn _ => hn
  | cons c cs ih =>
      intro d hn h
      rw [exec_cons]
      refine ih ?_ fun c' hc => h c' (List.mem_cons_of_mem c hc)
      rw [step]
      split
      · next hc => exact apply_none hn (h c List.mem_cons_self hc)
      · exact hn

/-- A call that gives a content to `m` alone and does not move it. -/
def Call.Confined (m : ν) : Call ν κ → Prop
  | .write n _ => n = m
  | .unlink _ => True
  | .rename a _ => a ≠ m

theorem apply_confined {d : Dir ν κ} {m : ν} (hd : ∀ n, n ≠ m → d n = none) :
    ∀ {c : Call ν κ}, c.Confined m → ∀ n, n ≠ m → c.apply d n = none
  | .write _ _, hc, n, hn => (Function.update_of_ne (fun e => hn (e.trans hc)) _ _).trans (hd n hn)
  | .unlink _, _, n, hn => apply_none (hd n hn) id
  | .rename a _, hc, n, hn => by
      rw [apply_rename_none (hd a hc)]
      exact hd n hn

/-- Where there is no file but `m`, confined calls make none. -/
theorem exec_confined {m : ν} {cs : List (Call ν κ × Bool)} :
    ∀ {d : Dir ν κ}, (∀ n, n ≠ m → d n = none) → (∀ c ∈ cs, c.1.Confined m) →
      ∀ n, n ≠ m → exec d cs n = none := by
  induction cs with
  | nil => exact fun hd _ => hd
  | cons c cs ih =>
      intro d hd h
      refine ih (fun n hn => ?_) fun c' hc => h c' (List.mem_cons_of_mem c hc)
      rw [step]
      split
      · exact apply_confined hd (h c List.mem_cons_self) n hn
      · exact hd n hn

/-! ## Renumbering -/

/-- The file of number `i` gets number `i + 1`, from `n` down to 1. -/
def rotate (name : Nat → ν) (ok : Nat → Bool) : Nat → List (Call ν κ × Bool)
  | 0 => []
  | n + 1 => (.rename (name (n + 1)) (name (n + 2)), ok (n + 1)) :: rotate name ok n

omit [DecidableEq ν] in
theorem mem_rotate {name : Nat → ν} {ok : Nat → Bool} {c : Call ν κ × Bool} :
    ∀ {n : Nat}, c ∈ rotate name ok n →
      ∃ i, 1 ≤ i ∧ i ≤ n ∧ c = (.rename (name i) (name (i + 1)), ok i)
  | n + 1, h => by
      rcases List.mem_cons.mp h with rfl | h
      · exact ⟨n + 1, by omega, Nat.le_refl _, rfl⟩
      · obtain ⟨i, h1, hi, rfl⟩ := mem_rotate h
        exact ⟨i, h1, by omega, rfl⟩

omit [DecidableEq ν] in
theorem length_rotate (name : Nat → ν) (ok : Nat → Bool) :
    ∀ n : Nat, (rotate (κ := κ) name ok n).length = n
  | 0 => rfl
  | n + 1 => congrArg (· + 1) (length_rotate name ok n)

/-- Renumbering leaves other names alone. -/
theorem exec_rotate_other {name : Nat → ν} {ok : Nat → Bool} {n : Nat} {m : ν} (d : Dir ν κ)
    (h : ∀ i, 1 ≤ i → i ≤ n + 1 → name i ≠ m) : exec d (rotate name ok n) m = d m := by
  refine exec_of_not_touches fun c hc => ?_
  obtain ⟨i, h1, hi, rfl⟩ := mem_rotate hc
  rintro (he | he)
  · exact h i h1 (by omega) he
  · exact h (i + 1) (by omega) (by omega) he

/-- Where the last place is free and no call fails, every file moves to the
next number and the first place becomes free. -/
theorem exec_rotate {name : Nat → ν} (hname : Function.Injective name) {ok : Nat → Bool} :
    ∀ {n : Nat} {d : Dir ν κ}, d (name (n + 1)) = none → (∀ i, 1 ≤ i → i ≤ n → ok i = true) →
      exec d (rotate name ok n) (name 1) = none ∧
      ∀ i, 1 ≤ i → i ≤ n → exec d (rotate name ok n) (name (i + 1)) = d (name i)
  | 0, _, hd, _ => ⟨hd, fun i h1 hi => absurd hi (by omega)⟩
  | n + 1, d, hd, hok => by
      have hne : name (n + 1) ≠ name (n + 2) := fun e => absurd (hname e) (by omega)
      have hstep : step d (.rename (name (n + 1)) (name (n + 2)), ok (n + 1)) =
          Call.apply d (.rename (name (n + 1)) (name (n + 2))) := by
        rw [step, hok (n + 1) (by omega) (Nat.le_refl _)]
        rfl
      rw [rotate, exec_cons, hstep]
      obtain ⟨hfirst, hrest⟩ := exec_rotate hname (n := n) (rename_source hne)
        fun i h1 hi => hok i h1 (by omega)
      refine ⟨hfirst, fun i h1 hi => ?_⟩
      rcases Nat.lt_or_ge n i with hlast | hlt
      · obtain rfl : i = n + 1 := by omega
        rw [exec_rotate_other, rename_target (.inl hd)]
        intro j _ hj he
        have := hname he
        omega
      · rw [hrest i h1 hlt]
        refine apply_of_not_touches ?_
        rintro (he | he)
        · have := hname he
          omega
        · have := hname he
          omega

end Files

/-
# `Fidogate.Lib.Serial` — programs that change one file, under locks or not

A program reads a file into its memory, works on it there and writes it back.
Around that it takes and releases locks; one that is busy it waits for, or it
ends, or it goes on without the lock.  Several programs run interleaved, one
instruction at a time.

A lock that every program takes before it reads and keeps until it has
written makes the runs serial (`serial_of_guarded`): the file is what the
programs make of it one after the other.
-/
import Mathlib.Data.List.Nodup
import Mathlib.Logic.Function.Basic
import Mathlib.Tactic.Common
import Fidogate.Lib.Run

namespace Serial

variable {κ ω τ ι : Type*} [DecidableEq κ]

/-! ## Programs -/

/-- What a program does that finds a lock busy: wait, or, when it gives up
waiting, end or go on. -/
inductive Busy
  | wait
  | exit
  | goOn
  deriving DecidableEq

/-- An instruction; `work` does the next of the works the program was given. -/
inductive Instr (κ : Type*)
  | lock (k : κ) (b : Busy)
  | unlock (k : κ)
  | read
  | work
  | write
  deriving DecidableEq

/-- What the programs share: the file, and the locks that are taken. -/
structure Shared (κ τ : Type*) where
  file : τ
  locks : List κ
  deriving DecidableEq

/-- A program at a point of its run: the instructions left, the locks it has,
what it has in memory and whether that was changed, and the works to do and
done. -/
structure Proc (κ ω τ : Type*) where
  rest : List (Instr κ)
  held : List κ
  mem : Option (τ × Bool)
  todo : List ω
  done : List ω
  deriving DecidableEq

/-- A program at its beginning. -/
def start (prog : List (Instr κ)) (works : List ω) : Proc κ ω τ := ⟨prog, [], none, works, []⟩

section

variable (apply : ω → τ → τ × Bool)

/-- A work in memory. -/
def change (m : τ × Bool) (w : ω) : τ × Bool := ((apply w m.1).1, m.2 || (apply w m.1).2)

/-- Several works in memory, on a file just read. -/
def changes (ws : List ω) (f : τ) : τ × Bool := ws.foldl (change apply) (f, false)

/-- What a program with these works makes of the file, alone. -/
def effect (ws : List ω) (f : τ) : τ :=
  if (changes apply ws f).2 then (changes apply ws f).1 else f

/-- One instruction; `giveUp` is whether a program that finds a lock busy
gives up waiting.  A program that ends leaves no lock behind, and `unlock`
removes a lock whoever has it. -/
def exec (giveUp : Bool) (sh : Shared κ τ) (r : Proc κ ω τ) : Shared κ τ × Proc κ ω τ :=
  match r.rest with
  | [] => (sh, r)
  | .lock k b :: rest =>
      if k ∈ sh.locks then
        match b, giveUp with
        | .exit, true =>
            ({ sh with locks := sh.locks.filter (· ∉ r.held) }, { r with rest := [], held := [] })
        | .goOn, true => (sh, { r with rest := rest })
        | _, _ => (sh, r)
      else ({ sh with locks := k :: sh.locks }, { r with rest := rest, held := k :: r.held })
  | .unlock k :: rest =>
      ({ sh with locks := sh.locks.filter (· ≠ k) },
        { r with rest := rest, held := r.held.filter (· ≠ k) })
  | .read :: rest => (sh, { r with rest := rest, mem := some (sh.file, false) })
  | .work :: rest =>
      match r.todo, r.mem with
      | w :: todo, some m =>
          (sh, { r with rest := rest, mem := some (change apply m w), todo := todo,
                        done := r.done ++ [w] })
      | _, _ => (sh, { r with rest := rest })
  | .write :: rest =>
      match r.mem with
      | some (f, true) => ({ sh with file := f }, { r with rest := rest })
      | _ => (sh, { r with rest := rest })

/-- Some instructions of one program. -/
def runAlone (gs : List Bool) (x : Shared κ τ × Proc κ ω τ) : Shared κ τ × Proc κ ω τ :=
  gs.foldl (fun x g => exec apply g x.1 x.2) x

/-- All programs and what they share. -/
structure Sys (ι κ ω τ : Type*) where
  shared : Shared κ τ
  procs : ι → Proc κ ω τ

/-- The instruction of one of them. -/
def step [DecidableEq ι] (s : Sys ι κ ω τ) (e : ι × Bool) : Sys ι κ ω τ :=
  { shared := (exec apply e.2 s.shared (s.procs e.1)).1
    procs := Function.update s.procs e.1 (exec apply e.2 s.shared (s.procs e.1)).2 }

/-- The file after the programs of a list, one after the other. -/
def serially (procs : ι → Proc κ ω τ) (order : List ι) (f : τ) : τ :=
  order.foldl (fun f i => effect apply (procs i).done f) f

/-- Once all programs have ended, the file is what they make of it in some
order, each with the works it did. -/
def IsSerial (f : τ) (s : Sys ι κ ω τ) : Prop :=
  (∀ i, (s.procs i).rest = []) →
    ∃ order : List ι, order.Nodup ∧ (∀ i, i ∈ order) ∧
      s.shared.file = serially apply s.procs order f

end

section

variable [DecidableEq ι] (apply : ω → τ → τ × Bool)

omit [DecidableEq ι] in
/-- A program that has ended stays as it is. -/
theorem runAlone_end (gs : List Bool) {x : Shared κ τ × Proc κ ω τ} (h : x.2.rest = []) :
    runAlone apply gs x = x := by
  induction gs with
  | nil => rfl
  | cons g gs ih =>
      have hx : exec apply g x.1 x.2 = x := by rw [exec, h]
      rw [runAlone, List.foldl_cons, hx]
      exact ih

/-- Instructions of one program in the system. -/
theorem run_runAlone (i : ι) (gs : List Bool) : ∀ s : Sys ι κ ω τ,
    Run.run (step apply) s (gs.map fun g => (i, g)) =
      ⟨(runAlone apply gs (s.shared, s.procs i)).1,
        Function.update s.procs i (runAlone apply gs (s.shared, s.procs i)).2⟩ := by
  induction gs with
  | nil =>
      intro s
      rw [List.map_nil, Run.run_nil, runAlone, List.foldl_nil, Function.update_eq_self]
  | cons g gs ih =>
      intro s
      rw [List.map_cons, Run.run_cons, ih, step]
      simp only [Function.update_self, Function.update_idem]
      rfl

end

/-! ## Guarded programs -/

/-- Only locks other than `k` are released. -/
def Tail (k : κ) : List (Instr κ) → Prop
  | [] => True
  | .unlock n :: rest => n ≠ k ∧ Tail k rest
  | _ => False

/-- Up to the release of `k` the program works and writes, and has written
what it worked whenever it may end; `dirty` is whether there is something to
write. -/
def Section (k : κ) : Bool → List (Instr κ) → Prop
  | _, [] => False
  | dirty, .lock n b :: rest => n ≠ k ∧ (b = .exit → dirty = false) ∧ Section k dirty rest
  | dirty, .unlock n :: rest =>
      if n = k then dirty = false ∧ Tail k rest else Section k dirty rest
  | _, .read :: _ => False
  | _, .work :: rest => Section k true rest
  | _, .write :: rest => Section k false rest

/-- Further locks are taken, then the file is read. -/
def Ready (k : κ) : List (Instr κ) → Prop
  | .lock n _ :: rest => n ≠ k ∧ Ready k rest
  | .read :: rest => Section k false rest
  | _ => False

/-- Locks are taken, among them `k`, without which the program does not go
on. -/
def Guarded (k : κ) : List (Instr κ) → Prop
  | .lock n b :: rest => if n = k then b ≠ .goOn ∧ Ready k rest else Guarded k rest
  | _ => False

/-- The program works and writes, and has written what it worked whenever it
may end. -/
def Flushed : Bool → List (Instr κ) → Prop
  | dirty, [] => dirty = false
  | dirty, .lock _ b :: rest => (b = .exit → dirty = false) ∧ Flushed dirty rest
  | dirty, .unlock _ :: rest => Flushed dirty rest
  | _, .read :: _ => False
  | _, .work :: rest => Flushed true rest
  | _, .write :: rest => Flushed false rest

/-- Locks are taken, then the file is read. -/
def Sound : List (Instr κ) → Prop
  | .lock _ _ :: rest => Sound rest
  | .read :: rest => Flushed false rest
  | _ => False

/-! ## Where a program is -/

/-- It has not got `k` and has done nothing. -/
structure Waiting (k : κ) (r : Proc κ ω τ) : Prop where
  held : k ∉ r.held
  done : r.done = []
  rest : Guarded k r.rest

/-- It has `k` and has not read yet. -/
structure Entered (k : κ) (r : Proc κ ω τ) : Prop where
  held : k ∈ r.held
  done : r.done = []
  rest : Ready k r.rest

/-- It has `k` and has read the file `base`: the memory holds what the works
done make of it, and so does the file, unless there is something to write. -/
structure Inside (apply : ω → τ → τ × Bool) (k : κ) (base file : τ) (r : Proc κ ω τ) : Prop where
  held : k ∈ r.held
  mem : r.mem = some (changes apply r.done base)
  clean : (changes apply r.done base).2 = false → file = base
  rest : ∃ dirty, Section k dirty r.rest ∧
    (dirty = false → file = effect apply r.done base)

/-- It has released `k`, or has ended without it. -/
structure Left (k : κ) (r : Proc κ ω τ) : Prop where
  held : k ∉ r.held
  rest : Tail k r.rest

section

variable {apply : ω → τ → τ × Bool} {k : κ} {g : Bool} {sh : Shared κ τ} {r : Proc κ ω τ}

theorem changes_append (ws : List ω) (w : ω) (f : τ) :
    changes apply (ws ++ [w]) f = change apply (changes apply ws f) w := by
  rw [changes, changes, List.foldl_append]
  rfl

theorem effect_nil (f : τ) : effect apply [] f = f := rfl

/-- Writing what was changed, and nothing otherwise, has the effect. -/
theorem effect_of_clean {ws : List ω} {base file : τ}
    (h : (changes apply ws base).2 = false → file = base) :
    (if (changes apply ws base).2 then (changes apply ws base).1 else file) =
      effect apply ws base := by
  rw [effect]
  split
  · rfl
  · next hc => exact h (Bool.not_eq_true _ ▸ hc)

/-- The locks a program that ends leaves. -/
theorem mem_filter_held {held : List κ} (locks : List κ) (h : k ∉ held) :
    k ∈ locks.filter (· ∉ held) ↔ k ∈ locks := by
  simp [h]

theorem mem_filter_ne {n : κ} (locks : List κ) (h : n ≠ k) :
    k ∈ locks.filter (· ≠ n) ↔ k ∈ locks := by
  simp [h.symm]

omit [DecidableEq κ] in
theorem mem_cons_ne {n : κ} (locks : List κ) (h : n ≠ k) : k ∈ n :: locks ↔ k ∈ locks := by
  simp [h.symm]

/-- What an instruction that takes a lock can do. -/
theorem exec_lock (apply : ω → τ → τ × Bool) (g : Bool) (sh : Shared κ τ) {n : κ} {b : Busy}
    {rest : List (Instr κ)} (h : r.rest = .lock n b :: rest) :
    exec apply g sh r = (sh, r) ∨
    (b = .exit ∧ exec apply g sh r =
      ({ sh with locks := sh.locks.filter (· ∉ r.held) }, { r with rest := [], held := [] })) ∨
    (b = .goOn ∧ exec apply g sh r = (sh, { r with rest := rest })) ∨
    (n ∉ sh.locks ∧ exec apply g sh r =
      ({ sh with locks := n :: sh.locks }, { r with rest := rest, held := n :: r.held })) := by
  rw [exec, h]
  by_cases hbusy : n ∈ sh.locks
  · simp only [if_pos hbusy]
    cases b with
    | wait => exact Or.inl rfl
    | exit =>
        cases g with
        | false => exact Or.inl rfl
        | true => exact Or.inr (Or.inl ⟨rfl, rfl⟩)
    | goOn =>
        cases g with
        | false => exact Or.inl rfl
        | true => exact Or.inr (Or.inr (Or.inl ⟨rfl, rfl⟩))
  · refine Or.inr (Or.inr (Or.inr ⟨hbusy, ?_⟩))
    simp only [if_neg hbusy]

theorem exec_unlock {n : κ} {rest : List (Instr κ)} (h : r.rest = .unlock n :: rest) :
    exec apply g sh r =
      ({ sh with locks := sh.locks.filter (· ≠ n) },
        { r with rest := rest, held := r.held.filter (· ≠ n) }) := by
  rw [exec, h]

theorem exec_read {rest : List (Instr κ)} (h : r.rest = .read :: rest) :
    exec apply g sh r = (sh, { r with rest := rest, mem := some (sh.file, false) }) := by
  rw [exec, h]

/-- What an instruction that works can do. -/
theorem exec_work (apply : ω → τ → τ × Bool) (g : Bool) (sh : Shared κ τ)
    {rest : List (Instr κ)} {m : τ × Bool} (h : r.rest = .work :: rest)
    (hm : r.mem = some m) :
    exec apply g sh r = (sh, { r with rest := rest }) ∨
    ∃ w todo, exec apply g sh r =
      (sh, { r with rest := rest, mem := some (change apply m w), todo := todo,
                    done := r.done ++ [w] }) := by
  rw [exec, h, hm]
  cases r.todo with
  | nil => exact Or.inl rfl
  | cons w todo => exact Or.inr ⟨w, todo, rfl⟩

theorem exec_write {rest : List (Instr κ)} {m : τ × Bool} (h : r.rest = .write :: rest)
    (hm : r.mem = some m) :
    exec apply g sh r =
      ({ sh with file := if m.2 then m.1 else sh.file }, { r with rest := rest }) := by
  obtain ⟨f, changed⟩ := m
  rw [exec, h, hm]
  cases changed with
  | false => rfl
  | true => rfl

/-- A waiting program waits on, or gets the lock, or ends. -/
theorem exec_waiting (apply : ω → τ → τ × Bool) (g : Bool) (sh : Shared κ τ)
    (h : Waiting k r) :
    (exec apply g sh r).1.file = sh.file ∧
      ((Waiting k (exec apply g sh r).2 ∧ (k ∈ (exec apply g sh r).1.locks ↔ k ∈ sh.locks)) ∨
        (k ∉ sh.locks ∧ k ∈ (exec apply g sh r).1.locks ∧ Entered k (exec apply g sh r).2) ∨
        (Left k (exec apply g sh r).2 ∧ (exec apply g sh r).2.done = [] ∧
          (k ∈ (exec apply g sh r).1.locks ↔ k ∈ sh.locks))) := by
  have hrest := h.rest
  match hr : r.rest with
  | [] | .unlock _ :: _ | .read :: _ | .work :: _ | .write :: _ =>
      rw [hr] at hrest
      exact absurd hrest id
  | .lock n b :: rest =>
      rw [hr, Guarded] at hrest
      rcases exec_lock apply g sh hr with
        he | ⟨rfl, he⟩ | ⟨rfl, he⟩ | ⟨hfree, he⟩
      · rw [he]
        exact ⟨rfl, Or.inl ⟨h, Iff.rfl⟩⟩
      · rw [he]
        exact ⟨rfl, Or.inr (Or.inr ⟨⟨List.not_mem_nil, trivial⟩, h.done,
          mem_filter_held sh.locks h.held⟩)⟩
      · rw [he]
        by_cases hn : n = k
        · rw [if_pos hn] at hrest
          exact absurd rfl hrest.1
        · rw [if_neg hn] at hrest
          exact ⟨rfl, Or.inl ⟨⟨h.held, h.done, hrest⟩, Iff.rfl⟩⟩
      · rw [he]
        by_cases hn : n = k
        · rw [if_pos hn] at hrest
          subst hn
          exact ⟨rfl, Or.inr (Or.inl ⟨hfree, List.mem_cons_self,
            ⟨List.mem_cons_self, h.done, hrest.2⟩⟩)⟩
        · rw [if_neg hn] at hrest
          exact ⟨rfl, Or.inl ⟨⟨fun hm => h.held ((mem_cons_ne r.held hn).mp hm), h.done, hrest⟩,
            mem_cons_ne sh.locks hn⟩⟩

/-- A program that has the lock takes further ones, or reads, or ends. -/
theorem exec_entered (apply : ω → τ → τ × Bool) (g : Bool) {sh : Shared κ τ}
    (h : Entered k r) (hk : k ∈ sh.locks) :
    (exec apply g sh r).1.file = sh.file ∧
      ((k ∈ (exec apply g sh r).1.locks ∧ Entered k (exec apply g sh r).2) ∨
        (k ∈ (exec apply g sh r).1.locks ∧
          Inside apply k sh.file sh.file (exec apply g sh r).2) ∨
        (k ∉ (exec apply g sh r).1.locks ∧ Left k (exec apply g sh r).2 ∧
          (exec apply g sh r).2.done = [])) := by
  have hrest := h.rest
  match hr : r.rest with
  | [] | .unlock _ :: _ | .work :: _ | .write :: _ =>
      rw [hr] at hrest
      exact absurd hrest id
  | .read :: rest =>
      rw [hr, Ready] at hrest
      rw [exec_read hr]
      refine ⟨rfl, Or.inr (Or.inl ⟨hk, h.held, ?_, fun _ => rfl, false, hrest, fun _ => ?_⟩)⟩
      · simp only [h.done]
        rfl
      · simp only [h.done]
        rfl
  | .lock n b :: rest =>
      rw [hr, Ready] at hrest
      obtain ⟨hn, hrest⟩ := hrest
      rcases exec_lock apply g sh hr with
        he | ⟨rfl, he⟩ | ⟨rfl, he⟩ | ⟨_, he⟩
      · rw [he]
        exact ⟨rfl, Or.inl ⟨hk, h⟩⟩
      · rw [he]
        refine ⟨rfl, Or.inr (Or.inr ⟨?_, ⟨List.not_mem_nil, trivial⟩, h.done⟩)⟩
        simp [h.held]
      · rw [he]
        exact ⟨rfl, Or.inl ⟨hk, h.held, h.done, hrest⟩⟩
      · rw [he]
        exact ⟨rfl, Or.inl ⟨List.mem_cons_of_mem n hk, List.mem_cons_of_mem n h.held, h.done,
          hrest⟩⟩

/-- Inside, a program keeps the file in step with the works done, and has it
so when it leaves. -/
theorem exec_inside {base : τ} (h : Inside apply k base sh.file r) (hk : k ∈ sh.locks) :
    (k ∈ (exec apply g sh r).1.locks ∧
        Inside apply k base (exec apply g sh r).1.file (exec apply g sh r).2) ∨
      (k ∉ (exec apply g sh r).1.locks ∧ Left k (exec apply g sh r).2 ∧
        (exec apply g sh r).1.file = effect apply (exec apply g sh r).2.done base) := by
  obtain ⟨hheld, hmem, hclean, dirty, hrest, hfile⟩ := h
  match hr : r.rest with
  | [] | .read :: _ =>
      rw [hr] at hrest
      exact absurd hrest id
  | .lock n b :: rest =>
      rw [hr, Section] at hrest
      obtain ⟨hn, hexit, hrest⟩ := hrest
      rcases exec_lock apply g sh hr with he | ⟨rfl, he⟩ | ⟨rfl, he⟩ | ⟨_, he⟩
      · rw [he]
        refine Or.inl ⟨hk, hheld, hmem, hclean, dirty, ?_, hfile⟩
        rw [hr, Section]
        exact ⟨hn, hexit, hrest⟩
      · rw [he]
        refine Or.inr ⟨?_, ⟨List.not_mem_nil, trivial⟩, hfile (hexit rfl)⟩
        simp [hheld]
      · rw [he]
        exact Or.inl ⟨hk, hheld, hmem, hclean, dirty, hrest, hfile⟩
      · rw [he]
        exact Or.inl ⟨List.mem_cons_of_mem n hk, List.mem_cons_of_mem n hheld, hmem, hclean, dirty,
          hrest, hfile⟩
  | .unlock n :: rest =>
      rw [hr, Section] at hrest
      rw [exec_unlock hr]
      by_cases hn : n = k
      · rw [if_pos hn] at hrest
        subst hn
        exact Or.inr ⟨by simp, ⟨by simp, hrest.2⟩, hfile hrest.1⟩
      · rw [if_neg hn] at hrest
        exact Or.inl ⟨(mem_filter_ne sh.locks hn).mpr hk, (mem_filter_ne r.held hn).mpr hheld, hmem,
          hclean, dirty, hrest, hfile⟩
  | .work :: rest =>
      rw [hr, Section] at hrest
      have hdirty : ∀ {P : Prop}, true = false → P := fun he => absurd he (by decide)
      rcases exec_work apply g sh hr hmem with he | ⟨w, todo, he⟩
      · rw [he]
        exact Or.inl ⟨hk, hheld, hmem, hclean, true, hrest, hdirty⟩
      · rw [he]
        refine Or.inl ⟨hk, hheld, ?_, ?_, true, hrest, hdirty⟩
        · simp only [changes_append]
        · simp only [changes_append]
          exact fun hc => hclean (Bool.or_eq_false_iff.mp hc).1
  | .write :: rest =>
      rw [hr, Section] at hrest
      rw [exec_write hr hmem]
      refine Or.inl ⟨hk, hheld, hmem, fun hc => ?_, false, hrest, fun _ => effect_of_clean hclean⟩
      rw [if_neg (by rw [hc]; decide)]
      exact hclean hc

/-- A program that has left only releases other locks. -/
theorem exec_left (apply : ω → τ → τ × Bool) (g : Bool) (sh : Shared κ τ) (h : Left k r) :
    (exec apply g sh r).1.file = sh.file ∧ (k ∈ (exec apply g sh r).1.locks ↔ k ∈ sh.locks) ∧
      Left k (exec apply g sh r).2 ∧ (exec apply g sh r).2.done = r.done := by
  have hrest := h.rest
  match hr : r.rest with
  | .lock _ _ :: _ | .read :: _ | .work :: _ | .write :: _ =>
      rw [hr] at hrest
      exact absurd hrest id
  | [] =>
      rw [exec, hr]
      exact ⟨rfl, Iff.rfl, h, rfl⟩
  | .unlock n :: rest =>
      rw [hr, Tail] at hrest
      rw [exec_unlock hr]
      exact ⟨rfl, mem_filter_ne sh.locks hrest.1,
        ⟨fun hm => h.held ((mem_filter_ne r.held hrest.1).mp hm), hrest.2⟩, rfl⟩

end

/-! ## Guarded programs run one after the other -/

section

variable [DecidableEq ι] {apply : ω → τ → τ × Bool} {k : κ} {f : τ}

/-- The programs of `order` have left, in this order; `cur`, if any, has the
lock; the others wait. -/
structure Ordered (apply : ω → τ → τ × Bool) (k : κ) (f : τ) (order : List ι) (cur : Option ι)
    (s : Sys ι κ ω τ) : Prop where
  nodup : order.Nodup
  left : ∀ i ∈ order, Left k (s.procs i)
  waiting : ∀ i, i ∉ order → cur ≠ some i → Waiting k (s.procs i)
  free : cur = none → k ∉ s.shared.locks ∧ s.shared.file = serially apply s.procs order f
  taken : ∀ i, cur = some i → i ∉ order ∧ k ∈ s.shared.locks ∧
    (Entered k (s.procs i) ∧ s.shared.file = serially apply s.procs order f ∨
      Inside apply k (serially apply s.procs order f) s.shared.file (s.procs i))

omit [DecidableEq κ] in
/-- What a program outside the order does is of no concern to the order. -/
theorem serially_update {procs : ι → Proc κ ω τ} {i : ι} {r : Proc κ ω τ} {order : List ι}
    (h : i ∉ order ∨ r.done = (procs i).done) :
    serially apply (Function.update procs i r) order f = serially apply procs order f := by
  rw [serially, serially]
  refine List.foldl_ext _ _ f fun f' j hj => ?_
  by_cases hji : j = i
  · subst hji
    rw [Function.update_self, h.resolve_left fun hn => hn hj]
  · rw [Function.update_of_ne hji]

omit [DecidableEq κ] [DecidableEq ι] in
theorem serially_append (procs : ι → Proc κ ω τ) (order : List ι) (i : ι) :
    serially apply procs (order ++ [i]) f =
      effect apply (procs i).done (serially apply procs order f) := by
  rw [serially, List.foldl_append]
  rfl

omit [DecidableEq ι] in
theorem nodup_snoc {order : List ι} {i : ι} (h : order.Nodup) (hi : i ∉ order) :
    (order ++ [i]).Nodup :=
  List.nodup_append.mpr ⟨h, List.nodup_singleton i, fun _ ha _ hb he =>
    hi (List.mem_singleton.mp hb ▸ he ▸ ha)⟩

variable {order : List ι} {cur : Option ι} {s s' : Sys ι κ ω τ} {i : ι}

/-- An instruction of a program that has left. -/
theorem ordered_left (h : Ordered apply k f order cur s) (hi : i ∈ order)
    (hother : ∀ j, j ≠ i → s'.procs j = s.procs j) (hfile : s'.shared.file = s.shared.file)
    (hlocks : k ∈ s'.shared.locks ↔ k ∈ s.shared.locks) (hleft : Left k (s'.procs i))
    (hserial : serially apply s'.procs order f = serially apply s.procs order f) :
    Ordered apply k f order cur s' := by
  have hne : ∀ j, j ∉ order → j ≠ i := fun j hj he => hj (he ▸ hi)
  refine ⟨h.nodup, fun j hj => ?_, fun j hj hc => ?_, fun hc => ?_, fun j hc => ?_⟩
  · by_cases hji : j = i
    · exact hji ▸ hleft
    · rw [hother j hji]
      exact h.left j hj
  · rw [hother j (hne j hj)]
    exact h.waiting j hj hc
  · rw [hlocks, hfile, hserial]
    exact h.free hc
  · have ht := h.taken j hc
    rw [hlocks, hfile, hserial, hother j (hne j ht.1)]
    exact ht

omit [DecidableEq ι] in
/-- An instruction of the program that has the lock, which keeps it. -/
theorem ordered_stay (h : Ordered apply k f order cur s) (hi : i ∉ order)
    (hcur : cur = none ∨ cur = some i) (hother : ∀ j, j ≠ i → s'.procs j = s.procs j)
    (hlock : k ∈ s'.shared.locks)
    (hserial : serially apply s'.procs order f = serially apply s.procs order f)
    (hin : Entered k (s'.procs i) ∧ s'.shared.file = serially apply s.procs order f ∨
      Inside apply k (serially apply s.procs order f) s'.shared.file (s'.procs i)) :
    Ordered apply k f order (some i) s' := by
  refine ⟨h.nodup, fun j hj => ?_, fun j hj hc => ?_, fun hc => absurd hc (by simp),
    fun j hc => ?_⟩
  · rw [hother j fun he => hi (he ▸ hj)]
    exact h.left j hj
  · have hji : j ≠ i := fun he => hc (congrArg some he.symm)
    rw [hother j hji]
    refine h.waiting j hj ?_
    rcases hcur with hcur | hcur
    · rw [hcur]
      simp
    · rw [hcur]
      exact hc
  · obtain rfl := Option.some.inj hc
    rw [hserial]
    exact ⟨hi, hlock, hin⟩

omit [DecidableEq ι] in
/-- An instruction of a program that waits on. -/
theorem ordered_wait (h : Ordered apply k f order cur s) (hcur : cur ≠ some i)
    (hi : i ∉ order) (hother : ∀ j, j ≠ i → s'.procs j = s.procs j)
    (hfile : s'.shared.file = s.shared.file) (hlocks : k ∈ s'.shared.locks ↔ k ∈ s.shared.locks)
    (hwait : Waiting k (s'.procs i))
    (hserial : serially apply s'.procs order f = serially apply s.procs order f) :
    Ordered apply k f order cur s' := by
  refine ⟨h.nodup, fun j hj => ?_, fun j hj hc => ?_, fun hc => ?_, fun j hc => ?_⟩
  · rw [hother j fun he => hi (he ▸ hj)]
    exact h.left j hj
  · by_cases hji : j = i
    · exact hji ▸ hwait
    · rw [hother j hji]
      exact h.waiting j hj hc
  · rw [hlocks, hfile, hserial]
    exact h.free hc
  · rw [hlocks, hfile, hserial, hother j fun he => hcur (he ▸ hc)]
    exact h.taken j hc

/-- A program that leaves joins those that have left. -/
theorem left_snoc (h : Ordered apply k f order cur s)
    (hother : ∀ j, j ≠ i → s'.procs j = s.procs j) (hleft : Left k (s'.procs i)) :
    ∀ j ∈ order ++ [i], Left k (s'.procs j) := by
  intro j hj
  by_cases hji : j = i
  · exact hji ▸ hleft
  · rw [hother j hji]
    refine h.left j ((List.mem_append.mp hj).resolve_right fun hm => hji ?_)
    exact List.mem_singleton.mp hm

/-- The program that had the lock leaves. -/
theorem ordered_leave (h : Ordered apply k f order (some i) s)
    (hother : ∀ j, j ≠ i → s'.procs j = s.procs j) (hlock : k ∉ s'.shared.locks)
    (hleft : Left k (s'.procs i))
    (hserial : serially apply s'.procs order f = serially apply s.procs order f)
    (hfile : s'.shared.file =
      effect apply (s'.procs i).done (serially apply s.procs order f)) :
    Ordered apply k f (order ++ [i]) none s' := by
  have hi := (h.taken i rfl).1
  refine ⟨?_, left_snoc h hother hleft, fun j hj _ => ?_, fun _ => ⟨hlock, ?_⟩,
    fun j hc => absurd hc (by simp)⟩
  · exact nodup_snoc h.nodup hi
  · have hji : j ≠ i := fun he => hj (List.mem_append.mpr (Or.inr (List.mem_singleton.mpr he)))
    rw [hother j hji]
    refine h.waiting j (fun hm => hj (List.mem_append.mpr (Or.inl hm))) fun hc => hji ?_
    exact (Option.some.inj hc).symm
  · rw [serially_append, hserial, hfile]

/-- A program that waited ends without having done anything. -/
theorem ordered_end (h : Ordered apply k f order cur s) (hi : i ∉ order) (hcur : cur ≠ some i)
    (hother : ∀ j, j ≠ i → s'.procs j = s.procs j) (hfile : s'.shared.file = s.shared.file)
    (hlocks : k ∈ s'.shared.locks ↔ k ∈ s.shared.locks) (hleft : Left k (s'.procs i))
    (hdone : (s'.procs i).done = [])
    (hserial : serially apply s'.procs order f = serially apply s.procs order f) :
    Ordered apply k f (order ++ [i]) cur s' := by
  have hsame : serially apply s'.procs (order ++ [i]) f = serially apply s.procs order f := by
    rw [serially_append, hdone, effect_nil, hserial]
  refine ⟨?_, left_snoc h hother hleft, fun j hj hc => ?_, fun hc => ?_, fun j hc => ?_⟩
  · exact nodup_snoc h.nodup hi
  · have hji : j ≠ i := fun he => hj (List.mem_append.mpr (Or.inr (List.mem_singleton.mpr he)))
    rw [hother j hji]
    exact h.waiting j (fun hm => hj (List.mem_append.mpr (Or.inl hm))) hc
  · rw [hlocks, hfile, hsame]
    exact h.free hc
  · have hji : j ≠ i := fun he => hcur (he ▸ hc)
    obtain ⟨hj, hk, hin⟩ := h.taken j hc
    rw [hlocks, hfile, hsame, hother j hji]
    refine ⟨fun hm => ?_, hk, hin⟩
    rcases List.mem_append.mp hm with hm | hm
    · exact hj hm
    · exact hji (List.mem_singleton.mp hm)

/-- Every instruction keeps the programs in order. -/
theorem ordered_step (h : Ordered apply k f order cur s) (e : ι × Bool) :
    ∃ order' cur', Ordered apply k f order' cur' (step apply s e) := by
  obtain ⟨i, g⟩ := e
  have hself : (step apply s (i, g)).procs i = (exec apply g s.shared (s.procs i)).2 :=
    Function.update_self _ _ _
  have hother : ∀ j, j ≠ i → (step apply s (i, g)).procs j = s.procs j :=
    fun j hj => Function.update_of_ne hj _ _
  by_cases hi : i ∈ order
  · obtain ⟨hfile, hlocks, hleft, hdone⟩ := exec_left apply g s.shared (h.left i hi)
    exact ⟨order, cur, ordered_left h hi hother hfile hlocks (hself ▸ hleft)
      (serially_update (Or.inr hdone))⟩
  have hserial : serially apply (step apply s (i, g)).procs order f =
      serially apply s.procs order f := serially_update (Or.inl hi)
  by_cases hcur : cur = some i
  · subst hcur
    obtain ⟨-, hk, ⟨hin, hbase⟩ | hin⟩ := h.taken i rfl
    · obtain ⟨hfile, ⟨hk', hin'⟩ | ⟨hk', hin'⟩ | ⟨hk', hleft, hdone⟩⟩ :=
        exec_entered apply g hin hk
      · exact ⟨order, some i, ordered_stay h hi (Or.inr rfl) hother hk' hserial
          (Or.inl ⟨hself ▸ hin', hfile.trans hbase⟩)⟩
      · refine ⟨order, some i, ordered_stay h hi (Or.inr rfl) hother hk' hserial (Or.inr ?_)⟩
        rw [hself, ← hbase]
        exact hfile ▸ hin'
      · refine ⟨order ++ [i], none, ordered_leave h hother hk' (hself ▸ hleft) hserial ?_⟩
        rw [hself, hdone, effect_nil]
        exact hfile.trans hbase
    · obtain ⟨hk', hin'⟩ | ⟨hk', hleft, hfile⟩ := exec_inside (g := g) hin hk
      · exact ⟨order, some i, ordered_stay h hi (Or.inr rfl) hother hk' hserial
          (Or.inr (hself ▸ hin'))⟩
      · exact ⟨order ++ [i], none, ordered_leave h hother hk' (hself ▸ hleft) hserial
          (hself ▸ hfile)⟩
  · obtain ⟨hfile, ⟨hw, hlocks⟩ | ⟨hk, hk', hin⟩ | ⟨hleft, hdone, hlocks⟩⟩ :=
      exec_waiting apply g s.shared (h.waiting i hi hcur)
    · exact ⟨order, cur, ordered_wait h hcur hi hother hfile hlocks (hself ▸ hw) hserial⟩
    · have hnone : cur = none := by
        cases cur with
        | none => rfl
        | some j => exact absurd (h.taken j rfl).2.1 hk
      exact ⟨order, some i, ordered_stay h hi (Or.inl hnone) hother hk' hserial
        (Or.inl ⟨hself ▸ hin, hfile.trans (h.free hnone).2⟩)⟩
    · exact ⟨order ++ [i], cur, ordered_end h hi hcur hother hfile hlocks (hself ▸ hleft)
        (hself ▸ hdone) hserial⟩

/-- Programs that all are guarded by the same lock, in any interleaving, do
what they do in some order one after the other. -/
theorem serial_of_guarded {progs : ι → List (Instr κ)} (hg : ∀ i, Guarded k (progs i))
    (works : ι → List ω) (f : τ) (es : List (ι × Bool)) :
    IsSerial apply f
      (Run.run (step apply) ⟨⟨f, []⟩, fun i => start (progs i) (works i)⟩ es) := by
  have hstart : Ordered apply k f [] none
      (⟨⟨f, []⟩, fun i => start (progs i) (works i)⟩ : Sys ι κ ω τ) :=
    ⟨List.nodup_nil, fun _ hi => absurd hi List.not_mem_nil,
      fun i _ _ => ⟨List.not_mem_nil, rfl, hg i⟩, fun _ => ⟨List.not_mem_nil, rfl⟩,
      fun _ hc => absurd hc (by simp)⟩
  obtain ⟨order, cur, h⟩ := Run.run_invariant
    (P := fun s => ∃ order cur, Ordered apply k f order cur s)
    (fun s e ⟨_, _, h⟩ => ordered_step h e) es ⟨[], none, hstart⟩
  intro hdone
  have hcur : cur = none := by
    cases hc : cur with
    | none => rfl
    | some i =>
        obtain ⟨-, -, ⟨hin, -⟩ | ⟨-, -, -, _, hin, -⟩⟩ := h.taken i hc
        · have hrest := hin.rest
          rw [hdone i] at hrest
          exact absurd hrest id
        · rw [hdone i] at hin
          exact absurd hin id
  refine ⟨order, h.nodup, fun i => ?_, (h.free hcur).2⟩
  by_contra hi
  have hrest := (h.waiting i hi (by rw [hcur]; simp)).rest
  rw [hdone i] at hrest
  exact absurd hrest id

end

/-! ## A program alone -/

section

variable {apply : ω → τ → τ × Bool} {g : Bool} {base : τ}

/-- It has not read yet, or has ended before that. -/
structure Early (base : τ) (sh : Shared κ τ) (r : Proc κ ω τ) : Prop where
  file : sh.file = base
  done : r.done = []
  rest : r.rest = [] ∨ Sound r.rest

/-- It has read: the memory and the file are in step with the works done. -/
structure Late (apply : ω → τ → τ × Bool) (base : τ) (sh : Shared κ τ) (r : Proc κ ω τ) :
    Prop where
  mem : r.mem = some (changes apply r.done base)
  clean : (changes apply r.done base).2 = false → sh.file = base
  rest : ∃ dirty, Flushed dirty r.rest ∧ (dirty = false → sh.file = effect apply r.done base)

theorem exec_early {sh : Shared κ τ} {r : Proc κ ω τ} (h : Early base sh r) :
    Early base (exec apply g sh r).1 (exec apply g sh r).2 ∨
      Late apply base (exec apply g sh r).1 (exec apply g sh r).2 := by
  obtain ⟨hfile, hdone, hrest⟩ := h
  match hr : r.rest with
  | [] =>
      rw [exec, hr]
      exact Or.inl ⟨hfile, hdone, Or.inl hr⟩
  | .unlock _ :: _ | .work :: _ | .write :: _ =>
      rw [hr] at hrest
      exact hrest.elim (fun he => absurd he (by simp)) fun he => absurd he id
  | .read :: rest =>
      rw [hr] at hrest
      rw [exec_read hr]
      refine Or.inr ⟨?_, fun _ => hfile, false, hrest.resolve_left (by simp), fun _ => ?_⟩
      · simp only [hdone, ← hfile]
        rfl
      · simp only [hdone, hfile]
        rfl
  | .lock n b :: rest =>
      rw [hr] at hrest
      have hsound : Sound rest := hrest.resolve_left (by simp)
      rcases exec_lock apply g sh hr with he | ⟨_, he⟩ | ⟨_, he⟩ | ⟨_, he⟩
      · rw [he]
        exact Or.inl ⟨hfile, hdone, hr ▸ hrest⟩
      · rw [he]
        exact Or.inl ⟨hfile, hdone, Or.inl rfl⟩
      · rw [he]
        exact Or.inl ⟨hfile, hdone, Or.inr hsound⟩
      · rw [he]
        exact Or.inl ⟨hfile, hdone, Or.inr hsound⟩

theorem exec_late {sh : Shared κ τ} {r : Proc κ ω τ} (h : Late apply base sh r) :
    Late apply base (exec apply g sh r).1 (exec apply g sh r).2 := by
  obtain ⟨hmem, hclean, dirty, hrest, hfile⟩ := h
  match hr : r.rest with
  | [] =>
      rw [exec, hr]
      exact ⟨hmem, hclean, dirty, hrest, hfile⟩
  | .read :: _ =>
      rw [hr] at hrest
      exact absurd hrest id
  | .unlock n :: rest =>
      rw [hr, Flushed] at hrest
      rw [exec_unlock hr]
      exact ⟨hmem, hclean, dirty, hrest, hfile⟩
  | .lock n b :: rest =>
      rw [hr, Flushed] at hrest
      obtain ⟨hexit, hrest⟩ := hrest
      rcases exec_lock apply g sh hr with he | ⟨rfl, he⟩ | ⟨_, he⟩ | ⟨_, he⟩
      · rw [he]
        refine ⟨hmem, hclean, dirty, ?_, hfile⟩
        rw [hr, Flushed]
        exact ⟨hexit, hrest⟩
      · rw [he]
        exact ⟨hmem, hclean, false, rfl, fun _ => hfile (hexit rfl)⟩
      · rw [he]
        exact ⟨hmem, hclean, dirty, hrest, hfile⟩
      · rw [he]
        exact ⟨hmem, hclean, dirty, hrest, hfile⟩
  | .work :: rest =>
      rw [hr, Flushed] at hrest
      have hdirty : ∀ {P : Prop}, true = false → P := fun he => absurd he (by decide)
      rcases exec_work apply g sh hr hmem with he | ⟨w, todo, he⟩
      · rw [he]
        exact ⟨hmem, hclean, true, hrest, hdirty⟩
      · rw [he]
        refine ⟨?_, ?_, true, hrest, hdirty⟩
        · simp only [changes_append]
        · simp only [changes_append]
          exact fun hc => hclean (Bool.or_eq_false_iff.mp hc).1
  | .write :: rest =>
      rw [hr, Flushed] at hrest
      rw [exec_write hr hmem]
      refine ⟨hmem, fun hc => ?_, false, hrest, fun _ => effect_of_clean hclean⟩
      rw [if_neg (by rw [hc]; decide)]
      exact hclean hc

/-- Every instruction keeps the one program there is in step. -/
theorem alone_step [DecidableEq ι] [Subsingleton ι] {s : Sys ι κ ω τ} (e : ι × Bool)
    (h : ∀ i, Early base s.shared (s.procs i) ∨ Late apply base s.shared (s.procs i)) :
    ∀ i, Early base (step apply s e).shared ((step apply s e).procs i) ∨
      Late apply base (step apply s e).shared ((step apply s e).procs i) := by
  intro i
  obtain ⟨j, g⟩ := e
  obtain rfl := Subsingleton.elim i j
  have hself : (step apply s (i, g)).procs i = (exec apply g s.shared (s.procs i)).2 :=
    Function.update_self _ _ _
  rw [hself]
  rcases h i with he | hl
  · exact exec_early he
  · exact Or.inr (exec_late hl)

/-- A single program does what it does alone. -/
theorem serial_of_alone [DecidableEq ι] [Subsingleton ι] {progs : ι → List (Instr κ)}
    (hs : ∀ i, Sound (progs i)) (works : ι → List ω) (f : τ) (es : List (ι × Bool)) :
    IsSerial apply f
      (Run.run (step apply) ⟨⟨f, []⟩, fun i => start (progs i) (works i)⟩ es) := by
  intro hdone
  by_cases hι : Nonempty ι
  · obtain ⟨i⟩ := hι
    have hrun := Run.run_invariant
      (P := fun s : Sys ι κ ω τ => ∀ i, Early f s.shared (s.procs i) ∨
        Late apply f s.shared (s.procs i))
      (fun _ e h => alone_step e h) es (s := ⟨⟨f, []⟩, fun i => start (progs i) (works i)⟩)
      fun i => Or.inl ⟨rfl, rfl, Or.inr (hs i)⟩
    refine ⟨[i], List.nodup_singleton i,
      fun j => List.mem_singleton.mpr (Subsingleton.elim j i), ?_⟩
    rcases hrun i with ⟨hfile, hnone, -⟩ | ⟨-, -, dirty, hrest, hfile⟩
    · rw [hfile, serially, List.foldl_cons, List.foldl_nil, hnone, effect_nil]
    · rw [hdone i] at hrest
      exact hfile hrest
  · cases es with
    | nil => exact ⟨[], List.nodup_nil, fun i => absurd ⟨i⟩ hι, rfl⟩
    | cons e es => exact absurd ⟨e.1⟩ hι

end

end Serial

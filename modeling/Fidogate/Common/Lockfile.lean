/-
# `Fidogate.Common.Lockfile` — lock.c: lock files that tell who has the lock

`lock_lockfile` looks whether there is a lock file, removes it when the process
named in it is dead, and creates its own.  These are single steps of a process;
other processes take theirs in between, and may end at any of them.
-/
import Fidogate.Common.Sequencer

namespace Fidogate

open Bytes Run

/-! ## The steps -/

/-- The processes, by the number `getpid` gives. -/
abbrev Pid := {p : Nat // 0 < p ∧ p < 2 ^ 31}

/-- `wait` of `lock_lockfile`, and whether it is counted down. -/
structure LockWait where
  wait : Int
  waitTime : Bool
  deriving DecidableEq, Repr

def lockWait (wait : Int) : LockWait := ⟨wait, wait != 0 && wait != 1⟩

/-- What is left of it after a look that found a lock: no value where the call
gives up. -/
def LockWait.again (w : LockWait) : Option LockWait :=
  let wait := if 0 < w.wait ∧ w.waitTime = true then w.wait - 1 else w.wait
  if 0 < wait then some { w with wait := wait } else none

/-- How far a process has come. -/
inductive LockCall
  | dead
  | idle
  | checking (w : LockWait)
  | opened (w : LockWait) (file : Nat)
  | hasPid (w : LockWait) (file : Nat) (pid : Int)
  /-- The process named in the file is dead. -/
  | stale (file : Nat)
  /-- `check_stale_lock` returned LOCKFILE_UNLOCKED. -/
  | unlocked
  | creating (file : Nat)
  /-- `lock_lockfile` returned OK. -/
  | inside
  deriving DecidableEq, Repr

/-- The process has created the lock file, and not yet removed it. -/
def LockCall.owner : LockCall → Bool
  | .creating _ | .inside => true
  | _ => false

/-- The file under the name of the lock, the texts of all files, the number of
the next file, and the processes.  An open file stays what it is when its name
is removed. -/
structure LockSys where
  name : Option Nat
  files : Nat → Str
  next : Nat
  calls : Pid → LockCall

/-- No process is in `lock_lockfile`; there may be a lock file with any text. -/
def lockStart (lock : Option Str) (alive : Pid → Bool) : LockSys :=
  { name := lock.map fun _ => 0
    files := fun _ => lock.getD []
    next := 1
    calls := fun p => if alive p then .idle else .dead }

/-- The number `fgets` and `atoi` find in a lock file. -/
def filePid (text : Str) : Option Int :=
  (fgetsLines 32 text).head?.map fun buff => if buff = [] then -1 else atoi buff

/-- `kill (pid, 0) == 0 || errno == EPERM`: there is such a process, or `other`
tells that there is one besides these. -/
def LockSys.kill (s : LockSys) (pid : Int) (other : Bool) : Bool :=
  other || if h : 0 < pid.toNat ∧ pid.toNat < 2 ^ 31 then s.calls ⟨pid.toNat, h⟩ != .dead else false

/-- What happens next to a process.  `ok` is the outcome of its file operation,
and for `kill` that there is another process of the number. -/
inductive LockEvent
  | call (wait : Int)
  | step (ok : Bool)
  | exit
  | fork
  deriving DecidableEq, Repr

/-- The next step of a process: it calls `lock_lockfile`, goes on in it, or
behind it in `unlock_lockfile`. -/
def lockStep (s : LockSys) (e : Pid × LockEvent) : LockSys :=
  let go := fun c => Function.update s.calls e.1 c
  match e.2, s.calls e.1 with
  | .exit, _ => { s with calls := go .dead }
  | .fork, .dead => { s with calls := go .idle }
  | .call wait, .idle => { s with calls := go (.checking (lockWait wait)) }
  | .step ok, .checking w =>
      match s.name with
      | none => { s with calls := go .unlocked }
      | some i => { s with calls := go (if ok then .opened w i else .idle) }
  | .step _, .opened w i =>
      match filePid (s.files i) with
      | none => { s with calls := go .idle }
      | some pid => { s with calls := go (.hasPid w i pid) }
  | .step ok, .hasPid w i pid =>
      if s.kill pid ok then { s with calls := go ((w.again.map .checking).getD .idle) }
      else { s with calls := go (.stale i) }
  | .step ok, .stale _ =>
      if ok && s.name.isSome then { s with name := none, calls := go .unlocked }
      else { s with calls := go .idle }
  | .step ok, .unlocked =>
      match ok, s.name with
      | false, _ => { s with calls := go .idle }
      | true, none =>
          { name := some s.next, files := Function.update s.files s.next [], next := s.next + 1,
            calls := go (.creating s.next) }
      | true, some i =>
          { s with files := Function.update s.files i [], calls := go (.creating i) }
  | .step ok, .creating i =>
      { s with
        files := if ok then Function.update s.files i (seqPrint e.1.val (s.files i)) else s.files
        calls := go .inside }
  | .step ok, .inside => { s with name := if ok then none else s.name, calls := go .idle }
  | _, _ => s

/-- What the process found when it looked still holds when it acts on it: it
removes the file whose number it has read, or finds none where it found none. -/
def LockSys.AsChecked (s : LockSys) (e : Pid × LockEvent) : Prop :=
  match e.2, s.calls e.1 with
  | .step true, .stale i => s.name = none ∨ s.name = some i
  | .step true, .unlocked => s.name = none
  | _, _ => True

instance (s : LockSys) (e : Pid × LockEvent) : Decidable (s.AsChecked e) := by
  unfold LockSys.AsChecked
  split <;> infer_instance

/-- `check_stale_lock` removes a lock file that a live process has created. -/
def LockSys.TakesAway (s : LockSys) (e : Pid × LockEvent) : Prop :=
  e.2 = .step true ∧ (∃ i, s.calls e.1 = .stale i) ∧ s.name.isSome = true ∧
    ∃ p, (s.calls p).owner = true

/-! ## What holds while it does -/

/-- What a process may rely on. -/
def LockSys.Relies (s : LockSys) (p : Pid) : LockCall → Prop
  | .opened _ i => i < s.next
  | .hasPid _ i pid => i < s.next ∧ filePid (s.files i) = some pid
  | .stale i => i < s.next ∧ ∀ q, (s.calls q).owner = true → s.name ≠ some i
  | .creating i => s.name = some i ∧ s.files i = []
  | .inside => ∃ i, s.name = some i ∧ (s.files i = [] ∨ filePid (s.files i) = some (p.val : Int))
  | _ => True

/-- Every process may rely on it, and one at most has the lock. -/
structure LockSys.Inv (s : LockSys) : Prop where
  named : ∀ i, s.name = some i → i < s.next
  relies : ∀ p, s.Relies p (s.calls p)
  unique : ∀ p q, (s.calls p).owner = true → (s.calls q).owner = true → p = q

theorem LockSys.Inv.named_of_owner {s : LockSys} (hs : s.Inv) {p : Pid}
    (h : (s.calls p).owner = true) : ∃ i, s.name = some i := by
  have hp := hs.relies p
  cases hc : s.calls p with
  | creating i =>
      rw [hc] at hp
      exact ⟨i, hp.1⟩
  | inside =>
      rw [hc] at hp
      obtain ⟨i, hi, -⟩ := hp
      exact ⟨i, hi⟩
  | _ =>
      rw [hc] at h
      cases h

/-- A process goes on, and the files stay. -/
theorem LockSys.Inv.goes {s : LockSys} (hs : s.Inv) {p : Pid} {c : LockCall}
    (howner : c.owner = true → (s.calls p).owner = true) (hc : s.Relies p c) :
    ({ s with calls := Function.update s.calls p c } : LockSys).Inv := by
  have hstill : ∀ q, (Function.update s.calls p c q).owner = true →
      (s.calls q).owner = true := by
    intro q hq
    by_cases hqp : q = p
    · rw [hqp, Function.update_self] at hq
      rw [hqp]
      exact howner hq
    · rwa [Function.update_of_ne hqp] at hq
  have hframe : ∀ q d, s.Relies q d →
      ({ s with calls := Function.update s.calls p c } : LockSys).Relies q d := by
    intro q d hd
    cases d with
    | stale i => exact ⟨hd.1, fun r hr => hd.2 r (hstill r hr)⟩
    | _ => exact hd
  refine ⟨hs.named, fun q => ?_, fun q r hq hr => hs.unique q r (hstill q hq) (hstill r hr)⟩
  by_cases hqp : q = p
  · rw [hqp]
    simpa only [Function.update_self] using hframe p c hc
  · simpa only [Function.update_of_ne hqp] using hframe q _ (hs.relies q)

theorem LockSys.Inv.removed {s : LockSys} (hs : s.Inv) {p : Pid} {c : LockCall}
    (hothers : ∀ q, q ≠ p → (s.calls q).owner = false) (howner : c.owner = false)
    (hc : ∀ s : LockSys, s.Relies p c) :
    ({ s with name := none, calls := Function.update s.calls p c } : LockSys).Inv := by
  have hnone : ∀ q, (Function.update s.calls p c q).owner = false := by
    intro q
    by_cases hqp : q = p
    · rwa [hqp, Function.update_self]
    · rw [Function.update_of_ne hqp]
      exact hothers q hqp
  refine ⟨fun i hi => (nomatch hi), fun q => ?_, fun q r hq => ?_⟩
  · by_cases hqp : q = p
    · simpa only [hqp, Function.update_self] using hc _
    · have hq := hs.relies q
      have hown := hothers q hqp
      simp only [Function.update_of_ne hqp]
      cases hcq : s.calls q with
      | stale i =>
          rw [hcq] at hq
          exact ⟨hq.1, fun r hr => (nomatch ·)⟩
      | creating i =>
          rw [hcq] at hown
          cases hown
      | inside =>
          rw [hcq] at hown
          cases hown
      | _ =>
          rw [hcq] at hq
          exact hq
  · rw [hnone q] at hq
    cases hq

/-- A process makes a new file where there is none. -/
theorem LockSys.Inv.created {s : LockSys} (hs : s.Inv) (hnone : s.name = none) (p : Pid) :
    ({ name := some s.next, files := Function.update s.files s.next [], next := s.next + 1,
       calls := Function.update s.calls p (.creating s.next) } : LockSys).Inv := by
  have howner : ∀ q, (s.calls q).owner = false := by
    intro q
    rw [Bool.eq_false_iff]
    intro hq
    obtain ⟨i, hi⟩ := hs.named_of_owner hq
    rw [hnone] at hi
    cases hi
  have honly : ∀ q, (Function.update s.calls p (.creating s.next) q).owner = true → q = p := by
    intro q hq
    by_contra hqp
    rw [Function.update_of_ne hqp, howner q] at hq
    cases hq
  refine ⟨fun i hi => ?_, fun q => ?_, fun q r hq hr => (honly q hq).trans (honly r hr).symm⟩
  · rw [← Option.some.inj hi]
    exact Nat.lt_succ_self _
  · by_cases hqp : q = p
    · simp only [hqp, Function.update_self]
      exact ⟨rfl, Function.update_self _ _ _⟩
    · have hq := hs.relies q
      have hown := howner q
      simp only [Function.update_of_ne hqp]
      cases hcq : s.calls q with
      | opened w i =>
          rw [hcq] at hq
          exact Nat.lt_succ_of_lt hq
      | hasPid w i pid =>
          rw [hcq] at hq
          refine ⟨Nat.lt_succ_of_lt hq.1, ?_⟩
          dsimp only
          rw [Function.update_of_ne (Nat.ne_of_lt hq.1)]
          exact hq.2
      | stale i =>
          rw [hcq] at hq
          exact ⟨Nat.lt_succ_of_lt hq.1, fun _ _ h => Nat.ne_of_gt hq.1 (Option.some.inj h)⟩
      | creating i =>
          rw [hcq] at hown
          cases hown
      | inside =>
          rw [hcq] at hown
          cases hown
      | _ => trivial

theorem filePid_seqPrint (p : Pid) (file : Str) : filePid (seqPrint p.val file) = some (p.val : Int) := by
  have hlen : (putInt p.val).length < 32 - 1 :=
    Nat.lt_of_le_of_lt (length_putInt (Int.natCast_nonneg _) (by exact_mod_cast p.2.2)) (by decide)
  rw [filePid, head?_fgetsLines_seqPrint (Int.natCast_nonneg _) hlen, Option.map_some,
    if_neg (List.append_ne_nil_of_right_ne_nil _ (List.cons_ne_nil lf [])),
    atoi_putInt_lf (Int.natCast_nonneg _)]

/-- The process writes its number. -/
theorem LockSys.Inv.written {s : LockSys} (hs : s.Inv) {p : Pid} {i : Nat}
    (hp : s.calls p = .creating i) (ok : Bool) :
    ({ s with
       files := if ok then Function.update s.files i (seqPrint p.val (s.files i)) else s.files
       calls := Function.update s.calls p .inside } : LockSys).Inv := by
  have hcreating := hs.relies p
  rw [hp] at hcreating
  obtain ⟨hname, hempty⟩ := hcreating
  have howner : (s.calls p).owner = true := by rw [hp]; rfl
  have hstill : ∀ q, (Function.update s.calls p .inside q).owner = true →
      (s.calls q).owner = true := by
    intro q hq
    by_cases hqp : q = p
    · rwa [hqp]
    · rwa [Function.update_of_ne hqp] at hq
  refine ⟨hs.named, fun q => ?_, fun q r hq hr => hs.unique q r (hstill q hq) (hstill r hr)⟩
  by_cases hqp : q = p
  · simp only [hqp, Function.update_self]
    refine ⟨i, hname, ?_⟩
    cases ok with
    | false => exact .inl hempty
    | true =>
        right
        simp only [if_true, Function.update_self]
        exact filePid_seqPrint p _
  · have hq := hs.relies q
    have hown : ¬ (s.calls q).owner = true := fun h => hqp (hs.unique q p h howner)
    simp only [Function.update_of_ne hqp]
    cases hcq : s.calls q with
    | hasPid w j pid =>
        rw [hcq] at hq
        refine ⟨hq.1, ?_⟩
        have hji : j ≠ i := fun hji => by
          have hq := hq.2
          rw [hji, hempty] at hq
          cases hq
        cases ok with
        | false => exact hq.2
        | true =>
            simp only [if_true, Function.update_of_ne hji]
            exact hq.2
    | stale j =>
        rw [hcq] at hq
        exact ⟨hq.1, fun r hr => hq.2 r (hstill r hr)⟩
    | creating j =>
        rw [hcq] at hown
        exact absurd rfl hown
    | inside =>
        rw [hcq] at hown
        exact absurd rfl hown
    | _ =>
        rw [hcq] at hq
        exact hq

/-- A process that is not there does not have the lock. -/
theorem LockSys.Inv.stale_of_kill {s : LockSys} (hs : s.Inv) {i : Nat} {pid : Int} {other : Bool}
    (hpid : filePid (s.files i) = some pid) (hkill : s.kill pid other = false) (q : Pid)
    (hq : (s.calls q).owner = true) : s.name ≠ some i := by
  intro hname
  have hrel := hs.relies q
  cases hc : s.calls q with
  | creating j =>
      rw [hc] at hrel
      obtain rfl : i = j := Option.some.inj (hname.symm.trans hrel.1)
      rw [hrel.2] at hpid
      cases hpid
  | inside =>
      rw [hc] at hrel
      obtain ⟨j, hj, hrel⟩ := hrel
      obtain rfl : i = j := Option.some.inj (hname.symm.trans hj)
      obtain hempty | hown := hrel
      · rw [hempty] at hpid
        cases hpid
      · obtain rfl : pid = q.val := Option.some.inj (hpid.symm.trans hown)
        rw [LockSys.kill, Bool.or_eq_false_iff, Int.toNat_natCast, dif_pos q.2, hc] at hkill
        exact absurd hkill.2 (by decide)
  | _ =>
      rw [hc] at hq
      cases hq

theorem LockSys.Inv.step {s : LockSys} (hs : s.Inv) {e : Pid × LockEvent} (he : s.AsChecked e) :
    (lockStep s e).Inv := by
  obtain ⟨p, ev⟩ := e
  have hrel := hs.relies p
  -- the process leaves the lock, or stays outside
  have hgo : ∀ c : LockCall, c.owner = false → s.Relies p c →
      ({ s with calls := Function.update s.calls p c } : LockSys).Inv :=
    fun c hc => hs.goes fun h => by rw [hc] at h; cases h
  unfold lockStep
  unfold LockSys.AsChecked at he
  dsimp only at he ⊢
  split
  · exact hgo .dead rfl trivial
  · exact hgo .idle rfl trivial
  · exact hgo (.checking _) rfl trivial
  · next ok w hc =>
      split
      · exact hgo .unlocked rfl trivial
      · next i hname =>
          cases ok with
          | false => exact hgo .idle rfl trivial
          | true => exact hgo (.opened w i) rfl (hs.named i hname)
  · next w i hc =>
      rw [hc] at hrel
      split
      · exact hgo .idle rfl trivial
      · next pid hpid => exact hgo (.hasPid w i pid) rfl ⟨hrel, hpid⟩
  · next ok w i pid hc =>
      rw [hc] at hrel
      split
      · cases w.again with
        | none => exact hgo .idle rfl trivial
        | some w => exact hgo (.checking w) rfl trivial
      · next hkill =>
          exact hgo (.stale i) rfl
            ⟨hrel.1, hs.stale_of_kill hrel.2 (Bool.not_eq_true _ ▸ hkill)⟩
  · next ok i hc =>
      rw [hc] at hrel
      split
      · next hrm =>
          obtain ⟨rfl, hsome⟩ := Bool.and_eq_true_iff.mp hrm
          rw [hc] at he
          obtain hnone | hname := he
          · rw [hnone] at hsome
            cases hsome
          · have hfree : ∀ q, (s.calls q).owner = false := fun q =>
              Bool.eq_false_iff.mpr fun hq => hrel.2 q hq hname
            exact hs.removed (fun q _ => hfree q) rfl fun _ => trivial
      · exact hgo .idle rfl trivial
  · next ok hc =>
      split
      · exact hgo .idle rfl trivial
      · next hname => exact hs.created hname p
      · next i hname =>
          rw [hc] at he
          exact absurd (hname.symm.trans he) (Option.some_ne_none i)
  · next ok i hc => exact hs.written hc ok
  · next ok hc =>
      have hothers : ∀ q, q ≠ p → (s.calls q).owner = false := fun q hqp =>
        Bool.eq_false_iff.mpr fun hq => hqp (hs.unique q p hq (by rw [hc]; rfl))
      cases ok with
      | false => exact hgo .idle rfl trivial
      | true => exact hs.removed hothers rfl fun _ => trivial
  · exact hs

theorem inv_lockStart (lock : Option Str) (alive : Pid → Bool) : (lockStart lock alive).Inv := by
  have hplain : ∀ p, (lockStart lock alive).calls p = .idle ∨
      (lockStart lock alive).calls p = .dead := by
    intro p
    unfold lockStart
    dsimp only
    split
    · exact .inl rfl
    · exact .inr rfl
  refine ⟨fun i hi => ?_, fun p => ?_, fun p q hp => ?_⟩
  · obtain ⟨_, -, rfl⟩ := Option.map_eq_some_iff.mp hi
    exact Nat.one_pos
  · obtain h | h := hplain p <;> rw [h] <;> trivial
  · obtain h | h := hplain p <;> rw [h] at hp <;> cases hp

/-- A lock file that is removed as stale is nobody's. -/
theorem LockSys.Inv.not_takesAway {s : LockSys} (hs : s.Inv) {e : Pid × LockEvent}
    (he : s.AsChecked e) : ¬ s.TakesAway e := by
  rintro ⟨hstep, ⟨i, hstale⟩, hsome, q, hq⟩
  have hrel := hs.relies e.1
  rw [hstale] at hrel
  unfold LockSys.AsChecked at he
  rw [hstep, hstale] at he
  obtain hnone | hname := he
  · rw [hnone] at hsome
    cases hsome
  · exact hrel.2 q hq hname

/-! ## One process at a time -/

/-- From any lock file and with any processes: in a run in which what a process
found still holds whenever it acts on it, at most one process has the lock at
any time, and no lock of a live process is removed as stale. -/
theorem lockLockfile_exclusive (lock : Option Str) (alive : Pid → Bool)
    (es : List (Pid × LockEvent))
    (hmet : Met lockStep LockSys.AsChecked (lockStart lock alive) es) :
    (∀ p q, (run lockStep (lockStart lock alive) es).calls p = .inside →
      (run lockStep (lockStart lock alive) es).calls q = .inside → p = q) ∧
    Met lockStep (fun s e => ¬ s.TakesAway e) (lockStart lock alive) es := by
  have hinv := inv_lockStart lock alive
  refine ⟨fun p q hp hq => ?_, ?_⟩
  · have hrun := run_induct (P := LockSys.Inv) (fun _ _ hs he => hs.step he) es hinv hmet
    exact hrun.unique p q (by rw [hp]; rfl) (by rw [hq]; rfl)
  · exact met_imp (P := LockSys.Inv) (fun _ _ hs he => hs.step he)
      (fun _ _ hs he => hs.not_takesAway he) es hinv hmet

def pidOne : Pid := ⟨1, by decide⟩

def pidTwo : Pid := ⟨2, by decide⟩

/-- The one finds the lock of a dead process, removes it and makes its own; the
other one finds that. -/
def lockTurns : List (Pid × LockEvent) :=
  [(pidOne, .call 0), (pidOne, .step true), (pidOne, .step true), (pidOne, .step false),
    (pidOne, .step true), (pidOne, .step true), (pidOne, .step true), (pidTwo, .call 0),
    (pidTwo, .step true), (pidTwo, .step true), (pidTwo, .step false)]

theorem lockLockfile_exclusive_stale :
    (run lockStep (lockStart (some (lit "7\n")) fun p => p.val < 3) lockTurns).calls pidOne =
      .inside ∧
    (run lockStep (lockStart (some (lit "7\n")) fun p => p.val < 3) lockTurns).calls pidTwo ≠
      .inside ∧
    Met lockStep (fun s e => ¬ s.TakesAway e) (lockStart (some (lit "7\n")) fun p => p.val < 3)
      lockTurns := by
  have h := lockLockfile_exclusive (some (lit "7\n")) (fun p => p.val < 3) lockTurns
    (by decide +kernel)
  have hone : (run lockStep (lockStart (some (lit "7\n")) fun p => p.val < 3) lockTurns).calls
      pidOne = .inside := by decide +kernel
  refine ⟨hone, fun htwo => ?_, h.2⟩
  exact absurd (h.1 pidOne pidTwo hone htwo) (by decide)

/-- Both look before one of them makes the file. -/
def lockRace : List (Pid × LockEvent) :=
  [(pidOne, .call 0), (pidTwo, .call 0), (pidOne, .step true), (pidTwo, .step true),
    (pidOne, .step true), (pidOne, .step true), (pidTwo, .step true), (pidTwo, .step true)]

theorem lockLockfile_race :
    ¬ ∀ (lock : Option Str) (alive : Pid → Bool) (es : List (Pid × LockEvent)) (p q : Pid),
      (run lockStep (lockStart lock alive) es).calls p = .inside →
      (run lockStep (lockStart lock alive) es).calls q = .inside → p = q := by
  intro h
  exact absurd (h none (fun _ => true) lockRace pidOne pidTwo (by decide +kernel)
    (by decide +kernel)) (by decide)

end Fidogate

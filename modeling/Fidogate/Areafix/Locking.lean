/-
# `Fidogate.Areafix.Locking` — the programs that rewrite areas.bbs

ftnaf, ftnafpkt, ftntick and ftnafutil read areas.bbs, change the list in
memory and rewrite the file.  They differ in the locks they take, in the order
of locking and reading, and in what they do about a lock that stays busy.
ftnafutil and ftnafpkt with a directory lock areas.bbs before they read it;
ftnaf with a mail goes on without the lock when the time of `-w` is over; the
command lines of ftnaf and ftnafpkt do not take it; ftntick takes it for each
TIC, long after it has read the file.
-/
import Mathlib.Data.Fintype.Sigma
import Mathlib.Data.Fintype.Sum
import Mathlib.Tactic.DeriveFintype
import Fidogate.Lib.Serial

namespace Fidogate

open Serial

/-! ## The programs -/

/-- The lock files: that of areas.bbs, and those of the programs. -/
inductive Lock
  | bbs
  | ftnaf
  | ftnafpkt
  | ftntick
  deriving DecidableEq

/-- The programs and how they are called.  `limited` is whether `lock_path`
gives up on areas.bbs (`-w TIME`, and without `-w` for ftnafutil); `l` is the
option `-l`. -/
inductive Mode
  | ftnafMail (limited : Bool)
  | ftnafCmd
  | ftnafpktDir (l limited : Bool)
  | ftnafpktCmd (l : Bool)
  | ftntick (limited : Bool)
  | ftnafutil (limited : Bool)
  deriving DecidableEq, Fintype

/-- What a program does about areas.bbs when it has `n` works to do: requests,
packets, or TICs.  ftntick rewrites the file behind each TIC, the others at
their end. -/
def Mode.program (n : Nat) : Mode → List (Instr Lock)
  | .ftnafMail limited =>
      [.lock .ftnaf .wait, .lock .bbs (if limited then .goOn else .wait), .read] ++
        (List.replicate n .work ++ [.write, .unlock .bbs, .unlock .ftnaf])
  | .ftnafCmd => [.read] ++ (List.replicate n .work ++ [.write])
  | .ftnafpktDir l limited =>
      (if l then [.lock .ftnafpkt .exit] else []) ++
        [.lock .bbs (if limited then .exit else .wait), .read] ++
        (List.replicate n .work ++
          ([.write, .unlock .bbs] ++ if l then [.unlock .ftnafpkt] else []))
  | .ftnafpktCmd l =>
      (if l then [.lock .ftnafpkt .exit] else []) ++ [.read] ++
        (List.replicate n .work ++ ([.write] ++ if l then [.unlock .ftnafpkt] else []))
  | .ftntick limited =>
      [.read, .lock .ftntick .exit] ++
        ((List.replicate n
          [.lock .bbs (if limited then .exit else .wait), .work, .write, .unlock .bbs]).flatten ++
          [.unlock .ftntick])
  | .ftnafutil limited =>
      [.lock .bbs (if limited then .exit else .wait), .read] ++
        (List.replicate n .work ++ [.write, .unlock .bbs])

/-- The locks a program has from before it reads areas.bbs until after it has
rewritten it. -/
def Mode.guards : Mode → List Lock
  | .ftnafMail limited => .ftnaf :: if limited then [] else [.bbs]
  | .ftnafCmd => []
  | .ftnafpktDir l _ => .bbs :: if l then [.ftnafpkt] else []
  | .ftnafpktCmd l => if l then [.ftnafpkt] else []
  | .ftntick _ => []
  | .ftnafutil _ => [.bbs]

/-- The programs at their beginnings. -/
def begun {n : Nat} {ω τ : Type} (ps : Fin n → Mode) (works : Fin n → List ω) (f : τ) :
    Sys (Fin n) Lock ω τ :=
  ⟨⟨f, []⟩, fun i => start ((ps i).program (works i).length) (works i)⟩

/-- No update is lost: whatever the programs have to do and however they are
interleaved, in the end the file is what they make of it in some order one
after the other. -/
def NoLostUpdate {n : Nat} (ps : Fin n → Mode) : Prop :=
  ∀ (ω τ : Type) (apply : ω → τ → τ × Bool) (works : Fin n → List ω) (f : τ)
    (es : List (Fin n × Bool)),
    IsSerial apply f (Run.run (step apply) (begun ps works f) es)

/-! ## Programs that are guarded by one lock -/

theorem section_work {k : Lock} {rest : List (Instr Lock)} (h : Section k false rest) :
    ∀ (n : Nat) (dirty : Bool), Section k dirty (List.replicate n .work ++ .write :: rest)
  | 0, _ => h
  | n + 1, _ => section_work h n true

/-- The last lock that is released is the guard. -/
theorem section_unlock (k : Lock) : Section k false [.unlock k] := by
  rw [Section, if_pos rfl]
  exact ⟨rfl, trivial⟩

/-- Another lock is released behind the guard. -/
theorem section_unlock_first {k n : Lock} (h : n ≠ k) :
    Section k false [.unlock k, .unlock n] := by
  rw [Section, if_pos rfl]
  exact ⟨rfl, h, trivial⟩

/-- Another lock is released before the guard. -/
theorem section_unlock_last {k n : Lock} (h : n ≠ k) :
    Section k false [.unlock n, .unlock k] := by
  rw [Section, if_neg h]
  exact section_unlock k

theorem busy_ne_goOn (limited : Bool) : (if limited then Busy.exit else Busy.wait) ≠ .goOn := by
  cases limited <;> decide

theorem guarded_program {k : Lock} {p : Mode} (h : k ∈ p.guards) (n : Nat) :
    Guarded k (p.program n) := by
  cases p with
  | ftnafMail limited =>
      rcases List.mem_cons.mp h with rfl | h
      · exact ⟨by decide, by decide, section_work (section_unlock_last (by decide)) n false⟩
      · cases limited with
        | true => exact absurd h List.not_mem_nil
        | false =>
            obtain rfl := List.mem_singleton.mp h
            exact ⟨by decide, section_work (section_unlock_first (by decide)) n false⟩
  | ftnafCmd => exact absurd h List.not_mem_nil
  | ftnafpktDir l limited =>
      cases l with
      | true =>
          rcases List.mem_cons.mp h with rfl | h
          · exact ⟨busy_ne_goOn limited,
              section_work (section_unlock_first (by decide)) n false⟩
          · obtain rfl := List.mem_singleton.mp h
            exact ⟨by decide, by decide, section_work (section_unlock_last (by decide)) n false⟩
      | false =>
          obtain rfl := List.mem_singleton.mp h
          exact ⟨busy_ne_goOn limited, section_work (section_unlock _) n false⟩
  | ftnafpktCmd l =>
      cases l with
      | true =>
          obtain rfl := List.mem_singleton.mp h
          exact ⟨by decide, section_work (section_unlock _) n false⟩
      | false => exact absurd h List.not_mem_nil
  | ftntick limited => exact absurd h List.not_mem_nil
  | ftnafutil limited =>
      obtain rfl := List.mem_singleton.mp h
      exact ⟨busy_ne_goOn limited, section_work (section_unlock _) n false⟩

theorem flushed_work {rest : List (Instr Lock)} (h : Flushed false rest) :
    ∀ (n : Nat) (dirty : Bool), Flushed dirty (List.replicate n .work ++ .write :: rest)
  | 0, _ => h
  | n + 1, _ => flushed_work h n true

theorem flushed_tics (limited : Bool) : ∀ n : Nat,
    Flushed false ((List.replicate n
      [.lock .bbs (if limited then .exit else .wait), .work, .write, .unlock .bbs]).flatten ++
      [.unlock Lock.ftntick])
  | 0 => rfl
  | n + 1 => ⟨fun _ => rfl, flushed_tics limited n⟩

/-- Every program reads before it works and writes before it ends. -/
theorem sound_program (p : Mode) (n : Nat) : Sound (p.program n) := by
  cases p with
  | ftnafMail limited =>
      refine flushed_work ?_ n false
      rfl
  | ftnafCmd =>
      refine flushed_work ?_ n false
      rfl
  | ftnafpktDir l limited =>
      cases l <;> refine flushed_work ?_ n false <;> rfl
  | ftnafpktCmd l =>
      cases l <;> refine flushed_work ?_ n false <;> rfl
  | ftntick limited => exact ⟨fun _ => rfl, flushed_tics limited n⟩
  | ftnafutil limited =>
      refine flushed_work ?_ n false
      rfl

/-! ## Programs that are not -/

/-- A work that leaves its number in the list. -/
def leave (w : Nat) (l : List Nat) : List Nat × Bool := (w :: l, true)

/-- The program has come to where it reads. -/
def Mode.readAt (p : Mode) : Nat := ((p.program 1).takeWhile (· ≠ .read)).length

/-- A program and what it shares with others. -/
abbrev Here : Type := Shared Lock (List Nat) × Proc Lock Nat (List Nat)

def goOn (steps : Nat) (x : Here) : Here := runAlone leave (List.replicate steps true) x

/-- `v` takes its locks, -/
def meets₁ (v : Mode) : Here := goOn v.readAt (⟨[], []⟩, start (v.program 1) [2])

/-- `u` reads, -/
def meets₂ (u v : Mode) : Here :=
  goOn (u.readAt + 1) ((meets₁ v).1, start (u.program 1) [1])

/-- `v` runs to its end, -/
def meets₃ (u v : Mode) : Here := goOn 12 ((meets₂ u v).1, (meets₁ v).2)

/-- and so does `u`. -/
def meets₄ (u v : Mode) : Here := goOn 12 ((meets₃ u v).1, (meets₂ u v).2)

/-- Both end, and of what they did only the work of `u` is left. -/
def Clash (u v : Mode) : Prop :=
  (meets₄ u v).1 = ⟨[1], []⟩ ∧ (meets₄ u v).2.rest = [] ∧
    (meets₃ u v).2.rest = [] ∧ (meets₃ u v).2.done = [2]

instance (u v : Mode) : Decidable (Clash u v) := inferInstanceAs (Decidable (_ ∧ _))

/-- Two programs without a common guard clash in one way or the other. -/
theorem clash_of_disjoint : ∀ u v : Mode, (∀ k ∈ u.guards, k ∉ v.guards) →
    Clash u v ∨ Clash v u := by
  decide +kernel

/-- A program with nothing to do reads, and that is all. -/
theorem goOn_idle (p : Mode) (f : List Nat) :
    goOn 12 (⟨f, []⟩, start (p.program 0) []) = (⟨f, []⟩, ⟨[], [], some (f, false), [], []⟩) := by
  cases p with
  | ftnafMail limited => cases limited <;> rfl
  | ftnafCmd => rfl
  | ftnafpktDir l limited => cases l <;> cases limited <;> rfl
  | ftnafpktCmd l => cases l <;> rfl
  | ftntick limited => rfl
  | ftnafutil limited => cases limited <;> rfl

/-- A program with nothing to do leaves everything as it is. -/
theorem idle_program (p : Mode) (f : List Nat) :
    (goOn 12 (⟨f, []⟩, start (p.program 0) [])).1 = ⟨f, []⟩ ∧
      (goOn 12 (⟨f, []⟩, start (p.program 0) [])).2.rest = [] := by
  rw [goOn_idle]
  exact ⟨rfl, rfl⟩

/-! ## What is in the list -/

theorem mem_changes {x : Nat} (ws : List Nat) : ∀ {m : List Nat × Bool}, x ∈ m.1 →
    x ∈ (ws.foldl (change leave) m).1 := by
  induction ws with
  | nil => exact fun h => h
  | cons w ws ih => exact fun h => ih (List.mem_cons_of_mem w h)

theorem mem_effect {x : Nat} {l : List Nat} (h : x ∈ l) (ws : List Nat) :
    x ∈ effect leave ws l := by
  rw [effect]
  split
  · exact mem_changes ws h
  · exact h

/-- What one program leaves in the list is there after all of them. -/
theorem mem_serially {n : Nat} {procs : Fin n → Proc Lock Nat (List Nat)} {j : Fin n} {x : Nat}
    (hj : (procs j).done = [x]) (order : List (Fin n)) : ∀ {l : List Nat},
    j ∈ order ∨ x ∈ l → x ∈ serially leave procs order l := by
  induction order with
  | nil => exact fun h => h.resolve_left List.not_mem_nil
  | cons i order ih =>
      intro l h
      refine ih ?_
      rcases h with h | h
      · rcases List.mem_cons.mp h with rfl | h
        · have hx : x ∈ effect leave (procs j).done l := by
            rw [hj]
            exact List.mem_cons_self
          exact Or.inr hx
        · exact Or.inl h
      · exact Or.inr (mem_effect h _)

/-! ## The updates that are lost -/

section

variable {n : Nat} (ps : Fin n → Mode)

/-- The works of a meeting: those of `i` and `j`, and none. -/
def meetingWorks (i j : Fin n) (k : Fin n) : List Nat :=
  if k = i then [1] else if k = j then [2] else []

/-- A program that has nothing to do, or has ended, runs to its end. -/
theorem run_idle_one {s : Sys (Fin n) Lock Nat (List Nat)} (hlocks : s.shared.locks = [])
    {i : Fin n} (hi : s.procs i = start ((ps i).program 0) [] ∨ (s.procs i).rest = []) :
    ∃ es, (Run.run (step leave) s es).shared = s.shared ∧
      ((Run.run (step leave) s es).procs i).rest = [] ∧
      ∀ k, k ≠ i → (Run.run (step leave) s es).procs k = s.procs k := by
  obtain ⟨⟨file, locks⟩, procs⟩ := s
  obtain rfl : locks = [] := hlocks
  refine ⟨(List.replicate 12 true).map fun g => (i, g), ?_⟩
  rw [run_runAlone]
  have hend : (goOn 12 (⟨file, []⟩, procs i)).1 = ⟨file, []⟩ ∧
      (goOn 12 (⟨file, []⟩, procs i)).2.rest = [] := by
    rcases hi with hi | hi
    · rw [show procs i = start ((ps i).program 0) [] from hi]
      exact idle_program (ps i) file
    · rw [goOn, runAlone_end leave _ hi]
      exact ⟨rfl, hi⟩
  refine ⟨hend.1, ?_, fun k hk => Function.update_of_ne hk _ _⟩
  have hself := Function.update_self i
    (goOn 12 (⟨file, []⟩, procs i)).2 procs
  exact (congrArg Proc.rest hself).trans hend.2

/-- The programs that have nothing to do run to their ends. -/
theorem run_idle (is : List (Fin n)) : ∀ (s : Sys (Fin n) Lock Nat (List Nat)),
    s.shared.locks = [] →
    (∀ k ∈ is, s.procs k = start ((ps k).program 0) [] ∨ (s.procs k).rest = []) →
    ∃ es, (Run.run (step leave) s es).shared = s.shared ∧
      (∀ k ∈ is, ((Run.run (step leave) s es).procs k).rest = []) ∧
      ∀ k, k ∉ is → (Run.run (step leave) s es).procs k = s.procs k := by
  induction is with
  | nil => exact fun s _ _ => ⟨[], rfl, fun k hk => absurd hk List.not_mem_nil, fun _ _ => rfl⟩
  | cons i is ih =>
      intro s hlocks his
      obtain ⟨es, hshared, hend, hother⟩ := run_idle_one ps hlocks (his i List.mem_cons_self)
      obtain ⟨es', hshared', hend', hother'⟩ := ih (Run.run (step leave) s es)
        (hshared ▸ hlocks) fun k hk => by
          by_cases hki : k = i
          · exact Or.inr (hki ▸ hend)
          · rw [hother k hki]
            exact his k (List.mem_cons_of_mem i hk)
      refine ⟨es ++ es', ?_, fun k hk => ?_, fun k hk => ?_⟩
      · rw [Run.run_append, hshared', hshared]
      · rw [Run.run_append]
        by_cases hkis : k ∈ is
        · exact hend' k hkis
        · rw [hother' k hkis]
          exact ((List.mem_cons.mp hk).resolve_right hkis) ▸ hend
      · rw [Run.run_append, hother' k fun h => hk (List.mem_cons_of_mem i h)]
        exact hother k fun h => hk (h ▸ List.mem_cons_self)

/-- The four parts of a meeting in the system. -/
theorem run_meeting {i j : Fin n} (hij : i ≠ j) :
    ∃ es, (Run.run (step leave) (begun ps (meetingWorks i j) []) es).shared =
        (meets₄ (ps i) (ps j)).1 ∧
      (Run.run (step leave) (begun ps (meetingWorks i j) []) es).procs i =
        (meets₄ (ps i) (ps j)).2 ∧
      (Run.run (step leave) (begun ps (meetingWorks i j) []) es).procs j =
        (meets₃ (ps i) (ps j)).2 ∧
      ∀ k, k ≠ i → k ≠ j → (Run.run (step leave) (begun ps (meetingWorks i j) []) es).procs k =
        start ((ps k).program 0) [] := by
  have hji : j ≠ i := hij.symm
  refine ⟨(List.replicate (ps j).readAt true).map (fun g => (j, g)) ++
    ((List.replicate ((ps i).readAt + 1) true).map (fun g => (i, g)) ++
    ((List.replicate 12 true).map (fun g => (j, g)) ++
    (List.replicate 12 true).map (fun g => (i, g)))), ?_⟩
  have hwi : meetingWorks i j i = [1] := if_pos rfl
  have hwj : meetingWorks i j j = [2] := by rw [meetingWorks, if_neg hji, if_pos rfl]
  rw [Run.run_append, Run.run_append, Run.run_append, run_runAlone, run_runAlone, run_runAlone,
    run_runAlone]
  simp only [begun, hwi, hwj, Function.update_self, Function.update_of_ne hij,
    Function.update_of_ne hji]
  refine ⟨rfl, rfl, rfl, fun k hki hkj => ?_⟩
  have hwk : meetingWorks i j k = [] := by rw [meetingWorks, if_neg hki, if_neg hkj]
  simp only [Function.update_of_ne hki, Function.update_of_ne hkj, hwk]
  rfl

/-- Where two programs clash an update can be lost. -/
theorem lost_of_clash {i j : Fin n} (hij : i ≠ j) (h : Clash (ps i) (ps j)) :
    ¬ NoLostUpdate ps := by
  intro hno
  obtain ⟨hshared, hendi, hendj, hdone⟩ := h
  obtain ⟨es, hs, hi, hj, hother⟩ := run_meeting ps hij
  obtain ⟨es', hs', hidle, hsame⟩ := run_idle ps
    ((List.finRange n).filter fun k => k ≠ i ∧ k ≠ j) _ (by rw [hs, hshared]) fun k hk => by
      have hk := (List.mem_filter.mp hk).2
      simp only [decide_eq_true_eq] at hk
      exact Or.inl (hother k hk.1 hk.2)
  have hrun := hno Nat (List Nat) leave (meetingWorks i j) [] (es ++ es')
  rw [Run.run_append] at hrun
  have hi' := hsame i (by simp)
  have hj' := hsame j (by simp)
  obtain ⟨order, -, hall, hfile⟩ := hrun fun k => by
    by_cases hki : k = i
    · rw [hki, hi', hi, hendi]
    · by_cases hkj : k = j
      · rw [hkj, hj', hj, hendj]
      · exact hidle k (List.mem_filter.mpr ⟨List.mem_finRange k, by simp [hki, hkj]⟩)
  have hdonej : ((Run.run (step leave) (Run.run (step leave)
      (begun ps (meetingWorks i j) []) es) es').procs j).done = [2] := by
    rw [hj', hj, hdone]
  have hmem := mem_serially hdonej order (Or.inl (hall j)) (l := [])
  rw [← hfile, hs', hs, hshared] at hmem
  exact absurd hmem (by decide)

end

/-! ## When no update is lost -/

/-- Programs that have no common guard, two at least, have two among them that
clash. -/
theorem exists_clash {n : Nat} {ps : Fin n → Mode} (hn : 2 ≤ n)
    (h : ¬ ∃ k, ∀ i, k ∈ (ps i).guards) : ∃ i j, i ≠ j ∧ Clash (ps i) (ps j) := by
  have hshort : ∀ p : Mode, Lock.bbs ∉ p.guards → p.guards.length ≤ 1 := by decide
  have hnot : ∀ k, ∃ i, k ∉ (ps i).guards := fun k => by
    by_contra hall
    exact h ⟨k, fun i => by_contra fun hi => hall ⟨i, hi⟩⟩
  obtain ⟨i, hi⟩ := hnot .bbs
  have hpair : ∃ j, i ≠ j ∧ ∀ k ∈ (ps i).guards, k ∉ (ps j).guards := by
    match hg : (ps i).guards with
    | [] =>
        have : Nontrivial (Fin n) := Fin.nontrivial_iff_two_le.mpr hn
        obtain ⟨j, hj⟩ := exists_ne i
        exact ⟨j, hj.symm, fun k hk => absurd hk List.not_mem_nil⟩
    | [k] =>
        obtain ⟨j, hj⟩ := hnot k
        refine ⟨j, fun he => hj (he ▸ hg ▸ List.mem_singleton_self k), fun k' hk' => ?_⟩
        exact (List.mem_singleton.mp hk') ▸ hj
    | k :: k' :: ks =>
        have hlen := hshort _ hi
        rw [hg] at hlen
        simp at hlen
  obtain ⟨j, hij, hdisjoint⟩ := hpair
  rcases clash_of_disjoint _ _ hdisjoint with hc | hc
  · exact ⟨i, j, hij, hc⟩
  · exact ⟨j, i, hij.symm, hc⟩

/-- No update is lost just when there is one program only, or all of them have
one lock from before they read areas.bbs until after they have rewritten it. -/
theorem noLostUpdate_iff {n : Nat} (ps : Fin n → Mode) :
    NoLostUpdate ps ↔ n ≤ 1 ∨ ∃ k, ∀ i, k ∈ (ps i).guards := by
  constructor
  · intro h
    by_contra hn
    rw [not_or] at hn
    obtain ⟨i, j, hij, hc⟩ := exists_clash (by omega) hn.2
    exact lost_of_clash ps hij hc h
  · rintro (hn | ⟨k, hk⟩) ω τ apply works f es
    · have : Subsingleton (Fin n) := Fin.subsingleton_iff_le_one.mpr hn
      exact serial_of_alone (fun i => sound_program (ps i) _) works f es
    · exact serial_of_guarded (fun i => guarded_program (hk i) _) works f es

/-- Two command lines of ftnaf: both read, and what the first one writes the
second one overwrites. -/
theorem ftnafCmd_loses_update : ¬ ∀ (n : Nat) (ps : Fin n → Mode), NoLostUpdate ps := by
  intro h
  refine lost_of_clash (n := 2) (fun _ => .ftnafCmd) (i := 0) (j := 1) (by decide) ?_ (h 2 _)
  decide +kernel

end Fidogate

/-
# `Fidogate.Common.Sequencer` — sequencer.c: numbers from a file

A call opens the file, or creates it where there is none, locks it, reads the
number, adds one and writes it back.  The file is opened before it is locked,
and creating it empties a file that another call created in the meantime.
-/
import Fidogate.Common.AreasbbsRewrite
import Fidogate.Common.NodePrint
import Fidogate.Lib.Run
import Mathlib.Data.Int.Interval
import Mathlib.Logic.Function.Basic

namespace Fidogate

open Bytes

/-! ## The number in the file -/

/-- The number `fgets` and `atol` find in the file. -/
def seqValue (file : Option Str) : Int := ((fgetsLines MAXPATH (file.getD [])).head?.map atol).getD 0

/-- The next one: `seqn++` wraps around, and one below 0 becomes 0. -/
def seqNext (v : Int) : Int := if v = 2 ^ 63 - 1 then 0 else if v + 1 < 0 then 0 else v + 1

/-- The file after the number was printed over its beginning. -/
def seqPrint (n : Int) (file : Str) : Str :=
  putInt n ++ [lf] ++ file.drop (putInt n ++ [lf]).length

/-! ## The calls -/

/-- How far a call of `sequencer_nx` has come. -/
inductive SeqCall
  | start
  /-- There was no file. -/
  | missing
  /-- It could not be created: once more, behind `mkdir`. -/
  | noDir
  | opened
  | locked
  | read (seqn : Int)
  | written (seqn : Int)
  | done (seqn : Int)
  | failed
  deriving DecidableEq, Repr

/-- The call has the lock. -/
def SeqCall.inside : SeqCall → Bool
  | .locked | .read _ | .written _ => true
  | _ => false

/-- The file, the call that has the lock, all calls, and the numbers returned. -/
structure SeqSys (ι : Type*) where
  file : Option Str
  holder : Option ι
  calls : ι → SeqCall
  returned : List Int

section

variable {ι : Type*} [DecidableEq ι]

/-- The calls at their beginning. -/
def seqStart (file : Option Str) : SeqSys ι := ⟨file, none, fun _ => .start, []⟩

/-- The next step of a call; `ok` tells whether the file can be opened or
created, where it tries to. -/
def seqStep (s : SeqSys ι) (e : ι × Bool) : SeqSys ι :=
  let go := fun c => Function.update s.calls e.1 c
  match s.calls e.1 with
  | .start =>
      match s.file with
      | none => { s with calls := go .missing }
      | some _ => { s with calls := go (if e.2 then .opened else .failed) }
  | .missing =>
      if e.2 then { s with file := some [], calls := go .opened }
      else { s with calls := go .noDir }
  | .noDir =>
      if e.2 then { s with file := some [], calls := go .opened }
      else { s with calls := go .failed }
  | .opened => if s.holder.isNone then { s with holder := some e.1, calls := go .locked } else s
  | .locked => { s with calls := go (.read (seqNext (seqValue s.file))) }
  | .read n => { s with file := some (seqPrint n (s.file.getD [])), calls := go (.written n) }
  | .written n =>
      { s with holder := none, calls := go (.done n), returned := s.returned ++ [n] }
  | .done _ | .failed => s

/-- No call is on its way. -/
def SeqSys.Over (s : SeqSys ι) : Prop :=
  ∀ i, s.calls i = .start ∨ s.calls i = .failed ∨ ∃ n, s.calls i = .done n

/-- A call that creates the file finds none, or one without a number, unless
the number was just read by the call that has the lock. -/
def SeqSys.CreatesNew (s : SeqSys ι) (e : ι × Bool) : Prop :=
  s.calls e.1 = .missing ∨ s.calls e.1 = .noDir → e.2 = true →
    s.file = none ∨ s.file = some [] ∨ ∃ i n, s.holder = some i ∧ s.calls i = .read n

end

/-! ## The number as text -/

theorem seqValue_le (file : Option Str) : seqValue file ≤ 2 ^ 63 - 1 := by
  unfold seqValue
  cases (fgetsLines MAXPATH (file.getD [])).head? with
  | none => decide
  | some l => exact max_le (by decide) (min_le_right _ _)

theorem seqNext_range {v : Int} (h : v ≤ 2 ^ 63 - 1) : 0 ≤ seqNext v ∧ seqNext v ≤ 2 ^ 63 - 1 := by
  unfold seqNext
  split
  · decide
  · split
    · decide
    · omega

theorem seqNext_of_lt {v : Int} (h : v < 2 ^ 63 - 1) : seqNext v = max v (-1) + 1 := by
  rw [seqNext, if_neg (by omega)]
  split <;> omega

/-- The line that was printed is the first line that is read. -/
theorem head?_fgetsLines_seqPrint {size : Nat} {n : Int} (h : 0 ≤ n)
    (hlen : (putInt n).length < size - 1) (file : Str) :
    (fgetsLines size (seqPrint n file)).head? = some (putInt n ++ [lf]) := by
  have hlf : lf ∉ putInt n := by
    rw [putInt_of_nonneg h]
    intro hmem
    exact absurd (isDigit_of_mem_putDec hmem) (by decide)
  have hkeep : ∀ c ∈ putInt n ++ [lf], (c != nul) = true := by
    intro c hc
    rw [putInt_of_nonneg h] at hc
    obtain hc | hc := List.mem_append.mp hc
    · exact bne_iff_ne.mpr fun hnul => absurd (isDigit_of_mem_putDec (hnul ▸ hc)) (by decide)
    · rw [List.mem_singleton.mp hc]
      decide
  have hcstr : cstr (putInt n ++ [lf]) = putInt n ++ [lf] := List.takeWhile_eq_self_iff.mpr hkeep
  rw [fgetsLines, seqPrint, List.append_assoc, fgetsLoop_append size [] _ hlf hlen,
    List.singleton_append, fgetsLoop_lf, List.map_cons, List.head?_cons, List.nil_append, hcstr]

/-- The number that was printed is the number that is read. -/
theorem seqValue_seqPrint {n : Int} (h : 0 ≤ n) (hn : n ≤ 2 ^ 63 - 1) (file : Str) :
    seqValue (some (seqPrint n file)) = n := by
  have hlen : (putInt n).length < MAXPATH - 1 :=
    Nat.lt_of_le_of_lt (length_putInt_long h (by omega)) (by decide)
  rw [seqValue, Option.getD_some, head?_fgetsLines_seqPrint h hlen, Option.map_some,
    Option.getD_some, atol, atoi_putInt_lf h]
  omega

/-! ## What a step does -/

/-- What the call that has the lock is about to do. -/
inductive SeqPhase
  | idle
  | read (seqn : Int)
  | written (seqn : Int)

/-- How far a call has come behind the lock. -/
def SeqCall.phase : SeqCall → SeqPhase
  | .read n => .read n
  | .written n => .written n
  | _ => .idle

section

variable {ι : Type*}

/-- How far the call that has the lock has come. -/
def SeqSys.phase (s : SeqSys ι) : SeqPhase := (s.holder.map fun i => (s.calls i).phase).getD .idle

/-- The calls that have the lock are the holder, and only a call that found no
file may create one. -/
structure SeqSys.Sound (f : Option Str) (s : SeqSys ι) : Prop where
  inside_iff : ∀ i, (s.calls i).inside = true ↔ s.holder = some i
  missing : ∀ i, s.calls i = .missing ∨ s.calls i = .noDir → f = none
  file : f ≠ none → s.file ≠ none

/-- What a step changes of the file, the call that has the lock and the
numbers returned. -/
inductive SeqMove (s : SeqSys ι) (e : ι × Bool) (s' : SeqSys ι) : Prop
  | stays : s'.file = s.file → s'.phase = s.phase → s'.returned = s.returned → SeqMove s e s'
  | creates : s.calls e.1 = .missing ∨ s.calls e.1 = .noDir → e.2 = true →
      s'.file = some [] → s'.phase = s.phase → s'.returned = s.returned → SeqMove s e s'
  | reads : s.phase = .idle → s'.file = s.file → s'.phase = .read (seqNext (seqValue s.file)) →
      s'.returned = s.returned → SeqMove s e s'
  | writes (n : Int) : s.phase = .read n → s'.file = some (seqPrint n (s.file.getD [])) →
      s'.phase = .written n → s'.returned = s.returned → SeqMove s e s'
  | returns (n : Int) : s.phase = .written n → s'.file = s.file → s'.phase = .idle →
      s'.returned = s.returned ++ [n] → SeqMove s e s'

theorem seqSys_phase_holder {s : SeqSys ι} {i : ι} (h : s.holder = some i) :
    s.phase = (s.calls i).phase := by
  rw [SeqSys.phase, h]
  rfl

theorem exists_of_phase_read {s : SeqSys ι} {n : Int} (h : s.phase = .read n) :
    ∃ i, s.holder = some i ∧ s.calls i = .read n := by
  cases hh : s.holder with
  | none =>
      rw [SeqSys.phase, hh] at h
      cases h
  | some i =>
      rw [seqSys_phase_holder hh] at h
      refine ⟨i, rfl, ?_⟩
      cases hc : s.calls i <;> rw [hc] at h <;> cases h
      rfl

/-- When all calls are over none has the lock. -/
theorem SeqSys.Over.idle {f : Option Str} {s : SeqSys ι} (hs : s.Sound f) (h : s.Over) :
    s.phase = .idle := by
  cases hh : s.holder with
  | none =>
      rw [SeqSys.phase, hh]
      rfl
  | some i =>
      have hin := (hs.inside_iff i).mpr hh
      obtain h | h | ⟨n, h⟩ := h i <;> rw [h] at hin <;> cases hin

theorem sound_seqStart (f : Option Str) : (seqStart f : SeqSys ι).Sound f :=
  ⟨fun _ => ⟨(nomatch ·), (nomatch ·)⟩, fun _ => fun h => h.elim (nomatch ·) (nomatch ·), id⟩

variable [DecidableEq ι]

theorem seqSys_phase_update {s : SeqSys ι} {i : ι} {c : SeqCall}
    (h : ∀ j, (s.calls j).inside = true ↔ s.holder = some j) (hi : (s.calls i).inside = false)
    (file : Option Str) (returned : List Int) :
    (SeqSys.mk file s.holder (Function.update s.calls i c) returned).phase = s.phase := by
  unfold SeqSys.phase
  cases hh : s.holder with
  | none => rfl
  | some j =>
      have hne : j ≠ i := fun hji => by
        have := (h j).mpr hh
        rw [hji, hi] at this
        cases this
      simp only [Option.map_some, Option.getD_some, Function.update_of_ne hne]

theorem SeqSys.Sound.update {f : Option Str} {s : SeqSys ι} (hs : s.Sound f) {i : ι} {c : SeqCall}
    (hc : c = .missing ∨ c = .noDir → f = none) {file : Option Str} (hfile : f ≠ none → file ≠ none)
    {holder : Option ι} (hi : c.inside = true ↔ holder = some i)
    (hother : ∀ j, j ≠ i → (s.holder = some j ↔ holder = some j)) (returned : List Int) :
    (SeqSys.mk file holder (Function.update s.calls i c) returned).Sound f := by
  refine ⟨fun j => ?_, fun j hj => ?_, hfile⟩
  · by_cases hji : j = i
    · simpa only [hji, Function.update_self] using hi
    · simpa only [Function.update_of_ne hji] using (hs.inside_iff j).trans (hother j hji)
  · by_cases hji : j = i
    · simp only [hji, Function.update_self] at hj
      exact hc hj
    · simp only [Function.update_of_ne hji] at hj
      exact hs.missing j hj

theorem not_missing {c : SeqCall} (h₁ : c ≠ .missing) (h₂ : c ≠ .noDir) {p : Prop} :
    c = .missing ∨ c = .noDir → p :=
  fun h => h.elim (absurd · h₁) (absurd · h₂)

theorem SeqSys.Sound.step {f : Option Str} {s : SeqSys ι} (hs : s.Sound f) (e : ι × Bool) :
    (seqStep s e).Sound f := by
  -- what stays inside or outside leaves the lock with its holder
  have hkeep : ∀ {c : SeqCall}, (s.calls e.1).inside = c.inside →
      (c.inside = true ↔ s.holder = some e.1) := fun h => h ▸ hs.inside_iff e.1
  have hsame : ∀ j, j ≠ e.1 → (s.holder = some j ↔ s.holder = some j) := fun _ _ => Iff.rfl
  have hnew : ∀ t : Str, f ≠ none → some t ≠ none := fun t _ => Option.some_ne_none t
  unfold seqStep
  split
  · next h =>
      split
      · next hf =>
          have hnone : f = none := by
            by_contra hn
            exact hs.file hn hf
          exact hs.update (fun _ => hnone) (absurd hnone) (hkeep (by rw [h]; rfl)) hsame _
      · split
        · exact hs.update (not_missing SeqCall.noConfusion SeqCall.noConfusion) hs.file (hkeep (by rw [h]; rfl))
            hsame _
        · exact hs.update (not_missing SeqCall.noConfusion SeqCall.noConfusion) hs.file (hkeep (by rw [h]; rfl))
            hsame _
  · next h =>
      split
      · exact hs.update (not_missing SeqCall.noConfusion SeqCall.noConfusion) (hnew _) (hkeep (by rw [h]; rfl))
          hsame _
      · exact hs.update (fun _ => hs.missing e.1 (.inl h)) hs.file (hkeep (by rw [h]; rfl)) hsame _
  · next h =>
      split
      · exact hs.update (not_missing SeqCall.noConfusion SeqCall.noConfusion) (hnew _) (hkeep (by rw [h]; rfl))
          hsame _
      · exact hs.update (not_missing SeqCall.noConfusion SeqCall.noConfusion) hs.file (hkeep (by rw [h]; rfl))
          hsame _
  · next h =>
      split
      · next hfree =>
          refine hs.update (not_missing SeqCall.noConfusion SeqCall.noConfusion) hs.file
            ⟨fun _ => rfl, fun _ => rfl⟩ (fun j hj => ?_) _
          rw [Option.isNone_iff_eq_none.mp hfree]
          exact ⟨fun h => absurd h.symm (Option.some_ne_none j),
            fun h => absurd (Option.some.inj h).symm hj⟩
      · exact hs
  · next h =>
      exact hs.update (not_missing SeqCall.noConfusion SeqCall.noConfusion) hs.file (hkeep (by rw [h]; rfl)) hsame _
  · next h =>
      exact hs.update (not_missing SeqCall.noConfusion SeqCall.noConfusion) (hnew _) (hkeep (by rw [h]; rfl)) hsame _
  · next n h =>
      have hheld : s.holder = some e.1 := (hs.inside_iff e.1).mp (by rw [h]; rfl)
      have hout : (SeqCall.done n).inside = true ↔ none = some e.1 :=
        iff_of_false Bool.false_ne_true (Option.some_ne_none e.1).symm
      refine hs.update (not_missing SeqCall.noConfusion SeqCall.noConfusion) hs.file hout
        (fun j hj => ?_) _
      rw [hheld]
      exact ⟨fun h => absurd (Option.some.inj h).symm hj,
        fun h => absurd h.symm (Option.some_ne_none j)⟩
  · exact hs
  · exact hs

theorem seqSys_phase_self {calls : ι → SeqCall} {i : ι} {c : SeqCall} {holder : Option ι}
    (h : holder = some i) (file : Option Str) (returned : List Int) :
    (SeqSys.mk file holder (Function.update calls i c) returned).phase = c.phase :=
  (seqSys_phase_holder h).trans (congrArg SeqCall.phase (Function.update_self i c calls))

theorem seqMove_seqStep {f : Option Str} {s : SeqSys ι} (hs : s.Sound f) (e : ι × Bool) :
    SeqMove s e (seqStep s e) := by
  have houtside : ∀ {c : SeqCall}, (s.calls e.1).inside = false →
      ∀ file returned,
      (SeqSys.mk file s.holder (Function.update s.calls e.1 c) returned).phase = s.phase :=
    fun hi => seqSys_phase_update hs.inside_iff hi
  have hheld : (s.calls e.1).inside = true → s.holder = some e.1 := (hs.inside_iff e.1).mp
  unfold seqStep
  split
  · next h =>
      split
      · exact .stays rfl (houtside (by rw [h]; rfl) _ _) rfl
      · exact .stays rfl (houtside (by rw [h]; rfl) _ _) rfl
  · next h =>
      split
      · next hok => exact .creates (.inl h) hok rfl (houtside (by rw [h]; rfl) _ _) rfl
      · exact .stays rfl (houtside (by rw [h]; rfl) _ _) rfl
  · next h =>
      split
      · next hok => exact .creates (.inr h) hok rfl (houtside (by rw [h]; rfl) _ _) rfl
      · exact .stays rfl (houtside (by rw [h]; rfl) _ _) rfl
  · next h =>
      split
      · next hfree =>
          have hidle : s.phase = .idle := by
            rw [SeqSys.phase, Option.isNone_iff_eq_none.mp hfree]
            rfl
          exact .stays rfl ((seqSys_phase_self rfl _ _).trans hidle.symm) rfl
      · exact .stays rfl rfl rfl
  · next h =>
      have hh := hheld (by rw [h]; rfl)
      refine .reads ?_ rfl (seqSys_phase_self hh _ _) rfl
      rw [seqSys_phase_holder hh, h]
      rfl
  · next n h =>
      have hh := hheld (by rw [h]; rfl)
      refine .writes n ?_ rfl (seqSys_phase_self hh _ _) rfl
      rw [seqSys_phase_holder hh, h]
      rfl
  · next n h =>
      have hh := hheld (by rw [h]; rfl)
      refine .returns n ?_ rfl rfl rfl
      rw [seqSys_phase_holder hh, h]
      rfl
  · exact .stays rfl rfl rfl
  · exact .stays rfl rfl rfl

end

/-! ## Where no number is lost -/

section

variable {ι : Type*}

/-- The numbers behind the initial one, and where the next comes from. -/
def SeqSys.Exact (v : Int) (s : SeqSys ι) : Prop :=
  s.returned = (List.range s.returned.length).map (fun i : Nat => max v (-1) + 1 + i) ∧
    match s.phase with
    | .idle => seqValue s.file = if s.returned = [] then v else max v (-1) + s.returned.length
    | .read n => n = max v (-1) + s.returned.length + 1
    | .written n => n = max v (-1) + s.returned.length + 1 ∧ seqValue s.file = n

/-- The last number read. -/
def SeqSys.reached (v : Int) (s : SeqSys ι) : Int :=
  max v (-1) + s.returned.length +
    match s.phase with
    | .idle => 0
    | .read _ | .written _ => 1

theorem seqValue_empty {file : Option Str} (h : file = none ∨ file = some []) :
    seqValue file = seqValue (some []) := by
  obtain rfl | rfl := h <;> rfl

theorem SeqMove.exact {v : Int} {s s' : SeqSys ι} {e : ι × Bool} (hv : v ≤ 2 ^ 63 - 1)
    (hmove : SeqMove s e s') (hnew : s.CreatesNew e)
    (hs : s.reached v ≤ 2 ^ 63 - 1 → s.Exact v) (hroom : s'.reached v ≤ 2 ^ 63 - 1) :
    s'.Exact v := by
  unfold SeqSys.reached at hs hroom
  unfold SeqSys.Exact at hs ⊢
  cases hmove with
  | stays hfile hphase hret =>
      rw [hfile, hphase, hret]
      rw [hphase, hret] at hroom
      exact hs hroom
  | creates hcreate hok hfile hphase hret =>
      rw [hfile, hphase, hret]
      rw [hphase, hret] at hroom
      obtain ⟨hlist, hval⟩ := hs hroom
      refine ⟨hlist, ?_⟩
      obtain hnone | hnone | ⟨i, n, hi, hn⟩ := hnew hcreate hok
      · rw [← seqValue_empty (.inl hnone)]
        exact hval
      · rw [← seqValue_empty (.inr hnone)]
        exact hval
      · have hread : s.phase = .read n := by
          rw [seqSys_phase_holder hi, hn]
          rfl
        rw [hread] at hval ⊢
        exact hval
  | reads hidle hfile hread hret =>
      rw [hread, hret]
      rw [hread, hret] at hroom
      rw [hidle] at hs
      dsimp only at hs hroom
      obtain ⟨hlist, hval⟩ := hs (by omega)
      refine ⟨hlist, ?_⟩
      dsimp only
      by_cases hnil : s.returned = []
      · rw [if_pos hnil] at hval
        rw [hnil, List.length_nil] at hroom ⊢
        rw [hval, seqNext_of_lt (by omega)]
        omega
      · rw [if_neg hnil] at hval
        rw [hval, seqNext_of_lt (by omega)]
        omega
  | writes n hread hfile hwritten hret =>
      rw [hwritten, hret]
      rw [hwritten, hret] at hroom
      rw [hread] at hs
      obtain ⟨hlist, hval⟩ := hs hroom
      refine ⟨hlist, hval, ?_⟩
      dsimp only at hval hroom
      rw [hfile, seqValue_seqPrint (by omega) (by omega)]
  | returns n hwritten hfile hidle hret =>
      rw [hidle, hret]
      rw [hidle, hret, List.length_append, List.length_singleton] at hroom
      rw [hwritten] at hs
      dsimp only at hroom hs
      obtain ⟨hlist, hn, hval⟩ := hs (by omega)
      refine ⟨?_, ?_⟩
      · rw [List.length_append, List.length_singleton, List.range_succ, List.map_append, ← hlist,
          List.map_singleton, hn]
        congr 2
        omega
      · dsimp only
        rw [if_neg (List.append_ne_nil_of_right_ne_nil _ (List.cons_ne_nil n [])), hfile, hval, hn,
          List.length_append, List.length_singleton]
        omega

theorem SeqSys.Exact.nodup {v : Int} {s : SeqSys ι} (h : s.Exact v) : s.returned.Nodup := by
  rw [h.1]
  exact List.nodup_range.map fun a b hab => by omega

/-! ## Where a number is lost -/

/-- The number in the file is at least `δ` behind the numbers returned, and
only a file that was created anew is empty. -/
def SeqSys.Behind (δ : Int) (s : SeqSys ι) : Prop :=
  (s.file = none ∨ s.file = some [] ∨ s.returned ≠ [] ∨ ∃ n, s.phase = .written n) ∧
    match s.phase with
    | .idle => seqValue s.file + δ ≤ s.returned.length
    | .read n => (0 ≤ n ∧ n ≤ 2 ^ 63 - 1) ∧ n + δ ≤ s.returned.length + 1
    | .written _ => seqValue s.file + δ ≤ s.returned.length + 1

theorem seqNext_le (v : Int) : seqNext v ≤ max v (-1) + 1 := by
  unfold seqNext
  split
  · omega
  · split <;> omega

theorem SeqMove.behind {δ : Int} (hδ : δ ≤ 1) {s s' : SeqSys ι} {e : ι × Bool}
    (hmove : SeqMove s e s') (hs : s.Behind δ) : s'.Behind δ := by
  unfold SeqSys.Behind at hs ⊢
  obtain ⟨hfull, hval⟩ := hs
  cases hmove with
  | stays hfile hphase hret =>
      rw [hfile, hphase, hret]
      exact ⟨hfull, hval⟩
  | creates hcreate hok hfile hphase hret =>
      rw [hfile, hphase, hret]
      refine ⟨.inr (.inl rfl), ?_⟩
      cases hp : s.phase with
      | idle =>
          rw [hp] at hval hfull
          obtain hnone | hnone | hret | ⟨n, hn⟩ := hfull
          · rw [← seqValue_empty (.inl hnone)]
            exact hval
          · rw [← seqValue_empty (.inr hnone)]
            exact hval
          · have hpos := List.length_pos_iff.mpr hret
            change 0 + δ ≤ s.returned.length
            omega
          · cases hn
      | read n =>
          rw [hp] at hval
          exact hval
      | written n =>
          change 0 + δ ≤ s.returned.length + 1
          omega
  | reads hidle hfile hread hret =>
      rw [hfile, hread, hret]
      rw [hidle] at hval hfull
      refine ⟨?_, seqNext_range (seqValue_le _), ?_⟩
      · obtain h | h | h | ⟨n, hn⟩ := hfull
        · exact .inl h
        · exact .inr (.inl h)
        · exact .inr (.inr (.inl h))
        · cases hn
      · have hle := seqNext_le (seqValue s.file)
        dsimp only at hval
        omega
  | writes n hread hfile hwritten hret =>
      rw [hfile, hwritten, hret]
      rw [hread] at hval
      obtain ⟨⟨h0, hn⟩, hle⟩ := hval
      refine ⟨.inr (.inr (.inr ⟨n, rfl⟩)), ?_⟩
      dsimp only
      rw [seqValue_seqPrint h0 hn]
      exact hle
  | returns n hwritten hfile hidle hret =>
      rw [hfile, hidle, hret]
      rw [hwritten] at hval
      refine ⟨.inr (.inr (.inl ?_)), ?_⟩
      · exact List.append_ne_nil_of_right_ne_nil _ (List.cons_ne_nil n [])
      · rw [List.length_append, List.length_singleton]
        exact hval

/-- A file with a number is created once more: one is lost. -/
theorem SeqSys.Behind.lost {s s' : SeqSys ι} {e : ι × Bool} (hs : s.Behind 0)
    (hnew : ¬ s.CreatesNew e) (hfile : s'.file = some []) (hphase : s'.phase = s.phase)
    (hret : s'.returned = s.returned) : s'.Behind 1 := by
  unfold SeqSys.CreatesNew at hnew
  push Not at hnew
  obtain ⟨-, -, hnone, hempty, hread⟩ := hnew
  obtain ⟨hfull, hval⟩ := hs
  rw [or_iff_right hnone, or_iff_right hempty] at hfull
  unfold SeqSys.Behind
  rw [hfile, hphase, hret]
  refine ⟨.inr (.inl rfl), ?_⟩
  cases hp : s.phase with
  | idle =>
      rw [hp] at hfull
      obtain hne | ⟨n, hn⟩ := hfull
      · have hpos := List.length_pos_iff.mpr hne
        change 0 + 1 ≤ (s.returned.length : Int)
        omega
      · cases hn
  | read n =>
      obtain ⟨i, hi, hn⟩ := exists_of_phase_read hp
      exact absurd hn (hread i n hi)
  | written n =>
      change 0 + 1 ≤ (s.returned.length + 1 : Int)
      omega

/-! ## The numbers are of a `long` -/

/-- The numbers are not negative, and of a `long`. -/
def SeqSys.Ranged (s : SeqSys ι) : Prop :=
  (∀ n ∈ s.returned, 0 ≤ n ∧ n ≤ 2 ^ 63 - 1) ∧
    match s.phase with
    | .idle => True
    | .read n | .written n => 0 ≤ n ∧ n ≤ 2 ^ 63 - 1

theorem SeqMove.ranged {s s' : SeqSys ι} {e : ι × Bool} (hmove : SeqMove s e s')
    (hs : s.Ranged) : s'.Ranged := by
  unfold SeqSys.Ranged at hs ⊢
  obtain ⟨hret, hphase⟩ := hs
  cases hmove with
  | stays hfile hphase' hret' =>
      rw [hphase', hret']
      exact ⟨hret, hphase⟩
  | creates _ _ hfile hphase' hret' =>
      rw [hphase', hret']
      exact ⟨hret, hphase⟩
  | reads hidle hfile hread hret' =>
      rw [hread, hret']
      exact ⟨hret, seqNext_range (seqValue_le _)⟩
  | writes n hread hfile hwritten hret' =>
      rw [hwritten, hret']
      rw [hread] at hphase
      exact ⟨hret, hphase⟩
  | returns n hwritten hfile hidle hret' =>
      rw [hidle, hret']
      rw [hwritten] at hphase
      refine ⟨fun m hm => ?_, trivial⟩
      obtain hm | hm := List.mem_append.mp hm
      · exact hret m hm
      · rw [List.mem_singleton.mp hm]
        exact hphase

/-- There are no more different numbers than that. -/
theorem length_le_of_ranged {ns : List Int} (h : ∀ n ∈ ns, 0 ≤ n ∧ n ≤ 2 ^ 63 - 1)
    (hnodup : ns.Nodup) : ns.length ≤ 2 ^ 63 := by
  have hsub : ns.toFinset ⊆ Finset.Icc 0 (2 ^ 63 - 1) := fun n hn =>
    Finset.mem_Icc.mpr (h n (List.mem_toFinset.mp hn))
  have hcard := Finset.card_le_card hsub
  rw [List.toFinset_card_of_nodup hnodup, Int.card_Icc] at hcard
  omega

end

/-! ## All calls together -/

section

variable {ι : Type*} [DecidableEq ι]

open Run

theorem sound_run (f : Option Str) (es : List (ι × Bool)) : (run seqStep (seqStart f) es).Sound f :=
  run_invariant (fun _ e hs => hs.step e) es (sound_seqStart f)

/-- What every move keeps holds after every run. -/
theorem run_moves {f : Option Str} {P : SeqSys ι → Prop}
    (hmove : ∀ s s' e, SeqMove s e s' → P s → P s') {s : SeqSys ι} (hs : s.Sound f)
    (h : P s) (es : List (ι × Bool)) : P (run seqStep s es) :=
  (run_invariant (P := fun s => s.Sound f ∧ P s)
    (fun _ e ⟨hs, h⟩ => ⟨hs.step e, hmove _ _ e (seqMove_seqStep hs e) h⟩) es ⟨hs, h⟩).2

/-- A call that creates the file, as a step. -/
theorem seqStep_creates {f : Option Str} {s : SeqSys ι} (hs : s.Sound f) {e : ι × Bool}
    (hcreate : s.calls e.1 = .missing ∨ s.calls e.1 = .noDir) (hok : e.2 = true) :
    (seqStep s e).file = some [] ∧ (seqStep s e).phase = s.phase ∧
      (seqStep s e).returned = s.returned := by
  have hphase := seqSys_phase_update (c := .opened) hs.inside_iff
    (show (s.calls e.1).inside = false by obtain h | h := hcreate <;> rw [h] <;> rfl)
    (some []) s.returned
  obtain h | h := hcreate
  · simp only [seqStep, h, hok, if_true]
    exact ⟨trivial, hphase, trivial⟩
  · simp only [seqStep, h, hok, if_true]
    exact ⟨trivial, hphase, trivial⟩

/-- Where a number is lost, the file ends behind the numbers returned. -/
theorem lost_of_not_met {f : Option Str} {es : List (ι × Bool)}
    (h : ¬ Met seqStep SeqSys.CreatesNew (seqStart f) es) :
    f = none ∧ (run seqStep (seqStart f) es).Behind 1 := by
  obtain ⟨before, e, after, rfl, hnew⟩ := exists_of_not_met h
  have hs := sound_run f before
  have hcreate : ((run seqStep (seqStart f) before).calls e.1 = .missing ∨
      (run seqStep (seqStart f) before).calls e.1 = .noDir) ∧ e.2 = true := by
    by_contra hc
    exact hnew fun h1 h2 => absurd ⟨h1, h2⟩ hc
  have hf : f = none := hs.missing e.1 hcreate.1
  refine ⟨hf, ?_⟩
  have hstart : (seqStart f : SeqSys ι).Behind 0 := by
    subst hf
    exact ⟨.inl rfl, Int.le_refl 0⟩
  have hbefore : (run seqStep (seqStart f) before).Behind 0 :=
    run_moves (fun _ _ _ hm => hm.behind (by decide)) (sound_seqStart f) hstart before
  obtain ⟨hfile, hphase, hret⟩ := seqStep_creates hs hcreate.1 hcreate.2
  rw [run_append, run_cons]
  exact run_moves (fun _ _ _ hm => hm.behind (by decide)) (hs.step e)
    (hbefore.lost hnew hfile hphase hret) after

/-- Where no number is lost. -/
theorem exact_of_met {f : Option Str} {es : List (ι × Bool)}
    (hmet : Met seqStep SeqSys.CreatesNew (seqStart f) es) :
    (run seqStep (seqStart f) es).reached (seqValue f) ≤ 2 ^ 63 - 1 →
      (run seqStep (seqStart f) es).Exact (seqValue f) := by
  refine (run_induct (P := fun s : SeqSys ι => s.Sound f ∧
    (s.reached (seqValue f) ≤ 2 ^ 63 - 1 → s.Exact (seqValue f))) ?_ es ?_ hmet).2
  · rintro s e ⟨hs, h⟩ hnew
    exact ⟨hs.step e, (seqMove_seqStep hs e).exact (seqValue_le f) hnew h⟩
  · exact ⟨sound_seqStart f, fun _ => ⟨rfl, rfl⟩⟩

/-- The numbers returned are pairwise distinct and the file has the initial
one plus the number of calls, if and only if every call that creates the file
finds none with a number, the numbers stay within a `long`, and the initial one
is not below -1, or no call returned. -/
theorem sequencerNx_distinct_iff (f : Option Str) (es : List (ι × Bool))
    (hover : (run seqStep (seqStart f) es).Over) :
    ((run seqStep (seqStart f) es).returned.Nodup ∧
      seqValue (run seqStep (seqStart f) es).file =
        seqValue f + (run seqStep (seqStart f) es).returned.length) ↔
    Met seqStep SeqSys.CreatesNew (seqStart f) es ∧
      seqValue f + (run seqStep (seqStart f) es).returned.length ≤ 2 ^ 63 - 1 ∧
      (-1 ≤ seqValue f ∨ (run seqStep (seqStart f) es).returned = []) := by
  have hidle := hover.idle (sound_run f es)
  have hreached : (run seqStep (seqStart f) es).reached (seqValue f) =
      max (seqValue f) (-1) + (run seqStep (seqStart f) es).returned.length := by
    rw [SeqSys.reached, hidle]
    exact Int.add_zero _
  have hlong := seqValue_le f
  constructor
  · rintro ⟨hnodup, hvalue⟩
    have hmet : Met seqStep SeqSys.CreatesNew (seqStart f) es := by
      by_contra hmet
      obtain ⟨rfl, -, hbehind⟩ := lost_of_not_met hmet
      rw [hidle] at hbehind
      have hzero : seqValue none = 0 := rfl
      dsimp only at hbehind
      omega
    refine ⟨hmet, ?_, ?_⟩
    · rw [← hvalue]
      exact seqValue_le _
    · by_contra hlow
      rw [not_or] at hlow
      have hranged : (run seqStep (seqStart f) es).Ranged :=
        run_moves (fun _ _ _ hm => hm.ranged) (sound_seqStart f)
          ⟨fun _ h => (nomatch h), trivial⟩ es
      have hcount := length_le_of_ranged hranged.1 hnodup
      obtain ⟨-, hexact⟩ := exact_of_met hmet (by omega)
      rw [hidle] at hexact
      dsimp only at hexact
      rw [if_neg hlow.2] at hexact
      omega
  · rintro ⟨hmet, hroom, hlow⟩
    have hbound : max (seqValue f) (-1) + (run seqStep (seqStart f) es).returned.length ≤
        2 ^ 63 - 1 := by
      obtain hlow | hnil := hlow
      · omega
      · rw [hnil] at hroom ⊢
        rw [List.length_nil] at hroom ⊢
        omega
    have hexact := exact_of_met hmet (by omega)
    refine ⟨hexact.nodup, ?_⟩
    obtain ⟨-, hval⟩ := hexact
    rw [hidle] at hval
    dsimp only at hval
    rw [hval]
    split
    · next hnil => rw [hnil, List.length_nil, Nat.cast_zero, add_zero]
    · next hnil =>
        obtain hlow | hnil' := hlow
        · rw [max_eq_left hlow]
        · exact absurd hnil' hnil

/-- A first call finds no file, then a second one, which goes all its way; the
first one continues. -/
def seqTwice : List (Bool × Bool) :=
  [(false, true), (true, true), (true, true), (true, true), (true, true), (true, true),
    (true, true), (false, true), (false, true), (false, true), (false, true), (false, true)]

/-- Both get the number 1. -/
theorem sequencerNx_repeats : (run seqStep (seqStart none) seqTwice).Over ∧
    ¬ ((run seqStep (seqStart none) seqTwice).returned.Nodup ∧
      seqValue (run seqStep (seqStart none) seqTwice).file =
        seqValue none + (run seqStep (seqStart none) seqTwice).returned.length) := by
  have hret : (run seqStep (seqStart none) seqTwice).returned = [1, 1] := by decide +kernel
  refine ⟨?_, fun h => ?_⟩
  · rintro (_ | _)
    · exact .inr (.inr ⟨1, by decide +kernel⟩)
    · exact .inr (.inr ⟨1, by decide +kernel⟩)
  · rw [hret] at h
    exact absurd h.1 (by decide)

/-- Two calls on a file that is there. -/
def seqTurns : List (Bool × Bool) :=
  [(false, true), (true, true), (false, true), (true, true), (false, true), (false, true),
    (false, true), (true, true), (true, true), (true, true), (true, true)]

theorem sequencerNx_distinct_two :
    (run seqStep (seqStart (some (lit "41\n"))) seqTurns).returned = [42, 43] ∧
      (run seqStep (seqStart (some (lit "41\n"))) seqTurns).returned.Nodup ∧
      seqValue (run seqStep (seqStart (some (lit "41\n"))) seqTurns).file =
        seqValue (some (lit "41\n")) +
          (run seqStep (seqStart (some (lit "41\n"))) seqTurns).returned.length := by
  have hret : (run seqStep (seqStart (some (lit "41\n"))) seqTurns).returned = [42, 43] := by
    decide +kernel
  have hvalue : seqValue (some (lit "41\n")) = 41 := by decide +kernel
  refine ⟨hret, (sequencerNx_distinct_iff (some (lit "41\n")) seqTurns ?_).mpr ⟨?_, ?_, .inl ?_⟩⟩
  · rintro (_ | _)
    · exact .inr (.inr ⟨42, by decide +kernel⟩)
    · exact .inr (.inr ⟨43, by decide +kernel⟩)
  · by_contra hmet
    exact absurd (lost_of_not_met hmet).1 (Option.some_ne_none _)
  · rw [hret, hvalue]
    decide
  · rw [hvalue]
    decide

end

end Fidogate

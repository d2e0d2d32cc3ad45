/-
# `Fidogate.Common.AreasbbsRewrite` — areasbbs.c: replacing areas.bbs

`areasbbs_rewrite` writes the list to a file of its own, renumbers the saved
files, moves areas.bbs to the first of them and the new file to areas.bbs.
The names are that of areas.bbs with other letters for its last three.  Every
call may fail and the program may be interrupted behind any of them; a write
error is found by the C library, but `areasbbs_print` hands its caller what
`ferror` says, which is never ERROR.

Between the last two calls there is no areas.bbs, which a reader takes for an
empty one, and nobody looks whether the calls behind `fclose` succeed
(`replaces_iff`).  The areas list has been changed throughout; without that the
function returns at once.
-/
import Fidogate.Common.AreasbbsFile
import Fidogate.Lib.Files

namespace Fidogate

open Bytes Files

/-! ## Names -/

/-- `N_HISTORY`: the number of saved files. -/
def N_HISTORY : Nat := 5

/-- The name up to `ovwr`; `p` is the expanded name of areas.bbs. -/
def baseName (p : Str) : Str := p.take (p.length - 3)

def bbsName (p : Str) : Str := baseName p ++ lit "bbs"

def newName (p : Str) : Str := baseName p ++ lit "new"

/-- The saved file of number `i`. -/
def oldName (p : Str) (i : Nat) : Str := baseName p ++ (lit "o" ++ putIntZ 2 i)

/-! ## The calls -/

/-- What befalls the calls.  `passing` is what the new file holds while it is
being written, and `wrote` what it has at the end if not all could be written;
the others say of each call that it succeeds, `renames i` of the one that
moves the saved file of number `i`. -/
structure Faults where
  opens : Bool
  passing : List Str
  wrote : Option Str
  closes : Bool
  removesNew : Bool
  removes : Bool
  renames : Nat → Bool
  saves : Bool
  replaces : Bool

/-- What `areasbbs_print` returns: `ferror`. -/
def Faults.ferror (f : Faults) : Int := if f.wrote.isSome then 1 else 0

/-- The new file is opened and written. -/
def writeCalls (p : Str) (f : Faults) (text : Str) : List (Call Str Str × Bool) :=
  (.write (newName p) [], true) ::
    (f.passing.map (fun t => (.write (newName p) t, true)) ++
      [(.write (newName p) (f.wrote.getD text), true)])

/-- The saved files are renumbered. -/
def renumberCalls (p : Str) (f : Faults) : List (Call Str Str × Bool) :=
  (.unlink (oldName p N_HISTORY), f.removes) :: rotate (oldName p) f.renames (N_HISTORY - 1)

/-- The last two calls. -/
def replaceCalls (p : Str) (f : Faults) : List (Call Str Str × Bool) :=
  [(.rename (bbsName p) (oldName p 1), f.saves), (.rename (newName p) (bbsName p), f.replaces)]

/-- `areasbbs_rewrite`: the calls and the value returned; `text` is what
`areasbbs_print` has to write. -/
def areasbbsRewrite (p : Str) (f : Faults) (text : Str) : List (Call Str Str × Bool) × Int :=
  if ! f.opens then ([], ERROR)
  else if f.ferror = ERROR then
    (writeCalls p f text ++ [(.unlink (newName p), f.removesNew)], ERROR)
  else if ! f.closes then
    (writeCalls p f text ++ [(.unlink (newName p), f.removesNew)], ERROR)
  else (writeCalls p f text ++ renumberCalls p f ++ replaceCalls p f, OK)

/-! ## What replacing is to do -/

section

variable (zone defzone : Int) (undef : Node)

/-- `areasbbs_init`: a file that is not there is an empty one. -/
def areasbbsInit (d : Dir Str Str) (name : Str) : Option AreasFile :=
  areasbbsRead zone defzone undef ((d name).getD [])

/-- The directory after the first `k` calls of a rewrite. -/
def rewritten (p : Str) (f : Faults) (file : AreasFile) (d : Dir Str Str) (k : Nat) : Dir Str Str :=
  exec d ((areasbbsRewrite p f (areasbbsPrint file)).1.take k)

/-- What the rewrite returns, unless it was interrupted. -/
def returned (p : Str) (f : Faults) (file : AreasFile) (k : Nat) : Option Int :=
  if (areasbbsRewrite p f (areasbbsPrint file)).1.length ≤ k then
    some (areasbbsRewrite p f (areasbbsPrint file)).2
  else none

/-- After `k` calls the file of the name reads as the old list or as the new
one, as the value returned says, and the saved files hold the old lists. -/
structure Replaces (p : Str) (f : Faults) (k : Nat) (d : Dir Str Str) (file : AreasFile) :
    Prop where
  complete : areasbbsInit zone defzone undef (rewritten p f file d k) p =
      areasbbsInit zone defzone undef d p ∨
    areasbbsInit zone defzone undef (rewritten p f file d k) p =
      areasbbsRead zone defzone undef (areasbbsPrint file)
  ok : returned p f file k = some OK →
    areasbbsInit zone defzone undef (rewritten p f file d k) p =
      areasbbsRead zone defzone undef (areasbbsPrint file)
  error : returned p f file k = some ERROR →
    areasbbsInit zone defzone undef (rewritten p f file d k) p =
      areasbbsInit zone defzone undef d p
  saved : returned p f file k = some OK →
    rewritten p f file d k (oldName p 1) = d p ∧
    ∀ i, 1 ≤ i → i < N_HISTORY → rewritten p f file d k (oldName p (i + 1)) = d (oldName p i)

end

/-! ## The names differ -/

theorem oldName_injective (p : Str) : Function.Injective (oldName p) := by
  intro i j h
  have h1 := List.append_cancel_left (List.append_cancel_left h)
  rw [← getDec_putIntZ 2 i, h1, getDec_putIntZ]

theorem oldName_ne_bbsName (p : Str) (i : Nat) : oldName p i ≠ bbsName p := by
  intro h
  exact absurd (List.cons.inj (List.append_cancel_left h)).1 (by decide)

theorem oldName_ne_newName (p : Str) (i : Nat) : oldName p i ≠ newName p := by
  intro h
  exact absurd (List.cons.inj (List.append_cancel_left h)).1 (by decide)

theorem newName_ne_bbsName (p : Str) : newName p ≠ bbsName p := by
  intro h
  exact absurd (List.append_cancel_left h) (by decide)

/-! ## What the calls touch -/

theorem ferror_ne_error (f : Faults) : f.ferror ≠ ERROR := by
  rw [Faults.ferror]
  split <;> decide

/-- The calls in front of the last two. -/
def frontCalls (p : Str) (f : Faults) (text : Str) : List (Call Str Str × Bool) :=
  writeCalls p f text ++ renumberCalls p f

/-- The number of the calls in front of the last two. -/
def Faults.saveAt (f : Faults) : Nat := f.passing.length + 2 + N_HISTORY

theorem length_frontCalls (p : Str) (f : Faults) (text : Str) :
    (frontCalls p f text).length = f.saveAt := by
  simp only [frontCalls, writeCalls, renumberCalls, Faults.saveAt, List.length_append,
    List.length_cons, List.length_map, List.length_nil, length_rotate]
  have hn : N_HISTORY = 5 := rfl
  omega

/-- A rewrite that cannot write the new list. -/
def Faults.GivesUp (f : Faults) : Prop := f.opens = false ∨ f.closes = false

/-- No call behind the writing fails, and all was written. -/
structure Faults.Undisturbed (f : Faults) : Prop where
  wrote : f.wrote = none
  removes : f.removes = true
  renames : ∀ i, 1 ≤ i → i < N_HISTORY → f.renames i = true
  saves : f.saves = true
  replaces : f.replaces = true

/-- The rewrite gives up before it touches the saved files, or is interrupted
before areas.bbs is moved away, or runs undisturbed to its end. -/
def Faults.Safe (f : Faults) (k : Nat) : Prop :=
  f.GivesUp ∨ k ≤ f.saveAt ∨ (k = f.saveAt + 1 ∧ f.saves = false) ∨
    (f.saveAt + 1 < k ∧ f.Undisturbed)

theorem areasbbsRewrite_through {f : Faults} (h : ¬ f.GivesUp) (p text : Str) :
    areasbbsRewrite p f text = (frontCalls p f text ++ replaceCalls p f, OK) := by
  have ho : f.opens = true := by
    by_contra hn
    exact h (Or.inl (Bool.not_eq_true _ ▸ hn))
  have hc : f.closes = true := by
    by_contra hn
    exact h (Or.inr (Bool.not_eq_true _ ▸ hn))
  rw [areasbbsRewrite, ho, hc, if_neg (by decide), if_neg (ferror_ne_error f), if_neg (by decide)]
  rfl

theorem writeCalls_touch {p text n : Str} {f : Faults} (hn : n ≠ newName p) :
    ∀ c ∈ writeCalls p f text, ¬ c.1.Touches n := by
  intro c hc
  rcases List.mem_cons.mp hc with rfl | hc
  · exact fun h => hn h.symm
  · rcases List.mem_append.mp hc with hc | hc
    · obtain ⟨t, _, rfl⟩ := List.mem_map.mp hc
      exact fun h => hn h.symm
    · rw [List.mem_singleton.mp hc]
      exact fun h => hn h.symm

/-- A rewrite that gives up says so and touches nothing but the new file. -/
theorem areasbbsRewrite_givesUp {f : Faults} (h : f.GivesUp) (p text : Str) :
    (areasbbsRewrite p f text).2 = ERROR ∧
      ∀ n, n ≠ newName p → ∀ c ∈ (areasbbsRewrite p f text).1, ¬ c.1.Touches n := by
  rw [areasbbsRewrite]
  by_cases ho : f.opens = false
  · rw [ho, if_pos (by decide)]
    exact ⟨rfl, fun n _ c hc => absurd hc List.not_mem_nil⟩
  · have hc : f.closes = false := h.resolve_left ho
    rw [Bool.not_eq_false] at ho
    rw [ho, hc, if_neg (by decide), if_neg (ferror_ne_error f), if_pos (by decide)]
    refine ⟨rfl, fun n hn c hc => ?_⟩
    rcases List.mem_append.mp hc with hc | hc
    · exact writeCalls_touch hn c hc
    · rw [List.mem_singleton.mp hc]
      exact fun h => hn h.symm

theorem renumberCalls_touch {p n : Str} {f : Faults} (hn : ∀ i, n ≠ oldName p i) :
    ∀ c ∈ renumberCalls p f, ¬ c.1.Touches n := by
  intro c hc
  rcases List.mem_cons.mp hc with rfl | hc
  · exact fun h => hn _ h.symm
  · obtain ⟨i, _, _, rfl⟩ := mem_rotate hc
    rintro (h | h)
    · exact hn _ h.symm
    · exact hn _ h.symm

theorem frontCalls_touch {p text n : Str} {f : Faults} (hnew : n ≠ newName p)
    (hold : ∀ i, n ≠ oldName p i) : ∀ c ∈ frontCalls p f text, ¬ c.1.Touches n := by
  intro c hc
  rcases List.mem_append.mp hc with hc | hc
  · exact writeCalls_touch hnew c hc
  · exact renumberCalls_touch hold c hc

/-! ## The directory behind the calls in front -/

theorem exec_writeCalls_new (p text : Str) (f : Faults) (d : Dir Str Str) :
    exec d (writeCalls p f text) (newName p) = some (f.wrote.getD text) := by
  rw [writeCalls, ← List.cons_append, exec_append, exec_cons, exec_nil, step_write,
    Function.update_self]

theorem exec_frontCalls_new (p text : Str) (f : Faults) (d : Dir Str Str) :
    exec d (frontCalls p f text) (newName p) = some (f.wrote.getD text) := by
  rw [frontCalls, exec_append,
    exec_of_not_touches (renumberCalls_touch fun i => (oldName_ne_newName p i).symm),
    exec_writeCalls_new]

theorem exec_frontCalls_bbs (p text : Str) (f : Faults) (d : Dir Str Str) :
    exec d (frontCalls p f text) (bbsName p) = d (bbsName p) :=
  exec_of_not_touches
    (frontCalls_touch (newName_ne_bbsName p).symm fun i => (oldName_ne_bbsName p i).symm)

/-- Renumbering moves every saved file to the next number, and the last one
out. -/
theorem exec_frontCalls_old {f : Faults} (hremoves : f.removes = true)
    (hrenames : ∀ i, 1 ≤ i → i < N_HISTORY → f.renames i = true) (p text : Str)
    (d : Dir Str Str) :
    exec d (frontCalls p f text) (oldName p 1) = none ∧
      ∀ i, 1 ≤ i → i < N_HISTORY →
        exec d (frontCalls p f text) (oldName p (i + 1)) = d (oldName p i) := by
  have hwrite : ∀ i, exec d (writeCalls p f text) (oldName p i) = d (oldName p i) := fun i =>
    exec_of_not_touches (writeCalls_touch (oldName_ne_newName p i))
  have hn : N_HISTORY - 1 + 1 = N_HISTORY := rfl
  have hlt : ∀ i, i ≤ N_HISTORY - 1 → i < N_HISTORY := fun i hi => by omega
  rw [frontCalls, exec_append, renumberCalls, exec_cons, hremoves, step_unlink]
  obtain ⟨hfirst, hrest⟩ := exec_rotate (oldName_injective p)
    (n := N_HISTORY - 1)
    (d := Function.update (exec d (writeCalls p f text)) (oldName p N_HISTORY) none)
    (Function.update_self _ _ _) fun i h1 hi => hrenames i h1 (hlt i hi)
  refine ⟨hfirst, fun i h1 hi => ?_⟩
  rw [hrest i h1 (by omega), Function.update_of_ne, hwrite]
  intro he
  exact absurd (oldName_injective p he) (by omega)

/-! ## The directory at an interruption and at the end -/

section

variable {p : Str} {f : Faults} {file : AreasFile} {d : Dir Str Str} {k : Nat}

theorem rewritten_front (h : ¬ f.GivesUp) (hk : k ≤ f.saveAt) :
    rewritten p f file d k = exec d ((frontCalls p f (areasbbsPrint file)).take k) := by
  rw [rewritten, areasbbsRewrite_through h, List.take_append_of_le_length]
  rwa [length_frontCalls]

theorem rewritten_saved (h : ¬ f.GivesUp) (hk : k = f.saveAt + 1) :
    rewritten p f file d k = step (exec d (frontCalls p f (areasbbsPrint file)))
      (.rename (bbsName p) (oldName p 1), f.saves) := by
  rw [rewritten, areasbbsRewrite_through h, hk, ← length_frontCalls p f (areasbbsPrint file),
    List.take_length_add_append, exec_append]
  rfl

theorem rewritten_done (h : ¬ f.GivesUp) (hk : f.saveAt + 1 < k) :
    rewritten p f file d k =
      step (step (exec d (frontCalls p f (areasbbsPrint file)))
          (.rename (bbsName p) (oldName p 1), f.saves))
        (.rename (newName p) (bbsName p), f.replaces) := by
  rw [rewritten, areasbbsRewrite_through h, List.take_of_length_le, exec_append]
  · rfl
  · rw [List.length_append, length_frontCalls]
    exact hk

theorem returned_through (h : ¬ f.GivesUp) :
    returned p f file k = if f.saveAt + 1 < k then some OK else none := by
  rw [returned, areasbbsRewrite_through h, List.length_append, length_frontCalls]
  rfl

theorem rewritten_givesUp (h : f.GivesUp) {n : Str} (hn : n ≠ newName p) :
    rewritten p f file d k n = d n :=
  exec_of_not_touches fun c hc =>
    (areasbbsRewrite_givesUp h p (areasbbsPrint file)).2 n hn c (List.mem_of_mem_take hc)

theorem returned_givesUp (h : f.GivesUp) : returned p f file k ≠ some OK := by
  rw [returned, (areasbbsRewrite_givesUp h p (areasbbsPrint file)).1]
  split
  · exact fun he => absurd (Option.some.inj he) (by decide)
  · exact fun he => absurd he (by simp)

/-- Up to the last two calls areas.bbs is what it was. -/
theorem rewritten_front_bbs (p : Str) (file : AreasFile) (d : Dir Str Str)
    (h : ¬ f.GivesUp) (hk : k ≤ f.saveAt) :
    rewritten p f file d k (bbsName p) = d (bbsName p) := by
  rw [rewritten_front h hk]
  exact exec_of_not_touches fun c hc =>
    frontCalls_touch (newName_ne_bbsName p).symm (fun i => (oldName_ne_bbsName p i).symm) c
      (List.mem_of_mem_take hc)

/-- When areas.bbs cannot be moved away it is what it was for one call more. -/
theorem rewritten_saved_bbs (p : Str) (file : AreasFile) (d : Dir Str Str)
    (h : ¬ f.GivesUp) (hk : k = f.saveAt + 1) :
    rewritten p f file d k (bbsName p) = if f.saves then none else d (bbsName p) := by
  rw [rewritten_saved h hk, step]
  split
  · exact rename_source (oldName_ne_bbsName p 1).symm
  · exact exec_frontCalls_bbs p _ f d

/-- At the end it is the new file, if that could be moved. -/
theorem rewritten_done_bbs (p : Str) (file : AreasFile) (d : Dir Str Str)
    (h : ¬ f.GivesUp) (hk : f.saveAt + 1 < k) :
    rewritten p f file d k (bbsName p) =
      if f.replaces then some (f.wrote.getD (areasbbsPrint file))
      else if f.saves then none else d (bbsName p) := by
  have hnew : step (exec d (frontCalls p f (areasbbsPrint file)))
      (.rename (bbsName p) (oldName p 1), f.saves) (newName p) =
      some (f.wrote.getD (areasbbsPrint file)) := by
    rw [step]
    split
    · rw [apply_of_not_touches, exec_frontCalls_new]
      rintro (he | he)
      · exact newName_ne_bbsName p he.symm
      · exact oldName_ne_newName p 1 he
    · exact exec_frontCalls_new p _ f d
  rw [rewritten_done h hk, step]
  split
  · rw [rename_target (.inr (by rw [hnew]; simp)), hnew]
  · rw [← rewritten_saved h rfl, rewritten_saved_bbs p file d h rfl]

/-- The last call leaves the saved files alone. -/
theorem rewritten_done_old (h : ¬ f.GivesUp) (hk : f.saveAt + 1 < k) (i : Nat) :
    rewritten p f file d k (oldName p i) =
      step (exec d (frontCalls p f (areasbbsPrint file)))
        (.rename (bbsName p) (oldName p 1), f.saves) (oldName p i) := by
  rw [rewritten_done h hk, step]
  split
  · refine apply_of_not_touches ?_
    rintro (he | he)
    · exact oldName_ne_newName p i he.symm
    · exact oldName_ne_bbsName p i he.symm
  · rfl

/-- The saved files are those of before, one number on. -/
theorem rewritten_saves (p : Str) (file : AreasFile) (d : Dir Str Str)
    (h : ¬ f.GivesUp) (hu : f.Undisturbed) (hk : f.saveAt + 1 < k) :
    rewritten p f file d k (oldName p 1) = d (bbsName p) ∧
      ∀ i, 1 ≤ i → i < N_HISTORY →
        rewritten p f file d k (oldName p (i + 1)) = d (oldName p i) := by
  obtain ⟨hfirst, hrest⟩ := exec_frontCalls_old hu.removes hu.renames p (areasbbsPrint file) d
  refine ⟨?_, fun i h1 hi => ?_⟩
  · rw [rewritten_done_old h hk, step, hu.saves, if_pos rfl, rename_target (.inl hfirst),
      exec_frontCalls_bbs]
  · rw [rewritten_done_old h hk, step, hu.saves, if_pos rfl, apply_of_not_touches, hrest i h1 hi]
    rintro (he | he)
    · exact oldName_ne_bbsName p (i + 1) he.symm
    · exact absurd (oldName_injective p he) (by omega)

end

/-! ## When areas.bbs is replaced as it should be -/

section

variable {zone defzone : Int} {undef : Node} {p : Str} {f : Faults} {k : Nat}

theorem areasbbsInit_congr {d d' : Dir Str Str} {name : Str} (h : d' name = d name) :
    areasbbsInit zone defzone undef d' name = areasbbsInit zone defzone undef d name := by
  rw [areasbbsInit, h]
  rfl

/-- Where the file of the name is left alone and the rewrite does not say OK,
all is as it should be. -/
theorem replaces_of_same {d : Dir Str Str} {file : AreasFile}
    (h : rewritten p f file d k p = d p) (hr : returned p f file k ≠ some OK) :
    Replaces zone defzone undef p f k d file :=
  ⟨Or.inl (areasbbsInit_congr h), fun he => absurd he hr, fun _ => areasbbsInit_congr h,
    fun he => absurd he hr⟩

theorem replaces_of_safe (hp : bbsName p = p) (hs : f.Safe k) (d : Dir Str Str)
    (file : AreasFile) : Replaces zone defzone undef p f k d file := by
  by_cases hg : f.GivesUp
  · refine replaces_of_same (rewritten_givesUp hg ?_) (returned_givesUp hg)
    exact fun he => newName_ne_bbsName p (he.symm.trans hp.symm)
  have hback : k ≤ f.saveAt + 1 → returned p f file k ≠ some OK := by
    intro hk
    rw [returned_through hg, if_neg (by omega)]
    simp
  rcases hs with hs | hk | ⟨hk, hsaves⟩ | ⟨hk, hu⟩
  · exact absurd hs hg
  · refine replaces_of_same ?_ (hback (by omega))
    have hsame := rewritten_front_bbs p file d hg hk
    rwa [hp] at hsame
  · refine replaces_of_same ?_ (hback (by omega))
    have hsame := rewritten_saved_bbs p file d hg hk
    rwa [hp, hsaves] at hsame
  · have hbbs : rewritten p f file d k p = some (areasbbsPrint file) := by
      have hnew := rewritten_done_bbs p file d hg hk
      rwa [hp, hu.replaces, hu.wrote, if_pos rfl] at hnew
    have hread : areasbbsInit zone defzone undef (rewritten p f file d k) p =
        areasbbsRead zone defzone undef (areasbbsPrint file) := by
      rw [areasbbsInit, hbbs]
      rfl
    refine ⟨Or.inr hread, fun _ => hread, ?_, fun _ => ?_⟩
    · rw [returned_through hg, if_pos hk]
      exact fun he => absurd (Option.some.inj he) (by decide)
    · have hsaved := rewritten_saves p file d hg hu hk
      rwa [hp] at hsaved

/-- A list of a first line and no areas. -/
def bareFile (c : UInt8) : AreasFile := (some [c], [])

theorem areasbbsRead_nil : areasbbsRead zone defzone undef [] = some (none, []) := rfl

theorem areasbbsRead_bare {c : UInt8} (h : c = 65 ∨ c = 66) :
    areasbbsRead zone defzone undef (areasbbsPrint (bareFile c)) = some (bareFile c) := by
  rcases h with rfl | rfl
  · rfl
  · rfl

/-- No text reads as both of two lists. -/
theorem exists_bare_ne (zone defzone : Int) (undef : Node) (t : Str) : ∃ c, (c = 65 ∨ c = 66) ∧
    areasbbsRead zone defzone undef t ≠ some (bareFile c) := by
  by_cases h : areasbbsRead zone defzone undef t = some (bareFile 65)
  · refine ⟨66, Or.inr rfl, ?_⟩
    rw [h]
    simp [bareFile]
  · exact ⟨65, Or.inl rfl, h⟩

/-- A directory with one file. -/
def oneFile (n t : Str) : Dir Str Str := Function.update (fun _ => none) n (some t)

theorem oneFile_self (n t : Str) : oneFile n t n = some t := Function.update_self _ _ _

theorem oneFile_ne {n m : Str} (h : m ≠ n) (t : Str) : oneFile n t m = none :=
  Function.update_of_ne h _ _

/-- The calls that give a saved file its content. -/
theorem target_of_mem (hg : ¬ f.GivesUp) {text : Str} {c : Call Str Str × Bool}
    (hc : c ∈ (areasbbsRewrite p f text).1) (hok : c.2 = true) {i : Nat}
    (ht : c.1.Target (oldName p i)) :
    (i = 1 ∧ f.saves = true) ∨
      ∃ j, 1 ≤ j ∧ j < N_HISTORY ∧ i = j + 1 ∧ f.renames j = true := by
  rw [areasbbsRewrite_through hg] at hc
  rcases List.mem_append.mp hc with hc | hc
  · rcases List.mem_append.mp hc with hc | hc
    · have hnew : ∀ t : Str, ¬ (Call.write (newName p) t).Target (oldName p i) :=
        fun _ he => oldName_ne_newName p i he.symm
      rcases List.mem_cons.mp hc with rfl | hc
      · exact absurd ht (hnew _)
      · rcases List.mem_append.mp hc with hc | hc
        · obtain ⟨t, _, rfl⟩ := List.mem_map.mp hc
          exact absurd ht (hnew _)
        · rw [List.mem_singleton.mp hc] at ht
          exact absurd ht (hnew _)
    · rcases List.mem_cons.mp hc with rfl | hc
      · exact absurd ht id
      · obtain ⟨j, h1, hj, rfl⟩ := mem_rotate hc
        have hn : N_HISTORY = 5 := rfl
        exact Or.inr ⟨j, h1, by omega, (oldName_injective p ht).symm, hok⟩
  · rcases List.mem_cons.mp hc with rfl | hc
    · exact Or.inl ⟨(oldName_injective p ht).symm, hok⟩
    · rw [List.mem_singleton.mp hc] at ht
      exact absurd ht.symm (oldName_ne_bbsName p i)

/-- A saved file that is not there stays away unless one of those succeeds. -/
theorem rewritten_old_none (hg : ¬ f.GivesUp) {d : Dir Str Str} {file : AreasFile} {i : Nat}
    (hd : d (oldName p i) = none)
    (hno : ¬ ((i = 1 ∧ f.saves = true) ∨
      ∃ j, 1 ≤ j ∧ j < N_HISTORY ∧ i = j + 1 ∧ f.renames j = true)) :
    rewritten p f file d k (oldName p i) = none :=
  exec_none hd fun _ hc hok ht => hno (target_of_mem hg (List.mem_of_mem_take hc) hok ht)

/-- The last saved file stays when it cannot be removed and there is none to
replace it. -/
theorem rewritten_old_last (hg : ¬ f.GivesUp) (hk : f.saveAt + 1 < k) (hr : f.removes = false)
    {d : Dir Str Str} {file : AreasFile} (hd : d (oldName p 4) = none) :
    rewritten p f file d k (oldName p 5) = d (oldName p 5) := by
  have hwrite : ∀ i, exec d (writeCalls p f (areasbbsPrint file)) (oldName p i) =
      d (oldName p i) := fun i =>
    exec_of_not_touches (writeCalls_touch (oldName_ne_newName p i))
  have hother : ∀ i, 1 ≤ i → i ≤ 3 + 1 → oldName p i ≠ oldName p 5 := by
    intro i _ hi he
    exact absurd (oldName_injective p he) (by omega)
  have hfirst : step (exec d (writeCalls p f (areasbbsPrint file)))
      (.rename (oldName p 4) (oldName p 5), f.renames 4) =
      exec d (writeCalls p f (areasbbsPrint file)) := by
    rw [step]
    split
    · exact apply_rename_none ((hwrite 4).trans hd)
    · rfl
  have hfront : exec d (frontCalls p f (areasbbsPrint file)) (oldName p 5) = d (oldName p 5) := by
    rw [frontCalls, exec_append, renumberCalls, exec_cons, hr, step_fails,
      show N_HISTORY - 1 = 3 + 1 from rfl, rotate, exec_cons, hfirst,
      exec_rotate_other _ hother, hwrite]
  rw [rewritten_done_old hg hk, step]
  split
  · rw [apply_of_not_touches, hfront]
    rintro (he | he)
    · exact oldName_ne_bbsName p 5 he.symm
    · exact absurd (oldName_injective p he) (by decide)
  · exact hfront

/-- The call that moves areas.bbs away: interrupted behind it, the file is
missing. -/
theorem saves_of_replaces (hp : bbsName p = p) (hg : ¬ f.GivesUp) (hk : k = f.saveAt + 1)
    (h : ∀ d file, Replaces zone defzone undef p f k d file) : f.saves = false := by
  by_contra hs
  rw [Bool.not_eq_false] at hs
  have hc := (h (oneFile p (areasbbsPrint (bareFile 65))) (bareFile 66)).complete
  have hbbs := rewritten_saved_bbs p (bareFile 66)
    (oneFile p (areasbbsPrint (bareFile 65))) hg hk
  rw [hp, hs, if_pos rfl] at hbbs
  rw [areasbbsInit, areasbbsInit, hbbs, oneFile_self, Option.getD_none, Option.getD_some,
    areasbbsRead_nil, areasbbsRead_bare (.inl rfl), areasbbsRead_bare (.inr rfl)] at hc
  simp [bareFile] at hc

/-- A rewrite that runs to its end says OK, so it must have been undisturbed. -/
theorem undisturbed_of_replaces (hp : bbsName p = p) (hg : ¬ f.GivesUp) (hk : f.saveAt + 1 < k)
    (h : ∀ d file, Replaces zone defzone undef p f k d file) : f.Undisturbed := by
  have hret : ∀ file, returned p f file k = some OK := fun file => by
    rw [returned_through hg, if_pos hk]
  have hreplaces : f.replaces = true := by
    by_contra hr
    rw [Bool.not_eq_true] at hr
    have hok := (h (fun _ => none) (bareFile 65)).ok (hret _)
    have hbbs := rewritten_done_bbs p (bareFile 65) (fun _ => none) hg hk
    rw [hp, hr, if_neg (by decide), ite_self] at hbbs
    rw [areasbbsInit, hbbs, Option.getD_none, areasbbsRead_nil, areasbbsRead_bare (.inl rfl)] at hok
    simp [bareFile] at hok
  have hwrote : f.wrote = none := by
    by_contra hw
    obtain ⟨t, ht⟩ := Option.ne_none_iff_exists'.mp hw
    obtain ⟨c, hc, hne⟩ := exists_bare_ne zone defzone undef t
    have hok := (h (fun _ => none) (bareFile c)).ok (hret _)
    have hbbs := rewritten_done_bbs p (bareFile c) (fun _ => none) hg hk
    rw [hp, hreplaces, if_pos rfl, ht, Option.getD_some] at hbbs
    rw [areasbbsInit, hbbs, Option.getD_some, areasbbsRead_bare hc] at hok
    exact hne hok
  refine ⟨hwrote, ?_, ?_, ?_, hreplaces⟩
  · by_contra hr
    rw [Bool.not_eq_true] at hr
    have hne : oldName p 4 ≠ oldName p 5 :=
      fun he => absurd (oldName_injective p he) (by decide)
    have hs := (h (oneFile (oldName p 5) []) (bareFile 65)).saved (hret _)
    have hlast := hs.2 4 (by decide) (by decide)
    rw [rewritten_old_last hg hk hr (oneFile_ne hne []), oneFile_self, oneFile_ne hne] at hlast
    exact absurd hlast (by simp)
  · intro j h1 hj
    by_contra hr
    have hs := (h (oneFile (oldName p j) []) (bareFile 65)).saved (hret _)
    have hnext := hs.2 j h1 hj
    rw [oneFile_self, rewritten_old_none hg] at hnext
    · exact absurd hnext (by simp)
    · exact oneFile_ne (fun he => absurd (oldName_injective p he) (by omega)) _
    · rintro (⟨he, _⟩ | ⟨j', _, _, he, hok⟩)
      · omega
      · obtain rfl : j = j' := by omega
        exact hr hok
  · by_contra hr
    have hs := (h (oneFile p []) (bareFile 65)).saved (hret _)
    have hfirst := hs.1
    rw [oneFile_self, rewritten_old_none hg] at hfirst
    · exact absurd hfirst (by simp)
    · exact oneFile_ne (fun he => oldName_ne_bbsName p 1 (he.trans hp.symm)) _
    · rintro (⟨_, hok⟩ | ⟨j', h1, _, he, _⟩)
      · exact hr hok
      · omega

/-- Under a name that ends in `bbs`: every rewrite that is safe replaces the
file as it should, and no other does so for every list. -/
theorem replaces_iff (hp : bbsName p = p) :
    (∀ d file, Replaces zone defzone undef p f k d file) ↔ f.Safe k := by
  constructor
  · intro h
    by_cases hg : f.GivesUp
    · exact Or.inl hg
    · rcases Nat.lt_trichotomy k (f.saveAt + 1) with hlt | heq | hgt
      · exact Or.inr (Or.inl (by omega))
      · exact Or.inr (Or.inr (Or.inl ⟨heq, saves_of_replaces hp hg heq h⟩))
      · exact Or.inr (Or.inr (Or.inr ⟨hgt, undisturbed_of_replaces hp hg hgt h⟩))
  · exact fun hs d file => replaces_of_safe hp hs d file

/-! ## Names that do not end in `bbs` -/

/-- Where there is no file but the new one, there is none but the new one and
the one it is moved to. -/
theorem rewritten_confined (hg : ¬ f.GivesUp) (hk : f.saveAt + 1 < k) {d : Dir Str Str}
    (hd : ∀ n, n ≠ newName p → d n = none) (file : AreasFile) {n : Str} (hn : n ≠ newName p)
    (hb : n ≠ bbsName p) : rewritten p f file d k n = none := by
  have hfront : ∀ c ∈ frontCalls p f (areasbbsPrint file) ++
      [(.rename (bbsName p) (oldName p 1), f.saves)], c.1.Confined (newName p) := by
    intro c hc
    rcases List.mem_append.mp hc with hc | hc
    · rcases List.mem_append.mp hc with hc | hc
      · rcases List.mem_cons.mp hc with rfl | hc
        · exact rfl
        · rcases List.mem_append.mp hc with hc | hc
          · obtain ⟨t, _, rfl⟩ := List.mem_map.mp hc
            exact rfl
          · rw [List.mem_singleton.mp hc]
            exact rfl
      · rcases List.mem_cons.mp hc with rfl | hc
        · exact trivial
        · obtain ⟨i, _, _, rfl⟩ := mem_rotate hc
          exact oldName_ne_newName p i
    · rw [List.mem_singleton.mp hc]
      exact (newName_ne_bbsName p).symm
  have hsaved := exec_confined hd hfront n hn
  rw [exec_append, exec_cons, exec_nil] at hsaved
  rw [rewritten_done hg hk, step]
  split
  · rw [apply_of_not_touches, hsaved]
    rintro (he | he)
    · exact hn he.symm
    · exact hb he.symm
  · exact hsaved

/-- The new list goes to another file, or the old one is saved from another. -/
theorem not_replaces_of_name (hp : bbsName p ≠ p) (hg : ¬ f.GivesUp) (hk : f.saveAt + 1 < k) :
    ¬ ∀ d file, Replaces zone defzone undef p f k d file := by
  intro h
  have hret : returned p f (bareFile 65) k = some OK := by rw [returned_through hg, if_pos hk]
  have hr := h (oneFile (newName p) []) (bareFile 65)
  by_cases hn : p = newName p
  · have hfirst := (hr.saved hret).1
    rw [rewritten_confined hg hk (fun n hn => oneFile_ne hn []) _ (oldName_ne_newName p 1)
      (oldName_ne_bbsName p 1)] at hfirst
    have hself := (congrArg (oneFile (newName p) []) hn).trans (oneFile_self (newName p) [])
    exact absurd (hfirst.trans hself) (by simp)
  · have hok := hr.ok hret
    rw [areasbbsInit, rewritten_confined hg hk (fun n hn => oneFile_ne hn []) _ hn hp.symm,
      Option.getD_none, areasbbsRead_nil, areasbbsRead_bare (.inl rfl)] at hok
    simp [bareFile] at hok

/-- The name of none of the files a rewrite works with. -/
def Apart (p : Str) : Prop := p ≠ bbsName p ∧ p ≠ newName p ∧ ∀ i, p ≠ oldName p i

theorem touch_of_apart (hp : Apart p) (text : Str) :
    ∀ c ∈ (areasbbsRewrite p f text).1, ¬ c.1.Touches p := by
  intro c hc
  by_cases hg : f.GivesUp
  · exact (areasbbsRewrite_givesUp hg p text).2 p hp.2.1 c hc
  · rw [areasbbsRewrite_through hg] at hc
    rcases List.mem_append.mp hc with hc | hc
    · exact frontCalls_touch hp.2.1 hp.2.2 c hc
    · rcases List.mem_cons.mp hc with rfl | hc
      · rintro (he | he)
        · exact hp.1 he.symm
        · exact hp.2.2 1 he.symm
      · rw [List.mem_singleton.mp hc]
        rintro (he | he)
        · exact hp.2.1 he.symm
        · exact hp.1 he.symm

/-- A rewrite that goes to other files does no harm until it says OK. -/
theorem replaces_of_apart (hp : Apart p) (hk : f.GivesUp ∨ k ≤ f.saveAt + 1) (d : Dir Str Str)
    (file : AreasFile) : Replaces zone defzone undef p f k d file := by
  refine replaces_of_same (exec_of_not_touches fun c hc =>
    touch_of_apart hp _ c (List.mem_of_mem_take hc)) ?_
  by_cases hg : f.GivesUp
  · exact returned_givesUp hg
  · rw [returned_through hg, if_neg (Nat.not_lt.mpr (hk.resolve_left hg))]
    simp

end

/-! ## One rewrite after the other -/

/-- A rewrite that is not interrupted: the directory, and what areas.bbs held
in front of each rewrite that said OK, newest first. -/
def rewriteStep (p : Str) (s : Dir Str Str × List (Option Str)) (e : Faults × AreasFile) :
    Dir Str Str × List (Option Str) :=
  let r := areasbbsRewrite p e.1 (areasbbsPrint e.2)
  (exec s.1 r.1, if r.2 = OK then s.1 p :: s.2 else s.2)

/-- The saved files hold the last lists, newest first. -/
def Saved (p : Str) (s : Dir Str Str × List (Option Str)) : Prop :=
  ∀ i (h : i < s.2.length), i < N_HISTORY → s.1 (oldName p (i + 1)) = s.2[i]

/-- A rewrite that gives up, or is undisturbed. -/
def Faults.Settled (f : Faults) : Prop := f.GivesUp ∨ f.Undisturbed

theorem saved_rewriteStep {p : Str} (hp : bbsName p = p) {s : Dir Str Str × List (Option Str)}
    (hs : Saved p s) {e : Faults × AreasFile} (he : e.1.Settled) : Saved p (rewriteStep p s e) := by
  by_cases hg : e.1.GivesUp
  · obtain ⟨hret, htouch⟩ := areasbbsRewrite_givesUp hg p (areasbbsPrint e.2)
    rw [rewriteStep, hret, if_neg (by decide)]
    intro i hi hn
    have hsame := exec_of_not_touches (d := s.1) (htouch _ (oldName_ne_newName p (i + 1)))
    exact hsame.trans (hs i hi hn)
  · have hu := he.resolve_left hg
    have hsaves := rewritten_saves p e.2 s.1
      (k := (areasbbsRewrite p e.1 (areasbbsPrint e.2)).1.length) hg hu (by
        rw [areasbbsRewrite_through hg, List.length_append, length_frontCalls]
        exact Nat.lt_succ_self _)
    rw [rewritten, List.take_length, hp] at hsaves
    have hret : (areasbbsRewrite p e.1 (areasbbsPrint e.2)).2 = OK := by
      rw [areasbbsRewrite_through hg]
    rw [rewriteStep, hret, if_pos rfl]
    intro i hi hn
    cases i with
    | zero => exact hsaves.1
    | succ i =>
        have hmoved := hsaves.2 (i + 1) (by omega) hn
        exact hmoved.trans (hs i (Nat.lt_of_succ_lt_succ hi) (by omega))

/-- After any number of rewrites, each given up or undisturbed, the saved
files hold the lists before. -/
theorem saved_run {p : Str} (hp : bbsName p = p) (d : Dir Str Str) {es : List (Faults × AreasFile)}
    (h : Run.Met (rewriteStep p) (fun _ e => e.1.Settled) (d, []) es) :
    Saved p (Run.run (rewriteStep p) (d, []) es) := by
  refine Run.run_induct (P := Saved p) (fun s e hs he => saved_rewriteStep hp hs he) es ?_ h
  exact fun i hi => absurd hi (Nat.not_lt_zero i)

/-- Nothing fails. -/
def noFaults : Faults :=
  { opens := true, passing := [], wrote := none, closes := true, removesNew := true,
    removes := true, renames := fun _ => true, saves := true, replaces := true }

end Fidogate

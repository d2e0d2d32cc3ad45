/-
# `Fidogate.Gate.Ftninpost` — ftninpost.c: the gateway's files given to mail and news

Each file of a directory is given to a command and removed, or renamed to
`*.bad` where that fails.  A file carries the path it was found under, so that
it is known again under its other name (`RfcFile`); what the calls give is
listed for each file (`PostOutcome`).
-/
import Fidogate.Common.Read
import Fidogate.Lib.Files
import Fidogate.Tick.DoTic
import Mathlib.Data.List.Sort

namespace Fidogate

open Bytes

/-! ## The program -/

/-- A file: the path it was found under, and its text. -/
structure RfcFile where
  path : Str
  text : Str
  deriving DecidableEq, Repr

/-- The exit code `run_system` makes of the status of `system`. -/
def runSystem (status : Int) : Int := status / 256 % 256

/-- The status is that of a command that ended with exit code 0. -/
def exitedZero (status : Int) : Bool := status % 128 == 0 && status / 256 % 256 == 0

/-- `dir_open` with the pattern `*.rfc`: the paths in the order of `dir_get`. -/
def dirOpenRfc (files : Files.Dir Str RfcFile) (dir : Str) (names : List Str) :
    Option (List Str) :=
  let paths := (names.filter (wildmatch · (lit "*.rfc") true)).map fun n =>
    bufCopy MAXPATH (dir ++ lit "/" ++ n)
  if paths.all fun p => (files p).isSome then
    some (paths.insertionSort fun a b => ! decide (b < a))
  else none

/-- `str_printf` with a format that has one `%s`. -/
def printfS (size : Nat) (fmt arg : Str) : Str :=
  match fmt.tails.find? (lit "%s").isPrefixOf with
  | none => bufCopy size fmt
  | some t => bufCopy size (fmt.take (fmt.length - t.length) ++ arg ++ t.drop 2)

/-- The command for a mail: with `-f%s` the sender of the `From ` line goes
into it, and without that line there is none. -/
def mailCommand (sendmail : Str) (text : Option Str) : Option Str :=
  match sendmail.tails.find? (lit " -f").isPrefixOf with
  | none => some sendmail
  | some t =>
      if (lit "%s").isPrefixOf ((t.drop 3).dropWhile (· == sp)) then do
        let (line, _) ← fgets BUFFERSIZE (← text)
        if (lit "From ").isPrefixOf line then
          some (printfS (MAXPATH + 128) sendmail
            (((strtokExt true blanks (line.drop 5)).map (·.1)).getD (lit "(null)")))
        else none
      else some sendmail

/-- The modes of `do_dir`: nothing, mail, news. -/
inductive PostMode
  | unsplit
  | mail (sendmail : Str)
  | news (rnews : Str)

/-- The command for a file, from its text if it can be opened. -/
def PostMode.command : PostMode → Option Str → Option Str
  | .unsplit, _ => none
  | .mail sendmail, text => mailCommand sendmail text
  | .news rnews, _ => some rnews

/-- What a file meets: `fopen`, `freopen`, the status of `system` for the
command, `rename` and `unlink`. -/
structure PostOutcome where
  opens : Bool
  redirects : Bool
  status : Str → Int
  renames : Bool
  unlinks : Bool

/-- The files, and those whose commands have ended with exit code 0. -/
structure Post where
  files : Files.Dir Str RfcFile
  delivered : List RfcFile

/-- The name of a bad file. -/
def rfcBad (path : Str) : Str := strChangeExt MAXPATH path (lit ".bad")

/-- The command is run with the file as its input. -/
def Post.started (s : Post) (path : Str) (o : PostOutcome) : Option RfcFile :=
  if o.redirects then s.files path else none

/-- What is done to the file behind the command. -/
def postCalls (path : Str) (o : PostOutcome) (ok : Bool) : List (Files.Call Str RfcFile × Bool) :=
  (if ok then [] else [(.rename path (rfcBad path), o.renames)]) ++ [(.unlink path, o.unlinks)]

/-- The body of the loop of `do_dir`. -/
def postFile (m : PostMode) (s : Post) (e : Str × PostOutcome) : Post :=
  let (path, o) := e
  match m.command (if o.opens then (s.files path).map (·.text) else none) with
  | none => s
  | some cmd =>
      match s.started path o with
      | some file =>
          { files := Files.exec s.files (postCalls path o (runSystem (o.status cmd) == OK))
            delivered := if exitedZero (o.status cmd) then s.delivered ++ [file]
              else s.delivered }
      | none => { s with files := Files.exec s.files (postCalls path o false) }

/-- The files of the directory with what they meet. -/
def postEntries (os : Nat → PostOutcome) (paths : List Str) : List (Str × PostOutcome) :=
  paths.zipIdx.map fun e => (e.1, os e.2)

/-- `do_dir`. -/
def postDir (m : PostMode) (files : Files.Dir Str RfcFile) (dir : Str) (names : List Str)
    (os : Nat → PostOutcome) : Post × Int :=
  match dirOpenRfc files dir names with
  | none => (⟨files, []⟩, ERROR)
  | some paths => (Run.run (postFile m) ⟨files, []⟩ (postEntries os paths), OK)

/-! ## Where a file can be -/

/-- The files of a directory as they are found. -/
def foundFiles (texts : Files.Dir Str Str) : Files.Dir Str RfcFile :=
  fun path => (texts path).map (RfcFile.mk path)

/-- A file is under its own name or the one of a bad file, and nowhere else. -/
structure Placed (files : Files.Dir Str RfcFile) : Prop where
  place : ∀ {p f}, files p = some f → p = f.path ∨ p = rfcBad f.path
  once : ∀ {p q f}, files p = some f → files q = some f → p = q

/-- A file that is to be kept is at a place and has not been delivered. -/
def Owed (msgs : RfcFile → Prop) (s : Post) (p : Str) : Prop :=
  ∃ f, s.files p = some f ∧ msgs f ∧ f ∉ s.delivered

/-- All of them have been delivered or are somewhere. -/
def AllKept (msgs : RfcFile → Prop) (s : Post) : Prop :=
  ∀ f, msgs f → f ∈ s.delivered ∨ ∃ p, s.files p = some f

theorem placed_found (texts : Files.Dir Str Str) : Placed (foundFiles texts) := by
  have h : ∀ {p f}, foundFiles texts p = some f → p = f.path := by
    intro p f hf
    obtain ⟨t, -, rfl⟩ := Option.map_eq_some_iff.mp hf
    rfl
  exact ⟨fun hp => Or.inl (h hp), fun hp hq => (h hp).trans (h hq).symm⟩

/-- What the buffers hold of a path, but for its extension. -/
def rfcStem (p : Str) : Str := (p.take 4095).take ((p.take 4095).length - 4)

theorem length_rfcStem (p : Str) : (rfcStem p).length ≤ 4091 := by
  unfold rfcStem
  rw [List.length_take, List.length_take]
  omega

theorem rfcBad_eq (p : Str) : rfcBad p = rfcStem p ++ lit ".bad" := by
  have hstem := length_rfcStem p
  refine List.take_of_length_le ?_
  rw [List.length_append]
  show (rfcStem p).length + 4 ≤ 4095
  omega

/-- A bad file keeps its name when it is renamed again. -/
theorem rfcBad_rfcBad (p : Str) : rfcBad (rfcBad p) = rfcBad p := by
  have hstem := length_rfcStem p
  have hlen : (rfcStem p ++ lit ".bad").length = (rfcStem p).length + 4 := List.length_append
  have htake : (rfcStem p ++ lit ".bad").take 4095 = rfcStem p ++ lit ".bad" :=
    List.take_of_length_le (by omega)
  have hsame : rfcStem (rfcStem p ++ lit ".bad") = rfcStem p := by
    rw [rfcStem, htake, hlen, Nat.add_sub_cancel, List.take_left']
    rfl
  rw [rfcBad_eq, rfcBad_eq, hsame]

section

variable {files : Files.Dir Str RfcFile} {path : Str} {o : PostOutcome}

theorem exec_postCalls_ok :
    Files.exec files (postCalls path o true) =
      if o.unlinks then Function.update files path none else files := by
  unfold postCalls
  cases o.unlinks <;> rfl

/-- The directory with a file under the name of a bad one. -/
def moved (files : Files.Dir Str RfcFile) (path : Str) : Files.Dir Str RfcFile :=
  Function.update (Function.update files path none) (rfcBad path) (files path)

/-- The file gets the name of a bad file. -/
def Moves (files : Files.Dir Str RfcFile) (path : Str) (o : PostOutcome) : Prop :=
  o.renames = true ∧ rfcBad path ≠ path ∧ files path ≠ none

instance : Decidable (Moves files path o) := inferInstanceAs (Decidable (_ ∧ _ ∧ _))

theorem exec_postCalls_moves (h : Moves files path o) :
    Files.exec files (postCalls path o false) = moved files path := by
  obtain ⟨hr, hne, hf⟩ := h
  obtain ⟨f, hf⟩ := Option.ne_none_iff_exists'.mp hf
  unfold postCalls
  rw [if_neg Bool.false_ne_true, List.singleton_append, Files.exec_cons, Files.exec_cons,
    Files.exec_nil, hr]
  have hmove : Files.step files (.rename path (rfcBad path), true) =
      Function.update (Function.update files path none) (rfcBad path) (some f) :=
    Files.apply_rename_some hf
  rw [hmove, moved, hf]
  cases o.unlinks with
  | false => rfl
  | true =>
      rw [Files.step_unlink]
      funext p
      by_cases hp : p = path
      · rw [hp, Function.update_self, Function.update_of_ne (Ne.symm hne), Function.update_self]
      · rw [Function.update_of_ne hp]

theorem exec_postCalls_stays (h : ¬ Moves files path o) :
    Files.exec files (postCalls path o false) =
      if o.unlinks then Function.update files path none else files := by
  have hstep : Files.step files (.rename path (rfcBad path), o.renames) = files := by
    unfold Files.step
    split
    · next hr =>
        by_cases hf : files path = none
        · exact Files.apply_rename_none hf
        · have hsame : rfcBad path = path := by
            by_contra hne
            exact h ⟨hr, hne, hf⟩
          obtain ⟨f, hf⟩ := Option.ne_none_iff_exists'.mp hf
          dsimp only
          rw [Files.apply_rename_some hf, hsame, Function.update_idem, ← hf,
            Function.update_eq_self]
    · rfl
  unfold postCalls
  rw [if_neg Bool.false_ne_true, List.singleton_append, Files.exec_cons, hstep]
  cases o.unlinks <;> rfl

end

/-! ## What a step keeps -/

section

variable {msgs : RfcFile → Prop} {s : Post}

/-- Files that are nowhere else may go, or stay. -/
theorem Placed.removed {files : Files.Dir Str RfcFile} (h : Placed files) (path : Str) :
    Placed (Function.update files path none) := by
  have hof : ∀ {p f}, Function.update files path none p = some f → files p = some f := by
    intro p f hf
    by_cases hp : p = path
    · rw [hp, Function.update_self] at hf
      cases hf
    · rwa [Function.update_of_ne hp] at hf
  exact ⟨fun hp => h.place (hof hp), fun hp hq => h.once (hof hp) (hof hq)⟩

/-- The file of a name that is renamed. -/
theorem moved_iff {files : Files.Dir Str RfcFile} {path p : Str} {f : RfcFile}
    (hne : rfcBad path ≠ path) :
    moved files path p = some f ↔
      p = rfcBad path ∧ files path = some f ∨
        p ≠ rfcBad path ∧ p ≠ path ∧ files p = some f := by
  unfold moved
  by_cases hb : p = rfcBad path
  · rw [hb, Function.update_self]
    exact ⟨fun h => Or.inl ⟨rfl, h⟩, fun h => h.elim (·.2) fun h => absurd rfl h.1⟩
  · rw [Function.update_of_ne hb]
    by_cases hp : p = path
    · rw [hp, Function.update_self]
      refine ⟨fun h => ?_, fun h => h.elim (fun h => absurd h.1.symm hne)
        fun h => absurd rfl h.2.1⟩
      cases h
    · rw [Function.update_of_ne hp]
      exact ⟨fun h => Or.inr ⟨hb, hp, h⟩, fun h => h.elim (fun h => absurd h.1 hb) (·.2.2)⟩

theorem Placed.moved {files : Files.Dir Str RfcFile} (h : Placed files) {path : Str}
    (hne : rfcBad path ≠ path) : Placed (Fidogate.moved files path) := by
  constructor
  · intro p f hf
    rcases (moved_iff hne).mp hf with ⟨hp, hf⟩ | ⟨-, -, hf⟩
    · rcases h.place hf with hf | hf
      · exact Or.inr (hp.trans (congrArg rfcBad hf))
      · exact Or.inr (hp.trans ((congrArg rfcBad hf).trans (rfcBad_rfcBad f.path)))
    · exact h.place hf
  · intro p q f hp hq
    rcases (moved_iff hne).mp hp with ⟨hpb, hp⟩ | ⟨-, hpp, hp⟩
    · rcases (moved_iff hne).mp hq with ⟨hqb, -⟩ | ⟨-, hqp, hq⟩
      · exact hpb.trans hqb.symm
      · exact absurd (h.once hq hp) hqp
    · rcases (moved_iff hne).mp hq with ⟨-, hq⟩ | ⟨-, -, hq⟩
      · exact absurd (h.once hp hq) hpp
      · exact h.once hp hq

/-- A name is removed without a loss just if nothing is owed there. -/
theorem allKept_removed_iff (h : Placed s.files) (hk : AllKept msgs s) (path : Str) :
    AllKept msgs { s with files := Function.update s.files path none } ↔ ¬ Owed msgs s path := by
  constructor
  · rintro hk' ⟨f, hf, hm, hd⟩
    obtain ⟨p, hp⟩ := (hk' f hm).resolve_left hd
    by_cases hpp : p = path
    · rw [hpp] at hp
      simp at hp
    · dsimp only at hp
      rw [Function.update_of_ne hpp] at hp
      exact hpp (h.once hp hf)
  · intro ho f hm
    rcases hk f hm with hd | ⟨p, hp⟩
    · exact Or.inl hd
    · by_cases hpp : p = path
      · refine Or.inl (by_contra fun hd => ho ⟨f, hpp ▸ hp, hm, hd⟩)
      · exact Or.inr ⟨p, (Function.update_of_ne hpp _ _).trans hp⟩

/-- A file is renamed without a loss just if nothing is owed at its new name. -/
theorem allKept_moved_iff (h : Placed s.files) (hk : AllKept msgs s) {path : Str}
    (hne : rfcBad path ≠ path) :
    AllKept msgs { s with files := moved s.files path } ↔ ¬ Owed msgs s (rfcBad path) := by
  constructor
  · rintro hk' ⟨f, hf, hm, hd⟩
    obtain ⟨p, hp⟩ := (hk' f hm).resolve_left hd
    rcases (moved_iff hne).mp hp with ⟨-, hp⟩ | ⟨hpb, -, hp⟩
    · exact hne (h.once hf hp)
    · exact hpb (h.once hp hf)
  · intro ho f hm
    rcases hk f hm with hd | ⟨p, hp⟩
    · exact Or.inl hd
    · by_cases hpb : p = rfcBad path
      · exact Or.inl (by_contra fun hd => ho ⟨f, hpb ▸ hp, hm, hd⟩)
      · by_cases hpp : p = path
        · exact Or.inr ⟨rfcBad path, (moved_iff hne).mpr (Or.inl ⟨rfl, hpp ▸ hp⟩)⟩
        · exact Or.inr ⟨p, (moved_iff hne).mpr (Or.inr ⟨hpb, hpp, hp⟩)⟩

/-- What one file can do to the directory. -/
theorem postFile_cases (m : PostMode) (s : Post) (path : Str) (o : PostOutcome) :
    m.command (if o.opens then (s.files path).map (·.text) else none) = none ∧
      postFile m s (path, o) = s ∨
    ∃ cmd, m.command (if o.opens then (s.files path).map (·.text) else none) = some cmd ∧
      ((∃ f, s.started path o = some f ∧ runSystem (o.status cmd) = OK ∧
        postFile m s (path, o) =
          { files := if o.unlinks then Function.update s.files path none else s.files
            delivered := if exitedZero (o.status cmd) then s.delivered ++ [f]
              else s.delivered }) ∨
      ¬ ((s.started path o).isSome = true ∧ runSystem (o.status cmd) = OK) ∧
        postFile m s (path, o) =
          { s with files :=
              if Moves s.files path o then moved s.files path
              else if o.unlinks then Function.update s.files path none else s.files }) := by
  have hbad : Files.exec s.files (postCalls path o false) =
      if Moves s.files path o then moved s.files path
      else if o.unlinks then Function.update s.files path none else s.files := by
    split
    · next hm => exact exec_postCalls_moves hm
    · next hm => exact exec_postCalls_stays hm
  unfold postFile
  dsimp only
  cases hc : m.command (if o.opens then (s.files path).map (·.text) else none) with
  | none => exact Or.inl ⟨rfl, rfl⟩
  | some cmd =>
      refine Or.inr ⟨cmd, rfl, ?_⟩
      dsimp only
      cases hs : s.started path o with
      | none =>
          refine Or.inr ⟨fun h => (by cases h.1), ?_⟩
          dsimp only
          rw [hbad]
      | some f =>
          dsimp only
          by_cases hr : runSystem (o.status cmd) = OK
          · refine Or.inl ⟨f, rfl, hr, ?_⟩
            rw [beq_iff_eq.mpr hr, exec_postCalls_ok]
          · refine Or.inr ⟨fun h => hr h.2, ?_⟩
            have hz : exitedZero (o.status cmd) = false := by
              refine Bool.eq_false_iff.mpr fun hz => hr ?_
              exact beq_iff_eq.mp ((Bool.and_eq_true _ _).mp hz).2
            rw [hz, beq_eq_false_iff_ne.mpr hr, hbad]
            rfl

/-- The condition on a file and what it meets, in the directory as it is: where
no command is run nothing happens to it, a command taken for one that
succeeded is one, and a file not taken so gets a name where nothing is owed.
Otherwise it is not removed, or nothing is owed under its own name. -/
def PostOk (m : PostMode) (msgs : RfcFile → Prop) (s : Post) (e : Str × PostOutcome) : Prop :=
  ∀ cmd, m.command (if e.2.opens then (s.files e.1).map (·.text) else none) = some cmd →
    if (s.started e.1 e.2).isSome = true ∧ runSystem (e.2.status cmd) = OK then
      exitedZero (e.2.status cmd) = true ∨ e.2.unlinks = false ∨ ¬ Owed msgs s e.1
    else if Moves s.files e.1 e.2 then ¬ Owed msgs s (rfcBad e.1)
    else e.2.unlinks = false ∨ ¬ Owed msgs s e.1

theorem placed_postFile (m : PostMode) (s : Post) (e : Str × PostOutcome)
    (h : Placed s.files) : Placed (postFile m s e).files := by
  have hremoved : Placed (if e.2.unlinks then Function.update s.files e.1 none else s.files) := by
    split
    · exact h.removed e.1
    · exact h
  rcases postFile_cases m s e.1 e.2 with ⟨-, he⟩ | ⟨cmd, -, ⟨f, -, -, he⟩ | ⟨-, he⟩⟩
  · rw [he]
    exact h
  · rw [he]
    exact hremoved
  · rw [he]
    dsimp only
    split
    · next hm => exact h.moved hm.2.1
    · exact hremoved

theorem started_eq_some {s : Post} {path : Str} {o : PostOutcome} {f : RfcFile}
    (h : s.started path o = some f) : s.files path = some f := by
  unfold Post.started at h
  split at h
  · exact h
  · cases h

/-- What is lost is not found again. -/
theorem allKept_of_postFile {m : PostMode} {e : Str × PostOutcome}
    (h : AllKept msgs (postFile m s e)) : AllKept msgs s := by
  intro f hm
  have hremoved : ∀ {p}, (if e.2.unlinks then Function.update s.files e.1 none else s.files) p =
      some f → s.files p = some f := by
    intro p hp
    split at hp
    · by_cases hpp : p = e.1
      · rw [hpp, Function.update_self] at hp
        cases hp
      · rwa [Function.update_of_ne hpp] at hp
    · exact hp
  have hf := h f hm
  rcases postFile_cases m s e.1 e.2 with ⟨-, he⟩ | ⟨cmd, -, ⟨g, hg, -, he⟩ | ⟨-, he⟩⟩
  · rwa [he] at hf
  · rw [he] at hf
    rcases hf with hd | ⟨p, hp⟩
    · dsimp only at hd
      split at hd
      · rcases List.mem_append.mp hd with hd | hd
        · exact Or.inl hd
        · exact Or.inr ⟨e.1, List.mem_singleton.mp hd ▸ started_eq_some hg⟩
      · exact Or.inl hd
    · exact Or.inr ⟨p, hremoved hp⟩
  · rw [he] at hf
    refine hf.imp_right fun ⟨p, hp⟩ => ?_
    dsimp only at hp
    split at hp
    · next hmoves =>
        rcases (moved_iff hmoves.2.1).mp hp with ⟨-, hp⟩ | ⟨-, -, hp⟩
        · exact ⟨e.1, hp⟩
        · exact ⟨p, hp⟩
    · exact ⟨p, hremoved hp⟩

/-- A step loses nothing just under the condition. -/
theorem allKept_postFile_iff (m : PostMode) (e : Str × PostOutcome) (h : Placed s.files)
    (hk : AllKept msgs s) : AllKept msgs (postFile m s e) ↔ PostOk m msgs s e := by
  have hremoved : AllKept msgs
        { s with files := if e.2.unlinks then Function.update s.files e.1 none else s.files } ↔
      e.2.unlinks = false ∨ ¬ Owed msgs s e.1 := by
    cases hu : e.2.unlinks with
    | false =>
        rw [if_neg Bool.false_ne_true]
        exact ⟨fun _ => Or.inl rfl, fun _ => hk⟩
    | true =>
        rw [if_pos rfl, allKept_removed_iff h hk]
        exact ⟨Or.inr, fun ho => ho.resolve_left Bool.noConfusion⟩
  unfold PostOk
  rcases postFile_cases m s e.1 e.2 with ⟨hc, he⟩ | ⟨cmd, hc, ⟨f, hf, hr, he⟩ | ⟨hno, he⟩⟩
  · rw [he, hc]
    refine ⟨fun _ cmd h => ?_, fun _ => hk⟩
    cases h
  · rw [he, hc]
    simp only [Option.some.injEq, forall_eq']
    have hyes : (s.started e.1 e.2).isSome = true ∧ runSystem (e.2.status cmd) = OK :=
      ⟨by rw [hf]; rfl, hr⟩
    rw [if_pos hyes]
    cases hz : exitedZero (e.2.status cmd) with
    | false =>
        rw [if_neg Bool.false_ne_true, hremoved]
        exact ⟨Or.inr, fun h => h.resolve_left Bool.noConfusion⟩
    | true =>
        rw [if_pos rfl]
        refine ⟨fun _ => Or.inl rfl, fun _ g hg => ?_⟩
        -- the file that may be gone has been delivered
        rcases hk g hg with hd | ⟨p, hp⟩
        · exact Or.inl (List.mem_append_left _ hd)
        · by_cases hpp : p = e.1
          · have hfg : f = g := Option.some.inj ((started_eq_some hf).symm.trans (hpp ▸ hp))
            exact Or.inl (List.mem_append_right _ (List.mem_singleton.mpr hfg.symm))
          · refine Or.inr ⟨p, ?_⟩
            dsimp only
            split
            · exact (Function.update_of_ne hpp _ _).trans hp
            · exact hp
  · rw [he, hc]
    simp only [Option.some.injEq, forall_eq']
    rw [if_neg hno]
    by_cases hm : Moves s.files e.1 e.2
    · rw [if_pos hm, if_pos hm, allKept_moved_iff h hk hm.2.1]
    · rw [if_neg hm, if_neg hm, hremoved]

end

/-! ## The directory -/

/-- The `.rfc` files of a directory. -/
def RfcFiles (texts : Files.Dir Str Str) (dir : Str) (names : List Str) (f : RfcFile) : Prop :=
  ∃ n ∈ names, wildmatch n (lit "*.rfc") true = true ∧ f.path = dir ++ lit "/" ++ n ∧
    texts f.path = some f.text

/-- A file was given to a command that ended with exit code 0 and is removed,
or it is there, under its own name or the one of a bad file. -/
def PostKept (s : Post) (f : RfcFile) : Prop :=
  f ∈ s.delivered ∧ (∀ p, s.files p ≠ some f) ∨ s.files f.path = some f ∨
    s.files (rfcBad f.path) = some f

theorem postKept_iff {s : Post} (h : Placed s.files) {f : RfcFile} :
    PostKept s f ↔ f ∈ s.delivered ∨ ∃ p, s.files p = some f := by
  constructor
  · rintro (⟨hd, -⟩ | hp | hp)
    · exact Or.inl hd
    · exact Or.inr ⟨_, hp⟩
    · exact Or.inr ⟨_, hp⟩
  · intro hk
    by_cases hex : ∃ p, s.files p = some f
    · obtain ⟨p, hp⟩ := hex
      rcases h.place hp with h | h
      · exact Or.inr (Or.inl (h ▸ hp))
      · exact Or.inr (Or.inr (h ▸ hp))
    · exact Or.inl ⟨hk.resolve_right hex, fun p hp => hex ⟨p, hp⟩⟩

/-- No file is lost just if each meets the condition when its turn comes. -/
theorem postDir_kept_iff (m : PostMode) (texts : Files.Dir Str Str) (dir : Str)
    (names : List Str) (os : Nat → PostOutcome) :
    (∀ f, RfcFiles texts dir names f →
        PostKept (postDir m (foundFiles texts) dir names os).1 f) ↔
      ∀ paths, dirOpenRfc (foundFiles texts) dir names = some paths →
        Run.Met (postFile m) (PostOk m (RfcFiles texts dir names)) ⟨foundFiles texts, []⟩
          (postEntries os paths) := by
  have hfound : ∀ f, RfcFiles texts dir names f → foundFiles texts f.path = some f := by
    rintro f ⟨n, -, -, -, ht⟩
    rw [foundFiles, ht]
    rfl
  unfold postDir
  cases ho : dirOpenRfc (foundFiles texts) dir names with
  | none =>
      refine ⟨fun _ paths h => ?_, fun _ f hf => Or.inr (Or.inl (hfound f hf))⟩
      cases h
  | some paths =>
      simp only [Option.some.injEq, forall_eq']
      rw [← Run.run_iff_met (I := fun s : Post => Placed s.files)
        (P := AllKept (RfcFiles texts dir names)) (fun s e h => placed_postFile m s e h)
        (fun s e _ hk hk' => hk (allKept_of_postFile hk'))
        (fun s e h hk => allKept_postFile_iff m e h hk) (postEntries os paths)
        (placed_found texts) fun f hf => Or.inr ⟨f.path, hfound f hf⟩]
      have hplaced := Run.run_invariant (P := fun s : Post => Placed s.files)
        (fun s e h => placed_postFile m s e h) (s := ⟨foundFiles texts, []⟩)
        (postEntries os paths) (placed_found texts)
      exact forall₂_congr fun f _ => postKept_iff hplaced

/-- One news batch. -/
def oneBatch : Files.Dir Str Str :=
  fun path => if path = lit "/news/00000001.rfc" then some (lit "#! rnews 5\nhello") else none

/-- The news command is killed by signal 9. -/
def killedPost : PostOutcome := ⟨true, true, fun _ => 9, true, true⟩

/-- The batch is removed all the same. -/
theorem postDir_killed : ¬ ∀ (m : PostMode) (texts : Files.Dir Str Str) (dir : Str)
    (names : List Str) (os : Nat → PostOutcome) (f : RfcFile), RfcFiles texts dir names f →
    PostKept (postDir m (foundFiles texts) dir names os).1 f := by
  intro h
  have hk := h (.news (lit "rnews")) oneBatch (lit "/news") [lit "00000001.rfc"]
    (fun _ => killedPost) ⟨lit "/news/00000001.rfc", lit "#! rnews 5\nhello"⟩
    ⟨lit "00000001.rfc", by decide, by decide +kernel, by decide, by decide +kernel⟩
  rcases hk with ⟨hd, -⟩ | hp | hp
  · revert hd
    decide +kernel
  · revert hp
    decide +kernel
  · revert hp
    decide +kernel

end Fidogate

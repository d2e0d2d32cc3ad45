/-
# `Fidogate.Common.Flo` — flo.c: FLO files; binkley.c: attaching a file

A FLO file has a line for each file to be sent; one that begins with a tilde is
done.  `bink_attach` reads all of it, through a buffer of `MAXPATH` bytes, and
appends a line; a pass over the file marks the lines in place.
-/
import Fidogate.Common.Read
import Fidogate.Lib.Run

namespace Fidogate

open Bytes Lines

/-! ## Entries -/

/-- The name of an entry, behind `^` or `#`; none where it is marked. -/
def floName : Str → Option Str
  | [] => some []
  | c :: line =>
      if c = 126 then none
      else if c = 94 ∨ c = 35 then some line
      else some (c :: line)

/-- The name of the entry a line is. -/
def lineName (l : Str) : Option Str := floName (stripCrlf (cstr l))

/-- The names that are still to be sent. -/
def floLive (file : Str) : List Str := (lines lf file).filterMap lineName

/-- `cf_dos`: the drives and their paths, if names are translated. -/
abbrev DosTable := Option (List (Str × Str))

/-- `cf_dos_xlate`. -/
def cfDosXlate (table : List (Str × Str)) (name : Str) : Option Str :=
  (table.find? fun d => hasPrefix d.2 name).map fun d =>
    ((d.1 ++ name.drop d.2.length).take (MAXPATH - 1)).map fun c => if c = 47 then 92 else c

/-- The name as it is in the FLO file. -/
def attachName (dos : DosTable) (name : Str) : Option Str :=
  match dos with
  | none => some name
  | some table => cfDosXlate table name

/-- The line `bink_attach` prints; a mode of 0 is none. -/
def floEntry (dos : DosTable) (mode : Option UInt8) (n : Str) : Str :=
  mode.toList ++ n ++ if dos.isSome then [cr, lf] else [lf]

/-- Whether `bink_attach` finds the name among what `flo_gets` gives. -/
def floFound (n file : Str) : Bool :=
  (fgetsLines MAXPATH file).any fun line => floName (stripCrlf line) == some n

/-- The file with a tilde at an offset, which may be its end. -/
def floTilde (file : Str) (off : Nat) : Str :=
  if off < file.length then file.set off 126 else file ++ [126]

/-! ## The steps -/

/-- The file, the offset of the stream if it is open, `flo_off_cur`, and the
names that were appended. -/
structure FloSys where
  file : Str
  pos : Option Nat
  cur : Option Nat
  added : List Str
  deriving DecidableEq, Repr

def floStart (file : Str) : FloSys := ⟨file, none, none, []⟩

/-- The calls, and whether the file can be opened and locked; `gets` with the
size of the buffer, `close` with whether the file is removed. -/
inductive FloEvent
  | attach (mode : Option UInt8) (name : Str) (ok : Bool)
  | flopen (ok : Bool)
  | gets (len : Nat)
  | mark
  | close (del : Bool)
  deriving DecidableEq, Repr

def floStep (dos : DosTable) (s : FloSys) : FloEvent → FloSys
  | .attach mode name ok =>
      match attachName dos name, ok with
      | some n, true =>
          if floFound n s.file then { s with pos := none, cur := none }
          else ⟨s.file ++ floEntry dos mode n, none, none, n :: s.added⟩
      | _, _ => s
  | .flopen ok => { s with pos := if ok then some 0 else none, cur := none }
  | .gets len =>
      match s.pos with
      | none => s
      | some off =>
          let line := (readLineLoop (len - 1) none (s.file.drop off)).1
          { s with pos := some (off + line.length), cur := some off }
  | .mark =>
      match s.pos, s.cur with
      | some _, some off => { s with file := floTilde s.file off }
      | _, _ => s
  | .close del => { s with file := if del then [] else s.file, pos := none, cur := none }

/-- The line at the offset begins there, and is not empty. -/
def BeginsLine (file : Str) (off : Nat) : Prop :=
  file[off]?.any (· != lf) = true ∧ Ends lf (file.take off)

instance (file : Str) (off : Nat) : Decidable (BeginsLine file off) := by
  unfold BeginsLine
  infer_instance

/-- A name that is attached is found in a line, through the buffer, exactly
where the line is its entry; if there is none, the last line is complete and
the new one is an entry of the name.  A line that is marked begins where it was
read, and is not empty. -/
def FloSys.Fits (dos : DosTable) (s : FloSys) : FloEvent → Prop
  | .attach mode name true =>
      ∀ n ∈ attachName dos name,
        (∀ l ∈ lines lf s.file, floFound n l = true ↔ lineName l = some n) ∧
        (n ∈ floLive s.file ∨ Ends lf s.file ∧ lf ∉ mode.toList ++ n ∧
          lineName (floEntry dos mode n) = some n)
  | .mark => s.pos ≠ none → ∀ off ∈ s.cur, BeginsLine s.file off
  | _ => True

instance (dos : DosTable) (s : FloSys) (e : FloEvent) : Decidable (s.Fits dos e) := by
  unfold FloSys.Fits
  split <;> infer_instance

/-- An attach changes nothing where there is an entry of the name, and else
appends a line that is one; a mark changes the first byte of the line last
read; nothing else changes the file, unless it is removed. -/
def FloSys.Does (dos : DosTable) (s : FloSys) (e : FloEvent) : Prop :=
  match e with
  | .attach mode name true =>
      ∀ n ∈ attachName dos name,
        if n ∈ floLive s.file then (floStep dos s e).file = s.file
        else
          (floStep dos s e).file = s.file ++ floEntry dos mode n ∧
            lines lf (floStep dos s e).file = lines lf s.file ++ [floEntry dos mode n]
  | .mark =>
      s.pos ≠ none → ∀ off ∈ s.cur, (floStep dos s e).file = s.file.set off 126 ∧
        ∃ before c l after, lines lf s.file = before ++ (c :: l) :: after ∧
          before.flatten.length = off ∧
          lines lf (floStep dos s e).file = before ++ (126 :: l) :: after
  | .close true => True
  | _ => (floStep dos s e).file = s.file

/-! ## Reading through a buffer -/

theorem floFound_iff {n file : Str}
    (h : ∀ l ∈ lines lf file, floFound n l = true ↔ lineName l = some n) :
    floFound n file = true ↔ n ∈ floLive file := by
  have hfound : floFound n file = (lines lf file).any fun l => floFound n l := by
    unfold floFound
    rw [fgetsLines_lines, List.any_flatMap]
  rw [hfound, List.any_eq_true, floLive, List.mem_filterMap]
  constructor
  · rintro ⟨l, hl, hf⟩
    exact ⟨l, hl, (h l hl).mp hf⟩
  · rintro ⟨l, hl, hn⟩
    exact ⟨l, hl, (h l hl).mpr hn⟩

/-! ## Marks -/

/-- The line at an offset, and what a tilde there makes of it. -/
theorem BeginsLine.lines {file : Str} {off : Nat} (h : BeginsLine file off) :
    floTilde file off = file.set off 126 ∧ ∃ before c l after,
      lines lf file = before ++ (c :: l) :: after ∧ before.flatten.length = off ∧
      lines lf (file.set off 126) = before ++ (126 :: l) :: after := by
  obtain ⟨hany, hends⟩ := h
  obtain ⟨c, hc, hne⟩ := (Option.any_eq_true _ _).mp hany
  rw [bne_iff_ne] at hne
  obtain ⟨hlt, hget⟩ := List.getElem?_eq_some_iff.mp hc
  refine ⟨if_pos hlt, ?_⟩
  have hfile : file = file.take off ++ c :: file.drop (off + 1) := by
    rw [← hget, ← List.drop_eq_getElem_cons hlt, List.take_append_drop]
  have hset : file.set off 126 = file.take off ++ 126 :: file.drop (off + 1) :=
    List.set_eq_take_append_cons_drop .. |>.trans (if_pos hlt)
  obtain ⟨l, ls, hl, hl'⟩ := lines_cons hne (file.drop (off + 1))
  refine ⟨Lines.lines lf (file.take off), c, l, ls, ?_, ?_, ?_⟩
  · rw [← hl, ← lines_append hends, ← hfile]
  · rw [flatten_lines, List.length_take, Nat.min_eq_left (Nat.le_of_lt hlt)]
  · rw [hset, lines_append hends, hl' 126 (by decide)]

theorem stripCrlf_cons {c : UInt8} (hcr : c ≠ cr) (hlf : c ≠ lf) (s : Str) :
    ∃ t, stripCrlf (c :: s) = c :: t := by
  have hdrop : ∀ {d : UInt8} {s : Str}, c ≠ d → (c :: s).getLast? = some d →
      ∃ t, (c :: s).dropLast = c :: t := by
    intro d s hd h
    cases s with
    | nil => exact absurd (Option.some.inj h) hd
    | cons c' s => exact ⟨(c' :: s).dropLast, rfl⟩
  obtain ⟨t, ht⟩ : ∃ t, (if (c :: s).getLast? = some lf then (c :: s).dropLast else c :: s) =
      c :: t := by
    split
    · next h => exact hdrop hlf h
    · exact ⟨s, rfl⟩
  rw [stripCrlf, ht]
  split
  · next h => exact hdrop hcr h
  · exact ⟨t, rfl⟩

/-- A marked line is nobody's entry. -/
theorem lineName_tilde (l : Str) : lineName (126 :: l) = none := by
  have hcstr : cstr (126 :: l) = 126 :: cstr l := List.takeWhile_cons_of_pos (by decide)
  obtain ⟨t, ht⟩ := stripCrlf_cons (show (126 : UInt8) ≠ cr by decide) (by decide) (cstr l)
  rw [lineName, hcstr, ht]
  rfl

theorem floLive_mark {file : Str} {off : Nat} (h : BeginsLine file off) :
    (floLive (floTilde file off)).Sublist (floLive file) := by
  obtain ⟨htilde, before, c, l, after, hlines, -, hlines'⟩ := h.lines
  rw [htilde, floLive, floLive, hlines, hlines', List.filterMap_append, List.filterMap_append]
  refine (List.Sublist.refl _).append ?_
  rw [List.filterMap_cons_none (lineName_tilde l)]
  exact (List.sublist_cons_self _ _).filterMap _

/-- One line more. -/
theorem lines_attach {dos : DosTable} {mode : Option UInt8} {n file : Str} (hends : Ends lf file)
    (hlf : lf ∉ mode.toList ++ n) :
    lines lf (file ++ floEntry dos mode n) = lines lf file ++ [floEntry dos mode n] := by
  rw [lines_append hends]
  congr 1
  unfold floEntry
  cases dos with
  | none => exact lines_line hlf
  | some table =>
      have hcr : lf ∉ mode.toList ++ n ++ [cr] := fun h =>
        (List.mem_append.mp h).elim hlf (by decide)
      have hline := lines_line hcr
      rw [List.append_assoc] at hline
      exact hline

/-! ## Runs -/

/-- One live entry at most for each name that was appended. -/
def FloSys.Single (s : FloSys) : Prop := ∀ n ∈ s.added, (floLive s.file).count n ≤ 1

theorem FloSys.Single.step {dos : DosTable} {s : FloSys} (hs : s.Single) {e : FloEvent}
    (he : s.Fits dos e) : (floStep dos s e).Single := by
  cases e with
  | attach mode name ok =>
      dsimp only [floStep]
      split
      · next n hn =>
          obtain ⟨hlines, hnew⟩ := he n hn
          split
          · exact hs
          · next hfound =>
              rw [floFound_iff hlines] at hfound
              obtain ⟨hends, hlf, hname⟩ := hnew.resolve_left hfound
              have hlive : floLive (s.file ++ floEntry dos mode n) = floLive s.file ++ [n] := by
                rw [floLive, lines_attach hends hlf, List.filterMap_append,
                  List.filterMap_cons_some hname, List.filterMap_nil, floLive]
              intro m hm
              dsimp only
              rw [hlive, List.count_append, List.count_singleton]
              obtain rfl | hm := List.mem_cons.mp hm
              · rw [List.count_eq_zero.mpr hfound, if_pos (beq_self_eq_true m)]
              · have hle := hs m hm
                split
                · next hmn =>
                    rw [← beq_iff_eq.mp hmn, List.count_eq_zero.mpr hfound]
                · omega
      · exact hs
  | flopen ok => exact hs
  | gets len =>
      dsimp only [floStep]
      split
      · exact hs
      · exact hs
  | mark =>
      dsimp only [floStep]
      split
      · next off hpos hcur =>
          have hbegins := he (by rw [hpos]; exact Option.some_ne_none _) off hcur
          intro m hm
          exact ((floLive_mark hbegins).count_le m).trans (hs m hm)
      · exact hs
  | close del =>
      cases del with
      | false => exact hs
      | true => exact fun m _ => Nat.zero_le 1

theorem FloSys.Fits.does {dos : DosTable} {s : FloSys} {e : FloEvent} (he : s.Fits dos e) :
    s.Does dos e := by
  cases e with
  | attach mode name ok =>
      cases ok with
      | false =>
          change (floStep dos s (.attach mode name false)).file = s.file
          dsimp only [floStep]
          split
          · next h => cases h
          · rfl
      | true =>
          intro n hn
          obtain ⟨hlines, hnew⟩ := he n hn
          have hname : attachName dos name = some n := hn
          dsimp only [floStep]
          simp only [hname]
          split
          · next hlive =>
              rw [if_pos ((floFound_iff hlines).mpr hlive)]
          · next hlive =>
              obtain ⟨hends, hlf, -⟩ := hnew.resolve_left hlive
              rw [if_neg fun h => hlive ((floFound_iff hlines).mp h)]
              exact ⟨rfl, lines_attach hends hlf⟩
  | flopen ok => rfl
  | gets len =>
      change (floStep dos s (.gets len)).file = s.file
      dsimp only [floStep]
      split
      · rfl
      · rfl
  | mark =>
      intro hpos off hoff
      obtain ⟨htilde, before, c, l, after, h⟩ := (he hpos off hoff).lines
      obtain ⟨p, hp⟩ := Option.ne_none_iff_exists'.mp hpos
      have hcur : s.cur = some off := hoff
      dsimp only [floStep]
      simp only [hp, hcur]
      exact ⟨htilde, before, c, l, after, htilde ▸ h⟩
  | close del =>
      cases del with
      | false => rfl
      | true => trivial

/-- From any file, in a run of attaches and passes whose calls all meet the
condition: there is at most one live entry for each name that was appended, and
each call does to the file just what it is for. -/
theorem floRun_exact (dos : DosTable) (file : Str) (es : List FloEvent)
    (hmet : Run.Met (floStep dos) (FloSys.Fits dos) (floStart file) es) :
    (∀ n ∈ (Run.run (floStep dos) (floStart file) es).added,
      (floLive (Run.run (floStep dos) (floStart file) es).file).count n ≤ 1) ∧
    Run.Met (floStep dos) (FloSys.Does dos) (floStart file) es := by
  have hstart : (floStart file).Single := fun n hn => (nomatch hn)
  constructor
  · exact Run.run_induct (P := FloSys.Single) (fun _ _ hs he => hs.step he) es hstart hmet
  · exact Run.met_imp (P := fun _ => True) (fun _ _ _ _ => trivial) (fun _ _ _ he => he.does) es
      trivial hmet

/-- Two files are attached, one of them twice; the other one is sent. -/
def floRun : List FloEvent :=
  [.attach (some 94) (lit "/out/a") true, .attach none (lit "/out/b") true,
    .attach (some 94) (lit "/out/b") true, .flopen true, .gets MAXPATH, .gets MAXPATH, .mark,
    .gets MAXPATH, .close false]

theorem floRun_exact_two :
    (Run.run (floStep none) (floStart (lit "~/out/b\n")) floRun).file =
      lit "~/out/b\n~/out/a\n/out/b\n" ∧
    Run.Met (floStep none) (FloSys.Does none) (floStart (lit "~/out/b\n")) floRun :=
  ⟨by decide +kernel, (floRun_exact none (lit "~/out/b\n") floRun (by decide +kernel)).2⟩

/-- The last line has no end: the new name is put behind it. -/
theorem floRun_noLineEnd :
    ¬ Run.Met (floStep none) (FloSys.Does none) (floStart (lit "/out/a"))
      [.attach none (lit "/out/b") true] := by
  rintro ⟨h, -⟩
  have h := h (lit "/out/b") rfl
  revert h
  decide +kernel

end Fidogate

/-
# `Fidogate.Tick.RoundTrip` — tick.c: a TIC file is read as it was written

`tick_put` writes a line for each field, `tick_get` reads the lines one by one
and takes each for the field its first word names.
-/
import Fidogate.Tick.Process
import Fidogate.Common.Hex
import Fidogate.Common.NodePrint
import Fidogate.Common.Histdb

namespace Fidogate

open Bytes

/-! ## Writing and reading -/

/-- `tick_put`: the text of the file; none where it reads the first line of a
description that has none. -/
def tickPut (tic : Tick) : Option Str :=
  if ! tic.ldesc.isEmpty && tic.desc.isEmpty then none
  else some ((tickLines tic).flatMap (· ++ [cr, lf]))

/-- What `tick_delete` leaves; a null file name is the empty one here. -/
def tickDelete : Tick :=
  { origin := nodeInvalid, src := nodeInvalid, dst := nodeInvalid, area := none, file := []
    replaces := none, desc := [], ldesc := [], crc := 0, created := none, size := 0, path := []
    seenby := [], pw := none, release := -1, date := -1, app := [] }

/-- The keyword of a line, and its arguments: what stands behind one blank. -/
def tickKeyArg (line : Str) : Option (Str × Str) :=
  match line.dropWhile (isDelim blanks) with
  | [] => none
  | c :: s =>
      some (c :: s.takeWhile (! isDelim blanks ·), (s.dropWhile (! isDelim blanks ·)).tail)

/-- A line of a TIC file; `zone` is the current zone, `defzone` the default one. -/
def tickField (zone defzone : Int) (tic : Tick) (key arg : Str) : Tick :=
  if strieq key (lit "Origin") then
    { tic with origin := (ascToNode false defzone arg).getD tic.origin }
  else if strieq key (lit "From") then
    { tic with src := (ascToNode false defzone arg).getD tic.src }
  else if strieq key (lit "Area") then { tic with area := some (strUpper arg) }
  else if strieq key (lit "File") then { tic with file := strLower arg }
  else if strieq key (lit "Replaces") then { tic with replaces := some (strLower arg) }
  else if strieq key (lit "Desc") then
    { tic with desc := tic.desc ++ [if arg = [] then lit "--no description--" else arg] }
  else if strieq key (lit "LDesc") then { tic with ldesc := tic.ldesc ++ [arg] }
  else if strieq key (lit "CRC") then { tic with crc := (scanHex arg).getD tic.crc }
  else if strieq key (lit "Created") then { tic with created := some arg }
  else if strieq key (lit "Size") then { tic with size := (atol arg % 2 ^ 64).toNat }
  else if strieq key (lit "Path") then { tic with path := tic.path ++ [arg] }
  else if strieq key (lit "Seenby") then { tic with seenby := tic.seenby ++ lonAddString zone arg }
  else if strieq key (lit "Pw") then { tic with pw := some arg }
  else if strieq key (lit "Release") then { tic with release := atol arg }
  else if strieq key (lit "Date") then { tic with date := atol arg }
  else if strieq key (lit "App") then { tic with app := tic.app ++ [arg] }
  else tic

/-- A line without its line end. -/
def tickEntry (zone defzone : Int) (tic : Tick) (line : Str) : Tick :=
  match tickKeyArg line with
  | none => tic
  | some (key, arg) => tickField zone defzone tic key arg

/-- `tick_get` -/
def tickGet (zone defzone : Int) (text : Str) : Tick :=
  (fgetsLines BUFFERSIZE text).foldl
    (fun tic line => tickEntry zone defzone tic (stripCrlf line)) tickDelete

/-- A text of a TIC file. -/
def IsText (s : Str) : Prop := ∀ c ∈ s, c ≠ lf ∧ c ≠ cr ∧ c ≠ nul

theorem stripCrlf_text {s : Str} (h : IsText s) : stripCrlf s = s := by
  have hlast : ∀ {c : UInt8}, c = lf ∨ c = cr → s.getLast? ≠ some c := by
    intro c hc hs
    obtain ⟨h1, h2, -⟩ := h c (List.mem_of_getLast? hs)
    obtain rfl | rfl := hc
    · exact h1 rfl
    · exact h2 rfl
  rw [stripCrlf, if_neg (hlast (.inl rfl)), if_neg (hlast (.inr rfl))]

theorem stripCrlf_cr (s : Str) : stripCrlf (s ++ [cr]) = s := by
  simp [stripCrlf, show cr ≠ lf by decide]

theorem stripCrlf_both (s : Str) : stripCrlf (s ++ [cr, lf]) = s := by
  simp [stripCrlf, List.getLast?_append]

theorem cstr_text {s t : Str} (h : IsText s) (ht : nul ∉ t) : cstr (s ++ t) = s ++ t := by
  refine List.takeWhile_eq_self_iff.mpr fun c hc => bne_iff_ne.mpr ?_
  rcases List.mem_append.mp hc with hc | hc
  · exact (h c hc).2.2
  · exact fun he => ht (he ▸ hc)

theorem lf_not_mem {s : Str} (h : IsText s) : lf ∉ s := fun hmem => (h lf hmem).1 rfl

/-- One line of a file that fits the buffer, but perhaps for its line end. -/
theorem foldl_fgetsLines_line {σ : Type*} (f : σ → Str → σ) (hf : ∀ t, f t [] = t) {size : Nat}
    (hsize : 3 ≤ size) {line : Str} (hline : IsText line) (hlen : line.length < size) (s : Str)
    (t : σ) :
    (fgetsLines size (line ++ cr :: lf :: s)).foldl (fun t l => f t (stripCrlf l)) t =
      (fgetsLines size s).foldl (fun t l => f t (stripCrlf l)) (f t line) := by
  have hcr : ∀ t, f t (stripCrlf [cr, lf]) = t := hf
  have hlf : ∀ t, f t (stripCrlf [lf]) = t := hf
  have hnolf : lf ∉ line ++ [cr] := by
    intro h
    rcases List.mem_append.mp h with h | h
    · exact lf_not_mem hline h
    · revert h
      decide
  have hend : line ++ cr :: lf :: s = (line ++ [cr]) ++ lf :: s := by simp
  have hlength : (line ++ [cr]).length = line.length + 1 := by simp
  have hwhole : cstr (line ++ [cr, lf]) = line ++ [cr, lf] := cstr_text hline (by decide)
  have hnoend : cstr (line ++ [cr]) = line ++ [cr] := cstr_text hline (by decide)
  have hbare : cstr line = line := by simpa using cstr_text hline (t := []) (by decide)
  have hcrlf : cstr [cr, lf] = [cr, lf] := rfl
  have honlylf : cstr [lf] = [lf] := rfl
  unfold fgetsLines
  rcases Nat.lt_trichotomy (line.length + 2) size with h | h | h
  · -- the line end fits
    rw [hend, fgetsLoop_append size [] (lf :: s) hnolf (by omega), fgetsLoop_lf, List.nil_append,
      List.append_assoc, List.singleton_append, List.map_cons, List.foldl_cons, hwhole,
      stripCrlf_both]
  · -- the LF is a line of its own
    have hroom : size - 1 = (line ++ [cr]).length := by omega
    rw [hend]
    conv_lhs => rw [hroom]
    rw [fgetsLoop_full size [] (lf :: s) hnolf (by simp), fgetsLoop_lf, List.nil_append,
      List.nil_append, List.map_cons, List.map_cons, List.foldl_cons, List.foldl_cons, hnoend,
      stripCrlf_cr, honlylf, hlf]
  · -- the line end is a line of its own
    have hroom : size - 1 = line.length := by omega
    have hne : line ≠ [] := by
      intro h
      rw [h, List.length_nil] at hroom
      omega
    have hsingle : fgetsLoop size (size - 1) [] (cr :: lf :: s) =
        [cr, lf] :: fgetsLoop size (size - 1) [] s := by
      have happ := @fgetsLoop_append size [cr] (size - 1) [] (lf :: s) (by decide)
        (show 1 < size - 1 by omega)
      rw [List.singleton_append, List.nil_append, fgetsLoop_lf, List.singleton_append] at happ
      exact happ
    have hfull := fgetsLoop_full size [] (cr :: lf :: s) (lf_not_mem hline) hne
    rw [← hroom, List.nil_append, hsingle] at hfull
    rw [hfull, List.map_cons, List.map_cons, List.foldl_cons, List.foldl_cons, hbare,
      stripCrlf_text hline, hcrlf, hcr]

/-- The lines of a file, each of which fits the buffer. -/
theorem foldl_fgetsLines {σ : Type*} (f : σ → Str → σ) (hf : ∀ t, f t [] = t) {size : Nat}
    (hsize : 3 ≤ size) : ∀ {lines : List Str} (t : σ),
    (∀ line ∈ lines, IsText line ∧ line.length < size) →
    (fgetsLines size (lines.flatMap (· ++ [cr, lf]))).foldl (fun t l => f t (stripCrlf l)) t =
      lines.foldl f t
  | [], _, _ => rfl
  | line :: lines, t, h => by
      obtain ⟨htext, hlen⟩ := h line List.mem_cons_self
      rw [List.flatMap_cons, List.append_assoc, List.cons_append, List.singleton_append,
        foldl_fgetsLines_line f hf hsize htext hlen, List.foldl_cons,
        foldl_fgetsLines f hf hsize (f t line) fun l hl => h l (List.mem_cons_of_mem _ hl)]

/-! ## The lines of a TIC file -/

theorem tickKeyArg_line {key : Str} (hne : key ≠ []) (hkey : ∀ c ∈ key, isDelim blanks c = false)
    (arg : Str) : tickKeyArg (key ++ sp :: arg) = some (key, arg) := by
  have hsp : isDelim blanks sp = true := rfl
  have hnot : ∀ c ∈ key, (! isDelim blanks c) = true := fun c hc => by rw [hkey c hc]; rfl
  cases key with
  | nil => exact absurd rfl hne
  | cons c key =>
      have hhead := hkey c List.mem_cons_self
      have htail : ∀ d ∈ key, (! isDelim blanks d) = true := fun d hd =>
        hnot d (List.mem_cons_of_mem _ hd)
      rw [tickKeyArg, List.cons_append, List.dropWhile_cons_of_neg (by rw [hhead]; decide)]
      dsimp only
      rw [List.takeWhile_append_of_pos htail, List.dropWhile_append_of_pos htail,
        List.takeWhile_cons_of_neg (by rw [hsp]; decide),
        List.dropWhile_cons_of_neg (by rw [hsp]; decide), List.append_nil, List.tail_cons]

section

variable (zone defzone : Int)

theorem tickEntry_line (key arg : Str) (tic : Tick) (hne : key ≠ [])
    (hkey : ∀ c ∈ key, isDelim blanks c = false) :
    tickEntry zone defzone tic (key ++ sp :: arg) = tickField zone defzone tic key arg := by
  rw [tickEntry, tickKeyArg_line hne hkey]

theorem tickEntry_nil (tic : Tick) : tickEntry zone defzone tic [] = tic := rfl

/-- The path lines. -/
theorem foldl_path : ∀ (path : List Str) (tic : Tick),
    (path.map (lit "Path " ++ ·)).foldl (tickEntry zone defzone) tic =
      { tic with path := tic.path ++ path }
  | [], tic => by rw [List.append_nil]; rfl
  | p :: path, tic => by
      have hp : tickEntry zone defzone tic (lit "Path " ++ p) =
          { tic with path := tic.path ++ [p] } :=
        tickEntry_line zone defzone (lit "Path") p tic (by decide) (forall_mem_of_all (by decide))
      rw [List.map_cons, List.foldl_cons, hp, foldl_path path]
      simp

/-- The SEEN-BY lines. -/
theorem foldl_seenby : ∀ (seenby : List Node) (tic : Tick),
    (seenby.map fun n => lit "Seenby " ++ znf1 n).foldl (tickEntry zone defzone) tic =
      { tic with seenby := tic.seenby ++ seenby.flatMap fun n => lonAddString zone (znf1 n) }
  | [], tic => by simp
  | n :: seenby, tic => by
      have hn : tickEntry zone defzone tic (lit "Seenby " ++ znf1 n) =
          { tic with seenby := tic.seenby ++ lonAddString zone (znf1 n) } :=
        tickEntry_line zone defzone (lit "Seenby") (znf1 n) tic (by decide)
          (forall_mem_of_all (by decide))
      rw [List.map_cons, List.foldl_cons, hn, foldl_seenby seenby]
      simp

/-- The TIC file as it is read back. -/
def tickBack (tic : Tick) : Tick :=
  { origin := (ascToNode false defzone (znf1 tic.origin)).getD nodeInvalid
    src := (ascToNode false defzone (znf1 tic.src)).getD nodeInvalid
    dst := nodeInvalid
    area := some (strUpper (tic.area.getD (lit "(null)")))
    file := strLower tic.file
    replaces := if tic.replaces.isSome then some (strLower tic.file) else none
    desc := [if tic.desc.headD [] = [] then lit "--no description--" else tic.desc.headD []]
    ldesc := if tic.ldesc.isEmpty then [] else [tic.desc.headD []]
    crc := (scanHex (putHexU8 tic.crc)).getD 0
    created := some (tic.created.getD (lit "(null)"))
    size := (atol (putDec tic.size) % 2 ^ 64).toNat
    path := tic.path
    seenby := tic.seenby.flatMap fun n => lonAddString zone (znf1 n)
    pw := some (tic.pw.getD (lit "(null)"))
    release := -1
    date := atol (putInt tic.date)
    app := [] }

theorem foldl_tickLines (tic : Tick) :
    (tickLines tic).foldl (tickEntry zone defzone) tickDelete = tickBack zone defzone tic := by
  have harea : ∀ (arg : Str) (t : Tick), tickEntry zone defzone t (lit "Area " ++ arg) =
      { t with area := some (strUpper arg) } :=
    fun arg t => tickEntry_line zone defzone (lit "Area") arg t (by decide)
      (forall_mem_of_all (by decide))
  have horigin : ∀ (arg : Str) (t : Tick), tickEntry zone defzone t (lit "Origin " ++ arg) =
      { t with origin := (ascToNode false defzone arg).getD t.origin } :=
    fun arg t => tickEntry_line zone defzone (lit "Origin") arg t (by decide)
      (forall_mem_of_all (by decide))
  have hfrom : ∀ (arg : Str) (t : Tick), tickEntry zone defzone t (lit "From " ++ arg) =
      { t with src := (ascToNode false defzone arg).getD t.src } :=
    fun arg t => tickEntry_line zone defzone (lit "From") arg t (by decide)
      (forall_mem_of_all (by decide))
  have hfile : ∀ (arg : Str) (t : Tick), tickEntry zone defzone t (lit "File " ++ arg) =
      { t with file := strLower arg } :=
    fun arg t => tickEntry_line zone defzone (lit "File") arg t (by decide)
      (forall_mem_of_all (by decide))
  have hreplaces : ∀ (arg : Str) (t : Tick), tickEntry zone defzone t (lit "Replaces " ++ arg) =
      { t with replaces := some (strLower arg) } :=
    fun arg t => tickEntry_line zone defzone (lit "Replaces") arg t (by decide)
      (forall_mem_of_all (by decide))
  have hdesc : ∀ (arg : Str) (t : Tick), tickEntry zone defzone t (lit "Desc " ++ arg) =
      { t with desc := t.desc ++ [if arg = [] then lit "--no description--" else arg] } :=
    fun arg t => tickEntry_line zone defzone (lit "Desc") arg t (by decide)
      (forall_mem_of_all (by decide))
  have hldesc : ∀ (arg : Str) (t : Tick), tickEntry zone defzone t (lit "LDesc " ++ arg) =
      { t with ldesc := t.ldesc ++ [arg] } :=
    fun arg t => tickEntry_line zone defzone (lit "LDesc") arg t (by decide)
      (forall_mem_of_all (by decide))
  have hcrc : ∀ (arg : Str) (t : Tick), tickEntry zone defzone t (lit "CRC " ++ arg) =
      { t with crc := (scanHex arg).getD t.crc } :=
    fun arg t => tickEntry_line zone defzone (lit "CRC") arg t (by decide)
      (forall_mem_of_all (by decide))
  have hcreated : ∀ (arg : Str) (t : Tick), tickEntry zone defzone t (lit "Created " ++ arg) =
      { t with created := some arg } :=
    fun arg t => tickEntry_line zone defzone (lit "Created") arg t (by decide)
      (forall_mem_of_all (by decide))
  have hsize : ∀ (arg : Str) (t : Tick), tickEntry zone defzone t (lit "Size " ++ arg) =
      { t with size := (atol arg % 2 ^ 64).toNat } :=
    fun arg t => tickEntry_line zone defzone (lit "Size") arg t (by decide)
      (forall_mem_of_all (by decide))
  have hdate : ∀ (arg : Str) (t : Tick), tickEntry zone defzone t (lit "Date " ++ arg) =
      { t with date := atol arg } :=
    fun arg t => tickEntry_line zone defzone (lit "Date") arg t (by decide)
      (forall_mem_of_all (by decide))
  have hpw : ∀ (arg : Str) (t : Tick), tickEntry zone defzone t (lit "Pw " ++ arg) =
      { t with pw := some arg } :=
    fun arg t => tickEntry_line zone defzone (lit "Pw") arg t (by decide)
      (forall_mem_of_all (by decide))
  rw [tickLines]
  simp only [List.foldl_append, foldl_path, foldl_seenby, List.foldl_cons, List.foldl_nil, harea,
    horigin, hfrom, hfile, hdesc, hcrc, hcreated, hsize, hdate, hpw]
  cases hr : tic.replaces with
  | none =>
      cases hl : tic.ldesc.isEmpty with
      | true => simp [tickBack, tickDelete, hr, hl]
      | false => simp [tickBack, tickDelete, hr, hl, hldesc]
  | some r =>
      cases hl : tic.ldesc.isEmpty with
      | true => simp [tickBack, tickDelete, hr, hl, hreplaces]
      | false => simp [tickBack, tickDelete, hr, hl, hldesc, hreplaces]

/-- A TIC file whose lines fit the buffer is read line by line. -/
theorem tickGet_tickLines {tic : Tick}
    (h : ∀ line ∈ tickLines tic, IsText line ∧ line.length < BUFFERSIZE) :
    tickGet zone defzone ((tickLines tic).flatMap (· ++ [cr, lf])) = tickBack zone defzone tic :=
  (foldl_fgetsLines (tickEntry zone defzone) (tickEntry_nil zone defzone) (by decide) tickDelete
    h).trans (foldl_tickLines zone defzone tic)

end

/-! ## What is written is text -/

/-- The values the fields of a TIC file hold: C strings without line ends,
addresses, numbers of their types. -/
structure TickFits (tic : Tick) : Prop where
  origin : nodeEq tic.origin nodeInvalid = true ∨ tic.origin.Fits
  src : nodeEq tic.src nodeInvalid = true ∨ tic.src.Fits
  seenby : ∀ n ∈ tic.seenby, n.Fits
  area : ∀ s ∈ tic.area, IsText s
  file : IsText tic.file
  desc : ∀ s ∈ tic.desc, IsText s
  created : ∀ s ∈ tic.created, IsText s
  path : ∀ s ∈ tic.path, IsText s
  pw : ∀ s ∈ tic.pw, IsText s
  crc : tic.crc < 2 ^ 64
  size : tic.size < 2 ^ 64
  date : -2 ^ 63 ≤ tic.date ∧ tic.date < 2 ^ 63

theorem IsText.append {a b : Str} (ha : IsText a) (hb : IsText b) : IsText (a ++ b) := by
  intro c hc
  rcases List.mem_append.mp hc with hc | hc
  · exact ha c hc
  · exact hb c hc

instance (s : Str) : Decidable (IsText s) :=
  List.decidableBAll (fun c => c ≠ lf ∧ c ≠ cr ∧ c ≠ nul) s

theorem IsText.getD {o : Option Str} (h : ∀ s ∈ o, IsText s) : IsText (o.getD (lit "(null)")) := by
  cases o with
  | none => decide
  | some s => exact h s rfl

theorem isText_putDec (n : Nat) : IsText (putDec n) := by
  intro c hc
  have key : ∀ c : UInt8, isDigit c = true → c ≠ lf ∧ c ≠ cr ∧ c ≠ nul :=
    forall_byte (by decide +kernel)
  exact key c (isDigit_of_mem_putDec hc)

theorem isText_putInt (n : Int) : IsText (putInt n) := by
  unfold putInt
  split
  · exact IsText.append (a := [45]) (by decide) (isText_putDec _)
  · exact isText_putDec _

theorem isText_putHexU8 (n : Nat) : IsText (putHexU8 n) := by
  intro c hc
  have key : ∀ c : UInt8, (hexDigit c).isSome = true → c ≠ lf ∧ c ≠ cr ∧ c ≠ nul :=
    forall_byte (by decide +kernel)
  exact key c (hexDigit_putHexU8 c hc)

theorem isText_znf1 {n : Node} (hn : n.Fits) : IsText (znf1 n) := by
  intro c hc
  obtain ⟨hspace, hnul⟩ := znf1_bytes hn c hc
  refine ⟨?_, ?_, hnul⟩
  · rintro rfl
    revert hspace
    decide
  · rintro rfl
    revert hspace
    decide

/-- An address that is none is printed as a word. -/
theorem znf1_invalid {n : Node} (h : nodeEq n nodeInvalid = true) : znf1 n = lit "INVALID" := by
  simp only [nodeEq, nodeInvalid, Bool.and_eq_true, beq_iff_eq] at h
  obtain ⟨⟨⟨hz, ht⟩, hm⟩, hp⟩ := h
  simp [znf1, znfpPrint, hz, ht, hm, hp, EMPTY, lit]

theorem isText_address {n : Node} (h : nodeEq n nodeInvalid = true ∨ n.Fits) : IsText (znf1 n) := by
  rcases h with h | h
  · rw [znf1_invalid h]
    decide
  · exact isText_znf1 h

theorem isText_tickLines {tic : Tick} (h : TickFits tic) : ∀ line ∈ tickLines tic, IsText line := by
  have hdesc : IsText (tic.desc.headD []) := by
    cases hd : tic.desc with
    | nil => exact fun c hc => by cases hc
    | cons d ds => exact h.desc d (hd ▸ List.mem_cons_self)
  intro line hline
  simp only [tickLines, List.mem_append, List.mem_cons, List.mem_map, List.not_mem_nil,
    or_false] at hline
  rcases hline with (((((((rfl | rfl | rfl | rfl) | hr) | rfl) | hl) | (rfl | rfl | rfl | rfl)) |
    ⟨p, hp, rfl⟩) | ⟨n, hn, rfl⟩) | rfl
  · exact IsText.append (by decide) (IsText.getD h.area)
  · exact IsText.append (by decide) (isText_address h.origin)
  · exact IsText.append (by decide) (isText_address h.src)
  · exact IsText.append (by decide) h.file
  · split at hr
    · rw [List.mem_singleton.mp hr]
      exact IsText.append (by decide) h.file
    · cases hr
  · exact IsText.append (by decide) hdesc
  · split at hl
    · cases hl
    · rw [List.mem_singleton.mp hl]
      exact IsText.append (by decide) hdesc
  · exact IsText.append (by decide) (isText_putHexU8 _)
  · exact IsText.append (by decide) (IsText.getD h.created)
  · exact IsText.append (by decide) (isText_putDec _)
  · exact IsText.append (by decide) (isText_putInt _)
  · exact IsText.append (by decide) (h.path p hp)
  · exact IsText.append (by decide) (isText_znf1 (h.seenby n hn))
  · exact IsText.append (by decide) (IsText.getD h.pw)

/-! ## Numbers -/

theorem atol_putInt {n : Int} (h : -2 ^ 63 ≤ n ∧ n < 2 ^ 63) : atol (putInt n) = n := by
  rw [atol, atoi_putInt]
  omega

/-- A size is read as a `long`. -/
theorem atol_putDec {n : Nat} (h : n < 2 ^ 64) :
    (atol (putDec n) % 2 ^ 64).toNat = n ↔ n < 2 ^ 63 := by
  rw [atol, atoi_putDec]
  omega

/-! ## The round trip -/

/-- `t` is the TIC file `tic`, up to the letters of its names. -/
structure TickSame (tic t : Tick) : Prop where
  origin : nodeEq t.origin tic.origin = true
  src : nodeEq t.src tic.src = true
  area : t.area = tic.area.map strUpper
  file : t.file = strLower tic.file
  replaces : t.replaces = tic.replaces.map strLower
  desc : t.desc = tic.desc
  ldesc : t.ldesc = tic.ldesc
  crc : t.crc = tic.crc
  created : t.created = tic.created
  size : t.size = tic.size
  date : t.date = tic.date
  path : t.path = tic.path
  seenby : List.Forall₂ (fun a b => nodeEq a b = true) t.seenby tic.seenby
  pw : t.pw = tic.pw

/-- What a TIC file must be to get through: the area, the creator and the
password are there, one line of description that is not empty and no other
long description, the file replaces itself if any, a size that a `long` holds. -/
structure TickPlain (tic : Tick) : Prop where
  area : tic.area.isSome
  created : tic.created.isSome
  pw : tic.pw.isSome
  desc : ∃ d, d ≠ [] ∧ tic.desc = [d] ∧ (tic.ldesc = [] ∨ tic.ldesc = [d])
  replaces : ∀ r ∈ tic.replaces, strLower r = strLower tic.file
  size : tic.size < 2 ^ 63

/-- The lines fit the buffer of the reader. -/
def LinesFit (tic : Tick) : Prop := ∀ line ∈ tickLines tic, line.length < BUFFERSIZE

instance (tic : Tick) : Decidable (LinesFit tic) :=
  inferInstanceAs (Decidable (∀ line ∈ tickLines tic, line.length < BUFFERSIZE))

section

variable {zone defzone : Int} {tic : Tick}

/-- An address, or none, is read back. -/
theorem nodeEq_ascToNode_znf1 {n : Node} (h : nodeEq n nodeInvalid = true ∨ n.Fits) :
    nodeEq ((ascToNode false defzone (znf1 n)).getD nodeInvalid) n = true := by
  rcases h with h | h
  · rw [znf1_invalid h]
    simp only [nodeEq, Bool.and_eq_true, beq_iff_eq] at h ⊢
    obtain ⟨⟨⟨hz, ht⟩, hm⟩, hp⟩ := h
    exact ⟨⟨⟨hz.symm, ht.symm⟩, hm.symm⟩, hp.symm⟩
  · obtain ⟨domain, hread⟩ := ascToNode_znf1 h defzone
    rw [hread, Option.getD_some]
    exact nodeEq_withDomain n domain

/-- The SEEN-BYs are read back. -/
theorem forall₂_seenby : ∀ {ns : List Node}, (∀ n ∈ ns, n.Fits) →
    List.Forall₂ (fun a b => nodeEq a b = true)
      (ns.flatMap fun n => lonAddString zone (znf1 n)) ns
  | [], _ => .nil
  | n :: ns, h => by
      obtain ⟨domain, hread⟩ := lonAddString_znf1 (h n List.mem_cons_self) zone
      rw [List.flatMap_cons, hread, List.singleton_append]
      exact .cons (nodeEq_withDomain n domain)
        (forall₂_seenby fun m hm => h m (List.mem_cons_of_mem _ hm))

theorem getD_null_eq_iff {o : Option Str} : some (o.getD (lit "(null)")) = o ↔ o.isSome = true := by
  cases o with
  | none => exact ⟨fun h => (nomatch h), fun h => (nomatch h)⟩
  | some s => exact ⟨fun _ => rfl, fun _ => rfl⟩

/-- The description that is read back. -/
theorem desc_tickBack_iff (desc : List Str) :
    [if desc.headD [] = [] then lit "--no description--" else desc.headD []] = desc ↔
      ∃ d, d ≠ [] ∧ desc = [d] := by
  constructor
  · intro h
    cases desc with
    | nil => cases h
    | cons d ds =>
        obtain ⟨hd, hds⟩ := List.cons.inj h
        rw [List.headD_cons] at hd
        refine ⟨d, ?_, by rw [← hds]⟩
        rintro rfl
        rw [if_pos rfl] at hd
        cases hd
  · rintro ⟨d, hd, rfl⟩
    rw [List.headD_cons, if_neg hd]

/-- What is read back is the TIC file if and only if that is plain. -/
theorem tickSame_tickBack_iff (h : TickFits tic) :
    TickSame tic (tickBack zone defzone tic) ↔ TickPlain tic := by
  have hupper : ∀ {o : Option Str}, some (strUpper (o.getD (lit "(null)"))) = o.map strUpper ↔
      o.isSome = true := by
    intro o
    cases o with
    | none => exact ⟨fun h => (nomatch h), fun h => (nomatch h)⟩
    | some s => exact ⟨fun _ => rfl, fun _ => rfl⟩
  have hreplaces : (if tic.replaces.isSome = true then some (strLower tic.file) else none) =
      tic.replaces.map strLower ↔ ∀ r ∈ tic.replaces, strLower r = strLower tic.file := by
    cases tic.replaces with
    | none => exact ⟨fun _ r hr => (nomatch hr), fun _ => rfl⟩
    | some r =>
        rw [Option.isSome_some, if_pos rfl, Option.map_some]
        refine ⟨fun h s hs => ?_, fun h => congrArg some (h r rfl).symm⟩
        rw [← Option.some.inj hs]
        exact (Option.some.inj h).symm
  constructor
  · intro hsame
    obtain ⟨d, hd, hdesc⟩ := (desc_tickBack_iff tic.desc).mp hsame.desc
    refine ⟨hupper.mp hsame.area, getD_null_eq_iff.mp hsame.created, getD_null_eq_iff.mp hsame.pw,
      ⟨d, hd, hdesc, ?_⟩, hreplaces.mp hsame.replaces, (atol_putDec h.size).mp hsame.size⟩
    have hldesc := hsame.ldesc
    rw [tickBack, hdesc] at hldesc
    dsimp only at hldesc
    cases hl : tic.ldesc with
    | nil => exact .inl rfl
    | cons l ls =>
        rw [hl, List.isEmpty_cons, if_neg Bool.false_ne_true] at hldesc
        exact .inr hldesc.symm
  · intro hplain
    obtain ⟨d, hd, hdesc, hldesc⟩ := hplain.desc
    refine
      { origin := nodeEq_ascToNode_znf1 h.origin
        src := nodeEq_ascToNode_znf1 h.src
        area := hupper.mpr hplain.area
        file := rfl
        replaces := hreplaces.mpr hplain.replaces
        desc := (desc_tickBack_iff tic.desc).mpr ⟨d, hd, hdesc⟩
        ldesc := ?_
        crc := ?_
        created := getD_null_eq_iff.mpr hplain.created
        size := (atol_putDec h.size).mpr hplain.size
        date := atol_putInt h.date
        path := rfl
        seenby := forall₂_seenby h.seenby
        pw := getD_null_eq_iff.mpr hplain.pw }
    · rw [tickBack, hdesc]
      rcases hldesc with hl | hl
      · rw [hl]
        rfl
      · rw [hl]
        rfl
    · rw [tickBack, scanHex_putHexU8 h.crc]
      rfl

end

/-- A TIC file with the description `desc`. -/
def nodelistTick (desc : List Str) : Tick :=
  { origin := ⟨2, 5020, 400, 0, []⟩, src := ⟨2, 5020, 1, 7, lit "fidonet"⟩, dst := nodeInvalid
    area := some (lit "NODELIST"), file := lit "nodelist.z01", replaces := some (lit "NODELIST.Z01")
    desc := desc, ldesc := [], crc := 0x1A2B3C4D, created := some (lit "by ftntick"), size := 100000
    path := [lit "2:5020/400 1000000000", lit "2:5020/1.7 1000000001"]
    seenby := [⟨2, 5020, 400, 0, []⟩, ⟨2, 5020, 1, 7, []⟩], pw := some (lit "secret"), release := -1
    date := 1000000000, app := [] }

theorem nodelistTick_fits {desc : List Str} (h : ∀ s ∈ desc, IsText s) :
    TickFits (nodelistTick desc) := by
  have hbase : TickFits (nodelistTick []) :=
    { origin := .inr (by decide), src := .inr (by decide), seenby := by decide
      area := fun s hs => Option.some.inj hs ▸ (by decide), file := by decide, desc := by decide
      created := fun s hs => Option.some.inj hs ▸ (by decide), path := by decide
      pw := fun s hs => Option.some.inj hs ▸ (by decide), crc := by decide, size := by decide
      date := by decide }
  exact ⟨hbase.origin, hbase.src, hbase.seenby, hbase.area, hbase.file, h, hbase.created,
    hbase.path, hbase.pw, hbase.crc, hbase.size, hbase.date⟩

end Fidogate

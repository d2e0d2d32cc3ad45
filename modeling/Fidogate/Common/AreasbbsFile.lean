/-
# `Fidogate.Common.AreasbbsFile` — areasbbs.c, node.c: the areas.bbs file

The file is a first line that is kept as it is, and a line for each area:
directory, name, options, and the linked nodes.  A list of nodes is written
with each node in the short form against the one before it.

Where the code hands the null pointer `xstrtok` returns to `atoi` or
`strsave`, the program crashes; such a text has no value here.
-/
import Fidogate.Common.Areasbbs
import Fidogate.Common.Message
import Fidogate.Lib.Lines
import Fidogate.Toss.Echomail

namespace Fidogate

open Bytes

/-! ## Reading lines -/

/-- What successive calls of `fgets` return, each of at most `size - 1`
bytes; `room` is what is left of that, `cur` what was read. -/
def fgetsLoop (size : Nat) : Nat → Str → Str → List Str
  | _, cur, [] => if cur = [] then [] else [cur]
  | room, cur, c :: s =>
      if c = lf ∨ room ≤ 1 then (cur ++ [c]) :: fgetsLoop size (size - 1) [] s
      else fgetsLoop size (room - 1) (cur ++ [c]) s

/-- The lines of a file, as `fgets(buffer, size, fp)` returns them. -/
def fgetsLines (size : Nat) (text : Str) : List Str :=
  (fgetsLoop size (size - 1) [] text).map cstr

/-- A text that fills the buffer is a line of its own. -/
theorem fgetsLoop_full (size : Nat) : ∀ {w : Str} (cur s : Str), lf ∉ w → w ≠ [] →
    fgetsLoop size w.length cur (w ++ s) = (cur ++ w) :: fgetsLoop size (size - 1) [] s
  | [], _, _, _, h => absurd rfl h
  | [c], cur, s, _, _ => by
      rw [List.length_singleton, List.singleton_append, fgetsLoop, if_pos (.inr (Nat.le_refl 1))]
  | c :: d :: w, cur, s, hlf, _ => by
      have hc : ¬ (c = lf ∨ (c :: d :: w).length ≤ 1) := by
        rintro (h | h)
        · exact hlf (h ▸ List.mem_cons_self)
        · simp at h
      rw [List.cons_append, fgetsLoop, if_neg hc]
      have ih := fgetsLoop_full size (cur ++ [c]) s
        (fun h => hlf (List.mem_cons_of_mem _ h)) (List.cons_ne_nil d w)
      rw [List.append_assoc, List.singleton_append] at ih
      exact ih

/-- A line end in the buffer ends the line. -/
theorem fgetsLoop_lf (size room : Nat) (cur s : Str) :
    fgetsLoop size room cur (lf :: s) = (cur ++ [lf]) :: fgetsLoop size (size - 1) [] s := by
  rw [fgetsLoop, if_pos (.inl rfl)]

theorem fgetsLoop_append (size : Nat) : ∀ {w : Str} {room : Nat} (cur s : Str), lf ∉ w →
    w.length < room → fgetsLoop size room cur (w ++ s) =
      fgetsLoop size (room - w.length) (cur ++ w) s
  | [], _, cur, s, _, _ => by rw [List.append_nil]; rfl
  | c :: w, room, cur, s, hlf, hroom => by
      rw [List.length_cons] at hroom
      have hc : ¬ (c = lf ∨ room ≤ 1) := by
        rintro (h | h)
        · exact hlf (h ▸ List.mem_cons_self)
        · omega
      rw [List.cons_append, fgetsLoop, if_neg hc,
        fgetsLoop_append size (cur ++ [c]) s (fun h => hlf (List.mem_cons_of_mem _ h)) (by omega),
        List.append_assoc, List.singleton_append, List.length_cons, Nat.sub_sub, Nat.add_comm 1]

/-- What is read does not go beyond the end of a line. -/
theorem fgetsLoop_line (size : Nat) : ∀ {w : Str} (room : Nat) (cur s : Str), lf ∉ w →
    fgetsLoop size room cur (w ++ lf :: s) =
      fgetsLoop size room cur (w ++ [lf]) ++ fgetsLoop size (size - 1) [] s
  | [], room, cur, s, _ => by
      rw [List.nil_append, List.nil_append, fgetsLoop_lf, fgetsLoop_lf]
      rfl
  | c :: w, room, cur, s, h => by
      have hw : lf ∉ w := fun hw => h (List.mem_cons_of_mem c hw)
      rw [List.cons_append, List.cons_append, fgetsLoop, fgetsLoop]
      split
      · rw [fgetsLoop_line size (size - 1) [] s hw]
        rfl
      · exact fgetsLoop_line size (room - 1) (cur ++ [c]) s hw

theorem fgetsLines_line (size : Nat) {w : Str} (h : lf ∉ w) (s : Str) :
    fgetsLines size (w ++ lf :: s) = fgetsLines size (w ++ [lf]) ++ fgetsLines size s := by
  rw [fgetsLines, fgetsLoop_line size _ [] s h, List.map_append]
  rfl

/-- A file is read line by line. -/
theorem fgetsLines_lines (size : Nat) (s : Str) :
    fgetsLines size s = (Lines.lines lf s).flatMap (fgetsLines size) := by
  induction hn : s.length using Nat.strong_induction_on generalizing s with
  | _ n ih =>
      by_cases h : lf ∈ s
      · obtain ⟨w, t, rfl, hw⟩ := List.eq_append_cons_of_mem h
        have hlines : Lines.lines lf (w ++ lf :: t) = (w ++ [lf]) :: Lines.lines lf t := by
          rw [List.append_cons, Lines.lines_append (Lines.ends_append_end w), Lines.lines_line hw]
          rfl
        have ht : t.length < n := by
          rw [← hn, List.length_append, List.length_cons]
          omega
        rw [fgetsLines_line size hw, hlines, List.flatMap_cons, ih t.length ht t rfl]
      · cases s with
        | nil => rfl
        | cons c s =>
            rw [Lines.lines_rest h (List.cons_ne_nil c s), List.flatMap_cons, List.flatMap_nil,
              List.append_nil]

/-- What is read at once fits in the buffer, and has a line end only at its end. -/
theorem mem_fgetsLoop {size : Nat} (hsize : 1 < size) : ∀ {room : Nat} {cur s w : Str},
    0 < room → cur.length + room = size - 1 → lf ∉ cur → w ∈ fgetsLoop size room cur s →
    w.length < size ∧ ∃ u, lf ∉ u ∧ (w = u ∨ w = u ++ [lf])
  | room, cur, [], w, hroom, hcur, hlf, hw => by
      rw [fgetsLoop] at hw
      split at hw
      · cases hw
      · rw [List.mem_singleton.mp hw]
        exact ⟨by omega, cur, hlf, .inl rfl⟩
  | room, cur, c :: s, w, hroom, hcur, hlf, hw => by
      rw [fgetsLoop] at hw
      split at hw
      · obtain rfl | hw := List.mem_cons.mp hw
        · refine ⟨by rw [List.length_append, List.length_singleton]; omega, ?_⟩
          by_cases hc : c = lf
          · exact ⟨cur, hlf, .inr (by rw [hc])⟩
          · refine ⟨cur ++ [c], fun h => ?_, .inl rfl⟩
            exact (List.mem_append.mp h).elim hlf fun h => hc (List.mem_singleton.mp h).symm
        · exact mem_fgetsLoop hsize (by omega) (by rw [List.length_nil]; omega) List.not_mem_nil hw
      · next hc =>
          rw [not_or] at hc
          refine mem_fgetsLoop hsize (by omega) ?_ ?_ hw
          · rw [List.length_append, List.length_singleton]
            omega
          · exact fun h =>
              (List.mem_append.mp h).elim hlf fun h => hc.1 (List.mem_singleton.mp h).symm

/-- A line without its end. -/
theorem mem_fgetsLines {size : Nat} (hsize : 1 < size) {s w : Str} (hw : w ∈ fgetsLines size s) :
    (stripCrlf w).length < size ∧ lf ∉ stripCrlf w := by
  obtain ⟨w, hw', rfl⟩ := List.mem_map.mp hw
  obtain ⟨hlen, u, hu, hwu⟩ := mem_fgetsLoop hsize (Nat.sub_pos_of_lt hsize)
    (Nat.zero_add _) List.not_mem_nil hw'
  have hcstr : (cstr w).Sublist w := List.takeWhile_sublist _
  refine ⟨((stripCrlf_sublist _).trans hcstr).length_le.trans_lt hlen, ?_⟩
  have hu' : ∀ v : Str, v.Sublist u → lf ∉ stripCrlf v := fun v hv h =>
    hu (((stripCrlf_sublist v).trans hv).subset h)
  obtain rfl | rfl := hwu
  · exact hu' _ hcstr
  · rw [cstr, List.takeWhile_append]
    split
    · rw [List.takeWhile_cons_of_pos (by decide), List.takeWhile_nil]
      intro h
      rw [stripCrlf_lf] at h
      split at h
      · exact hu (List.dropLast_subset u h)
      · exact hu h
    · exact hu' _ (List.takeWhile_sublist _)

/-- White space between the words of a line. -/
def lineBlanks : Str := [sp, tab, cr, lf]

/-- `atol`: a long has 64 bits. -/
def atol (s : Str) : Int := max (-2 ^ 63) (min (atoi s) (2 ^ 63 - 1))

/-! ## Reading an entry -/

/-- `areasbbs_add_string`: the linked nodes and the passive ones.  `node` is
the variable of that name, which a mark adds before the node that carries it
is read. -/
def areasbbsAddString (node old : Node) (passive : List Node) : List Str → List Node × List Node
  | [] => ([], passive)
  | p :: ps =>
      let marked := p.head? == some 80
      let passive := if marked then passive ++ [node] else passive
      match ascToNodeDiff (if marked then p.tail else p) old with
      | some n => (n :: (areasbbsAddString n n passive ps).1, (areasbbsAddString n n passive ps).2)
      | none => ([], passive)

/-- The texts between the commas. -/
def splitComma : Str → List Str
  | [] => [[]]
  | c :: s =>
      if c = 44 then [] :: splitComma s
      else ((splitComma s).head?.getD []).cons c :: (splitComma s).tail

/-- `areasbbs_add_passive`: up to the first that is no address. -/
def areasbbsAddPassive (old : Node) : List Str → List Node
  | [] => []
  | p :: ps =>
      match ascToNodeDiff p old with
      | some n => n :: areasbbsAddPassive n ps
      | none => []

/-- The options that take the word behind them. -/
def takesWord (nl : Str) : Bool :=
  ["-a", "-z", "-l", "-k", "-d", "-s", "-p", "-t", "-e", "-n", "-u"].any (nl == lit ·)

/-- The effect of an option; `zone` is the current zone, `defzone` the default
one. -/
def areasbbsOption (zone defzone : Int) (p : AreasBBS) (nl o2 : Str) : AreasBBS :=
  if nl == lit "-a" then { p with addr := ascToNodeStore false defzone o2 p.addr }
  else if nl == lit "-z" then { p with zone := atoi o2 }
  else if nl == lit "-l" then { p with lvl := atoi o2 }
  else if nl == lit "-k" then { p with key := some o2 }
  else if nl == lit "-d" then { p with desc := some o2 }
  else if nl == lit "-s" then { p with state := some o2 }
  else if nl == lit "-#" then { p with passthru := true }
  else if nl == lit "-r" then { p with readonly := true }
  else if nl == lit "-p" then
    { p with passive := p.passive ++ areasbbsAddPassive (nodeOld zone) (splitComma o2) }
  else if nl == lit "-t" then { p with time := atol o2 }
  else if nl == lit "-e" then { p with expireN := atoi o2 }
  else if nl == lit "-n" then { p with expireT := atoi o2 }
  else if nl == lit "-u" then { p with uplinks := atoi o2 }
  else p

/-- The options, and the words behind them. -/
def areasbbsOptions (zone defzone : Int) (p : AreasBBS) : List Str → Option (AreasBBS × List Str)
  | [] => some (p, [])
  | [nl] =>
      if nl.head? != some 45 then some (p, [nl])
      else if nl == lit "-p" then some (p, [])
      else if takesWord nl then none
      else some (areasbbsOption zone defzone p nl [], [])
  | nl :: o2 :: words =>
      if nl.head? != some 45 then some (p, nl :: o2 :: words)
      else if takesWord nl then
        areasbbsOptions zone defzone (areasbbsOption zone defzone p nl o2) words
      else areasbbsOptions zone defzone (areasbbsOption zone defzone p nl []) (o2 :: words)

/-- What `areasbbs_parse_line` makes of the words of a line; `undef` is what
the uninitialised `node` of `areasbbs_add_string` holds. -/
def areasbbsParseWords (zone defzone : Int) (undef : Node) : List Str → Option (Option AreasBBS)
  | dir :: tag :: words => do
      let passthru := dir.head? == some 35
      let (p, nl) ← areasbbsOptions zone defzone
        { areasbbsNew with passthru := passthru, dir := if passthru then dir.tail else dir,
                           area := tag } words
      let (nodes, passive) := areasbbsAddString undef (nodeOld zone) p.passive nl
      let first := (nodes.head?.map Node.zone).getD 0
      some (some { p with nodes := nodes, passive := passive,
                          zone := if p.zone == -1 then first else p.zone })
  | _ => some none

/-- `areasbbs_parse_line`; a line without two words is no entry. -/
def areasbbsParseLine (zone defzone : Int) (undef : Node) (line : Str) :
    Option (Option AreasBBS) :=
  areasbbsParseWords zone defzone undef (xstrtok lineBlanks line)

/-- The first line and the list. -/
abbrev AreasFile := Option Str × List AreasBBS

/-- What `areasbbs_init` makes of the text of the file. -/
def areasbbsRead (zone defzone : Int) (undef : Node) (text : Str) : Option AreasFile :=
  match fgetsLines BUFFERSIZE text with
  | [] => some (none, [])
  | first :: lines => do
      let entries ← (lines.map stripCrlf).mapM (areasbbsParseLine zone defzone undef)
      some (some (stripCrlf first), entries.reduceOption)

/-! ## Writing the file -/

/-- The nodes behind the first, each against the one before it. -/
def lonTexts (old : Node) : List Node → List Str
  | [] => []
  | n :: ns => nodeToAscDiff n old :: lonTexts n ns

/-- `lon_print_passive`. -/
def lonPrintPassive (lon : List Node) : Str := (lit ",").intercalate (lonTexts nodeInvalid lon)

/-- `lon_sort`: the nodes behind the first `off` are sorted. -/
def lonSortOff (lon : List Node) (off : Int) : List Node :=
  lon.take off.toNat ++ lonSort (lon.drop off.toNat)

/-- The loop of `lon_print_sorted` behind the node `old` and its space: nodes
equal to it are skipped, and a space stands behind all but the last place of
the list. -/
def lonPrintRest (old : Node) : List Node → Str
  | [] => []
  | n :: ns =>
      if nodeEq old n then lonPrintRest old ns
      else nodeToAscDiff n old ++ ((if ns = [] then [] else [sp]) ++ lonPrintRest n ns)

/-- `lon_print_sorted`. -/
def lonPrintSorted (lon : List Node) (cup : Int) : Str :=
  match lonSortOff lon cup with
  | [] => []
  | n :: ns =>
      nodeToAscDiff n nodeInvalid ++ ((if ns = [] then [] else [sp]) ++ lonPrintRest n ns)

/-- What `areasbbs_print` writes for an entry. -/
def areasbbsPrintEntry (p : AreasBBS) : Str :=
  (if p.passthru then lit "#" else []) ++
  (p.dir ++ lit " " ++ p.area ++ lit " ") ++
  (if p.zone != -1 then lit "-z " ++ putInt p.zone ++ lit " " else []) ++
  (if p.addr.zone != -1 then lit "-a " ++ znfp1 p.addr ++ lit " " else []) ++
  (if p.lvl != -1 then lit "-l " ++ putInt p.lvl ++ lit " " else []) ++
  ((p.key.map fun key => lit "-k " ++ key ++ lit " ").getD []) ++
  (if p.passive = [] then [] else lit "-p " ++ lonPrintPassive p.passive ++ lit " ") ++
  (lit "-t " ++ putDec (p.time % 2 ^ 64).toNat ++ lit " ") ++
  (if p.expireN != 0 then lit "-e " ++ putInt p.expireN ++ lit " " else []) ++
  (if p.expireT != 0 then lit "-n " ++ putInt p.expireT ++ lit " " else []) ++
  ((p.desc.map fun desc => lit "-d \"" ++ desc ++ lit "\" ").getD []) ++
  ((p.state.map fun state => lit "-s " ++ state ++ lit " ").getD []) ++
  (if p.uplinks > 1 then lit "-u " ++ putInt p.uplinks ++ lit " " else []) ++
  lonPrintSorted p.nodes p.uplinks ++ [lf]

/-- `areasbbs_print`; a file without a first line has the null pointer for it,
which the C library prints as `(null)`. -/
def areasbbsPrint (file : AreasFile) : Str :=
  file.1.getD (lit "(null)") ++ [lf] ++ file.2.flatMap areasbbsPrintEntry

end Fidogate

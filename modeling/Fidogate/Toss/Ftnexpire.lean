/-
# `Fidogate.Toss.Ftnexpire` — histdb.c: writing a history; ftnexpire.c: expiring it

A history is a text with a line for each entry, and a data base that has the
offset of the line for each key.  An entry has two fields, in the history of
the gateway three.  `do_expire` reads the lines back through a buffer, takes
them apart at the tabs and writes those that are kept to a new history.
-/
import Fidogate.Common.Histdb
import Fidogate.Common.Read
import Fidogate.Lib.Ledger
import Fidogate.Tick.DoTic
import Fidogate.Tick.RoundTrip
import Mathlib.Algebra.Order.BigOperators.Group.List
import Mathlib.Algebra.Order.Group.Nat

namespace Fidogate

open Bytes

/-! ## Writing -/

/-- An entry; a Message-ID only in the history of the gateway. -/
structure HistEntry where
  key : Str
  rfc : Option Str
  time : Int
  deriving DecidableEq, Repr

/-- The fields in front of the time, each with its tab. -/
def HistEntry.front (e : HistEntry) : Str :=
  e.key ++ [tab] ++ (e.rfc.map (· ++ [tab])).getD []

def HistEntry.line (e : HistEntry) : Str := e.front ++ putInt e.time ++ [lf]

abbrev History := Ledger.State HistEntry Str UInt8

/-- The line and the record of the data base, which both writers and
`do_line` make in the same way. -/
def History.put (h : History) (e : HistEntry) : History :=
  Ledger.write HistEntry.key HistEntry.line h e

/-- `hi_write_t` -/
def hiWriteT (h : History) (t : Int) (msgid : Str) : History := h.put ⟨msgid, none, t⟩

/-- `hi_write_dbc`, with the text of the history. -/
def hiWriteDbcText (h : History) (r : DbcRecord) : History := h.put ⟨r.key, some r.rfcMsgid, r.time⟩

/-- `ftntick_write_history` -/
def ftntickWriteHistory (h : History) (t : Int) (tic : Tick) : History := hiWriteT h t (ticKey tic)

/-- `hi_test` -/
def hiTest (h : History) (key : Str) : Bool := (h.index key).isSome

/-- A call of the writer of a history: `dbc` for that of the gateway. -/
inductive HistCall : Bool → Type
  | write (t : Int) (msgid : Str) : HistCall false
  | writeDbc (r : DbcRecord) : HistCall true

def HistCall.run {dbc : Bool} (h : History) : HistCall dbc → History
  | .write t msgid => hiWriteT h t msgid
  | .writeDbc r => hiWriteDbcText h r

def HistCall.entry {dbc : Bool} : HistCall dbc → HistEntry
  | .write t msgid => ⟨msgid, none, t⟩
  | .writeDbc r => ⟨r.key, some r.rfcMsgid, r.time⟩

/-- The arguments are strings and a time. -/
def HistCall.Valid {dbc : Bool} : HistCall dbc → Prop
  | .write t msgid => nul ∉ msgid ∧ -2 ^ 63 ≤ t ∧ t < 2 ^ 63
  | .writeDbc r => (nul ∉ r.fidoMsgid ∧ nul ∉ r.rfcMsgid) ∧ -2 ^ 63 ≤ r.time ∧ r.time < 2 ^ 63

instance {dbc : Bool} : (c : HistCall dbc) → Decidable c.Valid
  | .write t msgid => inferInstanceAs (Decidable (nul ∉ msgid ∧ -2 ^ 63 ≤ t ∧ t < 2 ^ 63))
  | .writeDbc r => inferInstanceAs (Decidable
      ((nul ∉ r.fidoMsgid ∧ nul ∉ r.rfcMsgid) ∧ -2 ^ 63 ≤ r.time ∧ r.time < 2 ^ 63))

/-- The history some calls write. -/
def histWritten {dbc : Bool} (calls : List (HistCall dbc)) : History :=
  calls.foldl HistCall.run Ledger.empty

/-! ## Expiring -/

/-- The entry the tokens of a line make, `dbc` for `type == 1`. -/
def tokensEntry : Bool → List Str → Option HistEntry
  | true, msgid :: rfcMsgid :: p :: _ => some ⟨msgid, some rfcMsgid, atol p⟩
  | false, msgid :: p :: _ => some ⟨msgid, none, atol p⟩
  | _, _ => none

/-- What `do_line` finds in a line. -/
def lineEntry (dbc : Bool) (line : Str) : Option HistEntry :=
  tokensEntry dbc (strtok [tab] (stripCrlf line))

/-- `do_line` -/
def doLine (dbc : Bool) (expSec : Int) (hiN : History) (line : Str) : History :=
  match lineEntry dbc line with
  | none => hiN
  | some e => if e.time < expSec then hiN else hiN.put e

/-- `do_expire` on the text of a history. -/
def doExpire (dbc : Bool) (expSec : Int) (hiO : Str) : History :=
  (fgetsLines BUFFERSIZE hiO).foldl (doLine dbc expSec) Ledger.empty

/-- The entries whose time is not before the limit. -/
def keptEntries (expSec : Int) (es : List HistEntry) : List HistEntry :=
  es.filter fun e => decide (expSec ≤ e.time)

/-- What `do_line` finds where the line of the entry is read. -/
def HistEntry.reads (dbc : Bool) (e : HistEntry) : List HistEntry :=
  (fgetsLines BUFFERSIZE e.line).filterMap (lineEntry dbc)

/-- A field that is found again. -/
def IsHistField (w : Str) : Prop := w ≠ [] ∧ tab ∉ w ∧ lf ∉ w

instance (w : Str) : Decidable (IsHistField w) :=
  inferInstanceAs (Decidable (w ≠ [] ∧ tab ∉ w ∧ lf ∉ w))

/-- The fields in front of the time are not empty and have no tab and no line
end, and the line has no more bytes than the buffer. -/
def HistEntry.Plain (e : HistEntry) : Prop :=
  IsHistField e.key ∧ (∀ r ∈ e.rfc, IsHistField r) ∧ e.line.length ≤ BUFFERSIZE

/-- An entry that is to be kept is plain; in the line of one that is to be
dropped there is no entry to be kept. -/
def HistEntry.Expires (dbc : Bool) (expSec : Int) (e : HistEntry) : Prop :=
  if expSec ≤ e.time then e.Plain else keptEntries expSec (e.reads dbc) = []

instance decPlainEntry (e : HistEntry) : Decidable e.Plain :=
  inferInstanceAs (Decidable
    (IsHistField e.key ∧ (∀ r ∈ e.rfc, IsHistField r) ∧ e.line.length ≤ BUFFERSIZE))

instance (dbc : Bool) (expSec : Int) (e : HistEntry) : Decidable (e.Expires dbc expSec) :=
  inferInstanceAs (Decidable
    (if expSec ≤ e.time then e.Plain else keptEntries expSec (e.reads dbc) = []))

/-! ## The entry of a line -/

/-- An entry as the writer of the history makes it. -/
structure HistEntry.Valid (dbc : Bool) (e : HistEntry) : Prop where
  kind : e.rfc.isSome = dbc
  nul : nul ∉ e.key ∧ ∀ r ∈ e.rfc, nul ∉ r
  time : -2 ^ 63 ≤ e.time ∧ e.time < 2 ^ 63

theorem HistCall.Valid.entry {dbc : Bool} {c : HistCall dbc} (h : c.Valid) : c.entry.Valid dbc := by
  cases c with
  | write t msgid =>
      obtain ⟨hnul, htime⟩ := h
      exact ⟨rfl, ⟨hnul, fun r hr => (nomatch hr)⟩, htime⟩
  | writeDbc r =>
      obtain ⟨⟨hkey, hrfc⟩, htime⟩ := h
      have hserial : nul ∉ serialOf r.fidoMsgid := fun hmem => hkey (List.mem_reverse.mp
        ((List.takeWhile_sublist _).subset (List.mem_reverse.mp hmem)))
      exact ⟨rfl, ⟨hserial, fun r' hr => Option.some.inj hr ▸ hrfc⟩, htime⟩

theorem IsHistField.isWord {w : Str} (h : IsHistField w) : IsWord false [tab] w where
  ne_nil := h.1
  plain := fun c hc => by
    have hne : c ≠ tab := fun heq => h.2.1 (heq ▸ hc)
    rw [isDelim, List.contains_cons, List.contains_nil, Bool.or_false, beq_eq_false_iff_ne]
    exact hne
  unquoted := fun h => (nomatch h)

theorem isHistField_of_isWord {w : Str} (h : IsWord false [tab] w) (hlf : lf ∉ w) : IsHistField w :=
  ⟨h.ne_nil, fun htab => absurd (h.plain tab htab) (by decide), hlf⟩

theorem isHistField_putInt (n : Int) : IsHistField (putInt n) :=
  ⟨putInt_ne_nil n, not_mem_putInt (by decide) (by decide), not_mem_putInt (by decide) (by decide)⟩

theorem not_mem_front {e : HistEntry} {c : UInt8} (hkey : c ∉ e.key) (hrfc : ∀ r ∈ e.rfc, c ∉ r)
    (hc : c ≠ tab) : c ∉ e.front := by
  rw [HistEntry.front, List.mem_append, List.mem_append, List.mem_singleton]
  rintro ((h | h) | h)
  · exact hkey h
  · exact hc h
  · cases hr : e.rfc with
    | none =>
        rw [hr] at h
        cases h
    | some r =>
        rw [hr, Option.map_some, Option.getD_some, List.mem_append, List.mem_singleton] at h
        exact h.elim (hrfc r hr) hc

/-- The words between the tabs. -/
theorem words_fields {e : HistEntry} (hkey : IsHistField e.key)
    (hrfc : ∀ r ∈ e.rfc, IsHistField r) :
    strtok [tab] (e.front ++ putInt e.time) = e.key :: (e.rfc.toList ++ [putInt e.time]) := by
  have htab : isDelim [tab] tab = true := rfl
  have htime : words false [tab] (putInt e.time) = [putInt e.time] :=
    words_word (isHistField_putInt e.time).isWord
  change words false [tab] _ = _
  rw [HistEntry.front, List.append_assoc, List.append_assoc, List.singleton_append,
    words_append hkey.isWord htab]
  cases hr : e.rfc with
  | none => exact congrArg _ htime
  | some r =>
      rw [Option.map_some, Option.getD_some, List.append_assoc, List.singleton_append,
        words_append (hrfc r hr).isWord htab, htime]
      rfl

theorem lineEntry_of_strip {dbc : Bool} {e : HistEntry} (hv : e.Valid dbc)
    (hkey : IsHistField e.key) (hrfc : ∀ r ∈ e.rfc, IsHistField r) {line : Str}
    (hline : stripCrlf line = e.front ++ putInt e.time) : lineEntry dbc line = some e := by
  have hatol : atol (putInt e.time) = e.time := by
    have := hv.time
    rw [atol, atoi_putInt]
    omega
  have hwords := words_fields hkey hrfc
  rw [lineEntry, hline, hwords]
  obtain ⟨key, rfc, time⟩ := e
  obtain ⟨rfl, -, -⟩ := hv
  cases rfc with
  | none => exact congrArg (fun t => some (HistEntry.mk key none t)) hatol
  | some r => exact congrArg (fun t => some (HistEntry.mk key (some r) t)) hatol

/-- The line without its end stays as it is: the last byte is a digit. -/
theorem stripCrlf_fields (e : HistEntry) :
    stripCrlf (e.front ++ putInt e.time) = e.front ++ putInt e.time ∧
      stripCrlf e.line = e.front ++ putInt e.time := by
  obtain ⟨c, hc⟩ : ∃ c, (putInt e.time).getLast? = some c :=
    Option.ne_none_iff_exists'.mp fun h => putInt_ne_nil _ (List.getLast?_eq_none_iff.mp h)
  have hlast : (e.front ++ putInt e.time).getLast? = some c := by
    rw [List.getLast?_append, hc, Option.some_or]
  have hmem : c ∈ putInt e.time := List.mem_of_getLast? hc
  have hcr : some c ≠ some cr := fun h =>
    not_mem_putInt (c := cr) (by decide) (by decide) (Option.some.inj h ▸ hmem)
  have hlf : some c ≠ some lf := fun h =>
    not_mem_putInt (c := lf) (by decide) (by decide) (Option.some.inj h ▸ hmem)
  constructor
  · rw [stripCrlf, hlast, if_neg hlf, hlast, if_neg hcr]
  · rw [HistEntry.line, stripCrlf_lf, hlast, if_neg hcr]

/-- A plain entry is read as it is. -/
theorem HistEntry.Plain.reads {dbc : Bool} {e : HistEntry} (he : e.Plain) (hv : e.Valid dbc) :
    e.reads dbc = [e] := by
  obtain ⟨hkey, hrfc, hlen⟩ := he
  have hlf : lf ∉ e.front ++ putInt e.time := fun h => (List.mem_append.mp h).elim
    (not_mem_front hkey.2.2 (fun r hr => (hrfc r hr).2.2) (by decide)) (isHistField_putInt _).2.2
  have hnul : nul ∉ e.front ++ putInt e.time := fun h => (List.mem_append.mp h).elim
    (not_mem_front hv.nul.1 hv.nul.2 (by decide)) (not_mem_putInt (by decide) (by decide))
  have hkeep : ∀ c ∈ e.front ++ putInt e.time, (c != nul) = true := fun c hc =>
    bne_iff_ne.mpr fun h => hnul (h ▸ hc)
  have hcstr : cstr (e.front ++ putInt e.time) = e.front ++ putInt e.time :=
    List.takeWhile_eq_self_iff.mpr hkeep
  have hcstrLine : cstr e.line = e.line := by
    rw [HistEntry.line, cstr, List.takeWhile_append_of_pos hkeep]
    rfl
  obtain ⟨hstrip, hstripLine⟩ := stripCrlf_fields e
  rw [HistEntry.line, List.length_append, List.length_singleton] at hlen
  rw [HistEntry.reads]
  obtain hlt | heq := Nat.lt_or_eq_of_le (Nat.le_sub_of_add_le hlen)
  · have hread : fgetsLines BUFFERSIZE e.line = [e.line] := by
      rw [fgetsLines, HistEntry.line, fgetsLoop_append BUFFERSIZE [] [lf] hlf hlt, fgetsLoop_lf]
      exact congrArg (fun l => [l]) hcstrLine
    rw [hread, List.filterMap_cons_some (lineEntry_of_strip hv hkey hrfc hstripLine)]
    rfl
  · -- The end of the line does not fit in the buffer any more, and is read as
    -- a line of its own.
    have hne : e.front ++ putInt e.time ≠ [] := fun h =>
      putInt_ne_nil _ (List.append_eq_nil_iff.mp h).2
    have hread : fgetsLines BUFFERSIZE e.line = [e.front ++ putInt e.time, [lf]] := by
      rw [fgetsLines, HistEntry.line, ← heq, fgetsLoop_full BUFFERSIZE [] [lf] hlf hne,
        fgetsLoop_lf]
      exact congrArg (fun l => [l, [lf]]) hcstr
    have hnone : lineEntry dbc [lf] = none := by
      cases dbc <;> rfl
    rw [hread, List.filterMap_cons_some (lineEntry_of_strip hv hkey hrfc hstrip),
      List.filterMap_cons_none hnone]
    rfl

/-- What is read is plain. -/
theorem plain_of_lineEntry {dbc : Bool} {line : Str} {e : HistEntry}
    (hlen : (stripCrlf line).length < BUFFERSIZE) (hlf : lf ∉ stripCrlf line)
    (h : lineEntry dbc line = some e) : e.Plain := by
  obtain ⟨hwords, hsum⟩ := @words_spec [tab] (stripCrlf line)
  have hfield : ∀ w ∈ words false [tab] (stripCrlf line), IsHistField w := fun w hw =>
    isHistField_of_isWord (hwords w hw).1 fun hmem => hlf ((hwords w hw).2 hmem)
  have htime : ∀ p : Str, IsHistField p → (putInt (atol p)).length ≤ p.length := fun p hp =>
    length_putInt_atol hp.1
  change tokensEntry dbc (words false [tab] (stripCrlf line)) = some e at h
  generalize words false [tab] (stripCrlf line) = ws at hfield hsum h
  unfold tokensEntry at h
  split at h
  · next msgid rfcMsgid p rest =>
      cases h
      have hmsgid := hfield msgid List.mem_cons_self
      have hrfc := hfield rfcMsgid (List.mem_cons_of_mem _ List.mem_cons_self)
      have hp := hfield p (List.mem_cons_of_mem _ (List.mem_cons_of_mem _ List.mem_cons_self))
      refine ⟨hmsgid, fun r hr => Option.some.inj hr ▸ hrfc, ?_⟩
      have := htime p hp
      simp only [List.map_cons, List.sum_cons] at hsum
      simp only [HistEntry.line, HistEntry.front, Option.map_some, Option.getD_some,
        List.length_append, List.length_singleton]
      omega
  · next msgid p rest =>
      cases h
      have hmsgid := hfield msgid List.mem_cons_self
      have hp := hfield p (List.mem_cons_of_mem _ List.mem_cons_self)
      refine ⟨hmsgid, fun r hr => (nomatch hr), ?_⟩
      have := htime p hp
      simp only [List.map_cons, List.sum_cons] at hsum
      simp only [HistEntry.line, HistEntry.front, Option.map_none, Option.getD_none,
        List.length_append, List.length_singleton, List.length_nil]
      omega
  · cases h

theorem plain_of_mem_reads {dbc : Bool} {e e' : HistEntry} (h : e' ∈ e.reads dbc) : e'.Plain := by
  obtain ⟨line, hline, he⟩ := List.mem_filterMap.mp h
  obtain ⟨hlen, hlf⟩ := mem_fgetsLines (by decide) hline
  exact plain_of_lineEntry hlen hlf he

/-! ## The new history -/

theorem keptEntries_cons_pos {expSec : Int} {e : HistEntry} (h : expSec ≤ e.time)
    (es : List HistEntry) : keptEntries expSec (e :: es) = e :: keptEntries expSec es :=
  @List.filter_cons_of_pos _ (fun e : HistEntry => decide (expSec ≤ e.time)) _ _ (decide_eq_true h)

theorem keptEntries_cons_neg {expSec : Int} {e : HistEntry} (h : ¬ expSec ≤ e.time)
    (es : List HistEntry) : keptEntries expSec (e :: es) = keptEntries expSec es :=
  @List.filter_cons_of_neg _ (fun e : HistEntry => decide (expSec ≤ e.time)) _ _
    (by rwa [decide_eq_true_eq])

theorem exact_histWritten {dbc : Bool} (calls : List (HistCall dbc)) :
    Ledger.Exact HistEntry.key HistEntry.line (histWritten calls) (calls.map HistCall.entry) := by
  have hrun : histWritten calls = (calls.map HistCall.entry).foldl History.put Ledger.empty := by
    rw [histWritten, List.foldl_map]
    congr 1
    funext h c
    cases c <;> rfl
  rw [hrun]
  exact Ledger.exact_empty.writes _

/-- The new history has the entries to be kept of those that are read. -/
theorem exact_doExpire (dbc : Bool) (expSec : Int) (hiO : Str) :
    Ledger.Exact HistEntry.key HistEntry.line (doExpire dbc expSec hiO)
      (keptEntries expSec ((fgetsLines BUFFERSIZE hiO).filterMap (lineEntry dbc))) := by
  have hlines : ∀ (ls : List Str) (h : History), ls.foldl (doLine dbc expSec) h =
      (keptEntries expSec (ls.filterMap (lineEntry dbc))).foldl History.put h := by
    intro ls
    induction ls with
    | nil => exact fun h => rfl
    | cons l ls ih =>
        intro h
        rw [List.foldl_cons, ih, doLine]
        cases he : lineEntry dbc l with
        | none => rw [List.filterMap_cons_none he]
        | some e =>
            rw [List.filterMap_cons_some he]
            dsimp only
            by_cases hlt : e.time < expSec
            · rw [if_pos hlt, keptEntries_cons_neg (not_le.mpr hlt)]
            · rw [if_neg hlt, keptEntries_cons_pos (not_lt.mp hlt), List.foldl_cons]
  rw [doExpire, hlines]
  exact Ledger.exact_empty.writes _

/-- The lines of the entries are read one after the other. -/
theorem fgetsLines_entries (size : Nat) (es : List HistEntry) :
    fgetsLines size (Ledger.textOf HistEntry.line es) =
      es.flatMap fun e => fgetsLines size e.line := by
  induction es with
  | nil => rfl
  | cons e es ih =>
      have hends : Lines.Ends lf e.line := Lines.ends_append_end _
      rw [List.flatMap_cons, ← ih, Ledger.textOf, List.flatMap_cons, ← Ledger.textOf,
        fgetsLines_lines, Lines.lines_append hends, List.flatMap_append, ← fgetsLines_lines,
        ← fgetsLines_lines]

/-- Where each list is as long as its part of the other, and they are the
same, each is its part. -/
theorem flatMap_parts {α β : Type*} {f g : α → List β} : ∀ {xs : List α},
    (∀ x ∈ xs, (g x).length ≤ (f x).length) → xs.flatMap f = xs.flatMap g →
    ∀ x ∈ xs, f x = g x
  | [], _, _ => fun x hx => (nomatch hx)
  | y :: ys, hle, heq => by
      rw [List.flatMap_cons, List.flatMap_cons] at heq
      have hle' : ∀ x ∈ ys, (g x).length ≤ (f x).length := fun x hx =>
        hle x (List.mem_cons_of_mem y hx)
      have hsum : (ys.flatMap g).length ≤ (ys.flatMap f).length := by
        rw [List.length_flatMap, List.length_flatMap]
        exact List.sum_le_sum hle'
      have hlen := congrArg List.length heq
      rw [List.length_append, List.length_append] at hlen
      have hy := hle y List.mem_cons_self
      obtain ⟨hfy, hrest⟩ := List.append_inj heq (by omega)
      intro x hx
      obtain rfl | hx := List.mem_cons.mp hx
      · exact hfy
      · exact flatMap_parts hle' hrest x hx

theorem keptEntries_eq_flatMap (expSec : Int) (es : List HistEntry) :
    keptEntries expSec es = es.flatMap fun e => if expSec ≤ e.time then [e] else [] := by
  induction es with
  | nil => rfl
  | cons e es ih =>
      rw [List.flatMap_cons, ← ih]
      by_cases h : expSec ≤ e.time
      · rw [keptEntries_cons_pos h, if_pos h, List.singleton_append]
      · rw [keptEntries_cons_neg h, if_neg h, List.nil_append]

theorem keptEntries_flatMap_iff {dbc : Bool} {expSec : Int} {es : List HistEntry}
    (hv : ∀ e ∈ es, e.Valid dbc) :
    keptEntries expSec (es.flatMap (HistEntry.reads dbc)) = keptEntries expSec es ↔
      ∀ e ∈ es, e.Expires dbc expSec := by
  have hleft : keptEntries expSec (es.flatMap (HistEntry.reads dbc)) =
      es.flatMap fun e => keptEntries expSec (e.reads dbc) := by
    rw [keptEntries, List.filter_flatMap]
    rfl
  have hplain : ∀ e ∈ es, expSec ≤ e.time → e.Plain → keptEntries expSec (e.reads dbc) = [e] := by
    intro e he htime hp
    rw [hp.reads (hv e he), keptEntries_cons_pos htime]
    rfl
  rw [hleft, keptEntries_eq_flatMap expSec es]
  constructor
  · intro heq
    have hkeep : ∀ e ∈ es, expSec ≤ e.time → e.Plain := by
      intro e he htime
      have hmem : e ∈ es.flatMap fun e => if expSec ≤ e.time then [e] else [] :=
        List.mem_flatMap.mpr ⟨e, he, by rw [if_pos htime]; exact List.mem_singleton_self e⟩
      rw [← heq] at hmem
      obtain ⟨e', -, hread⟩ := List.mem_flatMap.mp hmem
      exact plain_of_mem_reads (List.mem_filter.mp hread).1
    have hle : ∀ e ∈ es, (if expSec ≤ e.time then [e] else []).length ≤
        (keptEntries expSec (e.reads dbc)).length := by
      intro e he
      split
      · next htime => rw [hplain e he htime (hkeep e he htime)]
      · exact Nat.zero_le _
    intro e he
    rw [HistEntry.Expires]
    split
    · next htime => exact hkeep e he htime
    · next htime =>
        have hpart := flatMap_parts hle heq e he
        rwa [if_neg htime] at hpart
  · intro h
    refine List.flatMap_congr fun e he => ?_
    have hexp := h e he
    rw [HistEntry.Expires] at hexp
    split
    · next htime =>
        rw [if_pos htime] at hexp
        exact hplain e he htime hexp
    · next htime => rwa [if_neg htime] at hexp

/-- Of a history that was written by any calls, the new history has exactly
the entries whose time is not before the limit, and its data base their keys
and the offsets of their lines, if and only if each entry to be kept is plain
and no line of the others is an entry to be kept. -/
theorem doExpire_exact_iff {dbc : Bool} (expSec : Int) (calls : List (HistCall dbc))
    (hcalls : ∀ c ∈ calls, c.Valid) :
    Ledger.Exact HistEntry.key HistEntry.line (doExpire dbc expSec (histWritten calls).text)
        (keptEntries expSec (calls.map HistCall.entry)) ↔
      ∀ c ∈ calls, c.entry.Expires dbc expSec := by
  have hv : ∀ e ∈ calls.map HistCall.entry, e.Valid dbc := by
    intro e he
    obtain ⟨c, hc, rfl⟩ := List.mem_map.mp he
    exact (hcalls c hc).entry
  have hnew := exact_doExpire dbc expSec (histWritten calls).text
  have hread : (fgetsLines BUFFERSIZE (histWritten calls).text).filterMap (lineEntry dbc) =
      (calls.map HistCall.entry).flatMap (HistEntry.reads dbc) := by
    rw [(exact_histWritten calls).text, fgetsLines_entries, List.filterMap_flatMap]
    rfl
  rw [hread] at hnew
  rw [← List.forall_mem_map, ← keptEntries_flatMap_iff hv]
  constructor
  · exact fun h => hnew.entries.symm.trans h.entries
  · exact fun h => h ▸ hnew

/-- A history of the gateway with an entry that has no key, and was stored
before the limit. -/
def dbcCalls : List (HistCall true) :=
  [.writeDbc ⟨lit "<a@one.example>", lit "2:5020/1 ", 999999999⟩,
    .writeDbc ⟨lit "<b@two.example>", lit "2:5020/2 0a1b2c3d", 1000000001⟩]

theorem doExpire_exact_dbc :
    (doExpire true 1000000000 (histWritten dbcCalls).text).text =
      lit "0a1b2c3d\t<b@two.example>\t1000000001\n" ∧
    Ledger.Exact HistEntry.key HistEntry.line
      (doExpire true 1000000000 (histWritten dbcCalls).text)
      (keptEntries 1000000000 (dbcCalls.map HistCall.entry)) :=
  ⟨by decide +kernel,
    (doExpire_exact_iff 1000000000 dbcCalls (by decide +kernel)).mpr (by decide +kernel)⟩

/-- A TIC with a tab in the name of its file. -/
def tabTic : Tick := tickGet 2 2 (lit "Area FILES\nOrigin 2:5020/1\nFile my\tfile.zip\nCRC 1a2b\n")

/-- The entry is lost, and with it what makes the file a dupe. -/
theorem doExpire_tabTic : ¬ ∀ calls : List (HistCall false), (∀ c ∈ calls, c.Valid) →
    Ledger.Exact HistEntry.key HistEntry.line
      (doExpire false 1000000000 (histWritten calls).text)
      (keptEntries 1000000000 (calls.map HistCall.entry)) := by
  intro h
  have hexact := h [.write 2000000000 (ticKey tabTic)] (by decide +kernel)
  have hentries := hexact.entries
  revert hentries
  decide +kernel

end Fidogate

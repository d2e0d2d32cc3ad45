/-
# `Fidogate.Toss.FtnexpireDbz` — ftnexpire.c: rebuilding the data base

`do_expire` makes a new data base with `dbzagain`, in a table of a size chosen
from the counts of the old ones, and stores the entries that are kept.  A
history lives through calls and expiries; all along, its data base answers as
its records do.
-/
import Fidogate.Common.DbzHistory
import Fidogate.Common.DbzSize
import Fidogate.Toss.Ftnexpire

namespace Fidogate

open Bytes

/-! ## A new data base -/

/-- What `dbzagain` does to the old configuration: the counts move on by one,
and the table gets a new size, or a larger one while not all of the counts
are there. -/
def DbzConfig.again (c : DbzConfig) : DbzConfig :=
  let top := c.used.foldl max 0
  let newtable := c.used.contains 0 || top == 0
  let newsize := dbzsize top
  { c with
    used := 0 :: c.used.dropLast
    tsize := if newtable = false ∨ c.tsize < newsize then newsize else c.tsize }

/-- `dbzagain`, beside a base file that is empty. -/
def dbzagain (incore : Bool) (oldDir : Str) : Option Dbz :=
  (getconf oldDir true false).bind fun c => dbminit incore false ⟨[], putconf c.again, []⟩

/-- What is behind the key and its tab in the line of an entry. -/
def HistEntry.rest (e : HistEntry) : Str :=
  (e.rfc.map (· ++ [tab])).getD [] ++ putInt e.time ++ [lf]

/-- `do_line` -/
def Dbz.doLine (dbc : Bool) (expSec : Int) (d : Dbz) (line : Str) : Option Dbz :=
  match lineEntry dbc line with
  | none => some d
  | some e => if e.time < expSec then some d else (d.hiPut e.key e.rest).map Prod.snd

/-- `do_expire`: the new files, renamed to the old ones. -/
def doExpireDbz (dbc : Bool) (expSec : Int) (old : DbzFiles) : Option DbzFiles :=
  (dbzagain true old.dir).bind fun d =>
    ((fgetsLines BUFFERSIZE old.base).foldlM (Dbz.doLine dbc expSec) d).map Dbz.dbmclose

/-- A call, or an expiry while the history is closed. -/
inductive HistEvent
  | call (op : HistOp)
  | expire (dbc : Bool) (expSec : Int) (incore : Bool)
  deriving DecidableEq, Repr

/-- What happens to a history. -/
def Dbz.histEvent (d : Dbz) : HistEvent → Option (HistAnswer × Dbz)
  | .call op => d.histStep op
  | .expire dbc expSec incore =>
      ((doExpireDbz dbc expSec d.dbmclose).bind (dbminit incore d.conf.olddbz)).map
        fun d => (.opened, d)

/-! ## The records that are kept -/

/-- The records of some entries. -/
def HistText.ofEntries (es : List HistEntry) : HistText :=
  es.foldl (fun h e => (h.put e.key e.rest).2) HistText.empty

/-- The entries an expiry keeps: those it reads whose time is not before the
limit. -/
def HistText.kept (h : HistText) (dbc : Bool) (expSec : Int) : List HistEntry :=
  keptEntries expSec ((fgetsLines BUFFERSIZE h.text).filterMap (lineEntry dbc))

def HistText.event (h : HistText) : HistEvent → HistAnswer × HistText
  | .call op => h.step op
  | .expire dbc expSec _ => (.opened, HistText.ofEntries (h.kept dbc expSec))

/-- The arguments are as they are to be, and the text has less than 2 ^ 60
bytes before and behind. -/
def HistEvent.Fits (h : HistText) (ev : HistEvent) : Prop :=
  (∀ op, ev = .call op → op.Valid) ∧ h.text.length < 2 ^ 60 ∧
    (Refine.next HistText.event h ev).text.length < 2 ^ 60

/-! ## The size of the table -/

theorem le_dbzsizeLoop : ∀ k n : Nat, n ≤ dbzsizeLoop k n ∧ dbzsizeLoop k n ≤ n + 2 * k
  | 0, n => ⟨Nat.le_refl n, Nat.le_refl n⟩
  | k + 1, n => by
      rw [dbzsizeLoop]
      split
      · exact ⟨Nat.le_refl n, Nat.le_add_right _ _⟩
      · have ih := le_dbzsizeLoop k (n + 2)
        omega

/-- A table always has room, and a size that is a long. -/
theorem dbzsize_bounds {contents : Nat} (h : contents < 2 ^ 60) :
    0 < dbzsize contents ∧ dbzsize contents < 2 ^ 63 := by
  rw [dbzsize]
  split
  · decide
  · dsimp only
    generalize hn : (if contents / 2 * 3 % 2 = 0 then contents / 2 * 3 + 1
      else contents / 2 * 3) = n
    have hbound : 0 < n ∧ n ≤ contents / 2 * 3 + 1 := by
      rw [← hn]
      split <;> omega
    have := le_dbzsizeLoop (n + 41) n
    omega

theorem foldl_max_lt {n : Nat} {us : List Nat} (h : ∀ u ∈ us, u < n) :
    ∀ {m : Nat}, m < n → us.foldl max m < n := by
  induction us with
  | nil => exact fun hm => hm
  | cons u us ih =>
      intro m hm
      exact ih (fun v hv => h v (List.mem_cons_of_mem u hv)) (max_lt hm (h u List.mem_cons_self))

/-- The new configuration is one to be stored with, and read back. -/
theorem DbzConfig.again_good {c : DbzConfig} (hc : c.Good) (hw : c.Writable)
    (hused : ∀ u ∈ c.used, u < 2 ^ 60) : c.again.Good ∧ c.again.Writable ∧
      c.again.casemap = c.casemap ∧ c.again.taghere = c.taghere ∧ c.again.olddbz = c.olddbz ∧
      c.again.used = 0 :: c.used.dropLast := by
  have htop := dbzsize_bounds (foldl_max_lt hused (show 0 < 2 ^ 60 by decide))
  have hsize : 0 < c.again.tsize ∧ c.again.tsize < 2 ^ 63 := by
    rw [DbzConfig.again]
    dsimp only
    split
    · exact htop
    · exact ⟨hc.tsize, hw.numbers.1⟩
  refine ⟨⟨hsize.1, hc.apart, hc.enabled, hc.fieldsep⟩,
    ⟨⟨hsize.2, hw.numbers.2⟩, ⟨?_, ?_⟩, hw.valuesize, hw.bytemap, hw.casemap⟩, rfl, rfl, rfl, rfl⟩
  · rw [DbzConfig.again]
    dsimp only
    rw [List.length_cons, List.length_dropLast, hw.used.1]
    rfl
  · rw [DbzConfig.again]
    dsimp only
    intro u hu
    rcases List.mem_cons.mp hu with rfl | hu
    · decide
    · exact hw.used.2 u (List.dropLast_subset _ hu)

/-! ## Storing the entries that are kept -/

/-- An entry that is read is one to be written. -/
theorem isHistKey_of_lineEntry {dbc : Bool} {text line : Str} {e : HistEntry}
    (hline : line ∈ fgetsLines BUFFERSIZE text) (h : lineEntry dbc line = some e) :
    IsHistKey e.key ∧ nul ∉ e.rest ∧ lf ∈ e.rest := by
  obtain ⟨hlen, hlf⟩ := mem_fgetsLines (by decide) hline
  have hplain := plain_of_lineEntry hlen hlf h
  have hnul : nul ∉ line := by
    obtain ⟨w, -, rfl⟩ := List.mem_map.mp hline
    exact fun hm => absurd (List.mem_takeWhile_imp hm) (by decide)
  obtain ⟨hwords, -⟩ := @words_spec [tab] (stripCrlf line)
  have htok : ∀ w ∈ words false [tab] (stripCrlf line), nul ∉ w := fun w hw hm =>
    hnul ((stripCrlf_sublist line).subset ((hwords w hw).2 hm))
  have hmem : ∀ {ws : List Str}, (∀ w ∈ ws, nul ∉ w) → tokensEntry dbc ws = some e →
      nul ∉ e.key ∧ ∀ r ∈ e.rfc, nul ∉ r := by
    intro ws hws he
    unfold tokensEntry at he
    split at he
    · next msgid rfcMsgid p rest =>
        cases he
        refine ⟨hws msgid List.mem_cons_self, fun r hr => ?_⟩
        obtain rfl := Option.some.inj hr
        exact hws rfcMsgid (List.mem_cons_of_mem _ List.mem_cons_self)
    · next msgid p rest =>
        cases he
        exact ⟨hws msgid List.mem_cons_self, fun r hr => absurd hr (Option.not_mem_none r)⟩
    · cases he
  obtain ⟨hkey, hrfc⟩ := hmem htok h
  refine ⟨⟨hplain.1.2.1, hkey⟩, ?_, List.mem_append_right _ List.mem_cons_self⟩
  rw [HistEntry.rest]
  refine not_mem_append (not_mem_append ?_ (nul_not_mem_putInt _)) (by decide)
  cases hr : e.rfc with
  | none => exact List.not_mem_nil
  | some r => exact not_mem_append (hrfc r hr) (by decide)

theorem HistText.le_ofEntries (h : HistText) : ∀ es : List HistEntry,
    h.text.length ≤ (es.foldl (fun h e => (h.put e.key e.rest).2) h).text.length := by
  intro es
  induction es generalizing h with
  | nil => exact Nat.le_refl _
  | cons e es ih =>
      have hput : h.text.length ≤ (h.put e.key e.rest).2.text.length := by
        rw [HistText.put, List.length_append]
        exact Nat.le_add_right _ _
      exact hput.trans (ih _)

/-- Reading lines and storing what is kept. -/
theorem Dbz.Shows.doLines (dbc : Bool) (expSec : Int) (text : Str) : ∀ {lines : List Str}
    {d : Dbz} {h : HistText}, (∀ l ∈ lines, l ∈ fgetsLines BUFFERSIZE text) → d.Shows h → h.Ends →
      ((keptEntries expSec (lines.filterMap (lineEntry dbc))).foldl
        (fun h e => (h.put e.key e.rest).2) h).text.length < 2 ^ 63 →
      ∃ d', lines.foldlM (Dbz.doLine dbc expSec) d = some d' ∧
        d'.Shows ((keptEntries expSec (lines.filterMap (lineEntry dbc))).foldl
          (fun h e => (h.put e.key e.rest).2) h) ∧
        ((keptEntries expSec (lines.filterMap (lineEntry dbc))).foldl
          (fun h e => (h.put e.key e.rest).2) h).Ends
  | [], d, h, _, hs, hends, _ => ⟨d, rfl, hs, hends⟩
  | l :: lines, d, h, hmem, hs, hends, hsize => by
      have hrest : ∀ l' ∈ lines, l' ∈ fgetsLines BUFFERSIZE text := fun l' hl =>
        hmem l' (List.mem_cons_of_mem l hl)
      rw [List.foldlM_cons, Dbz.doLine]
      cases he : lineEntry dbc l with
      | none =>
          rw [List.filterMap_cons_none he] at hsize ⊢
          exact Dbz.Shows.doLines dbc expSec text hrest hs hends hsize
      | some e =>
          rw [List.filterMap_cons_some he] at hsize ⊢
          dsimp only
          by_cases hlt : e.time < expSec
          · rw [keptEntries_cons_neg (not_le.mpr hlt)] at hsize ⊢
            rw [if_pos hlt]
            exact Dbz.Shows.doLines dbc expSec text hrest hs hends hsize
          · rw [keptEntries_cons_pos (not_lt.mp hlt)] at hsize ⊢
            obtain ⟨hkey, hnul, hlf⟩ := isHistKey_of_lineEntry (hmem l List.mem_cons_self) he
            have hput := (HistText.le_ofEntries (h.put e.key e.rest).2 _).trans_lt hsize
            obtain ⟨ok, d₁, hcall, -, hs₁⟩ := hs.put hkey hnul hput
            rw [if_neg hlt, hcall]
            exact Dbz.Shows.doLines dbc expSec text hrest hs₁ (hends.put e.key hlf) hsize

/-- After an expiry the data base stands for the records that are kept. -/
theorem Dbz.Shows.expire {d : Dbz} {h : HistText} (hs : d.Shows h) (dbc : Bool) (expSec : Int)
    (incore : Bool) (hold : h.text.length < 2 ^ 60)
    (hnew : (HistText.ofEntries (h.kept dbc expSec)).text.length < 2 ^ 60) :
    ∃ d', (doExpireDbz dbc expSec d.dbmclose).bind (dbminit incore d.conf.olddbz) = some d' ∧
      d'.Shows (HistText.ofEntries (h.kept dbc expSec)) ∧
      (HistText.ofEntries (h.kept dbc expSec)).Ends := by
  have hused : ∀ u ∈ d.conf.used, u < 2 ^ 60 := by
    intro u hu
    cases hus : d.conf.used with
    | nil =>
        rw [hus] at hu
        cases hu
    | cons v vs =>
        rw [hus] at hu
        rcases List.mem_cons.mp hu with rfl | hm
        · exact (hs.used u (by rw [hus]; rfl)).trans_lt hold
        · exact hs.older u (by rw [hus]; exact hm)
  obtain ⟨hgood, hwritable, hcase, htag, hold', hcounts⟩ :=
    DbzConfig.again_good hs.holds.good hs.kept.writable hused
  obtain ⟨d₁, hagain, hholds, hkept, hconf, hbase⟩ := Dbz.holds_fresh true
    (show getconf (putconf d.conf.again) true false = some d.conf.again by
      rw [← List.append_nil (putconf d.conf.again), ← hs.kept.newdbz, ← hold']
      exact getconf_putconf hwritable hgood.fieldsep [] true) hgood hwritable
    (hold'.trans hs.kept.newdbz)
  have hs₁ : d₁.Shows HistText.empty := by
    refine ⟨hbase, hholds, hkept, ?_, ?_, fun r hr => absurd hr List.not_mem_nil, ?_, ?_⟩
    · rw [hconf, hcase, hs.casemap]
    · rw [hconf, htag, hs.taghere]
    · rw [hconf, hcounts]
      intro u hu
      obtain rfl := Option.some.inj hu
      exact Nat.zero_le _
    · rw [hconf, hcounts]
      exact fun u hu => hused u (List.dropLast_subset _ hu)
  obtain ⟨d₂, hlines, hs₂, hends₂⟩ := Dbz.Shows.doLines dbc expSec h.text
    (fun l hl => hl) hs₁ (fun r hr => absurd hr List.not_mem_nil)
    (hnew.trans (by decide))
  obtain ⟨d', hinit, hholds', hkept', hconf', hbase'⟩ := hs₂.holds.reopen hs₂.kept incore
  refine ⟨d', ?_, ⟨hbase'.trans hs₂.text, hholds', hkept', hconf' ▸ hs₂.casemap,
    hconf' ▸ hs₂.taghere, hs₂.places, hconf' ▸ hs₂.used, hconf' ▸ hs₂.older⟩, hends₂⟩
  have hold : d.dbmclose.base = h.text := d.dbzsync_fields.2.1.trans hs.text
  rw [doExpireDbz, dbzagain, hs.kept.getconf_dir hs.holds.good.fieldsep, Option.bind_some, hagain,
    Option.bind_some, hold, hlines, Option.map_some, Option.bind_some, hs.kept.newdbz, hinit]

/-! ## The life of a history -/

/-- Whatever happens to a history, it answers as its records do. -/
theorem Dbz.simulates_event : Refine.Simulates Dbz.histEvent HistText.event
    (fun d h => d.Shows h ∧ h.Ends) HistEvent.Fits := by
  intro d h ev ⟨hs, hends⟩ ⟨hvalid, hold, hnew⟩
  cases ev with
  | call op => exact Dbz.simulates d h op ⟨hs, hends⟩ ⟨hvalid op rfl, hnew.trans (by decide)⟩
  | expire dbc expSec incore =>
      obtain ⟨d', hexp, hs', hends'⟩ := hs.expire dbc expSec incore hold hnew
      refine ⟨d', ?_, hs', hends'⟩
      rw [Dbz.histEvent, hexp]
      rfl

/-- Through calls, closing and opening, and expiries that rebuild the data base
in a table of another size, a history on disk answers as its records do.  The
records after an expiry are those of the entries that are kept, in order. -/
theorem histLife_eq (evs : List HistEvent) (incore : Bool)
    (hfits : Run.Met (Refine.next HistText.event) HistEvent.Fits HistText.empty evs) :
    ((dbminit incore false DbzFiles.created).bind fun d =>
      (Refine.run Dbz.histEvent d evs).map Prod.fst) =
      some (Refine.answers HistText.event HistText.empty evs) := by
  obtain ⟨d, hinit, hshows⟩ := shows_created incore
  have hends : HistText.empty.Ends := fun r hr => absurd hr List.not_mem_nil
  obtain ⟨d', hrun, -⟩ := Dbz.simulates_event.run ⟨hshows, hends⟩ hfits
  rw [hinit, Option.bind_some, hrun, Option.map_some]

theorem HistEvent.fits_call {h : HistText} {op : HistOp} (hop : op.Valid)
    (hold : h.text.length < 2 ^ 60) (hnew : (Refine.next HistText.step h op).text.length < 2 ^ 60) :
    HistEvent.Fits h (.call op) := by
  refine ⟨fun op' h => ?_, hold, hnew⟩
  injection h with h
  exact h ▸ hop

/-- An old entry and a new one, and an expiry between their times. -/
def expiredEvents : List HistEvent :=
  [.call (.hiWriteT 999 (lit "TEST old")), .call (.hiWriteT 1000 (lit "TEST new")),
    .expire false 1000 true, .call (.hiTest (lit "TEST old")), .call (.hiTest (lit "TEST new"))]

theorem histLife_expired : ((dbminit true false DbzFiles.created).bind fun d =>
    (Refine.run Dbz.histEvent d expiredEvents).map Prod.fst) =
    some [.wrote true, .wrote true, .opened, .tested false, .tested true] := by
  refine (histLife_eq expiredEvents true ⟨?_, ?_, ?_, ?_, ?_, trivial⟩).trans (by decide +kernel)
  · exact HistEvent.fits_call ⟨by decide, by decide⟩ (by decide) (by decide)
  · exact HistEvent.fits_call ⟨by decide, by decide⟩ (by decide) (by decide)
  · refine ⟨fun op h => ?_, by decide, by decide +kernel⟩
    injection h
  · exact HistEvent.fits_call ⟨by decide, by decide⟩ (by decide +kernel) (by decide +kernel)
  · exact HistEvent.fits_call ⟨by decide, by decide⟩ (by decide +kernel) (by decide +kernel)

end Fidogate

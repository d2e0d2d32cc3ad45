/-
# `Fidogate.Common.DbzHistory` — histdb.c: a history on its data base

Each writer appends a record to the text of the history and stores its offset.
Along every run of calls, with closing and opening in between, the data base
on disk answers as the plain list of the records does: a key is known if a
record was stored under it, and `hi_fetch` reads the first one.
-/
import Fidogate.Common.DbzFiles
import Fidogate.Lib.Refine
import Mathlib.Data.Nat.Bitwise

namespace Fidogate

open Bytes

/-! ## histdb.c -/

/-- What the writers have in common: a line with the key in front of a tab is
appended to the history, and its offset is stored. -/
def Dbz.hiPut (d : Dbz) (key rest : Str) : Option (Bool × Dbz) :=
  Dbz.dbzstore { d with basef := d.basef ++ (key ++ tab :: rest) } (key ++ [nul]) d.basef.length

/-- `hi_write_t` -/
def Dbz.hiWriteT (d : Dbz) (t : Int) (msgid : Str) : Option (Bool × Dbz) :=
  d.hiPut msgid (putInt t ++ [lf])

/-- `hi_write_dbc` -/
def Dbz.hiWriteDbc (d : Dbz) (r : DbcRecord) : Option (Bool × Dbz) := d.hiPut r.key r.line

/-- `hi_write_avail` -/
def Dbz.hiWriteAvail (d : Dbz) (area desc : Str) : Option (Bool × Dbz) :=
  d.hiPut area (desc ++ [lf])

/-- `hi_test` -/
def Dbz.hiTest (d : Dbz) (key : Str) : Option (Bool × Dbz) :=
  (d.dbzfetch (key ++ [nul])).map fun r => (r.1.isSome, r.2)

/-- `dbcfetch`: `fetch` has read the key from the base file, and the rest of
the line is read behind it. -/
def Dbz.dbcfetch (d : Dbz) (key : Str) : Option (Option Str × Dbz) :=
  (d.dbzfetch key).map fun r =>
    (r.1.map fun keyPtr => d.basef.drop (keyPtr + (key.take DBZMAXKEY).length), r.2)

/-- `hi_fetch`; the first word is none where it reads through a null pointer. -/
def Dbz.hiFetch (d : Dbz) (keyString : Str) (flag : Int) :
    Option (Option (Option Str) × Dbz) :=
  (hiFetchKey keyString flag).bind fun key =>
    (d.dbcfetch (key ++ [nul])).map fun r => (r.1.map dbcWord, r.2)

/-- A call, or closing and opening again (`hi_close`, `hi_init`), with room for
the table in core or not. -/
inductive HistOp
  | hiWriteT (t : Int) (msgid : Str)
  | hiWriteDbc (r : DbcRecord)
  | hiWriteAvail (area desc : Str)
  | hiTest (key : Str)
  | hiFetch (keyString : Str) (flag : Int)
  | reopen (incore : Bool)
  deriving DecidableEq, Repr

inductive HistAnswer
  | wrote (ok : Bool)
  | tested (found : Bool)
  | fetched (word : Option (Option Str))
  | opened
  deriving DecidableEq, Repr

/-- A step of a program that uses a history. -/
def Dbz.histStep (d : Dbz) : HistOp → Option (HistAnswer × Dbz)
  | .hiWriteT t msgid => (d.hiWriteT t msgid).map fun r => (.wrote r.1, r.2)
  | .hiWriteDbc r => (d.hiWriteDbc r).map fun r => (.wrote r.1, r.2)
  | .hiWriteAvail area desc => (d.hiWriteAvail area desc).map fun r => (.wrote r.1, r.2)
  | .hiTest key => (d.hiTest key).map fun r => (.tested r.1, r.2)
  | .hiFetch keyString flag => (d.hiFetch keyString flag).map fun r => (.fetched r.1, r.2)
  | .reopen incore => (dbminit incore d.conf.olddbz d.dbmclose).map fun d => (.opened, d)

/-! ## The records -/

/-- The text of a history, and the records that were stored, in their order. -/
structure HistText where
  text : Str
  records : List DbzRecord
  deriving DecidableEq, Repr

/-- A record is stored if its key fits and its offset does not use the bit of
the tag. -/
def DbzRecord.accepted (r : DbzRecord) : Bool :=
  decide (r.key.length + 1 < DBZMAXKEY) && !r.place.testBit 31

def HistText.put (h : HistText) (key rest : Str) : HistAnswer × HistText :=
  let r := ⟨key, rest, h.text.length⟩
  (.wrote r.accepted, ⟨h.text ++ r.text, if r.accepted then h.records ++ [r] else h.records⟩)

/-- What each call does to the records, and answers. -/
def HistText.step (h : HistText) : HistOp → HistAnswer × HistText
  | .hiWriteT t msgid => h.put msgid (putInt t ++ [lf])
  | .hiWriteDbc r => h.put r.key r.line
  | .hiWriteAvail area desc => h.put area (desc ++ [lf])
  | .hiTest key => (.tested (firstRecord 67 key h.records).isSome, h)
  | .hiFetch keyString flag =>
      (.fetched ((hiFetchKey keyString flag).bind fun key =>
        (firstRecord 67 key h.records).map fun r => dbcWord r.rest), h)
  | .reopen _ => (.opened, h)

/-- A key as the callers give it: no NUL, and no tab, which would end it in the
text. -/
def IsHistKey (key : Str) : Prop := tab ∉ key ∧ nul ∉ key

/-- Arguments the callers are to give. -/
def HistOp.Valid : HistOp → Prop
  | .hiWriteT _ msgid => IsHistKey msgid
  | .hiWriteDbc r => IsHistKey r.key ∧ nul ∉ r.rfcMsgid
  | .hiWriteAvail area desc => IsHistKey area ∧ nul ∉ desc
  | .hiTest key => IsHistKey key
  | .hiFetch keyString flag => ∃ key, hiFetchKey keyString flag = some key ∧ IsHistKey key
  | .reopen _ => True

/-! ## The data base stands for the records -/

/-- The data base holds the records of the text, and can be opened again. -/
structure Dbz.Shows (d : Dbz) (h : HistText) : Prop where
  text : d.basef = h.text
  holds : d.Holds h.records
  kept : d.Kept
  casemap : d.conf.casemap = 67
  taghere : d.conf.taghere = 2 ^ 31
  places : ∀ r ∈ h.records, r.place ≤ h.text.length
  used : ∀ u ∈ d.conf.used.head?, u ≤ h.text.length
  older : ∀ u ∈ d.conf.used.tail, u < 2 ^ 60

theorem Dbz.okayvalue_eq {d : Dbz} (h : d.conf.taghere = 2 ^ 31) (place : Nat) :
    d.conf.okayvalue place = !place.testBit 31 := by
  rw [DbzConfig.okayvalue, h, Nat.and_two_pow]
  cases place.testBit 31 <;> rfl

/-- A longer text has the records of the text. -/
theorem Dbz.Holds.append {d : Dbz} {rs : List DbzRecord} (h : d.Holds rs)
    (hplaces : ∀ r ∈ rs, r.place ≤ d.basef.length) {more : Str} (hmore : nul ∉ more) :
    Dbz.Holds { d with basef := d.basef ++ more } rs where
  good := h.good
  built := h.built
  storable := h.storable
  text := fun r hr => by
    rw [show ({ d with basef := d.basef ++ more } : Dbz).basef = d.basef ++ more from rfl,
      List.drop_append_of_le_length (hplaces r hr)]
    exact (h.text r hr).trans (List.prefix_append _ _)
  noNul := fun hm => (List.mem_append.mp hm).elim h.noNul hmore
  order := h.order
  core := h.core
  prevp := h.prevp

theorem nul_not_mem_record {key rest : Str} (hkey : nul ∉ key) (hrest : nul ∉ rest) :
    nul ∉ key ++ tab :: rest := by
  intro hm
  rcases List.mem_append.mp hm with hm | hm
  · exact hkey hm
  · rcases List.mem_cons.mp hm with hm | hm
    · exact absurd hm (by decide)
    · exact hrest hm

/-- A writer adds the record to the text, and if it is accepted to the data
base. -/
theorem Dbz.Shows.put {d : Dbz} {h : HistText} (hs : d.Shows h) {key rest : Str}
    (hkey : IsHistKey key) (hrest : nul ∉ rest)
    (hsize : (h.put key rest).2.text.length < 2 ^ 63) : ∃ ok d',
    d.hiPut key rest = some (ok, d') ∧ (h.put key rest).1 = .wrote ok ∧
      d'.Shows (h.put key rest).2 := by
  generalize hr : (⟨key, rest, h.text.length⟩ : DbzRecord) = r
  have hput : h.put key rest = (.wrote r.accepted, ⟨h.text ++ r.text,
      if r.accepted then h.records ++ [r] else h.records⟩) := by rw [← hr]; rfl
  have htextlen : 0 < r.text.length := by
    rw [DbzRecord.text, List.length_append, List.length_cons]
    omega
  have hgrow : h.text.length < (h.put key rest).2.text.length := by
    rw [hput, List.length_append]
    omega
  have hsmall : h.text.length + 1 < 2 ^ 63 := by omega
  have hnul : nul ∉ r.text := by
    rw [← hr]
    exact nul_not_mem_record hkey.2 hrest
  have hplaces : ∀ r ∈ h.records, r.place ≤ d.basef.length := by
    rw [hs.text]
    exact hs.places
  have hholds := hs.holds.append hplaces hnul
  have hpos : r.place = d.basef.length := by rw [← hr, hs.text]
  have hcall : d.hiPut key rest =
      Dbz.dbzstore { d with basef := d.basef ++ r.text } (r.key ++ [nul]) r.place := by
    rw [Dbz.hiPut, hpos, ← hr]
    rfl
  have hokay := Dbz.okayvalue_eq hs.taghere r.place
  rw [hcall]
  by_cases hacc : r.key.length + 1 < DBZMAXKEY ∧ d.conf.okayvalue r.place = true
  · have haccepted : r.accepted = true := by
      rw [DbzRecord.accepted, ← hokay, hacc.2, Bool.and_true]
      exact decide_eq_true hacc.1
    have hst : r.Storable d.conf := ⟨hacc.1, hacc.2, by rw [← hr]; exact hkey.1⟩
    have hat : r.text <+: (d.basef ++ r.text).drop r.place := by
      simp only [hpos, List.drop_left, List.prefix_rfl]
    have hlast : ∀ r' ∈ h.records, r'.place < r.place := by
      intro r' hr'
      have htext := (hs.holds.text r' hr').length_le
      have : 0 < r'.text.length := by
        rw [DbzRecord.text, List.length_append, List.length_cons]
        omega
      rw [List.length_drop] at htext
      omega
    obtain ⟨d', hstore, hh, hd'⟩ := hholds.dbzstore hst hat hlast
    rw [hput] at hgrow ⊢
    rw [haccepted, if_pos rfl] at hgrow ⊢
    refine ⟨true, d', hstore, rfl, ⟨?_, hh, ?_, ?_, ?_, ?_, ?_, ?_⟩⟩
    · rw [hd'.basef, ← hs.text]
    · refine Dbz.Kept.stored (d := { d with basef := d.basef ++ r.text })
        ⟨hs.kept.writable, hs.kept.newdbz, hs.kept.unwritten⟩ hd' fun u hu => ?_
      have := hs.used u hu
      omega
    · rw [hd'.conf]
      exact hs.casemap
    · rw [hd'.conf]
      exact hs.taghere
    · intro r' hr'
      rcases List.mem_append.mp hr' with hm | hm
      · exact (hs.places r' hm).trans hgrow.le
      · rw [List.mem_singleton.mp hm, hpos, hs.text]
        exact hgrow.le
    · rw [hd'.conf]
      intro v hv
      obtain ⟨u, hu, rfl⟩ : ∃ u ∈ d.conf.used.head?, v = u + 1 := by
        rw [List.head?_modifyHead] at hv
        obtain ⟨u, hu, huv⟩ := Option.map_eq_some_iff.mp hv
        exact ⟨u, hu, huv.symm⟩
      have := hs.used u hu
      dsimp only at hgrow ⊢
      omega
    · rw [hd'.conf]
      intro u hu
      refine hs.older u ?_
      dsimp only at hu
      cases hused : d.conf.used with
      | nil => rw [hused] at hu; exact hu
      | cons v vs => rw [hused] at hu; exact hu
  · have haccepted : r.accepted = false := by
      rw [DbzRecord.accepted, ← hokay, Bool.and_eq_false_iff]
      by_cases hlen : r.key.length + 1 < DBZMAXKEY
      · exact .inr (Bool.eq_false_iff.mpr fun h => hacc ⟨hlen, h⟩)
      · exact .inl (decide_eq_false hlen)
    rw [hput] at hgrow ⊢
    rw [haccepted, if_neg Bool.false_ne_true] at hgrow ⊢
    refine ⟨false, _, Dbz.dbzstore_refused hacc, rfl, ⟨?_, hholds,
      ⟨hs.kept.writable, hs.kept.newdbz, hs.kept.unwritten⟩, hs.casemap, hs.taghere, ?_, ?_, hs.older⟩⟩
    · dsimp only
      rw [hs.text]
    · exact fun r' hr' => (hs.places r' hr').trans hgrow.le
    · exact fun u hu => (hs.used u hu).trans hgrow.le

theorem Dbz.Shows.of_prevp {d : Dbz} {h : HistText} (hs : d.Shows h) {prevp : Option Searcher}
    (hholds : Dbz.Holds { d with prevp := prevp } h.records) :
    Dbz.Shows { d with prevp := prevp } h :=
  ⟨hs.text, hholds, ⟨hs.kept.writable, hs.kept.newdbz, hs.kept.unwritten⟩, hs.casemap, hs.taghere,
    hs.places, hs.used, hs.older⟩

theorem fgetsLines_ne_nil (size : Nat) {s : Str} (h : s ≠ []) : fgetsLines size s ≠ [] := by
  obtain ⟨c, t, rfl⟩ := List.exists_cons_of_ne_nil h
  rw [fgetsLines, Ne, List.map_eq_nil_iff, fgetsLoop]
  split
  · exact List.cons_ne_nil _ _
  · obtain ⟨u, hu⟩ := head_fgetsLoop size (size - 1 - 1) t (List.cons_ne_nil c [])
    intro hnil
    rw [show [c] = [] ++ [c] from rfl, hnil] at hu
    cases hu

/-- A line that ends is the same one whatever is behind it. -/
theorem dbcWord_append {rest : Str} (h : lf ∈ rest) (more : Str) :
    dbcWord (rest ++ more) = dbcWord rest := by
  obtain ⟨w, s, rfl, hw⟩ := List.eq_append_cons_of_mem h
  have hne : fgetsLines BUFFERSIZE (w ++ [lf]) ≠ [] := fgetsLines_ne_nil _ (by simp)
  have hhead : ∀ t : Str, (fgetsLines BUFFERSIZE (w ++ lf :: t)).head? =
      (fgetsLines BUFFERSIZE (w ++ [lf])).head? := by
    intro t
    rw [fgetsLines_line _ hw, List.head?_append_of_ne_nil _ hne]
  rw [dbcWord, dbcWord, List.append_assoc, List.cons_append, hhead (s ++ more),
    hhead s]

/-- What the records have behind their keys is a line. -/
def HistText.Ends (h : HistText) : Prop := ∀ r ∈ h.records, lf ∈ r.rest

theorem HistText.Ends.put {h : HistText} (hh : h.Ends) (key : Str) {rest : Str} (hrest : lf ∈ rest) :
    (h.put key rest).2.Ends := by
  intro r hr
  rw [HistText.put] at hr
  dsimp only at hr
  split at hr
  · rcases List.mem_append.mp hr with hm | hm
    · exact hh r hm
    · rw [List.mem_singleton.mp hm]
      exact hrest
  · exact hh r hr

/-- `dbcfetch` reads what is behind the key of the first record with it. -/
theorem Dbz.Shows.dbcfetch {d : Dbz} {h : HistText} (hs : d.Shows h) (hends : h.Ends) {key : Str}
    (hkey : IsHistKey key) : ∃ text prevp,
    d.dbcfetch (key ++ [nul]) = some (text, { d with prevp := prevp }) ∧
      Dbz.Shows { d with prevp := prevp } h ∧
      text.map dbcWord = (firstRecord 67 key h.records).map fun r => dbcWord r.rest := by
  obtain ⟨prevp, hfetch, hholds⟩ := hs.holds.dbzfetch hkey.1 hkey.2
  refine ⟨_, prevp, by rw [Dbz.dbcfetch, hfetch, Option.map_some], hs.of_prevp hholds, ?_⟩
  rw [hs.casemap, Option.map_map, Option.map_map]
  cases hfirst : firstRecord 67 key h.records with
  | none => rfl
  | some r =>
      have hr := List.mem_of_find?_eq_some hfirst
      have hsame : sameKey 67 key r.key = true :=
        List.find?_some (p := fun r : DbzRecord => sameKey 67 key r.key) hfirst
      have hlen : key.length = r.key.length := sameKey_length hsame
      have hshort := (hs.holds.storable r hr).short
      obtain ⟨more, hmore⟩ := hs.holds.text r hr
      have htake : ((key ++ [nul]).take DBZMAXKEY).length = r.key.length + 1 := by
        rw [List.length_take, List.length_append, List.length_singleton]
        omega
      have hdrop : d.basef.drop (r.place + (r.key.length + 1)) = r.rest ++ more := by
        rw [← List.drop_drop, ← hmore, DbzRecord.text,
          show r.key ++ tab :: r.rest ++ more = (r.key ++ [tab]) ++ (r.rest ++ more) by simp]
        exact List.drop_left' (by simp)
      rw [Option.map_some, Option.map_some, Function.comp_apply, Function.comp_apply, htake, hdrop,
        dbcWord_append (hends r hr)]

/-! ## Runs -/

theorem HistText.le_step (h : HistText) (op : HistOp) :
    h.text.length ≤ (Refine.next HistText.step h op).text.length := by
  have hput : ∀ key rest, h.text.length ≤ (h.put key rest).2.text.length := by
    intro key rest
    rw [HistText.put, List.length_append]
    exact Nat.le_add_right _ _
  cases op with
  | hiWriteT t msgid => exact hput _ _
  | hiWriteDbc r => exact hput _ _
  | hiWriteAvail area desc => exact hput _ _
  | hiTest key => exact Nat.le_refl _
  | hiFetch keyString flag => exact Nat.le_refl _
  | reopen incore => exact Nat.le_refl _

theorem nul_not_mem_putInt (t : Int) : nul ∉ putInt t := by
  have hdec : nul ∉ putDec t.natAbs := fun h =>
    absurd (isDigit_of_mem_putDec h) (by decide)
  rw [putInt]
  split
  · exact List.not_mem_cons_of_ne_of_not_mem (by decide) hdec
  · exact hdec

theorem not_mem_append {b : UInt8} {s t : Str} (hs : b ∉ s) (ht : b ∉ t) : b ∉ s ++ t :=
  fun h => (List.mem_append.mp h).elim hs ht

/-- A step of the data base answers as the records do. -/
theorem Dbz.simulates : Refine.Simulates Dbz.histStep HistText.step
    (fun d h => d.Shows h ∧ h.Ends)
    fun h op => op.Valid ∧ (Refine.next HistText.step h op).text.length < 2 ^ 63 := by
  intro d h op ⟨hs, hends⟩ ⟨hvalid, hsize⟩
  have hput : ∀ {key rest : Str}, IsHistKey key → nul ∉ rest → lf ∈ rest →
      (h.put key rest).2.text.length < 2 ^ 63 → ∃ d',
        (d.hiPut key rest).map (fun r => (HistAnswer.wrote r.1, r.2)) =
          some ((h.put key rest).1, d') ∧ d'.Shows (h.put key rest).2 ∧
            (h.put key rest).2.Ends := by
    intro key rest hkey hnul hlf hlen
    obtain ⟨ok, d', hcall, hans, hs'⟩ := hs.put hkey hnul hlen
    exact ⟨d', by rw [hcall, hans, Option.map_some], hs', hends.put key hlf⟩
  cases op with
  | hiWriteT t msgid =>
      exact hput hvalid (not_mem_append (nul_not_mem_putInt t) (by decide))
        (List.mem_append_right _ List.mem_cons_self) hsize
  | hiWriteDbc r =>
      refine hput hvalid.1 ?_ (List.mem_append_right _ List.mem_cons_self) hsize
      exact not_mem_append (not_mem_append (not_mem_append hvalid.2 (by decide))
        (nul_not_mem_putInt _)) (by decide)
  | hiWriteAvail area desc =>
      exact hput hvalid.1 (not_mem_append hvalid.2 (by decide))
        (List.mem_append_right _ List.mem_cons_self) hsize
  | hiTest key =>
      obtain ⟨prevp, hfetch, hholds⟩ := hs.holds.dbzfetch hvalid.1 hvalid.2
      refine ⟨_, ?_, hs.of_prevp hholds, hends⟩
      rw [Dbz.histStep, Dbz.hiTest, hfetch, Option.map_some, Option.map_some, Option.isSome_map,
        hs.casemap]
      rfl
  | hiFetch keyString flag =>
      obtain ⟨key, hk, hkey⟩ := hvalid
      obtain ⟨text, prevp, hfetch, hs', htext⟩ := hs.dbcfetch hends hkey
      refine ⟨_, ?_, hs', hends⟩
      rw [Dbz.histStep, Dbz.hiFetch, hk, Option.bind_some, hfetch, Option.map_some,
        Option.map_some, htext, HistText.step, hk, Option.bind_some]
  | reopen incore =>
      obtain ⟨d', hinit, hholds, hkept, hconf, hbase⟩ := hs.holds.reopen hs.kept incore
      refine ⟨d', ?_, ⟨hbase.trans hs.text, hholds, hkept, hconf ▸ hs.casemap, hconf ▸ hs.taghere,
        hs.places, hconf ▸ hs.used, hconf ▸ hs.older⟩, hends⟩
      rw [Dbz.histStep, hs.kept.newdbz, hinit]
      rfl

/-- A run whose text in the end is a file is one of such texts. -/
theorem HistText.met_of_size : ∀ {h : HistText} {ops : List HistOp}, (∀ op ∈ ops, op.Valid) →
    (Run.run (Refine.next HistText.step) h ops).text.length < 2 ^ 63 →
      Run.Met (Refine.next HistText.step)
        (fun h op => op.Valid ∧ (Refine.next HistText.step h op).text.length < 2 ^ 63) h ops
  | _, [], _, _ => trivial
  | h, op :: ops, hvalid, hsize => by
      have hle : ∀ (ops : List HistOp) (h : HistText),
          h.text.length ≤ (Run.run (Refine.next HistText.step) h ops).text.length := by
        intro ops
        induction ops with
        | nil => exact fun h => Nat.le_refl _
        | cons op ops ih => exact fun h => (h.le_step op).trans (ih _)
      refine ⟨⟨hvalid op List.mem_cons_self, (hle ops _).trans_lt hsize⟩, ?_⟩
      exact HistText.met_of_size (fun o ho => hvalid o (List.mem_cons_of_mem op ho)) hsize

/-- Files as `hi_init` makes them where there are none. -/
def DbzFiles.created : DbzFiles := ⟨[], [], []⟩

/-- The history before anything was written. -/
def HistText.empty : HistText := ⟨[], []⟩

theorem shows_created (incore : Bool) : ∃ d, dbminit incore false DbzFiles.created = some d ∧
    d.Shows HistText.empty := by
  obtain ⟨d, hinit, hholds, hkept, hconf, hbase⟩ := Dbz.holds_fresh incore
    (c := DbzConfig.default true) (show getconf [] true false = _ from if_pos rfl)
    (DbzConfig.good_default true) (DbzConfig.writable_default true) rfl
  refine ⟨d, hinit, hbase, hholds, hkept, ?_, ?_, fun r hr => absurd hr List.not_mem_nil, ?_, ?_⟩
  · rw [hconf]
    rfl
  · rw [hconf]
    decide
  · rw [hconf]
    intro u hu
    obtain rfl := Option.some.inj hu
    exact Nat.zero_le _
  · rw [hconf]
    decide

/-- Along every run of calls, with closing and opening in between, a history on
disk answers as its records do: a key is known if a record was stored under it
up to letter case, `hi_fetch` reads the first one, and every search ends. -/
theorem histRun_eq (ops : List HistOp) (incore : Bool) (hvalid : ∀ op ∈ ops, op.Valid)
    (hsize : (Run.run (Refine.next HistText.step) HistText.empty ops).text.length < 2 ^ 63) :
    ((dbminit incore false DbzFiles.created).bind fun d =>
      (Refine.run Dbz.histStep d ops).map Prod.fst) =
      some (Refine.answers HistText.step HistText.empty ops) := by
  obtain ⟨d, hinit, hshows⟩ := shows_created incore
  have hends : HistText.empty.Ends := fun r hr => absurd hr List.not_mem_nil
  obtain ⟨d', hrun, -⟩ := Dbz.simulates.run ⟨hshows, hends⟩ (HistText.met_of_size hvalid hsize)
  rw [hinit, Option.bind_some, hrun, Option.map_some]

/-- The second record of a key is not read; the serial of the key may have
other letters, and the area may not. -/
theorem histRun_case : ((dbminit true false DbzFiles.created).bind fun d =>
    (Refine.run Dbz.histStep d
      [.hiWriteDbc ⟨lit "<1@a>", lit "2:5/1@f.n:1A", 0⟩,
        .hiWriteDbc ⟨lit "<2@b>", lit "2:5/1@f.n:1a", 1⟩, .reopen false,
        .hiFetch (lit "2:5/1@F.n:1A") 1, .hiTest (lit "2:5/1")]).map Prod.fst) =
    some [.wrote true, .wrote true, .opened, .fetched (some (some (lit "<1@a>"))),
      .tested false] := by
  refine (histRun_eq _ true (fun op hop => ?_) (by decide)).trans (by decide)
  simp only [List.mem_cons, List.not_mem_nil, or_false] at hop
  rcases hop with rfl | rfl | rfl | rfl | rfl
  · exact ⟨⟨by decide, by decide⟩, by decide⟩
  · exact ⟨⟨by decide, by decide⟩, by decide⟩
  · exact trivial
  · exact ⟨_, rfl, by decide, by decide⟩
  · exact ⟨by decide, by decide⟩

end Fidogate

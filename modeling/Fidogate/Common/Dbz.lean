/-
# `Fidogate.Common.Dbz` — dbz.c: the hash table under a history

A word of the .pag file is the offset of a record in the base file, and some
bits of the hash of its key; a word that is 0 is vacant.  Keys are compared
with the text of the base file.  Words behind the end of the file are vacant,
and the first table may be kept in core.
-/
import Fidogate.Common.Histdb
import Fidogate.Lib.Probe

namespace Fidogate

open Bytes

/-! ## Configuration -/

abbrev MAXRUN : Nat := 100
abbrev DBZMAXKEY : Nat := 255
abbrev DEFSIZE : Nat := 120011
abbrev NUSEDS : Nat := 11

/-- sizeof(of_t) -/
abbrev SOF : Nat := 8

/-- `struct dbzconfig` -/
structure DbzConfig where
  olddbz : Bool
  tsize : Nat
  used : List Nat
  valuesize : Nat
  bytemap : List Nat
  casemap : UInt8
  fieldsep : UInt8
  tagenb : Nat
  tagmask : Nat
  tagshift : Nat
  deriving DecidableEq, Repr

/-- `mybytemap`, where the low byte of a word comes first. -/
def mybytemap : List Nat := (List.range SOF).reverse

/-- The configuration of an empty .dir file, beside a .pag file that has bytes
or not. -/
def DbzConfig.default (pagEmpty : Bool) : DbzConfig where
  olddbz := !pagEmpty
  tsize := DEFSIZE
  used := List.replicate NUSEDS 0
  valuesize := SOF
  bytemap := mybytemap
  casemap := 67
  fieldsep := tab
  tagenb := 0x80
  tagmask := 0x7f
  tagshift := 24

def DbzConfig.tagbits (c : DbzConfig) : Nat := c.tagmask <<< c.tagshift

def DbzConfig.taghere (c : DbzConfig) : Nat := c.tagenb <<< c.tagshift

def DbzConfig.tagboth (c : DbzConfig) : Nat := c.tagbits ||| c.taghere

/-- `NOTAG`: the bits of a word outside `tagboth`. -/
def DbzConfig.noTag (c : DbzConfig) (o : Nat) : Nat := o ^^^ (o &&& c.tagboth)

/-- `MKTAG` of what `start` gives it. -/
def DbzConfig.mkTag (c : DbzConfig) (hash : Nat) : Nat :=
  ((hash / c.tsize) <<< c.tagshift) &&& c.tagbits

/-- `okayvalue` -/
def DbzConfig.okayvalue (c : DbzConfig) (value : Nat) : Bool := value &&& c.taghere == 0

/-- The word `set` stores, without the bias. -/
def DbzConfig.tagged (c : DbzConfig) (tag value : Nat) : Nat :=
  if value &&& c.tagboth = 0 ∧ c.olddbz = false then value ||| (tag ||| c.taghere) else value

/-- What `search` makes of a word without its bias: nothing where the tag is
another one. -/
def DbzConfig.checkTag (c : DbzConfig) (tag value : Nat) : Option Nat :=
  if value &&& c.taghere = 0 then some value
  else if value &&& c.tagbits = tag then some (c.noTag value)
  else none

/-! ## Keys -/

/-- The entry of `CrcTable`, as `crcinit` makes it. -/
def crcTable (i : Nat) : Nat :=
  (List.range 7).reverse.foldl
    (fun sum j => if i.testBit j then sum ^^^ (0x48000000 >>> j) else sum) 0

/-- `hash` -/
def dbzHash (name : Str) : Nat :=
  name.foldl (fun sum c => (sum >>> 7) ^^^ crcTable ((sum ^^^ c.toNat) &&& 0x7f)) 0

/-- `cipoint` -/
def cipoint (casemap : UInt8) (s : Str) : Option Nat :=
  if casemap = 67 then
    if 64 ∈ s then
      let p := s.idxOf 64
      if p = 11 ∧ strieq (s.tail.take 10) (lit "postmaster") = true then some 0 else some p
    else none
  else if casemap = 61 then some 0
  else none

/-- `mapcase` -/
def mapcase (casemap : UInt8) (s : Str) : Str :=
  match cipoint casemap s with
  | none => s
  | some p => s.take p ++ (s.drop p).map toLower

/-! ## Searching -/

/-- `struct searcher` -/
structure Searcher where
  place : Nat
  tabno : Nat
  run : Nat
  hash : Nat
  tag : Nat
  seen : Bool
  deriving DecidableEq, Repr

/-- The words in core or in the file, and what `dbminit` has read besides. -/
structure Dbz where
  conf : DbzConfig
  basef : Str
  dirf : Str
  pagf : List Nat
  corepag : Option (List Nat)
  /-- `prevp`, with the `srch` it points to. -/
  prevp : Option Searcher
  written : Bool
  deriving DecidableEq, Repr

/-- The word at a place, as `search` reads it. -/
def Dbz.slot (d : Dbz) (place : Nat) : Nat :=
  match d.corepag with
  | some core => if place < d.conf.tsize then core.getD place 0 else d.pagf.getD place 0
  | none => d.pagf.getD place 0

/-- A fresh search. -/
def DbzConfig.first (c : DbzConfig) (hash : Nat) : Searcher where
  place := hash % c.tsize
  tabno := 0
  run := if c.olddbz then c.tsize else MAXRUN
  hash := hash
  tag := c.mkTag hash
  seen := false

/-- `start` -/
def DbzConfig.start (c : DbzConfig) (key : Str) (osp : Option Searcher) : Searcher :=
  match osp with
  | some o => if o.hash = dbzHash key then { o with seen := false } else c.first (dbzHash key)
  | none => c.first (dbzHash key)

/-- The next location of a search. -/
def Searcher.next (c : DbzConfig) (sp : Searcher) : Searcher :=
  let shift := sp.run - 1 = 0
  let tabno := if shift then sp.tabno + 1 else sp.tabno
  { sp with
    tabno := tabno
    run := if shift then MAXRUN else sp.run - 1
    place := (sp.place + 1) % c.tsize + tabno * c.tsize }

/-- The location to be examined. -/
def Searcher.look (c : DbzConfig) (sp : Searcher) : Searcher :=
  if sp.seen then sp.next c else { sp with seen := true }

/-- `search`, within a number of rounds: where it stops, and the value, none
for NOTFOUND. -/
def Dbz.search (d : Dbz) : Nat → Searcher → Option (Searcher × Option Nat)
  | 0, _ => none
  | rounds + 1, sp =>
      let sp := sp.look d.conf
      if d.slot sp.place = 0 then some (sp, none)
      else
        match d.conf.checkTag sp.tag (d.slot sp.place - 1) with
        | some value => some (sp, some value)
        | none => d.search rounds sp

/-- Rounds that are enough: behind them a search is behind the end of the file. -/
def Dbz.rounds (d : Dbz) : Nat :=
  d.conf.tsize + MAXRUN * (d.pagf.length + d.conf.tsize + 2) + 1

/-! ## Fetching and storing -/

/-- What `fetch` finds at an offset: no value for a short read, otherwise
whether the key is there. -/
def Dbz.tryKey (d : Dbz) (key : Str) (keyPtr : Nat) : Option Bool :=
  let buffer := (d.basef.drop keyPtr).take key.length
  if buffer.length ≠ key.length then none
  else
    let buffer := mapcase d.conf.casemap buffer
    if key.getLast? = some nul then
      some (key.dropLast == buffer.dropLast &&
        (buffer.getLast? == some d.conf.fieldsep || buffer.getLast? == some nul))
    else some (key == buffer)

/-- The loop of `fetch`: the offset, and `prevp`. -/
def Dbz.fetchLoop (d : Dbz) (key : Str) : Nat → Searcher → Option (Option Nat × Option Searcher)
  | 0, _ => none
  | rounds + 1, sp =>
      match d.search d.rounds sp with
      | none => none
      | some (sp, none) => some (none, some sp)
      | some (sp, some keyPtr) =>
          match d.tryKey key keyPtr with
          | none => some (none, none)
          | some true => some (some keyPtr, none)
          | some false => d.fetchLoop key rounds sp

/-- `fetch` -/
def Dbz.fetch (d : Dbz) (key : Str) : Option (Option Nat × Dbz) :=
  (d.fetchLoop (key.take DBZMAXKEY) d.rounds (d.conf.start key none)).map fun r =>
    (r.1, { d with prevp := r.2 })

/-- `dbzfetch` -/
def Dbz.dbzfetch (d : Dbz) (key : Str) : Option (Option Nat × Dbz) :=
  d.fetch (mapcase d.conf.casemap (key.take DBZMAXKEY))

/-- Writing a word, with vacant ones before it where the file is shorter. -/
def setWord (words : List Nat) (place word : Nat) : List Nat :=
  if place < words.length then words.set place word
  else words ++ List.replicate (place - words.length) 0 ++ [word]

/-- `set` -/
def Dbz.set (d : Dbz) (sp : Searcher) (value : Nat) : Dbz :=
  let word := d.conf.tagged sp.tag value + 1
  match d.corepag with
  | some core =>
      if sp.place < d.conf.tsize then { d with corepag := some (setWord core sp.place word) }
      else { d with pagf := setWord d.pagf sp.place word }
  | none => { d with pagf := setWord d.pagf sp.place word }

/-- The loop of `store`: where the search ends. -/
def Dbz.storeLoop (d : Dbz) : Nat → Searcher → Option Searcher
  | 0, _ => none
  | rounds + 1, sp =>
      match d.search d.rounds sp with
      | none => none
      | some (sp, none) => some sp
      | some (sp, some _) => d.storeLoop rounds sp

/-- `store`: false for -1. -/
def Dbz.store (d : Dbz) (key : Str) (value : Nat) : Option (Bool × Dbz) :=
  if DBZMAXKEY ≤ key.length ∨ d.conf.okayvalue value = false then some (false, d)
  else
    (d.storeLoop d.rounds (d.conf.start key d.prevp)).map fun sp =>
      (true, Dbz.set { d with
        prevp := none
        conf := { d.conf with used := d.conf.used.modifyHead (· + 1) }
        written := true } sp value)

/-- `dbzstore` -/
def Dbz.dbzstore (d : Dbz) (key : Str) (value : Nat) : Option (Bool × Dbz) :=
  if DBZMAXKEY ≤ key.length then some (false, d)
  else d.store (mapcase d.conf.casemap key) value

/-! ## Tags -/

/-- A table has a place, and the tag is apart from the bit that says it is
there. -/
structure DbzConfig.Good (c : DbzConfig) : Prop where
  tsize : 0 < c.tsize
  apart : c.tagenb &&& c.tagmask = 0
  enabled : c.tagenb = 0 → c.tagmask = 0
  fieldsep : c.fieldsep = tab

theorem DbzConfig.good_default (b : Bool) : (DbzConfig.default b).Good where
  tsize := Nat.zero_lt_succ _
  apart := (by decide : 0x80 &&& 0x7f = 0)
  enabled := fun h => absurd h (by decide : (0x80 : Nat) ≠ 0)
  fieldsep := rfl

variable {c : DbzConfig}

theorem DbzConfig.Good.taghere_and_tagbits (hc : c.Good) : c.taghere &&& c.tagbits = 0 := by
  rw [taghere, tagbits, ← Nat.shiftLeft_and_distrib, hc.apart, Nat.zero_shiftLeft]

theorem DbzConfig.Good.tagbits_eq_zero (hc : c.Good) (h : c.taghere = 0) : c.tagbits = 0 := by
  have henb : c.tagenb = 0 := by
    rw [taghere, Nat.shiftLeft_eq] at h
    exact (Nat.mul_eq_zero.mp h).resolve_right (Nat.two_pow_pos _).ne'
  rw [tagbits, hc.enabled henb, Nat.zero_shiftLeft]

theorem DbzConfig.mkTag_and_tagbits (c : DbzConfig) (hash : Nat) :
    c.mkTag hash &&& c.tagbits = c.mkTag hash := by
  rw [mkTag, Nat.and_assoc, Nat.and_self]

/-- The bits of a tagged word. -/
theorem DbzConfig.Good.and_tagged (hc : c.Good) {tag value : Nat}
    (htag : tag &&& c.tagbits = tag) (hv : value &&& c.tagboth = 0) :
    (value ||| (tag ||| c.taghere)) &&& c.taghere = c.taghere ∧
      (value ||| (tag ||| c.taghere)) &&& c.tagbits = tag ∧
      c.noTag (value ||| (tag ||| c.taghere)) = value := by
  have happart := hc.taghere_and_tagbits
  rw [noTag, tagboth] at *
  refine ⟨Nat.eq_of_testBit_eq fun i => ?_, Nat.eq_of_testBit_eq fun i => ?_,
    Nat.eq_of_testBit_eq fun i => ?_⟩ <;>
  · have h1 := congrArg (Nat.testBit · i) happart
    have h2 := congrArg (Nat.testBit · i) htag
    have h3 := congrArg (Nat.testBit · i) hv
    simp only [Nat.testBit_and, Nat.testBit_or, Nat.testBit_xor, Nat.zero_testBit] at *
    revert h1 h2 h3
    cases value.testBit i <;> cases tag.testBit i <;> cases c.taghere.testBit i <;>
      cases c.tagbits.testBit i <;> decide

/-- A word gives the value it was made of, or under the tag of another hash
nothing. -/
theorem DbzConfig.Good.checkTag_tagged (hc : c.Good) {value : Nat} (hok : c.okayvalue value = true)
    (h h' : Nat) : c.checkTag (c.mkTag h) (c.tagged (c.mkTag h') value) = some value ∨
      h ≠ h' ∧ c.checkTag (c.mkTag h) (c.tagged (c.mkTag h') value) = none := by
  have hok : value &&& c.taghere = 0 := beq_iff_eq.mp hok
  rw [tagged]
  split
  · next hcan =>
      obtain ⟨hhere, hbits, hno⟩ := hc.and_tagged (c.mkTag_and_tagbits h') hcan.1
      rw [checkTag, hhere, hbits, hno]
      by_cases hz : c.taghere = 0
      · have htag : c.mkTag h' = 0 := by
          rw [← c.mkTag_and_tagbits, hc.tagbits_eq_zero hz, Nat.and_zero]
        rw [if_pos hz, htag, hz, Nat.or_self, Nat.or_zero]
        exact .inl rfl
      · rw [if_neg hz]
        by_cases ht : c.mkTag h' = c.mkTag h
        · rw [if_pos ht]
          exact .inl rfl
        · rw [if_neg ht]
          exact .inr ⟨fun he => ht (he ▸ rfl), rfl⟩
  · rw [checkTag, if_pos hok]
    exact .inl rfl

/-! ## Keys -/

theorem cipoint_le {casemap : UInt8} {s : Str} {p : Nat} (h : cipoint casemap s = some p) :
    p ≤ s.length := by
  rw [cipoint] at h
  split at h
  · split at h
    · next hmem =>
        have := List.idxOf_lt_length_of_mem hmem
        dsimp only at h
        split at h <;> cases h <;> omega
    · cases h
  · split at h
    · cases h
      omega
    · cases h

/-- A byte behind the text does not change where its letter case ends to
matter. -/
theorem cipoint_append (casemap : UInt8) {b : UInt8} (hb : b ≠ 64) (s : Str) :
    cipoint casemap (s ++ [b]) = cipoint casemap s := by
  have hmem : 64 ∈ s ++ [b] ↔ 64 ∈ s := by
    rw [List.mem_append, List.mem_singleton]
    exact ⟨fun h => h.resolve_right fun he => hb he.symm, .inl⟩
  rw [cipoint, cipoint]
  by_cases h : 64 ∈ s
  · have hidx := List.idxOf_lt_length_of_mem h
    rw [if_pos (hmem.mpr h), if_pos h, List.idxOf_append_of_mem h]
    dsimp only
    by_cases hp : s.idxOf 64 = 11
    · have htake : (s ++ [b]).tail.take 10 = s.tail.take 10 := by
        rw [List.tail_append_of_ne_nil (List.ne_nil_of_mem h),
          List.take_append_of_le_length (by rw [List.length_tail]; omega)]
      rw [htake]
    · simp only [hp, false_and, if_false]
  · rw [if_neg (fun hh => h (hmem.mp hh)), if_neg h]

/-- The byte of a separator or of the end. -/
theorem mapcase_append (casemap : UInt8) {b : UInt8} (hb : isAlpha b = false) (hat : b ≠ 64)
    (s : Str) : mapcase casemap (s ++ [b]) = mapcase casemap s ++ [b] := by
  have hlow : toLower b = b := by
    have key : ∀ b : UInt8, isAlpha b = false → toLower b = b := forall_byte (by decide +kernel)
    exact key b hb
  rw [mapcase, mapcase, cipoint_append casemap hat]
  cases h : cipoint casemap s with
  | none => rfl
  | some p =>
      have hp := cipoint_le h
      dsimp only
      rw [List.take_append_of_le_length hp, List.drop_append_of_le_length hp, List.map_append,
        List.append_assoc, List.map_singleton, hlow]

@[simp] theorem length_mapcase (casemap : UInt8) (s : Str) :
    (mapcase casemap s).length = s.length := by
  rw [mapcase]
  split
  · rfl
  · rw [List.length_append, List.length_map, ← List.length_append, List.take_append_drop]

/-- A byte that is no letter is where it was. -/
theorem mem_mapcase_iff (casemap : UInt8) {b : UInt8} (hb : isAlpha b = false) (s : Str) :
    b ∈ mapcase casemap s ↔ b ∈ s := by
  have hmap : ∀ t : Str, b ∈ t.map toLower ↔ b ∈ t := by
    intro t
    have key : ∀ b : UInt8, isAlpha b = false → toLower b = b := forall_byte (by decide +kernel)
    refine ⟨fun h => ?_, fun h => List.mem_map.mpr ⟨b, h, key b hb⟩⟩
    obtain ⟨d, hd, hdb⟩ := List.mem_map.mp h
    exact toLower_eq_of_not_alpha hb (hdb.trans (key b hb).symm) ▸ hd
  rw [mapcase]
  split
  · rfl
  · next p _ => rw [List.mem_append, hmap, ← List.mem_append, List.take_append_drop]

/-! ## The places of a search -/

/-- The search for a hash at its `i`-th location. -/
def DbzConfig.at (c : DbzConfig) (hash : Nat) : Nat → Searcher
  | 0 => { c.first hash with seen := true }
  | i + 1 => (c.at hash i).next c

/-- The places a search for a hash goes through. -/
def DbzConfig.seq (c : DbzConfig) (hash i : Nat) : Nat := (c.at hash i).place

/-- The length of the run in the first table. -/
def DbzConfig.firstRun (c : DbzConfig) : Nat := if c.olddbz then c.tsize else MAXRUN

theorem DbzConfig.at_fixed (c : DbzConfig) (hash i : Nat) :
    (c.at hash i).seen = true ∧ (c.at hash i).hash = hash ∧ (c.at hash i).tag = c.mkTag hash := by
  induction i with
  | zero => exact ⟨rfl, rfl, rfl⟩
  | succ i ih => exact ih

/-- The run counts down, and each time it is up the search goes on in the next
table. -/
theorem DbzConfig.Good.at_run (hc : c.Good) (hash i : Nat) :
    (c.at hash i).run + i = c.firstRun + MAXRUN * (c.at hash i).tabno ∧
      0 < (c.at hash i).run ∧ (c.at hash i).run ≤ c.firstRun + MAXRUN ∧
      (c.at hash i).place = (hash + i) % c.tsize + (c.at hash i).tabno * c.tsize := by
  have htsize := hc.tsize
  induction i with
  | zero =>
      have hfirst : (c.at hash 0).run = c.firstRun := rfl
      have hpos : 0 < c.firstRun := by
        rw [firstRun]
        split
        · exact htsize
        · decide
      refine ⟨rfl, by omega, by omega, ?_⟩
      rw [Nat.add_zero, show (c.at hash 0).tabno = 0 from rfl, Nat.zero_mul, Nat.add_zero]
      rfl
  | succ i ih =>
      obtain ⟨hcount, hpos, hle, hplace⟩ := ih
      have hmod : ((c.at hash i).place + 1) % c.tsize = (hash + (i + 1)) % c.tsize := by
        rw [hplace, show (hash + i) % c.tsize + (c.at hash i).tabno * c.tsize + 1 =
          (hash + i) % c.tsize + 1 + (c.at hash i).tabno * c.tsize by omega,
          Nat.add_mul_mod_self_right, Nat.mod_add_mod, Nat.add_assoc]
      rw [DbzConfig.at, Searcher.next]
      dsimp only
      by_cases hshift : (c.at hash i).run - 1 = 0
      · rw [if_pos hshift, if_pos hshift, hmod]
        refine ⟨?_, by decide, by omega, rfl⟩
        rw [Nat.mul_add]
        omega
      · rw [if_neg hshift, if_neg hshift, hmod]
        exact ⟨by omega, by omega, by omega, rfl⟩

/-- A search comes behind any place. -/
theorem DbzConfig.Good.le_seq (hc : c.Good) (hash : Nat) {k i : Nat}
    (h : c.firstRun + MAXRUN * (k + 1) ≤ i) : k ≤ c.seq hash i := by
  obtain ⟨hcount, -, hle, hplace⟩ := hc.at_run hash i
  have htab : k ≤ (c.at hash i).tabno := by
    rw [show MAXRUN = 100 from rfl] at hcount hle h
    omega
  calc k ≤ (c.at hash i).tabno * 1 := by omega
    _ ≤ (c.at hash i).tabno * c.tsize := Nat.mul_le_mul_left _ hc.tsize
    _ ≤ c.seq hash i := by rw [seq, hplace]; omega

theorem DbzConfig.Good.spread (hc : c.Good) (hash : Nat) : Probe.Spread (c.seq hash) :=
  fun k => ⟨_, hc.le_seq hash (le_refl (c.firstRun + MAXRUN * (k + 1)))⟩

/-- The words of a data base without their bias. -/
def Dbz.table (d : Dbz) : Probe.Table Nat :=
  fun place => if d.slot place = 0 then none else some (d.slot place - 1)

/-- The values a search for a hash stops at, from its `i`-th location on. -/
def Dbz.candidates (d : Dbz) (hash i n : Nat) : List Nat :=
  (Probe.path d.table (d.conf.seq hash) i n).filterMap (d.conf.checkTag (d.conf.mkTag hash))

/-- A search finds a vacant place within its rounds. -/
theorem Dbz.exists_vacant (d : Dbz) (hc : d.conf.Good) (hash : Nat) :
    ∃ n < d.rounds, Probe.Vacant d.table (d.conf.seq hash) n := by
  have hrun : d.conf.firstRun ≤ d.conf.tsize + MAXRUN := by
    rw [DbzConfig.firstRun]
    split
    · exact Nat.le_add_right _ _
    · exact Nat.le_add_left _ _
  have hplace := hc.le_seq hash (Nat.le_refl (d.conf.firstRun +
    MAXRUN * (d.pagf.length + d.conf.tsize + 1)))
  have hslot : ∀ p, d.pagf.length + d.conf.tsize ≤ p → d.slot p = 0 := by
    intro p hp
    have hpag : d.pagf.getD p 0 = 0 := by
      rw [List.getD_eq_getElem?_getD, List.getElem?_eq_none (by omega), Option.getD_none]
    rw [Dbz.slot, hpag]
    split
    · rw [if_neg (by omega)]
    · rfl
  obtain ⟨n, hn, hv⟩ := Probe.exists_vacant_of_none
    (show d.table (d.conf.seq hash _) = none from if_pos (hslot _ hplace))
  refine ⟨n, hn.trans_lt ?_, hv⟩
  rw [Dbz.rounds, show MAXRUN = 100 from rfl] at *
  omega

section Loops

variable {d : Dbz} {hash n : Nat} (hn : Probe.Vacant d.table (d.conf.seq hash) n)

include hn

theorem Dbz.slot_of_vacant : d.slot (d.conf.seq hash n) = 0 := by
  have h := hn.here
  rw [Dbz.table] at h
  by_contra hne
  rw [if_neg hne] at h
  cases h

theorem Dbz.table_before {i : Nat} (hi : i < n) : d.slot (d.conf.seq hash i) ≠ 0 ∧
    d.table (d.conf.seq hash i) = some (d.slot (d.conf.seq hash i) - 1) := by
  have h := hn.before i hi
  rw [Dbz.table] at h ⊢
  have hne : d.slot (d.conf.seq hash i) ≠ 0 := fun he => h (if_pos he)
  exact ⟨hne, if_neg hne⟩

/-- A search that is about to look at its `i`-th location stops at the next
value, or at the vacant place. -/
theorem Dbz.search_eq {i rounds : Nat} {sp : Searcher} (hsp : sp.look d.conf = d.conf.at hash i)
    (hin : i ≤ n) (hr : n - i < rounds) :
    (d.candidates hash i n = [] ∧ d.search rounds sp = some (d.conf.at hash n, none)) ∨
      ∃ j v, i ≤ j ∧ j < n ∧ d.candidates hash i n = v :: d.candidates hash (j + 1) n ∧
        d.search rounds sp = some (d.conf.at hash j, some v) := by
  induction rounds generalizing i sp with
  | zero => omega
  | succ rounds ih =>
      obtain ⟨hseen, -, htag⟩ := d.conf.at_fixed hash i
      rw [Dbz.search, hsp, show (d.conf.at hash i).place = d.conf.seq hash i from rfl]
      obtain rfl | hlt := Nat.eq_or_lt_of_le hin
      · rw [if_pos (Dbz.slot_of_vacant hn), Dbz.candidates, Probe.path_self]
        exact .inl ⟨rfl, rfl⟩
      · obtain ⟨hne, htable⟩ := Dbz.table_before hn hlt
        have hpath := Probe.path_cons hlt htable
        rw [if_neg hne, htag]
        cases hv : d.conf.checkTag (d.conf.mkTag hash) (d.slot (d.conf.seq hash i) - 1) with
        | some v =>
            refine .inr ⟨i, v, Nat.le_refl i, hlt, ?_, rfl⟩
            rw [Dbz.candidates, hpath, List.filterMap_cons_some hv, Dbz.candidates]
        | none =>
            have hlook : (d.conf.at hash i).look d.conf = d.conf.at hash (i + 1) := by
              rw [Searcher.look, if_pos hseen, DbzConfig.at]
            have hskip : d.candidates hash i n = d.candidates hash (i + 1) n := by
              rw [Dbz.candidates, hpath, List.filterMap_cons_none hv, Dbz.candidates]
            rw [hskip]
            rcases ih hlook hlt (by omega) with h | ⟨j, v, hij, hjn, h⟩
            · exact .inl h
            · exact .inr ⟨j, v, by omega, hjn, h⟩

/-- What `fetch` returns, given what it finds at the values it stops at. -/
def Dbz.fetched (d : Dbz) (key : Str) (hash n : Nat) (values : List Nat) :
    Option Nat × Option Searcher :=
  match values.find? fun v => d.tryKey key v != some false with
  | none => (none, some (d.conf.at hash n))
  | some v => if d.tryKey key v = some true then (some v, none) else (none, none)

theorem Dbz.fetchLoop_eq (hlt : n < d.rounds) {key : Str} {i rounds : Nat} {sp : Searcher}
    (hsp : sp.look d.conf = d.conf.at hash i) (hin : i ≤ n) (hr : n - i < rounds) :
    d.fetchLoop key rounds sp = some (d.fetched key hash n (d.candidates hash i n)) := by
  induction rounds generalizing i sp with
  | zero => omega
  | succ rounds ih =>
      rw [Dbz.fetchLoop]
      rcases Dbz.search_eq hn hsp hin (show n - i < d.rounds by omega) with
        ⟨hnil, hs⟩ | ⟨j, v, hij, hjn, hcons, hs⟩
      · rw [hs, hnil]
        rfl
      · have hlook : (d.conf.at hash j).look d.conf = d.conf.at hash (j + 1) := by
          rw [Searcher.look, if_pos (d.conf.at_fixed hash j).1, DbzConfig.at]
        rw [hs, hcons, Dbz.fetched]
        dsimp only
        cases ht : d.tryKey key v with
        | none => rw [List.find?_cons_of_pos (by rw [ht]; rfl)]; simp [ht]
        | some b =>
            cases b with
            | true => rw [List.find?_cons_of_pos (by rw [ht]; rfl)]; simp [ht]
            | false =>
                rw [List.find?_cons_of_neg (by rw [ht]; decide)]
                exact ih hlook hjn (by omega)

theorem Dbz.storeLoop_eq (hlt : n < d.rounds) {i rounds : Nat} {sp : Searcher}
    (hsp : sp.look d.conf = d.conf.at hash i) (hin : i ≤ n) (hr : n - i < rounds) :
    d.storeLoop rounds sp = some (d.conf.at hash n) := by
  induction rounds generalizing i sp with
  | zero => omega
  | succ rounds ih =>
      rw [Dbz.storeLoop]
      rcases Dbz.search_eq hn hsp hin (show n - i < d.rounds by omega) with
        ⟨-, hs⟩ | ⟨j, v, hij, hjn, -, hs⟩
      · rw [hs]
      · have hlook : (d.conf.at hash j).look d.conf = d.conf.at hash (j + 1) := by
          rw [Searcher.look, if_pos (d.conf.at_fixed hash j).1, DbzConfig.at]
        rw [hs]
        exact ih hlook hjn (by omega)

end Loops

end Fidogate

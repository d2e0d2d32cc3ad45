/-
# `Fidogate.Common.DbzFiles` — dbz.c: opening and closing a data base

The .dir file has the configuration as text: what `putconf` writes there
`getconf` reads back.  A data base that is closed and opened again holds the
records it held, whether its first table is kept in core or not.
-/
import Fidogate.Common.DbzRecords
import Fidogate.Common.NodePrint

namespace Fidogate

open Bytes

/-! ## The .dir file -/

abbrev MAXN : Nat := 50

def dbzversion : Nat := 3

/-- The end of a number. -/
def endsNo (c : UInt8) : Bool := c == lf || c == sp

/-- `getno`: the number and the rest of the file; no value where it sets the
error, and for a number with a minus sign. -/
def getno (f : Str) : Option (Nat × Str) :=
  let f := f.dropWhile (· == sp)
  let tok := f.takeWhile fun c => !endsNo c
  let rest := f.dropWhile fun c => !endsNo c
  let buf := tok.take (MAXN - 1)
  if tok = [] ∨ rest = [] ∨ buf.all isDigit = false then none
  else some ((atol buf).toNat, rest)

/-- Numbers one after the other. -/
def getnos : Nat → Str → Option (List Nat × Str)
  | 0, f => some ([], f)
  | k + 1, f => do
      let (n, f) ← getno f
      let (ns, f) ← getnos k f
      some (n :: ns, f)

/-- A character that has to be there. -/
def getChar (c : UInt8) : Str → Option Str
  | [] => none
  | d :: f => if d = c then some f else none

/-- `getconf`; `olddbz` is what was in the variable before, which is left as it
is where the .dir file has a configuration. -/
def getconf (df : Str) (pagEmpty olddbz : Bool) : Option DbzConfig :=
  if df = [] then some (DbzConfig.default pagEmpty)
  else do
    let df ← getChar 100 df
    let df ← getChar 98 df
    let df ← getChar 122 df
    let (version, df) ← getno df
    let (tsize, df) ← getno df
    let (fieldsep, df) ← getno df
    let df := df.dropWhile (· == sp)
    let casemap ← df.head?
    let (tagenb, df) ← getno df.tail
    let (tagmask, df) ← getno df
    let (tagshift, df) ← getno df
    let (valuesize, df) ← getno df
    let (bytemap, df) ← getnos SOF df
    let df ← getChar lf df
    let (used, df) ← getnos NUSEDS df
    let _ ← getChar lf df
    if version = dbzversion ∧ valuesize = SOF then
      some ⟨olddbz, tsize, used, valuesize, bytemap, casemap, UInt8.ofNat fieldsep, tagenb, tagmask,
        tagshift⟩
    else none

/-- A number behind a blank. -/
def blankNo (n : Nat) : Str := sp :: putDec n

/-- `putconf` -/
def putconf (c : DbzConfig) : Str :=
  lit "dbz" ++ blankNo dbzversion ++ blankNo c.tsize ++ blankNo c.fieldsep.toNat ++
    [sp, c.casemap] ++ blankNo c.tagenb ++ blankNo c.tagmask ++ blankNo c.tagshift ++
    blankNo c.valuesize ++ c.bytemap.flatMap blankNo ++ [lf] ++
    (c.used.flatMap blankNo).tail ++ [lf]

/-! ## Opening and closing -/

/-- The base file, the .dir file and the .pag file. -/
structure DbzFiles where
  base : Str
  dir : Str
  pag : List Nat
  deriving DecidableEq, Repr

/-- `getcore` -/
def getcore (tsize : Nat) (f : List Nat) : List Nat :=
  f.take tsize ++ List.replicate (tsize - (f.take tsize).length) 0

/-- `putcore` -/
def putcore (tab f : List Nat) : List Nat := tab ++ f.drop tab.length

/-- `dbminit`; `incore` as set by `dbzincore`, and where there is room for the
table. -/
def dbminit (incore olddbz : Bool) (f : DbzFiles) : Option Dbz :=
  (getconf f.dir f.pag.isEmpty olddbz).map fun conf =>
    { conf := conf
      basef := f.base
      dirf := f.dir
      pagf := f.pag
      corepag := if incore then some (getcore conf.tsize f.pag) else none
      prevp := none
      written := false }

/-- `dbzsync` -/
def Dbz.dbzsync (d : Dbz) : Dbz :=
  if d.written = false then d
  else
    { d with
      pagf := (d.corepag.map fun core => putcore core d.pagf).getD d.pagf
      dirf := if d.conf.olddbz then d.dirf else overwrite d.dirf (putconf d.conf) }

/-- `dbmclose` -/
def Dbz.dbmclose (d : Dbz) : DbzFiles :=
  let d := d.dbzsync
  ⟨d.basef, d.dirf, d.pagf⟩

/-! ## Reading the configuration back -/

/-- A configuration whose text is read back. -/
structure DbzConfig.Writable (c : DbzConfig) : Prop where
  numbers : c.tsize < 2 ^ 63 ∧ c.tagenb < 2 ^ 63 ∧ c.tagmask < 2 ^ 63 ∧ c.tagshift < 2 ^ 63
  used : c.used.length = NUSEDS ∧ ∀ u ∈ c.used, u < 2 ^ 63
  valuesize : c.valuesize = SOF
  bytemap : c.bytemap.length = SOF ∧ ∀ b ∈ c.bytemap, b < SOF
  casemap : c.casemap ≠ sp ∧ c.casemap ≠ lf

theorem DbzConfig.writable_default (b : Bool) : (DbzConfig.default b).Writable where
  numbers := by cases b <;> decide
  used := by cases b <;> decide
  valuesize := rfl
  bytemap := by cases b <;> decide
  casemap := by cases b <;> decide

theorem all_isDigit_putDec (n : Nat) : ∀ c ∈ putDec n, isDigit c = true :=
  fun _ hc => isDigit_of_mem_putDec hc

theorem not_endsNo_of_isDigit : ∀ c : UInt8, isDigit c = true → (!endsNo c) = true ∧ (c == sp) = false :=
  forall_byte (by decide +kernel)

/-- A number is read up to the blank or the end of the line behind it. -/
theorem getno_putDec {n : Nat} (h : n < 2 ^ 63) {b : UInt8} (hb : endsNo b = true) (s : Str) :
    getno (putDec n ++ b :: s) = some (n, b :: s) := by
  obtain ⟨c, ds, hcs⟩ := List.exists_cons_of_ne_nil (putDec_ne_nil n)
  have hdrop : (putDec n ++ b :: s).dropWhile (· == sp) = putDec n ++ b :: s := by
    have hc := (not_endsNo_of_isDigit c (all_isDigit_putDec n c (hcs ▸ List.mem_cons_self))).2
    rw [hcs, List.cons_append, List.dropWhile_cons_of_neg (by rw [hc]; exact Bool.false_ne_true)]
  have hdig : ∀ c ∈ putDec n, (!endsNo c) = true := fun c hc =>
    (not_endsNo_of_isDigit c (all_isDigit_putDec n c hc)).1
  have htok : (putDec n ++ b :: s).takeWhile (fun c => !endsNo c) = putDec n := by
    rw [List.takeWhile_append_of_pos hdig, List.takeWhile_cons_of_neg (by rw [hb]; decide),
      List.append_nil]
  have hrest : (putDec n ++ b :: s).dropWhile (fun c => !endsNo c) = b :: s := by
    rw [List.dropWhile_append_of_pos hdig, List.dropWhile_cons_of_neg (by rw [hb]; decide)]
  have hlen : (putDec n).take (MAXN - 1) = putDec n := by
    refine List.take_of_length_le ((length_putDec_le_iff (by decide)).mpr (h.trans_le ?_))
    decide
  have hall : (putDec n).all isDigit = true := List.all_eq_true.mpr (all_isDigit_putDec n)
  rw [getno, hdrop, htok, hrest, hlen, hall, if_neg (by simp [putDec_ne_nil]), atol, atoi_putDec]
  congr 2
  omega

theorem getno_blankNo {n : Nat} (h : n < 2 ^ 63) {b : UInt8} (hb : endsNo b = true) (s : Str) :
    getno (blankNo n ++ b :: s) = some (n, b :: s) := by
  rw [← getno_putDec h hb s, blankNo, List.cons_append, getno, getno,
    List.dropWhile_cons_of_pos (by decide)]

theorem getnos_blankNo : ∀ {ns : List Nat}, (∀ n ∈ ns, n < 2 ^ 63) → ∀ {b : UInt8},
    endsNo b = true → ∀ s : Str, getnos ns.length (ns.flatMap blankNo ++ b :: s) = some (ns, b :: s)
  | [], _, _, _, _ => rfl
  | n :: ns, h, b, hb, s => by
      obtain ⟨c, t, hc, ht⟩ : ∃ c t, endsNo c = true ∧ ns.flatMap blankNo ++ b :: s = c :: t := by
        cases ns with
        | nil => exact ⟨b, s, hb, rfl⟩
        | cons m ns => exact ⟨sp, _, rfl, rfl⟩
      have ih := getnos_blankNo (fun m hm => h m (List.mem_cons_of_mem n hm)) hb s
      rw [ht] at ih
      rw [List.length_cons, getnos, List.flatMap_cons, List.append_assoc, ht,
        getno_blankNo (h n List.mem_cons_self) hc]
      simp only [Option.bind_eq_bind, Option.bind_some, ih]

/-- The first number of a line has no blank in front of it. -/
theorem getnos_tail {ns : List Nat} (hne : ns ≠ []) (s : Str) :
    getnos ns.length ((ns.flatMap blankNo).tail ++ s) =
      getnos ns.length (ns.flatMap blankNo ++ s) := by
  cases ns with
  | nil => exact absurd rfl hne
  | cons n ns =>
      have hno : ∀ t : Str, getno (putDec n ++ t) = getno (blankNo n ++ t) := by
        intro t
        rw [blankNo, List.cons_append, getno, getno, List.dropWhile_cons_of_pos (by decide)]
      rw [List.length_cons, getnos, getnos, List.flatMap_cons, List.append_assoc, ← hno,
        show (blankNo n ++ ns.flatMap blankNo).tail = putDec n ++ ns.flatMap blankNo from rfl,
        List.append_assoc]

/-- What `putconf` writes is read back, whatever is behind it. -/
theorem getconf_putconf {c : DbzConfig} (hc : c.Writable) (hsep : c.fieldsep = tab) (s : Str)
    (pagEmpty : Bool) : getconf (putconf c ++ s) pagEmpty c.olddbz = some c := by
  obtain ⟨⟨htsize, htagenb, htagmask, htagshift⟩, ⟨hlen, hused⟩, hvalue, ⟨hblen, hbytes⟩,
    hcase, -⟩ := hc
  obtain ⟨olddbz, tsize, used, valuesize, bytemap, casemap, fieldsep, tagenb, tagmask,
    tagshift⟩ := c
  dsimp only at *
  subst hsep hvalue
  have hsp : endsNo sp = true := rfl
  have hlf : endsNo lf = true := rfl
  have hne : used ≠ [] := List.ne_nil_of_length_eq_add_one hlen
  have hbytemap : ∀ b ∈ bytemap, b < 2 ^ 63 := fun b hb => (hbytes b hb).trans (by decide)
  obtain ⟨c, t, hc, ht⟩ : ∃ c t, endsNo c = true ∧ bytemap.flatMap blankNo ++
      lf :: ((used.flatMap blankNo).tail ++ lf :: s) = c :: t := by
    cases bytemap with
    | nil => cases hblen
    | cons b bytemap => exact ⟨sp, _, rfl, rfl⟩
  have hblank : ∀ {n : Nat} (m : Nat) (t : Str), n < 2 ^ 63 →
      getno (blankNo n ++ (blankNo m ++ t)) = some (n, blankNo m ++ t) :=
    fun m t hn => getno_blankNo hn hsp _
  have hcasemap : (sp :: casemap :: (blankNo tagenb ++ (blankNo tagmask ++ (blankNo tagshift ++
      (blankNo SOF ++ c :: t))))).dropWhile (· == sp) =
      casemap :: (blankNo tagenb ++ (blankNo tagmask ++ (blankNo tagshift ++
        (blankNo SOF ++ c :: t)))) := by
    rw [List.dropWhile_cons_of_pos (by decide),
      List.dropWhile_cons_of_neg (by simpa using hcase)]
  have htext : putconf ⟨olddbz, tsize, used, SOF, bytemap, casemap, tab, tagenb, tagmask,
      tagshift⟩ ++ s = 100 :: 98 :: 122 :: (blankNo dbzversion ++ (blankNo tsize ++ (blankNo 9 ++
        sp :: casemap :: (blankNo tagenb ++ (blankNo tagmask ++ (blankNo tagshift ++
          (blankNo SOF ++ c :: t))))))) := by
    rw [putconf, ← ht]
    simp only [List.append_assoc, List.cons_append, List.nil_append]
    rfl
  have hgetbytes : getnos SOF (c :: t) =
      some (bytemap, lf :: ((used.flatMap blankNo).tail ++ lf :: s)) := by
    rw [← ht, ← hblen, getnos_blankNo hbytemap hlf]
  have hgetused : getnos NUSEDS ((used.flatMap blankNo).tail ++ lf :: s) = some (used, lf :: s) := by
    rw [← hlen, getnos_tail hne, getnos_blankNo hused hlf]
  have hchar : ∀ (d : UInt8) (f : Str), getChar d (d :: f) = some f := fun d f => if_pos rfl
  rw [htext, getconf, if_neg (List.cons_ne_nil _ _), hchar]
  dsimp only [Option.bind_eq_bind, Option.bind_some]
  rw [hchar, Option.bind_some, hchar, Option.bind_some, hblank tsize _ (by decide)]
  dsimp only [Option.bind_some]
  rw [hblank 9 _ htsize]
  dsimp only [Option.bind_some]
  rw [getno_blankNo (by decide) hsp]
  dsimp only [Option.bind_some]
  rw [hcasemap]
  dsimp only [Option.bind_some, List.head?_cons, List.tail_cons]
  rw [hblank tagmask _ htagenb]
  dsimp only [Option.bind_some]
  rw [hblank tagshift _ htagmask]
  dsimp only [Option.bind_some]
  rw [hblank SOF _ htagshift]
  dsimp only [Option.bind_some]
  rw [getno_blankNo (by decide) hc]
  dsimp only [Option.bind_some]
  rw [hgetbytes]
  dsimp only [Option.bind_some]
  rw [hchar, Option.bind_some, hgetused]
  dsimp only [Option.bind_some]
  rw [hchar, Option.bind_some, if_pos ⟨rfl, rfl⟩]
  rfl

/-! ## Closing and opening again -/

/-- What the data base is to be opened from again. -/
structure Dbz.Kept (d : Dbz) : Prop where
  writable : d.conf.Writable
  newdbz : d.conf.olddbz = false
  unwritten : d.written = false → getconf d.dirf d.pagf.isEmpty false = some d.conf ∧
    ∀ core ∈ d.corepag, core = getcore d.conf.tsize d.pagf

theorem length_getcore (tsize : Nat) (f : List Nat) : (getcore tsize f).length = tsize := by
  rw [getcore, List.length_append, List.length_replicate]
  have := List.length_take_le tsize f
  omega

/-- The words of the file, and vacant ones. -/
theorem getD_getcore {tsize q : Nat} (h : q < tsize) (f : List Nat) :
    (getcore tsize f).getD q 0 = f.getD q 0 := by
  rw [getcore, List.getD_eq_getElem?_getD, List.getD_eq_getElem?_getD]
  by_cases hq : q < (f.take tsize).length
  · rw [List.getElem?_append_left hq, List.getElem?_take_of_lt h]
  · rw [List.getElem?_append_right (Nat.not_lt.mp hq),
      List.getElem?_replicate_of_lt (by omega), Option.getD_some]
    rw [List.length_take] at hq
    rw [List.getElem?_eq_none (by omega), Option.getD_none]

theorem getD_putcore (tab f : List Nat) (q : Nat) :
    (putcore tab f).getD q 0 = if q < tab.length then tab.getD q 0 else f.getD q 0 := by
  rw [putcore, List.getD_eq_getElem?_getD, List.getD_eq_getElem?_getD,
    List.getD_eq_getElem?_getD]
  split
  · next hq => rw [List.getElem?_append_left hq]
  · next hq =>
      rw [List.getElem?_append_right (Nat.not_lt.mp hq), List.getElem?_drop]
      congr 2
      omega

theorem Dbz.dbzsync_fields (d : Dbz) :
    d.dbzsync.conf = d.conf ∧ d.dbzsync.basef = d.basef ∧ d.dbzsync.written = d.written := by
  rw [Dbz.dbzsync]
  split <;> exact ⟨rfl, rfl, rfl⟩

/-- After `dbzsync` the file has the words of the data base. -/
theorem Dbz.getD_dbzsync {d : Dbz} (hk : d.Kept)
    (hcore : ∀ core ∈ d.corepag, core.length = d.conf.tsize) (q : Nat) :
    d.dbzsync.pagf.getD q 0 = d.slot q := by
  rw [Dbz.dbzsync]
  cases hc : d.corepag with
  | none =>
      rw [Dbz.slot_file hc]
      split <;> rfl
  | some core =>
      rw [Dbz.slot_core hc]
      split
      · next hw =>
          obtain rfl := (hk.unwritten hw).2 core hc
          split
          · next hq => rw [getD_getcore hq]
          · rfl
      · rw [← hcore core hc]
        exact getD_putcore core d.pagf q

/-- What `dbminit` reads, it reads into the table. -/
theorem dbminit_table {incore olddbz : Bool} {f : DbzFiles} {d : Dbz}
    (h : dbminit incore olddbz f = some d) : getconf f.dir f.pag.isEmpty olddbz = some d.conf ∧
    d.basef = f.base ∧ d.dirf = f.dir ∧ d.pagf = f.pag ∧ d.prevp = none ∧ d.written = false ∧
    (∀ core ∈ d.corepag, core = getcore d.conf.tsize d.pagf) ∧
    ∀ q, d.slot q = f.pag.getD q 0 := by
  obtain ⟨conf, hconf, rfl⟩ := Option.map_eq_some_iff.mp h
  refine ⟨hconf, rfl, rfl, rfl, rfl, rfl, ?_, fun q => ?_⟩
  · intro core hc
    cases incore with
    | false => cases hc
    | true => exact (Option.some.inj hc).symm
  · cases incore with
    | false => exact Dbz.slot_file rfl q
    | true =>
        rw [Dbz.slot_core rfl]
        by_cases hq : q < conf.tsize
        · exact (if_pos hq).trans (getD_getcore hq f.pag)
        · exact if_neg hq

theorem Dbz.table_congr {d d' : Dbz} (h : ∀ q, d'.slot q = d.slot q) : d'.table = d.table := by
  funext q
  rw [Dbz.table, Dbz.table, h]

/-- The configuration is read as it was. -/
theorem Dbz.Kept.getconf {d : Dbz} (hk : d.Kept) (hsep : d.conf.fieldsep = tab) :
    getconf d.dbmclose.dir d.dbmclose.pag.isEmpty false = some d.conf := by
  rw [Dbz.dbmclose, Dbz.dbzsync]
  split
  · next hw => exact (hk.unwritten hw).1
  · dsimp only
    rw [hk.newdbz, if_neg Bool.false_ne_true, overwrite, ← hk.newdbz,
      getconf_putconf hk.writable hsep]

/-- It is read so from the .dir file alone. -/
theorem Dbz.Kept.getconf_dir {d : Dbz} (hk : d.Kept) (hsep : d.conf.fieldsep = tab) :
    Fidogate.getconf d.dbmclose.dir true false = some d.conf := by
  have h := hk.getconf hsep
  have hnew := hk.newdbz
  cases hp : d.dbmclose.pag.isEmpty with
  | true =>
      rw [hp] at h
      exact h
  | false =>
      rw [hp] at h
      by_cases hdir : d.dbmclose.dir = []
      · rw [Fidogate.getconf, if_pos hdir] at h
        rw [← Option.some.inj h] at hnew
        cases hnew
      · rw [Fidogate.getconf, if_neg hdir] at h ⊢
        exact h

/-- A data base that is closed and opened again holds what it held. -/
theorem Dbz.Holds.reopen {d : Dbz} {rs : List DbzRecord} (h : d.Holds rs) (hk : d.Kept)
    (incore : Bool) : ∃ d', dbminit incore false d.dbmclose = some d' ∧ d'.Holds rs ∧ d'.Kept ∧
      d'.conf = d.conf ∧ d'.basef = d.basef := by
  have hget := hk.getconf h.good.fieldsep
  obtain ⟨d', hinit⟩ : ∃ d', dbminit incore false d.dbmclose = some d' := by
    rw [dbminit, hget]
    exact ⟨_, rfl⟩
  obtain ⟨hconf, hbase, hdir, hpag, hprevp, hwritten, hcore, hslot⟩ := dbminit_table hinit
  have hc : d'.conf = d.conf := Option.some.inj (hconf.symm.trans hget)
  have hb : d'.basef = d.basef := hbase.trans d.dbzsync_fields.2.1
  have htable : d'.table = d.table := Dbz.table_congr fun q =>
    (hslot q).trans (Dbz.getD_dbzsync hk h.core q)
  refine ⟨d', hinit, ⟨hc ▸ h.good, ?_, hc ▸ h.storable, hb ▸ h.text, hb ▸ h.noNul, h.order, ?_, ?_⟩,
    ⟨hc ▸ hk.writable, hc ▸ hk.newdbz, fun _ => ⟨?_, hcore⟩⟩, hc, hb⟩
  · rw [hc, htable]
    exact h.built
  · intro core hm
    rw [hcore core hm, length_getcore]
  · rw [hprevp]
    exact fun sp hsp => absurd hsp (Option.not_mem_none sp)
  · rw [hdir, hpag]
    exact hconf

/-- A data base that has no words holds nothing. -/
theorem Dbz.holds_fresh (incore : Bool) {dir : Str} {c : DbzConfig}
    (hget : Fidogate.getconf dir true false = some c) (hgood : c.Good) (hw : c.Writable)
    (hnew : c.olddbz = false) : ∃ d, dbminit incore false ⟨[], dir, []⟩ = some d ∧ d.Holds [] ∧
      d.Kept ∧ d.conf = c ∧ d.basef = [] := by
  obtain ⟨d, hinit⟩ : ∃ d, dbminit incore false ⟨[], dir, []⟩ = some d := by
    rw [dbminit, show List.isEmpty ([] : List Nat) = true from rfl, hget]
    exact ⟨_, rfl⟩
  obtain ⟨hconf, hbase, hdir, hpag, hprevp, hwritten, hcore, hslot⟩ := dbminit_table hinit
  have hc : d.conf = c := Option.some.inj (hconf.symm.trans hget)
  have htable : d.table = fun _ => none := by
    funext q
    rw [Dbz.table, hslot]
    rfl
  refine ⟨d, hinit, ⟨hc ▸ hgood, ?_, fun r hr => absurd hr List.not_mem_nil,
    fun r hr => absurd hr List.not_mem_nil, ?_, List.Pairwise.nil, ?_, ?_⟩,
    ⟨hc ▸ hw, hc ▸ hnew, fun _ => ⟨?_, hcore⟩⟩, hc, hbase⟩
  · rw [htable]
    exact Probe.Built.empty
  · rw [hbase]
    exact List.not_mem_nil
  · intro core hm
    rw [hcore core hm, length_getcore]
  · rw [hprevp]
    exact fun sp hsp => absurd hsp (Option.not_mem_none sp)
  · rw [hdir, hpag]
    exact hconf

/-- A store leaves a data base that can be opened again, as long as the count
of its entries is a long. -/
theorem Dbz.Kept.stored {d d' : Dbz} (hk : d.Kept) (h : d.Stored d')
    (hused : ∀ u ∈ d.conf.used.head?, u + 1 < 2 ^ 63) : d'.Kept := by
  have hw := hk.writable
  refine ⟨?_, ?_, fun hwritten => ?_⟩
  · rw [h.conf]
    refine ⟨hw.numbers, ⟨?_, ?_⟩, hw.valuesize, hw.bytemap, hw.casemap⟩
    · rw [List.length_modifyHead]
      exact hw.used.1
    · cases hu : d.conf.used with
      | nil => exact fun u hm => absurd hm List.not_mem_nil
      | cons u us =>
          intro v hv
          rcases List.mem_cons.mp hv with rfl | hv
          · exact hused u (by rw [hu]; rfl)
          · exact hw.used.2 v (by rw [hu]; exact List.mem_cons_of_mem u hv)
  · rw [h.conf]
    exact hk.newdbz
  · rw [h.written] at hwritten
    cases hwritten

end Fidogate

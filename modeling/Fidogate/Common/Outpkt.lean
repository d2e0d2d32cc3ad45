/-
# `Fidogate.Common.Outpkt` — outpkt.c: the pool of output packets

A packet is written under a temporary name, one for each key, and renamed when
all packets are closed.  Only so many are open at a time: one that is closed to
make room for another is opened again for appending.  What the file operations
do is given beforehand; a write that fails leaves a front part of what was
written.  Each stream writes at the end of its file.
-/
import Fidogate.Common.OutPacket
import Fidogate.Lib.Run
import Mathlib.Data.List.Pairwise

namespace Fidogate

open Bytes

/-- What a packet is looked up by. -/
structure PktKey where
  src : Node
  dst : Node
  grade : UInt8
  type : UInt8
  flav : UInt8
  bad : Bool

/-- The comparison of `outpkt_open`. -/
def PktKey.same (a b : PktKey) : Bool :=
  nodeEq a.src b.src && nodeEq a.dst b.dst && a.flav == b.flav && a.type == b.type &&
    a.grade == b.grade && a.bad == b.bad

/-- `OutPkt`; `fp` tells whether the stream is open. -/
structure OutPkt where
  key : PktKey
  tmpname : Str
  outname : Str
  fp : Bool
  n : Int

/-- The static variables, with the files.  `dangling` tells whether an entry was
looked at that had been freed. -/
structure Outpkts where
  files : Files.Dir Str Str
  pkts : List OutPkt
  nopen : Int
  maxopen : Int
  dangling : Bool

/-- The program: whether it was built with `FTS_VIA`, its addresses and
passwords, its version, and where packets go. -/
structure OutpktEnv where
  ftsVia : Bool
  cf : Config
  passwds : List Passwd
  major : Int
  minor : Int
  version : Str
  outdir : Str
  baddir : Str

/-! ## Names -/

/-- `%0wlx`. -/
def putHexZ (w n : Nat) : Str :=
  let ds := (Nat.toDigits 16 n).map Char.toUInt8
  List.replicate (w - ds.length) 48 ++ ds

/-- `outpkt_outputname`. -/
def outpktOutputname (dir : Str) (grade type flav : UInt8) (n : Nat) (ext : Str) : Str :=
  (dir ++ lit "/" ++ [grade, type, flav] ++ putHexZ 5 n ++ lit "." ++ ext).take (BUFFERSIZE - 1)

/-- `outpkt_sequencer` of what the sequencer gives. -/
def outpktSequencer (seq : Int) : Nat := (seq % 0x100000).toNat

/-- `outpkt_new` and `outpkt_names`. -/
def outpktNew (e : OutpktEnv) (k : PktKey) (seq : Int) : OutPkt :=
  let name := outpktOutputname (if k.bad then e.baddir else e.outdir) k.grade k.type k.flav
    (outpktSequencer seq)
  { key := k, tmpname := name (lit "tmp"), outname := name (lit "pkt"), fp := false, n := 1 }

/-! ## Opening and closing -/

/-- The entry whose stream was used least, the last of them. -/
def leastOpen : List OutPkt → Nat → Option (Nat × Int) → Option (Nat × Int)
  | [], _, best => best
  | p :: ps, i, best =>
      leastOpen ps (i + 1) (if p.fp && best.all (p.n ≤ ·.2) then some (i, p.n) else best)

/-- Setting `fp`. -/
def Outpkts.setFp (s : Outpkts) (i : Nat) (fp : Bool) : Outpkts :=
  { s with pkts := s.pkts.modify i fun p => { p with fp := fp } }

/-- `outpkt_close_ln`: `ok` tells whether `fclose` succeeds. -/
def outpktCloseLn (ok : Bool) (s : Outpkts) : Outpkts × Bool :=
  match leastOpen s.pkts 0 none with
  | some (i, _) => ({ s.setFp i false with nopen := s.nopen - 1 }, ok)
  | none => (s, false)

/-- The loop that makes room: `closes` tells what the calls of `fclose` give. -/
def makeRoom (closes : Nat → Bool) : Nat → Outpkts → Outpkts × Bool
  | 0, s => (s, false)
  | fuel + 1, s =>
      if s.nopen < s.maxopen then (s, true)
      else
        let (s, ok) := outpktCloseLn (closes 0) s
        if ok then makeRoom (fun i => closes (i + 1)) fuel s else (s, false)

/-- What `outpkt_fopen` meets: the calls of `fclose`, and `fopen`. -/
structure FopenOutcomes where
  closes : Nat → Bool := fun _ => true
  fopen : Bool := true

/-- `outpkt_fopen`, for appending or for writing anew. -/
def outpktFopen (o : FopenOutcomes) (name : Str) (append : Bool) (s : Outpkts) : Outpkts × Bool :=
  let (s, room) := makeRoom o.closes (s.pkts.length + 1) s
  if room && o.fopen then
    ({ s with
        files := if append then appended s.files name else Function.update s.files name (some [])
        nopen := s.nopen + 1 }, true)
  else (s, false)

/-- The bytes that get into the file. -/
def kept (limit : Option Nat) (bs : Str) : Str :=
  match limit with
  | none => bs
  | some limit => bs.take limit

/-- Writing to a file. -/
def Outpkts.put (s : Outpkts) (name : Str) (limit : Option Nat) (bs : Str) : Outpkts :=
  { s with
    files := Function.update s.files name (some ((s.files name).getD [] ++ kept limit bs)) }

/-- What `outpkt_open` meets: the sequencer, `outpkt_fopen`, how many bytes of
the header get into the file, and what `pkt_put_hdr` returns. -/
structure OpenOutcomes where
  seq : Int := 0
  fopen : FopenOutcomes := {}
  header : Option Nat := none
  putHdr : Int := OK

/-- The header of a packet. -/
def pktHeader (e : OutpktEnv) (ck : Clock) (k : PktKey) : Str :=
  pktPutHdr ck e.major e.minor
    { src := k.src, dst := k.dst, time := ck.time, baud := 0, version := 0, productL := 0,
      productH := 0, revMin := 0, revMaj := 0,
      passwd := (((passwdLookup e.passwds (lit "packet") k.dst).map Passwd.passwd).getD []).take
        PKT_MAXPASSWD
      capword := 0, psd := [] }

/-- `outpkt_open`: the name of the file the stream writes to. -/
def outpktOpen (e : OutpktEnv) (ck : Clock) (o : OpenOutcomes) (k : PktKey) (s : Outpkts) :
    Outpkts × Option Str :=
  match s.pkts.findIdx? fun p => k.same p.key with
  | some i =>
      let s := { s with pkts := s.pkts.modify i fun p => { p with n := p.n + 1 } }
      match s.pkts[i]? with
      | none => (s, none)
      | some p =>
          if p.fp then (s, some p.tmpname)
          else
            let (s, ok) := outpktFopen o.fopen p.tmpname true s
            if ok then (s.setFp i true, some p.tmpname) else (s, none)
  | none =>
      let p := outpktNew e k o.seq
      let i := s.pkts.length
      let (s, ok) := outpktFopen o.fopen p.tmpname false { s with pkts := s.pkts ++ [p] }
      if ! ok then (s, none)
      else
        let s := (s.setFp i true).put p.tmpname o.header (pktHeader e ck k)
        if o.putHdr == ERROR then (s.setFp i false, none) else (s, some p.tmpname)

/-- What `outpkt_close` meets at an entry: `outpkt_fopen`, how many bytes of the
0-word get into the file, and `rename`.  That of `fclose` does not matter. -/
structure CloseOutcomes where
  fopen : FopenOutcomes := {}
  zero : Option Nat := none
  rename : Bool := true

/-- The first entry that is left; `freed` tells whether others were freed before.
The result is the content of the file when it was renamed. -/
def outpktCloseOne (o : CloseOutcomes) (freed : Bool) (p : OutPkt) (s : Outpkts) :
    Outpkts × Option Str :=
  let (s, ok) :=
    if p.fp then (s, true)
    else
      -- `outpkt_close_ln` goes through the list from its old start
      let s := { s with dangling := s.dangling || freed && decide (s.maxopen ≤ s.nopen) }
      outpktFopen o.fopen p.tmpname true s
  let (s, text) :=
    if ok then
      let s := s.put p.tmpname o.zero (pktPutInt16 0)
      let s := { s with nopen := s.nopen - 1 }
      if o.rename then
        ({ s with files := Files.Call.apply s.files (.rename p.tmpname p.outname) },
          s.files p.tmpname)
      else (s, none)
    else (s, none)
  ({ s with pkts := s.pkts.tail }, text)

/-- The loop of `outpkt_close`: the entries whose files were renamed, with their
contents. -/
def outpktCloseLoop : (Nat → CloseOutcomes) → Bool → Nat → Outpkts →
    Outpkts × List (OutPkt × Str)
  | _, _, 0, s => (s, [])
  | o, freed, n + 1, s =>
      match s.pkts with
      | [] => (s, [])
      | p :: _ =>
          let (s, text) := outpktCloseOne (o 0) freed p s
          let (s, rest) := outpktCloseLoop (fun i => o (i + 1)) true n s
          (s, (text.map (p, ·)).toList ++ rest)

/-- `outpkt_close`. -/
def outpktClose (o : Nat → CloseOutcomes) (s : Outpkts) : Outpkts × List (OutPkt × Str) :=
  let (s, renamed) := outpktCloseLoop o false s.pkts.length s
  ({ s with nopen := 0 }, renamed)

/-! ## Netmail -/

/-- A netmail for `outpkt_netmail`: the number of its MSGID line comes from the
sequencer. -/
structure Netmail where
  msg : Message
  body : List Str
  program : Str
  origin : Str
  tearline : Option Str
  msgid : Int

/-- The message with an own address in the zone it goes to. -/
def Netmail.addressed (e : OutpktEnv) (m : Netmail) : Message :=
  let cf := cfSetBest e.cf m.msg.nodeTo.zone m.msg.nodeTo.net m.msg.nodeTo.node
  if m.msg.nodeFrom.zone == 0 then { m.msg with nodeFrom := cf.curAddr } else m.msg

/-- The packets of `outpkt_netmail`. -/
def Netmail.key (e : OutpktEnv) (m : Netmail) : PktKey :=
  ⟨(m.addressed e).nodeFrom, (m.addressed e).nodeTo, 48, 48, 48, false⟩

/-- What `outpkt_netmail` writes. -/
def Netmail.text (e : OutpktEnv) (ck : Clock) (m : Netmail) : Str :=
  let msg := m.addressed e
  pktPutMsgHdr ck msg ++ (addrKludges msg).flatten ++
  soh :: lit "MSGID: " ++ znf1 msg.nodeFrom ++ lit " " ++
    putHexZ 8 (m.msgid % 2 ^ 64).toNat ++ [cr] ++
  m.body.flatMap (· ++ [cr]) ++
  (match m.tearline with
    | none => cr :: lit "--- FIDOGATE " ++ e.version ++ [cr]
    | some tearline => cr :: lit "--- " ++ tearline ++ [cr]) ++
  (match msg.area with
    | none =>
        if e.ftsVia then
          soh :: lit "Via " ++ znf1 msg.nodeFrom ++ lit " @" ++ dateVia true ck ++
            lit " FIDOGATE/" ++ m.program ++ [cr]
        else
          soh :: lit "Via FIDOGATE/" ++ m.program ++ lit " " ++ znf1 msg.nodeFrom ++ lit ", " ++
            dateVia false ck ++ [cr]
    | some _ => lit " * Origin: " ++ m.origin ++ lit "(" ++ znfp1 msg.nodeFrom ++ lit ")" ++ [cr]) ++
  [nul]

/-! ## Runs -/

/-- A message a caller wrote: the key of its packet, when it was opened, and the
text. -/
structure PktWritten where
  key : PktKey
  ck : Clock
  text : Str

/-- A packet that was renamed, its content, and what had been written. -/
structure PktRenamed where
  key : PktKey
  content : Str
  written : List PktWritten

/-- The pool, what was written to it since it was closed, and the packets that
were renamed. -/
structure OutpktWorld where
  pool : Outpkts
  written : List PktWritten
  renamed : List PktRenamed

/-- The calls: `outpkt_open` for a message with what gets into the file of its
text, `outpkt_netmail` and `outpkt_close`. -/
inductive OutpktCall
  | message (k : PktKey) (ck : Clock) (o : OpenOutcomes) (text : Str) (limit : Option Nat)
  | netmail (m : Netmail) (ck : Clock) (o : OpenOutcomes) (limit : Option Nat)
      (close : Nat → CloseOutcomes)
  | close (o : Nat → CloseOutcomes)

/-- Opening a packet and writing a message; the flag tells whether there was a
stream. -/
def writeOutpkt (e : OutpktEnv) (w : OutpktWorld) (k : PktKey) (ck : Clock) (o : OpenOutcomes)
    (text : Str) (limit : Option Nat) : OutpktWorld × Bool :=
  match outpktOpen e ck o k w.pool with
  | (s, none) => ({ w with pool := s }, false)
  | (s, some name) =>
      ({ w with pool := s.put name limit text, written := w.written ++ [⟨k, ck, text⟩] }, true)

/-- Closing all packets. -/
def closeOutpkts (w : OutpktWorld) (o : Nat → CloseOutcomes) : OutpktWorld :=
  let (s, renamed) := outpktClose o w.pool
  { pool := s, written := []
    renamed := w.renamed ++ renamed.map fun r => ⟨r.1.key, r.2, w.written⟩ }

/-- A call. -/
def outpktStep (e : OutpktEnv) (w : OutpktWorld) : OutpktCall → OutpktWorld
  | .message k ck o text limit => (writeOutpkt e w k ck o text limit).1
  | .netmail m ck o limit close =>
      let (w, ok) := writeOutpkt e w (m.key e) ck o (m.text e ck) limit
      if ok then closeOutpkts w close else w
  | .close o => closeOutpkts w o

/-- What a packet should be before its 0-word: a header, made when it was first
opened, and the messages in order. -/
def packetText (e : OutpktEnv) (written : List PktWritten) (k : PktKey) : Str :=
  match written.filter fun w => k.same w.key with
  | [] => []
  | w :: ws => pktHeader e w.ck w.key ++ (w :: ws).flatMap PktWritten.text

/-- The pool is exact. -/
structure OutpktWorld.Exact (e : OutpktEnv) (w : OutpktWorld) : Prop where
  nopen : w.pool.nopen = w.pool.pkts.countP OutPkt.fp
  bound : w.pool.nopen ≤ w.pool.maxopen
  keys : w.pool.pkts.Pairwise fun p q => p.key.same q.key = false
  renamed : ∀ r ∈ w.renamed, r.content = packetText e r.written r.key ++ pktPutInt16 0
  dangling : w.pool.dangling = false

/-! ## The names of the entries -/

/-- What an entry is and where it is written; no call changes it. -/
abbrev OutpktId := PktKey × Str × Str

/-- The key and the names of an entry. -/
def OutPkt.id (p : OutPkt) : OutpktId := (p.key, p.tmpname, p.outname)

/-- The keys and names of all entries. -/
def Outpkts.ids (s : Outpkts) : List OutpktId := s.pkts.map OutPkt.id

theorem map_modify {α β : Type} {f : α → α} {g : α → β} (h : ∀ a, g (f a) = g a) :
    ∀ (l : List α) (i : Nat), (l.modify i f).map g = l.map g
  | [], i => by rw [List.modify_nil]
  | a :: l, 0 => congrArg (· :: l.map g) (h a)
  | a :: l, i + 1 => congrArg (g a :: ·) (map_modify h l i)

@[simp] theorem ids_setFp (s : Outpkts) (i : Nat) (fp : Bool) : (s.setFp i fp).ids = s.ids :=
  map_modify (f := fun p : OutPkt => { p with fp := fp }) (g := OutPkt.id) (fun _ => rfl) s.pkts i

/-! ## Counting -/

/-- How many entries have an open stream. -/
def Outpkts.streams (s : Outpkts) : Nat := s.pkts.countP OutPkt.fp

theorem countP_off {i : Nat} {p : OutPkt} : ∀ {ps : List OutPkt}, ps[i]? = some p → p.fp = true →
    (ps.modify i fun p => { p with fp := false }).countP OutPkt.fp + 1 = ps.countP OutPkt.fp := by
  induction i with
  | zero =>
      intro ps h hp
      cases ps with
      | nil => cases h
      | cons q ps =>
          obtain rfl : q = p := Option.some.inj h
          rw [List.modify_zero_cons, List.countP_cons_of_neg Bool.false_ne_true,
            List.countP_cons_of_pos hp]
  | succ i ih =>
      intro ps h hp
      cases ps with
      | nil => cases h
      | cons q ps =>
          rw [List.modify_succ_cons, List.countP_cons, List.countP_cons, ← ih h hp]
          omega

theorem countP_on {i : Nat} {p : OutPkt} : ∀ {ps : List OutPkt}, ps[i]? = some p → p.fp = false →
    (ps.modify i fun p => { p with fp := true }).countP OutPkt.fp = ps.countP OutPkt.fp + 1 := by
  induction i with
  | zero =>
      intro ps h hp
      cases ps with
      | nil => cases h
      | cons q ps =>
          obtain rfl : q = p := Option.some.inj h
          rw [List.modify_zero_cons, List.countP_cons_of_pos rfl,
            List.countP_cons_of_neg (by rw [hp]; exact Bool.false_ne_true)]
  | succ i ih =>
      intro ps h hp
      cases ps with
      | nil => cases h
      | cons q ps =>
          rw [List.modify_succ_cons, List.countP_cons, List.countP_cons, ih h hp]
          omega

/-- What is found is open, and something is found where one is open. -/
theorem leastOpen_spec : ∀ (ps : List OutPkt) (i : Nat) (best : Option (Nat × Int)),
    (∀ b, best = some b → ∃ b', leastOpen ps i best = some b') ∧
    ((∃ p ∈ ps, p.fp = true) → ∃ b', leastOpen ps i best = some b') ∧
    ∀ b', leastOpen ps i best = some b' →
      best = some b' ∨ ∃ j p, b'.1 = i + j ∧ ps[j]? = some p ∧ p.fp = true
  | [], _, best => ⟨fun b hb => ⟨b, hb⟩, fun ⟨_, hp, _⟩ => absurd hp List.not_mem_nil,
      fun _ hb => Or.inl hb⟩
  | p :: ps, i, best => by
      obtain ⟨h1, h2, h3⟩ := leastOpen_spec ps (i + 1)
        (if p.fp && best.all (p.n ≤ ·.2) then some (i, p.n) else best)
      refine ⟨fun b hb => ?_, fun ⟨q, hq, hfp⟩ => ?_, fun b' hb' => ?_⟩
      · by_cases hc : (p.fp && best.all (p.n ≤ ·.2)) = true
        · exact h1 (i, p.n) (if_pos hc)
        · exact h1 b ((if_neg hc).trans hb)
      · rcases List.mem_cons.mp hq with rfl | hq
        · cases hbest : best with
          | none => exact h1 (i, q.n) (by rw [hbest, hfp]; rfl) |>.imp fun b' hb' => hbest ▸ hb'
          | some b =>
              by_cases hc : (q.fp && best.all (q.n ≤ ·.2)) = true
              · exact hbest ▸ h1 (i, q.n) (if_pos hc)
              · exact hbest ▸ h1 b ((if_neg hc).trans hbest)
        · exact h2 ⟨q, hq, hfp⟩
      · rcases h3 b' hb' with hb | ⟨j, q, hj, hq, hfp⟩
        · by_cases hc : (p.fp && best.all (p.n ≤ ·.2)) = true
          · rw [if_pos hc] at hb
            obtain rfl := Option.some.inj hb
            exact Or.inr ⟨0, p, rfl, rfl, (Bool.and_eq_true_iff.mp hc).1⟩
          · rw [if_neg hc] at hb
            exact Or.inl hb
        · exact Or.inr ⟨j + 1, q, by omega, hq, hfp⟩

/-- The counter is right, and there is room for one stream where there are
entries. -/
structure Outpkts.Counted (s : Outpkts) : Prop where
  nopen : s.nopen = s.streams
  bound : s.nopen ≤ s.maxopen

theorem outpktCloseLn_none {s : Outpkts} (h : s.streams = 0) (ok : Bool) :
    outpktCloseLn ok s = (s, false) := by
  have hnone : leastOpen s.pkts 0 none = none := by
    cases hl : leastOpen s.pkts 0 none with
    | none => rfl
    | some b =>
        rcases (leastOpen_spec s.pkts 0 none).2.2 b hl with hb | ⟨j, p, -, hp, hfp⟩
        · cases hb
        · exact absurd hfp (List.countP_eq_zero.mp h p (List.mem_of_getElem? hp))
  rw [outpktCloseLn, hnone]

/-- Closing one stream. -/
theorem outpktCloseLn_some {s : Outpkts} (h : 0 < s.streams) (ok : Bool) : ∃ i,
    outpktCloseLn ok s = ({ s.setFp i false with nopen := s.nopen - 1 }, ok) ∧
    (s.setFp i false).streams + 1 = s.streams := by
  obtain ⟨p, hp, hfp⟩ := List.countP_pos_iff.mp h
  obtain ⟨b, hb⟩ := (leastOpen_spec s.pkts 0 none).2.1 ⟨p, hp, hfp⟩
  rcases (leastOpen_spec s.pkts 0 none).2.2 b hb with hn | ⟨j, q, hj, hq, hqfp⟩
  · cases hn
  · obtain ⟨i, n⟩ := b
    obtain rfl : i = j := by simpa using hj
    exact ⟨i, by rw [outpktCloseLn, hb], countP_off hq hqfp⟩

/-- What making room leaves alone: streams are closed and nothing else. -/
structure Outpkts.Keeps (s s' : Outpkts) : Prop where
  files : s'.files = s.files
  ids : s'.ids = s.ids
  maxopen : s'.maxopen = s.maxopen
  dangling : s'.dangling = s.dangling
  closed : ∀ i : Nat, s.pkts[i]?.map OutPkt.fp = some false → s'.pkts[i]?.map OutPkt.fp = some false

theorem Outpkts.Keeps.refl (s : Outpkts) : s.Keeps s :=
  ⟨rfl, rfl, rfl, rfl, fun _ h => h⟩

theorem keeps_off (s : Outpkts) (i : Nat) (n : Int) :
    s.Keeps { s.setFp i false with nopen := n } where
  files := rfl
  ids := ids_setFp s i false
  maxopen := rfl
  dangling := rfl
  closed j h := by
    show ((s.pkts.modify i fun p => { p with fp := false })[j]?).map OutPkt.fp = some false
    rw [List.getElem?_modify]
    cases hj : s.pkts[j]? with
    | none =>
        rw [hj] at h
        cases h
    | some p =>
        rw [hj] at h
        have hp : p.fp = false := Option.some.inj h
        by_cases hij : i = j
        · simp [hij]
        · simp [hij, hp]

/-- Where the counter is right one stream at most is closed. -/
theorem makeRoom_spec {s : Outpkts} (h : s.Counted) (closes : Nat → Bool) {fuel : Nat}
    (hfuel : s.streams < fuel) : ∃ s', s.Keeps s' ∧ s'.Counted ∧
      (0 < s.maxopen → s'.nopen < s.maxopen) ∧
      (makeRoom closes fuel s = (s', true) ∧ s'.nopen < s.maxopen ∨
        makeRoom closes fuel s = (s', false) ∧ s.maxopen ≤ s.nopen ∧
          (0 < s.maxopen → closes 0 = false)) := by
  obtain ⟨fuel, rfl⟩ : ∃ n, fuel = n + 1 := ⟨fuel - 1, by omega⟩
  have hn := h.nopen
  have hb := h.bound
  by_cases hroom : s.nopen < s.maxopen
  · exact ⟨s, .refl s, h, fun _ => hroom, Or.inl ⟨by rw [makeRoom, if_pos hroom], hroom⟩⟩
  · rcases Nat.eq_zero_or_pos s.streams with hzero | hpos
    · refine ⟨s, .refl s, h, fun hm => by omega, Or.inr ⟨?_, by omega, fun hm => by omega⟩⟩
      rw [makeRoom, if_neg hroom, outpktCloseLn_none hzero]
      rfl
    · obtain ⟨i, hi, hcount⟩ := outpktCloseLn_some hpos (closes 0)
      have hlt : s.nopen - 1 < s.maxopen := by omega
      refine ⟨{ s.setFp i false with nopen := s.nopen - 1 }, keeps_off s i _,
        ⟨?_, Int.le_of_lt hlt⟩, fun _ => hlt, ?_⟩
      · show s.nopen - 1 = ((s.setFp i false).streams : Nat)
        omega
      · rw [makeRoom, if_neg hroom, hi]
        dsimp only
        cases hc : closes 0 with
        | false => exact Or.inr ⟨rfl, by omega, fun _ => rfl⟩
        | true =>
            obtain ⟨fuel, rfl⟩ : ∃ n, fuel = n + 1 := ⟨fuel - 1, by omega⟩
            refine Or.inl ⟨?_, hlt⟩
            rw [if_pos rfl, makeRoom]
            exact if_pos hlt

/-- The fuel is enough: more of it makes no difference. -/
theorem makeRoom_fuel (fuel : Nat) : ∀ (closes : Nat → Bool) (s : Outpkts), s.streams < fuel →
    makeRoom closes (fuel + 1) s = makeRoom closes fuel s := by
  induction fuel with
  | zero => exact fun _ _ h => absurd h (Nat.not_lt_zero _)
  | succ fuel ih =>
      intro closes s h
      rw [makeRoom, makeRoom]
      by_cases hroom : s.nopen < s.maxopen
      · rw [if_pos hroom, if_pos hroom]
      · rw [if_neg hroom, if_neg hroom]
        rcases Nat.eq_zero_or_pos s.streams with hzero | hpos
        · rw [outpktCloseLn_none hzero]
          rfl
        · obtain ⟨i, hi, hcount⟩ := outpktCloseLn_some hpos (closes 0)
          rw [hi]
          dsimp only
          split
          · exact ih _ _ (by
              show (s.setFp i false).streams < fuel
              omega)
          · rfl

/-- The files when one of them was opened. -/
def openedFiles (files : Files.Dir Str Str) (name : Str) (append : Bool) : Files.Dir Str Str :=
  if append then appended files name else Function.update files name (some [])

/-- `outpkt_fopen` where the counter is right. -/
theorem outpktFopen_spec {s : Outpkts} (h : s.Counted) (o : FopenOutcomes) (name : Str)
    (append : Bool) : ∃ s', s.Keeps s' ∧ s'.Counted ∧ (0 < s.maxopen → s'.nopen < s.maxopen) ∧
      (outpktFopen o name append s = ({ s' with
          files := openedFiles s'.files name append, nopen := s'.nopen + 1 }, true) ∧
          s'.nopen < s.maxopen ∨
        outpktFopen o name append s = (s', false) ∧
          (o.fopen = true → s.maxopen ≤ s.nopen ∧ (0 < s.maxopen → o.closes 0 = false))) := by
  obtain ⟨s', hkeeps, hcounted, hless, hroom⟩ :=
    makeRoom_spec h o.closes (Nat.lt_succ_of_le (List.countP_le_length (p := OutPkt.fp) (l := s.pkts)))
  refine ⟨s', hkeeps, hcounted, hless, ?_⟩
  unfold outpktFopen
  rcases hroom with ⟨hr, hlt⟩ | ⟨hr, hfull, hclose⟩
  · rw [hr]
    cases ho : o.fopen with
    | true => exact Or.inl ⟨rfl, hlt⟩
    | false => exact Or.inr ⟨rfl, fun h => by cases h⟩
  · rw [hr]
    exact Or.inr ⟨rfl, fun _ => ⟨hfull, hclose⟩⟩

/-! ## What is in the files -/

/-- What the comparison of keys looks at. -/
def PktKey.core (k : PktKey) : (Int × Int × Int × Int) × (Int × Int × Int × Int) × UInt8 × UInt8 ×
    UInt8 × Bool :=
  ((k.src.zone, k.src.net, k.src.node, k.src.point), (k.dst.zone, k.dst.net, k.dst.node,
    k.dst.point), k.flav, k.type, k.grade, k.bad)

theorem PktKey.same_iff {a b : PktKey} : a.same b = true ↔ a.core = b.core := by
  simp [PktKey.same, PktKey.core, nodeEq, and_assoc]

theorem PktKey.same_comm (a b : PktKey) : a.same b = b.same a :=
  Bool.eq_iff_iff.mpr ⟨fun h => same_iff.mpr (same_iff.mp h).symm,
    fun h => same_iff.mpr (same_iff.mp h).symm⟩

theorem PktKey.same_trans {a b c : PktKey} (h : a.same b = true) : a.same c = b.same c :=
  Bool.eq_iff_iff.mpr ⟨fun hc => same_iff.mpr ((same_iff.mp h).symm.trans (same_iff.mp hc)),
    fun hc => same_iff.mpr ((same_iff.mp h).trans (same_iff.mp hc))⟩

theorem PktKey.same_refl (a : PktKey) : a.same a = true := same_iff.mpr rfl

/-- The entries differ in key and temporary name, no final name is a temporary
one, and each file holds the text of its packet. -/
structure Stored (e : OutpktEnv) (written : List PktWritten) (files : Files.Dir Str Str)
    (ids : List OutpktId) : Prop where
  pairs : ids.Pairwise fun a b => a.1.same b.1 = false ∧ a.2.1 ≠ b.2.1
  outs : ∀ a ∈ ids, ∀ b ∈ ids, a.2.1 ≠ b.2.2
  file : ∀ a ∈ ids, files a.2.1 = some (packetText e written a.1)

/-- What was written belongs to the entries. -/
structure Recorded (e : OutpktEnv) (written : List PktWritten) (files : Files.Dir Str Str)
    (ids : List OutpktId) : Prop extends Stored e written files ids where
  known : ∀ w ∈ written, ∃ a ∈ ids, a.1.same w.key = true
  used : ∀ a ∈ ids, ∃ w ∈ written, a.1.same w.key = true

section

variable {e : OutpktEnv} {written : List PktWritten} {files files' : Files.Dir Str Str}
  {ids : List OutpktId}

theorem Stored.apart (h : Stored e written files ids) {a b : OutpktId} (ha : a ∈ ids)
    (hb : b ∈ ids) (hne : a ≠ b) : a.1.same b.1 = false ∧ a.2.1 ≠ b.2.1 := by
  have : Std.Symm fun a b : OutpktId => a.1.same b.1 = false ∧ a.2.1 ≠ b.2.1 :=
    ⟨fun a b hab => ⟨(PktKey.same_comm _ _).trans hab.1, hab.2.symm⟩⟩
  exact h.pairs.forall ha hb hne

theorem packetText_other {k : PktKey} {w : PktWritten} (h : k.same w.key = false) :
    packetText e (written ++ [w]) k = packetText e written k := by
  have hfilter : (written ++ [w]).filter (fun w => k.same w.key) =
      written.filter fun w => k.same w.key := by
    rw [List.filter_append, List.filter_cons_of_neg (by rw [h]; exact Bool.false_ne_true),
      List.filter_nil, List.append_nil]
  rw [packetText, packetText, hfilter]

theorem packetText_again {k : PktKey} {w : PktWritten} (h : k.same w.key = true)
    (hused : ∃ w ∈ written, k.same w.key = true) :
    packetText e (written ++ [w]) k = packetText e written k ++ w.text := by
  have hfilter : (written ++ [w]).filter (fun w => k.same w.key) =
      written.filter (fun w => k.same w.key) ++ [w] := by
    rw [List.filter_append, List.filter_cons_of_pos (p := fun w : PktWritten => k.same w.key) h,
      List.filter_nil]
  rw [packetText, packetText, hfilter]
  obtain ⟨w₀, hw₀, hsame⟩ := hused
  have hmem : w₀ ∈ written.filter fun w => k.same w.key := List.mem_filter.mpr ⟨hw₀, hsame⟩
  cases hold : written.filter fun w => k.same w.key with
  | nil =>
      rw [hold] at hmem
      cases hmem
  | cons w₁ ws =>
      rw [List.cons_append]
      dsimp only
      rw [List.flatMap_cons, List.flatMap_cons, List.flatMap_append, List.flatMap_singleton,
        List.append_assoc, List.append_assoc]

theorem packetText_new {k : PktKey} {w : PktWritten} (h : k.same w.key = true)
    (hunused : ∀ w ∈ written, k.same w.key = false) :
    packetText e (written ++ [w]) k = pktHeader e w.ck w.key ++ w.text := by
  have hnone : written.filter (fun w => k.same w.key) = [] :=
    List.filter_eq_nil_iff.mpr fun w hw => (by rw [hunused w hw]; exact Bool.false_ne_true)
  rw [packetText, List.filter_append, hnone, List.nil_append,
    List.filter_cons_of_pos (p := fun w : PktWritten => k.same w.key) h,
    List.filter_nil]
  dsimp only
  rw [List.flatMap_singleton]

/-- A message behind the others of its packet. -/
theorem Recorded.again (h : Recorded e written files ids) {a : OutpktId} (ha : a ∈ ids)
    {w : PktWritten} (hkey : a.1.same w.key = true)
    (hfile : files' a.2.1 = some ((files a.2.1).getD [] ++ w.text))
    (hother : ∀ f, f ≠ a.2.1 → files' f = files f) :
    Recorded e (written ++ [w]) files' ids where
  pairs := h.pairs
  outs := h.outs
  file b hb := by
    by_cases hab : b = a
    · rw [hab, hfile, h.file a ha, packetText_again hkey (h.used a ha)]
      rfl
    · obtain ⟨hsame, hname⟩ := h.apart hb ha hab
      have hw : b.1.same w.key = false := by
        rw [PktKey.same_comm, ← PktKey.same_trans hkey, PktKey.same_comm]
        exact hsame
      rw [hother _ hname, h.file b hb, packetText_other hw]
  known w' hw' := by
    rcases List.mem_append.mp hw' with hw' | hw'
    · exact h.known w' hw'
    · rw [List.mem_singleton.mp hw']
      exact ⟨a, ha, hkey⟩
  used b hb := (h.used b hb).imp fun _ hw => ⟨List.mem_append_left _ hw.1, hw.2⟩

/-- The first message of a packet. -/
theorem Recorded.first (h : Recorded e written files ids) {w : PktWritten} {t o : Str}
    (hkey : ∀ a ∈ ids, a.1.same w.key = false)
    (hnames : ∀ a ∈ ids, a.2.1 ≠ t ∧ a.2.1 ≠ o ∧ t ≠ a.2.2) (hto : t ≠ o)
    (hfile : files' t = some (pktHeader e w.ck w.key ++ w.text))
    (hother : ∀ f, f ≠ t → files' f = files f) :
    Recorded e (written ++ [w]) files' (ids ++ [(w.key, t, o)]) where
  pairs := by
    refine List.pairwise_append.mpr ⟨h.pairs, List.pairwise_singleton _ _, fun a ha b hb => ?_⟩
    rw [List.mem_singleton.mp hb]
    exact ⟨hkey a ha, (hnames a ha).1⟩
  outs a ha b hb := by
    rcases List.mem_append.mp ha with ha | ha
    · rcases List.mem_append.mp hb with hb | hb
      · exact h.outs a ha b hb
      · rw [List.mem_singleton.mp hb]
        exact (hnames a ha).2.1
    · rw [List.mem_singleton.mp ha]
      rcases List.mem_append.mp hb with hb | hb
      · exact (hnames b hb).2.2
      · rw [List.mem_singleton.mp hb]
        exact hto
  file a ha := by
    rcases List.mem_append.mp ha with ha | ha
    · rw [hother _ (hnames a ha).1, h.file a ha, packetText_other (hkey a ha)]
    · rw [List.mem_singleton.mp ha, hfile, packetText_new (PktKey.same_refl _)]
      intro w' hw'
      obtain ⟨a, ha, hsame⟩ := h.known w' hw'
      rw [PktKey.same_comm, ← PktKey.same_trans hsame]
      exact hkey a ha
  known w' hw' := by
    rcases List.mem_append.mp hw' with hw' | hw'
    · obtain ⟨a, ha, hsame⟩ := h.known w' hw'
      exact ⟨a, List.mem_append_left _ ha, hsame⟩
    · rw [List.mem_singleton.mp hw']
      exact ⟨_, List.mem_append_right _ (List.mem_singleton_self _), PktKey.same_refl _⟩
  used a ha := by
    rcases List.mem_append.mp ha with ha | ha
    · exact (h.used a ha).imp fun _ hw => ⟨List.mem_append_left _ hw.1, hw.2⟩
    · rw [List.mem_singleton.mp ha]
      exact ⟨w, List.mem_append_right _ (List.mem_singleton_self _), PktKey.same_refl _⟩

end

/-! ## Opening a packet -/

theorem files_put_self (s : Outpkts) (name : Str) (limit : Option Nat) (bs : Str) :
    (s.put name limit bs).files name = some ((s.files name).getD [] ++ kept limit bs) :=
  Function.update_self _ _ _

theorem files_put_other (s : Outpkts) {f name : Str} (h : f ≠ name) (limit : Option Nat)
    (bs : Str) : (s.put name limit bs).files f = s.files f :=
  Function.update_of_ne h _ _

theorem Outpkts.Keeps.streams_on {s s' : Outpkts} (h : s.Keeps s') (hc : s'.Counted) {i : Nat}
    (hi : s.pkts[i]?.map OutPkt.fp = some false) (hlt : s'.nopen < s.maxopen)
    (files : Files.Dir Str Str) :
    ({ s' with files := files, nopen := s'.nopen + 1 }.setFp i true).Counted where
  nopen := by
    obtain ⟨p, hp, hfp⟩ := Option.map_eq_some_iff.mp (h.closed i hi)
    have hcount := countP_on hp hfp
    have hnopen := hc.nopen
    show s'.nopen + 1 =
      ((s'.pkts.modify i fun p => { p with fp := true }).countP OutPkt.fp : Nat)
    rw [hcount, hnopen]
    rfl
  bound := by
    show s'.nopen + 1 ≤ s'.maxopen
    rw [h.maxopen]
    omega

theorem appended_of_some {d : Files.Dir Str Str} {f c : Str} (h : d f = some c) :
    appended d f = d := by
  rw [appended, h, Option.getD_some, ← h, Function.update_eq_self]

/-- A packet that is in the pool: there is a stream that writes to its file, or
none. -/
theorem outpktOpen_again {s : Outpkts} (h : s.Counted) (e : OutpktEnv) (ck : Clock)
    (o : OpenOutcomes) {k : PktKey} (hk : ∃ p ∈ s.pkts, k.same p.key = true)
    (hfiles : ∀ p ∈ s.pkts, (s.files p.tmpname).isSome) :
    ∃ s' p, p ∈ s.pkts ∧ k.same p.key = true ∧ s'.Counted ∧ s'.ids = s.ids ∧
      s'.files = s.files ∧ s'.maxopen = s.maxopen ∧ s'.dangling = s.dangling ∧
      (outpktOpen e ck o k s = (s', some p.tmpname) ∨ outpktOpen e ck o k s = (s', none)) := by
  have hfound := List.findIdx?_eq_some_of_exists hk
  obtain ⟨hlt, hsame, -⟩ := List.findIdx?_eq_some_iff_getElem.mp hfound
  generalize s.pkts.findIdx (fun p => k.same p.key) = i at hfound hlt hsame
  have hp := List.getElem?_eq_getElem hlt
  have hmem : s.pkts[i] ∈ s.pkts := List.getElem_mem hlt
  generalize s.pkts[i] = p at hp hsame hmem
  let bump : OutPkt → OutPkt := fun p => { p with n := p.n + 1 }
  let s₁ : Outpkts := { s with pkts := s.pkts.modify i bump }
  have hids : s₁.ids = s.ids := map_modify (f := bump) (g := OutPkt.id) (fun _ => rfl) s.pkts i
  have hcounted : s₁.Counted := by
    refine ⟨?_, h.bound⟩
    have hfps : s₁.pkts.map OutPkt.fp = s.pkts.map OutPkt.fp :=
      map_modify (f := bump) (g := OutPkt.fp) (fun _ => rfl) s.pkts i
    have hcount : s₁.streams = s.streams := by
      show s₁.pkts.countP (id ∘ OutPkt.fp) = s.pkts.countP (id ∘ OutPkt.fp)
      rw [← List.countP_map, ← List.countP_map, hfps]
    rw [hcount]
    exact h.nopen
  have hget : s₁.pkts[i]? = some (bump p) := by
    show (s.pkts.modify i bump)[i]? = _
    rw [List.getElem?_modify_eq, hp]
    rfl
  obtain ⟨c, hc⟩ := Option.isSome_iff_exists.mp (hfiles _ hmem)
  have hopen : outpktOpen e ck o k s =
      if p.fp then (s₁, some p.tmpname)
      else if (outpktFopen o.fopen p.tmpname true s₁).2 then
        ((outpktFopen o.fopen p.tmpname true s₁).1.setFp i true, some p.tmpname)
      else ((outpktFopen o.fopen p.tmpname true s₁).1, none) := by
    rw [outpktOpen, hfound]
    dsimp only
    rw [hget]
  cases hfp : p.fp with
  | true =>
      refine ⟨s₁, p, hmem, hsame, hcounted, hids, rfl, rfl, rfl, Or.inl ?_⟩
      rw [hopen, hfp]
      rfl
  | false =>
      have hoff : s₁.pkts[i]?.map OutPkt.fp = some false := by
        rw [hget]
        exact congrArg some hfp
      obtain ⟨s', hkeeps, hcounted', -, hr⟩ := outpktFopen_spec hcounted o.fopen p.tmpname true
      rw [hfp, if_neg Bool.false_ne_true] at hopen
      rcases hr with ⟨hr, hroom⟩ | ⟨hr, -⟩
      · rw [hr] at hopen
        refine ⟨_, p, hmem, hsame, hkeeps.streams_on hcounted' hoff hroom _,
          (ids_setFp _ _ _).trans (hkeeps.ids.trans hids), ?_, hkeeps.maxopen, hkeeps.dangling,
          Or.inl hopen⟩
        show appended s'.files p.tmpname = s.files
        have hsame : s'.files = s.files := hkeeps.files
        rw [hsame, appended_of_some hc]
      · rw [hr] at hopen
        exact ⟨s', p, hmem, hsame, hcounted', hkeeps.ids.trans hids, hkeeps.files,
          hkeeps.maxopen, hkeeps.dangling, Or.inr hopen⟩

/-- What the first opening of a packet needs: a stream can be opened, the header
gets into the file, and no entry has one of its names. -/
structure FirstSafe (e : OutpktEnv) (s : Outpkts) (ck : Clock) (o : OpenOutcomes) (k : PktKey) :
    Prop where
  room : s.nopen < s.maxopen ∨ 0 < s.maxopen ∧ o.fopen.closes 0 = true
  fopen : o.fopen.fopen = true
  header : kept o.header (pktHeader e ck k) = pktHeader e ck k
  putHdr : o.putHdr ≠ ERROR
  names : ∀ p ∈ s.pkts, p.tmpname ≠ (outpktNew e k o.seq).tmpname ∧
    p.tmpname ≠ (outpktNew e k o.seq).outname ∧ (outpktNew e k o.seq).tmpname ≠ p.outname
  apart : (outpktNew e k o.seq).tmpname ≠ (outpktNew e k o.seq).outname

/-- A packet that is new: its file holds the header. -/
theorem outpktOpen_first {s : Outpkts} (h : s.Counted) {e : OutpktEnv} {ck : Clock}
    {o : OpenOutcomes} {k : PktKey} (hk : ∀ p ∈ s.pkts, k.same p.key = false)
    (hsafe : FirstSafe e s ck o k) :
    ∃ s', s'.Counted ∧ s'.ids = s.ids ++ [(outpktNew e k o.seq).id] ∧
      s'.files (outpktNew e k o.seq).tmpname = some (pktHeader e ck k) ∧
      (∀ f, f ≠ (outpktNew e k o.seq).tmpname → s'.files f = s.files f) ∧
      s'.maxopen = s.maxopen ∧ s'.dangling = s.dangling ∧
      outpktOpen e ck o k s = (s', some (outpktNew e k o.seq).tmpname) := by
  let s₁ : Outpkts := { s with pkts := s.pkts ++ [outpktNew e k o.seq] }
  have hcounted : s₁.Counted := by
    refine ⟨?_, h.bound⟩
    show s.nopen = ((s.pkts ++ [outpktNew e k o.seq]).countP OutPkt.fp : Nat)
    rw [List.countP_append, List.countP_singleton]
    exact h.nopen
  have hoff : s₁.pkts[s.pkts.length]?.map OutPkt.fp = some false := by
    show (s.pkts ++ [outpktNew e k o.seq])[s.pkts.length]?.map OutPkt.fp = some false
    rw [List.getElem?_concat_length]
    rfl
  have hids : s₁.ids = s.ids ++ [(outpktNew e k o.seq).id] := List.map_append
  obtain ⟨s', hkeeps, hcounted', -, hr⟩ :=
    outpktFopen_spec hcounted o.fopen (outpktNew e k o.seq).tmpname false
  have hopened : outpktFopen o.fopen (outpktNew e k o.seq).tmpname false s₁ = ({ s' with
      files := Function.update s'.files (outpktNew e k o.seq).tmpname (some [])
      nopen := s'.nopen + 1 }, true) ∧ s'.nopen < s.maxopen := by
    rcases hr with hr | ⟨-, hfail⟩
    · exact hr
    · obtain ⟨hfull, hclose⟩ := hfail hsafe.fopen
      have hfull : s.maxopen ≤ s.nopen := hfull
      rcases hsafe.room with hroom | ⟨hpos, hroom⟩
      · omega
      · exact absurd (hroom.symm.trans (hclose hpos)) Bool.true_eq_false_eq_False
  have hputHdr : (o.putHdr == ERROR) = false := beq_eq_false_iff_ne.mpr hsafe.putHdr
  let s₂ : Outpkts := { s' with
    files := Function.update s'.files (outpktNew e k o.seq).tmpname (some [])
    nopen := s'.nopen + 1 }.setFp s.pkts.length true
  have hcounted₂ : s₂.Counted := hkeeps.streams_on hcounted' hoff hopened.2 _
  have hopen : outpktOpen e ck o k s =
      (s₂.put (outpktNew e k o.seq).tmpname o.header (pktHeader e ck k),
        some (outpktNew e k o.seq).tmpname) := by
    rw [outpktOpen, List.findIdx?_eq_none_iff.mpr hk]
    dsimp only
    rw [hopened.1]
    dsimp only
    rw [hputHdr]
    rfl
  have hsame : s'.files = s.files := hkeeps.files
  refine ⟨s₂.put (outpktNew e k o.seq).tmpname o.header (pktHeader e ck k),
    ⟨hcounted₂.nopen, hcounted₂.bound⟩, ?_, ?_, ?_, hkeeps.maxopen, hkeeps.dangling, hopen⟩
  · exact (ids_setFp _ _ _).trans (hkeeps.ids.trans hids)
  · have hempty : s₂.files (outpktNew e k o.seq).tmpname = some [] := Function.update_self _ _ _
    rw [files_put_self, hempty, hsafe.header, Option.getD_some, List.nil_append]
  · intro f hf
    have hother : s₂.files f = s'.files f := Function.update_of_ne hf _ _
    rw [files_put_other s₂ hf, hother, hsame]

/-! ## Files that are left alone -/

theorem outpktCloseLn_files (ok : Bool) (s : Outpkts) :
    (outpktCloseLn ok s).1.files = s.files := by
  unfold outpktCloseLn
  split <;> rfl

theorem makeRoom_files (n : Nat) : ∀ (closes : Nat → Bool) (s : Outpkts),
    (makeRoom closes n s).1.files = s.files := by
  induction n with
  | zero => exact fun _ _ => rfl
  | succ n ih =>
      intro closes s
      rw [makeRoom]
      split
      · rfl
      · dsimp only
        split
        · exact (ih _ _).trans (outpktCloseLn_files _ s)
        · exact outpktCloseLn_files _ s

theorem outpktFopen_files (o : FopenOutcomes) {f name : Str} (h : f ≠ name) (append : Bool)
    (s : Outpkts) : (outpktFopen o name append s).1.files f = s.files f := by
  have hroom := congrFun (makeRoom_files (s.pkts.length + 1) o.closes s) f
  unfold outpktFopen
  dsimp only
  split
  · cases append with
    | true => exact (Function.update_of_ne h _ _).trans hroom
    | false => exact (Function.update_of_ne h _ _).trans hroom
  · exact hroom

/-- `outpkt_open` writes to no other files than those of the pool. -/
theorem outpktOpen_files (e : OutpktEnv) (ck : Clock) (o : OpenOutcomes) (k : PktKey) {s : Outpkts}
    {f : Str} (hold : ∀ p ∈ s.pkts, f ≠ p.tmpname) (hnew : f ≠ (outpktNew e k o.seq).tmpname) :
    (outpktOpen e ck o k s).1.files f = s.files f ∧
      ∀ name, (outpktOpen e ck o k s).2 = some name → f ≠ name := by
  unfold outpktOpen
  split
  · next i hi =>
      obtain ⟨hlt, -, -⟩ := List.findIdx?_eq_some_iff_getElem.mp hi
      dsimp only
      rw [List.getElem?_modify_eq, List.getElem?_eq_getElem hlt]
      have hne := hold _ (List.getElem_mem hlt)
      generalize s.pkts[i] = p at hne
      simp only [Option.map_eq_map, Option.map_some]
      split
      · exact ⟨rfl, fun name hname => Option.some.inj hname ▸ hne⟩
      · split
        · exact ⟨outpktFopen_files _ hne true _, fun name hname => Option.some.inj hname ▸ hne⟩
        · exact ⟨outpktFopen_files _ hne true _, fun name hname => by cases hname⟩
  · dsimp only
    split
    · exact ⟨outpktFopen_files _ hnew false _, fun name hname => by cases hname⟩
    · split
      · exact ⟨(files_put_other _ hnew _ _).trans (outpktFopen_files _ hnew false _),
          fun name hname => by cases hname⟩
      · exact ⟨(files_put_other _ hnew _ _).trans (outpktFopen_files _ hnew false _),
          fun name hname => Option.some.inj hname ▸ hnew⟩

/-! ## Every run -/

/-- What holds in every state a safe run reaches. -/
structure OutpktWorld.Good (e : OutpktEnv) (w : OutpktWorld) : Prop where
  counted : w.pool.Counted
  max : 0 ≤ w.pool.maxopen
  room : w.pool.pkts ≠ [] → 0 < w.pool.maxopen
  dangling : w.pool.dangling = false
  recorded : Recorded e w.written w.pool.files w.pool.ids
  renamed : ∀ r ∈ w.renamed, r.content = packetText e r.written r.key ++ pktPutInt16 0

/-- The condition on the message that is written. -/
def MessageSafe (e : OutpktEnv) (s : Outpkts) (k : PktKey) (ck : Clock) (o : OpenOutcomes)
    (text : Str) (limit : Option Nat) : Prop :=
  kept limit text = text ∧ ((∀ p ∈ s.pkts, k.same p.key = false) → FirstSafe e s ck o k)

/-- The condition on closing: the 0-words get into the files. -/
def CloseSafe (o : Nat → CloseOutcomes) : Prop :=
  ∀ i, kept (o i).zero (pktPutInt16 0) = pktPutInt16 0

/-- The condition on a call.  Reopening, renaming and `fclose` may fail. -/
def OutpktCall.Safe (e : OutpktEnv) (w : OutpktWorld) : OutpktCall → Prop
  | .message k ck o text limit => MessageSafe e w.pool k ck o text limit
  | .netmail m ck o limit closes =>
      MessageSafe e w.pool (m.key e) ck o (m.text e ck) limit ∧ CloseSafe closes
  | .close o => CloseSafe o

section

variable {e : OutpktEnv} {w : OutpktWorld}

theorem ids_ne_nil {s s' : Outpkts} (h : s'.ids = s.ids) (hs : s'.pkts ≠ []) : s.pkts ≠ [] := by
  intro hnil
  rw [Outpkts.ids, Outpkts.ids, hnil] at h
  exact hs (List.map_eq_nil_iff.mp h)

theorem writeOutpkt_good (h : w.Good e) {k : PktKey} {ck : Clock} {o : OpenOutcomes} {text : Str}
    {limit : Option Nat} (hsafe : MessageSafe e w.pool k ck o text limit) :
    (writeOutpkt e w k ck o text limit).1.Good e := by
  by_cases hk : ∃ p ∈ w.pool.pkts, k.same p.key = true
  · have hfiles : ∀ p ∈ w.pool.pkts, (w.pool.files p.tmpname).isSome := by
      intro p hp
      have hfile : w.pool.files p.tmpname = some (packetText e w.written p.key) :=
        h.recorded.file p.id (List.mem_map_of_mem hp)
      rw [hfile]
      rfl
    obtain ⟨s', p, hp, hsame, hcounted, hids, hfs, hmax, hdangling, hr⟩ :=
      outpktOpen_again h.counted e ck o hk hfiles
    have hroom : s'.pkts ≠ [] → 0 < s'.maxopen := fun hne => hmax ▸ h.room (ids_ne_nil hids hne)
    unfold writeOutpkt
    rcases hr with hr | hr
    · rw [hr]
      refine ⟨⟨hcounted.nopen, hcounted.bound⟩, hmax.symm ▸ h.max, hroom,
        hdangling.trans h.dangling, ?_, h.renamed⟩
      show Recorded e _ (s'.put p.tmpname limit text).files s'.ids
      rw [hids]
      refine h.recorded.again (a := p.id) (List.mem_map_of_mem hp) ?_ ?_ ?_
      · exact (PktKey.same_comm _ _).trans hsame
      · show (s'.put p.tmpname limit text).files p.tmpname = _
        rw [files_put_self, hfs, hsafe.1]
        rfl
      · intro f hf
        exact (files_put_other s' hf limit text).trans (congrFun hfs f)
    · rw [hr]
      refine ⟨hcounted, hmax.symm ▸ h.max, hroom, hdangling.trans h.dangling, ?_, h.renamed⟩
      show Recorded e w.written s'.files s'.ids
      rw [hids, hfs]
      exact h.recorded
  · have hk : ∀ p ∈ w.pool.pkts, k.same p.key = false := fun p hp =>
      Bool.eq_false_iff.mpr fun hsame => hk ⟨p, hp, hsame⟩
    have hfirst := hsafe.2 hk
    obtain ⟨s', hcounted, hids, hfile, hother, hmax, hdangling, hr⟩ :=
      outpktOpen_first h.counted hk hfirst
    have hpos : 0 < w.pool.maxopen := by
      rcases hfirst.room with hroom | hroom
      · have := h.counted.nopen
        omega
      · exact hroom.1
    unfold writeOutpkt
    rw [hr]
    refine ⟨⟨hcounted.nopen, hcounted.bound⟩, hmax.symm ▸ h.max, fun _ => hmax.symm ▸ hpos,
      hdangling.trans h.dangling, ?_, h.renamed⟩
    show Recorded e _ (s'.put (outpktNew e k o.seq).tmpname limit text).files s'.ids
    rw [hids]
    refine h.recorded.first (w := ⟨k, ck, text⟩) ?_ ?_ hfirst.apart ?_ ?_
    · intro a ha
      obtain ⟨p, hp, rfl⟩ := List.mem_map.mp ha
      exact (PktKey.same_comm _ _).trans (hk p hp)
    · intro a ha
      obtain ⟨p, hp, rfl⟩ := List.mem_map.mp ha
      exact hfirst.names p hp
    · rw [files_put_self, hfile, hsafe.1]
      rfl
    · intro f hf
      exact (files_put_other s' hf limit text).trans (hother f hf)

/-- What holds while the packets are closed. -/
structure Closing (e : OutpktEnv) (written : List PktWritten) (freed : Bool) (s : Outpkts) : Prop where
  counted : s.Counted
  room : s.pkts ≠ [] → 0 < s.maxopen
  freed : freed = true → s.pkts ≠ [] → s.nopen < s.maxopen
  dangling : s.dangling = false
  stored : Stored e written s.files s.ids

variable {written : List PktWritten}

theorem Stored.tail {files : Files.Dir Str Str} {a : OutpktId} {ids : List OutpktId}
    (h : Stored e written files (a :: ids)) : Stored e written files ids where
  pairs := h.pairs.of_cons
  outs b hb c hc := h.outs b (List.mem_cons_of_mem a hb) c (List.mem_cons_of_mem a hc)
  file b hb := h.file b (List.mem_cons_of_mem a hb)

theorem Stored.congr {files files' : Files.Dir Str Str} {ids : List OutpktId}
    (h : Stored e written files ids) (hf : ∀ a ∈ ids, files' a.2.1 = files a.2.1) :
    Stored e written files' ids :=
  ⟨h.pairs, h.outs, fun a ha => (hf a ha).trans (h.file a ha)⟩

/-- The stream of the first entry: it was open, or is opened again, or not. -/
theorem closing_open {freed : Bool} {s : Outpkts} {p : OutPkt} {ps : List OutPkt}
    (h : Closing e written freed s) (hs : s.pkts = p :: ps) (o : FopenOutcomes) :
    ∃ s' ok, (if p.fp then (s, true)
        else outpktFopen o p.tmpname true
          { s with dangling := s.dangling || freed && decide (s.maxopen ≤ s.nopen) }) = (s', ok) ∧
      s'.ids = s.ids ∧ s'.files = s.files ∧ s'.maxopen = s.maxopen ∧ s'.dangling = false ∧
      (s'.nopen - if ok then 1 else 0) = (s'.pkts.tail.countP OutPkt.fp : Nat) ∧
      (s'.nopen - if ok then 1 else 0) < s'.maxopen := by
  have hpos := h.room (by rw [hs]; exact List.cons_ne_nil p ps)
  cases hfp : p.fp with
  | true =>
      refine ⟨s, true, rfl, rfl, rfl, rfl, h.dangling, ?_, ?_⟩
      · have hn := h.counted.nopen
        rw [Outpkts.streams, hs, List.countP_cons_of_pos hfp] at hn
        rw [hs, List.tail_cons, if_pos rfl]
        omega
      · have hb := h.counted.bound
        rw [if_pos rfl]
        omega
  | false =>
      have hfreed : (freed && decide (s.maxopen ≤ s.nopen)) = false := by
        cases hf : freed with
        | false => rfl
        | true =>
            have hlt := h.freed hf (by rw [hs]; exact List.cons_ne_nil p ps)
            rw [Bool.true_and]
            exact decide_eq_false (by omega)
      have hsame : { s with dangling := s.dangling || freed && decide (s.maxopen ≤ s.nopen) } =
          s := by
        rw [hfreed, Bool.or_false]
      rw [hsame]
      obtain ⟨s', hkeeps, hcounted, hless, hr⟩ := outpktFopen_spec h.counted o p.tmpname true
      have hhead : s'.pkts[0]?.map OutPkt.fp = some false := by
        refine hkeeps.closed 0 ?_
        rw [hs]
        exact congrArg some hfp
      obtain ⟨q, hq, hqfp⟩ := Option.map_eq_some_iff.mp hhead
      have htail : s'.streams = s'.pkts.tail.countP OutPkt.fp := by
        rw [Outpkts.streams]
        cases hpk : s'.pkts with
        | nil => rfl
        | cons q' qs =>
            rw [hpk] at hq
            obtain rfl : q' = q := Option.some.inj hq
            rw [List.tail_cons, List.countP_cons_of_neg (by rw [hqfp]; exact Bool.false_ne_true)]
      have hcount := hcounted.nopen
      rw [htail] at hcount
      have hmax : s'.maxopen = s.maxopen := hkeeps.maxopen
      have hlt := hless hpos
      rw [if_neg Bool.false_ne_true]
      rcases hr with ⟨hr, -⟩ | ⟨hr, -⟩
      · have hfile : (s.files p.tmpname) = some (packetText e written p.key) :=
          h.stored.file p.id (by rw [Outpkts.ids, hs]; exact List.mem_cons_self)
        refine ⟨_, _, hr, hkeeps.ids, ?_, hmax, hkeeps.dangling.trans h.dangling, ?_, ?_⟩
        · show openedFiles s'.files p.tmpname true = s.files
          rw [openedFiles, if_pos rfl, hkeeps.files, appended_of_some hfile]
        · show s'.nopen + 1 - 1 = (s'.pkts.tail.countP OutPkt.fp : Nat)
          omega
        · show s'.nopen + 1 - 1 < s'.maxopen
          omega
      · refine ⟨_, _, hr, hkeeps.ids, hkeeps.files, hmax, hkeeps.dangling.trans h.dangling, ?_, ?_⟩
        · rw [if_neg Bool.false_ne_true, Int.sub_zero]
          exact hcount
        · rw [if_neg Bool.false_ne_true, Int.sub_zero, hmax]
          exact hlt

/-- An entry that is closed: what was renamed is exact, and the others stay. -/
theorem outpktCloseOne_spec {freed : Bool} {s : Outpkts} {p : OutPkt} {ps : List OutPkt}
    (h : Closing e written freed s) (hs : s.pkts = p :: ps) {o : CloseOutcomes}
    (hzero : kept o.zero (pktPutInt16 0) = pktPutInt16 0) :
    Closing e written true (outpktCloseOne o freed p s).1 ∧
      (outpktCloseOne o freed p s).1.maxopen = s.maxopen ∧
      (outpktCloseOne o freed p s).1.pkts.length = ps.length ∧
      ∀ text, (outpktCloseOne o freed p s).2 = some text →
        text = packetText e written p.key ++ pktPutInt16 0 := by
  obtain ⟨s', ok, hr, hids, hfiles, hmax, hdangling, hcount, hlt⟩ := closing_open h hs o.fopen
  have hpos := h.room (by rw [hs]; exact List.cons_ne_nil p ps)
  have hidsp : s.ids = p.id :: ps.map OutPkt.id := by
    rw [Outpkts.ids, hs]
    rfl
  have hlen : s'.pkts.tail.length = ps.length := by
    have hl := congrArg List.length hids
    rw [Outpkts.ids, Outpkts.ids, List.length_map, List.length_map, hs, List.length_cons] at hl
    rw [List.length_tail, hl]
    rfl
  have htail : s'.pkts.tail.map OutPkt.id = ps.map OutPkt.id := by
    rw [List.map_tail]
    exact (congrArg List.tail (hids.trans hidsp))
  have hstored : Stored e written s.files (p.id :: ps.map OutPkt.id) := hidsp ▸ h.stored
  have hrest : ∀ files : Files.Dir Str Str, (∀ f, f ≠ p.tmpname → f ≠ p.outname →
      files f = s.files f) → ∀ nopen : Int, nopen = (s'.pkts.tail.countP OutPkt.fp : Nat) →
      nopen < s'.maxopen →
      Closing e written true { s' with files := files, nopen := nopen, pkts := s'.pkts.tail } := by
    intro files hother nopen hn hl
    refine ⟨⟨hn, Int.le_of_lt hl⟩, fun _ => hmax.symm ▸ hpos, fun _ _ => hl, hdangling, ?_⟩
    show Stored e written files (s'.pkts.tail.map OutPkt.id)
    rw [htail]
    refine hstored.tail.congr fun a ha => hother _ ?_ ?_
    · exact ((List.rel_of_pairwise_cons hstored.pairs ha).2).symm
    · exact hstored.outs a (List.mem_cons_of_mem _ ha) p.id List.mem_cons_self
  unfold outpktCloseOne
  rw [hr]
  cases ok with
  | false =>
      rw [if_neg Bool.false_ne_true, Int.sub_zero] at hcount hlt
      exact ⟨hrest s'.files (fun f _ _ => congrFun hfiles f) s'.nopen hcount hlt, hmax, hlen,
        fun text ht => by cases ht⟩
  | true =>
      rw [if_pos rfl] at hcount hlt
      have hput : ∀ f, f ≠ p.tmpname →
          (s'.put p.tmpname o.zero (pktPutInt16 0)).files f = s.files f := by
        intro f hf
        exact (files_put_other s' hf _ _).trans (congrFun hfiles f)
      have htext : (s'.put p.tmpname o.zero (pktPutInt16 0)).files p.tmpname =
          some (packetText e written p.key ++ pktPutInt16 0) := by
        have hfile : s.files p.tmpname = some (packetText e written p.key) :=
          hstored.file p.id List.mem_cons_self
        rw [files_put_self, hfiles, hfile, hzero]
        rfl
      dsimp only
      rw [if_pos rfl]
      cases ho : o.rename with
      | false =>
          refine ⟨hrest _ (fun f hf _ => hput f hf) _ hcount hlt, hmax, hlen, fun text ht => ?_⟩
          cases ht
      | true =>
          rw [if_pos rfl]
          refine ⟨hrest _ (fun f hf hf' => ?_) _ hcount hlt, hmax, hlen, fun text ht => ?_⟩
          · show Files.Call.apply (s'.put p.tmpname o.zero (pktPutInt16 0)).files
              (.rename p.tmpname p.outname) f = _
            refine (Files.apply_of_not_touches ?_).trans (hput f hf)
            rintro (he | he)
            · exact hf he.symm
            · exact hf' he.symm
          · exact Option.some.inj (ht.symm.trans htext)

theorem outpktCloseLoop_spec (n : Nat) : ∀ {o : Nat → CloseOutcomes} {freed : Bool} {s : Outpkts},
    s.pkts.length ≤ n → Closing e written freed s → CloseSafe o →
    (outpktCloseLoop o freed n s).1.pkts = [] ∧
      (outpktCloseLoop o freed n s).1.dangling = false ∧
      (outpktCloseLoop o freed n s).1.maxopen = s.maxopen ∧
      ∀ r ∈ (outpktCloseLoop o freed n s).2, r.2 = packetText e written r.1.key ++ pktPutInt16 0 := by
  induction n with
  | zero =>
      intro o freed s hn h _
      exact ⟨List.length_eq_zero_iff.mp (Nat.le_zero.mp hn), h.dangling, rfl,
        List.forall_mem_nil _⟩
  | succ n ih =>
      intro o freed s hn h hsafe
      rw [outpktCloseLoop]
      cases hs : s.pkts with
      | nil => exact ⟨hs, h.dangling, rfl, List.forall_mem_nil _⟩
      | cons p ps =>
          obtain ⟨hnext, hmax, hlen, htext⟩ := outpktCloseOne_spec h hs (hsafe 0)
          rw [hs, List.length_cons] at hn
          obtain ⟨hnil, hdangling, hmax', hrest⟩ :=
            ih (o := fun i => o (i + 1)) (by omega) hnext fun i => hsafe (i + 1)
          refine ⟨hnil, hdangling, hmax'.trans hmax, fun r hr => ?_⟩
          rcases List.mem_append.mp hr with hr | hr
          · obtain ⟨text, ht, rfl⟩ := Option.map_eq_some_iff.mp (Option.mem_toList.mp hr)
            exact htext text ht
          · exact hrest r hr

theorem closeOutpkts_good (h : w.Good e) {o : Nat → CloseOutcomes}
    (hsafe : CloseSafe o) : (closeOutpkts w o).Good e := by
  have hclosing : Closing e w.written false w.pool :=
    ⟨h.counted, h.room, fun hf => absurd hf Bool.false_ne_true, h.dangling, h.recorded.toStored⟩
  obtain ⟨hnil, hdangling, hmax', hrest⟩ :=
    outpktCloseLoop_spec w.pool.pkts.length (Nat.le_refl _) hclosing hsafe
  unfold closeOutpkts outpktClose
  dsimp only
  refine ⟨⟨?_, ?_⟩, hmax'.symm ▸ h.max, fun hne => absurd hnil hne, hdangling, ?_, fun r hr => ?_⟩
  · show (0 : Int) = ((outpktCloseLoop o false w.pool.pkts.length w.pool).1.pkts.countP
      OutPkt.fp : Nat)
    rw [hnil]
    rfl
  · show 0 ≤ (outpktCloseLoop o false w.pool.pkts.length w.pool).1.maxopen
    rw [hmax']
    exact h.max
  · show Recorded e [] _ ((outpktCloseLoop o false w.pool.pkts.length w.pool).1.pkts.map OutPkt.id)
    rw [hnil]
    exact ⟨⟨List.Pairwise.nil, List.forall_mem_nil _, List.forall_mem_nil _⟩,
      List.forall_mem_nil _, List.forall_mem_nil _⟩
  · rcases List.mem_append.mp hr with hr | hr
    · exact h.renamed r hr
    · obtain ⟨x, hx, rfl⟩ := List.mem_map.mp hr
      exact hrest x hx

theorem outpktStep_good (h : w.Good e) (c : OutpktCall) (hsafe : c.Safe e w) :
    (outpktStep e w c).Good e := by
  cases c with
  | message k ck o text limit => exact writeOutpkt_good h hsafe
  | netmail m ck o limit closes =>
      have hgood := writeOutpkt_good h hsafe.1
      unfold outpktStep
      dsimp only
      split
      · exact closeOutpkts_good hgood hsafe.2
      · exact hgood
  | close o => exact closeOutpkts_good h hsafe

theorem OutpktWorld.Good.exact (h : w.Good e) : w.Exact e where
  nopen := h.counted.nopen
  bound := h.counted.bound
  keys := (List.pairwise_map.mp h.recorded.pairs).imp fun hpq => hpq.1
  renamed := h.renamed
  dangling := h.dangling

end

/-- The pool of a program that starts. -/
def OutpktWorld.start (files : Files.Dir Str Str) (maxopen : Int) : OutpktWorld :=
  ⟨⟨files, [], 0, maxopen, false⟩, [], []⟩

/-- The pool is exact after every run of safe calls. -/
theorem outpkts_exact (e : OutpktEnv) (files : Files.Dir Str Str) {maxopen : Int}
    (hmax : 0 ≤ maxopen) (calls : List OutpktCall)
    (hmet : Run.Met (outpktStep e) (fun w c => c.Safe e w) (.start files maxopen) calls) :
    (Run.run (outpktStep e) (.start files maxopen) calls).Exact e := by
  have hstart : (OutpktWorld.start files maxopen).Good e := by
    refine ⟨⟨rfl, hmax⟩, hmax, fun hne => absurd rfl hne, rfl, ?_, List.forall_mem_nil _⟩
    exact ⟨⟨List.Pairwise.nil, List.forall_mem_nil _, List.forall_mem_nil _⟩,
      List.forall_mem_nil _, List.forall_mem_nil _⟩
  have hgood : (Run.run (outpktStep e) (.start files maxopen) calls).Good e :=
    Run.run_induct (P := OutpktWorld.Good e) (fun _ c h hc => outpktStep_good h c hc) calls hstart
      hmet
  exact hgood.exact

section

/-- A program with one address. -/
def onePool : OutpktEnv :=
  { ftsVia := false
    cf := Config.read ⟨2, ⟨2, 5020, 1, 0, []⟩, ⟨2, 5020, 0, 0, []⟩⟩ [] []
    passwds := [], major := 5, minor := 10, version := lit "5.10"
    outdir := lit "/out", baddir := lit "/bad" }

/-- Normal netmail for a node. -/
def keyTo (node : Int) : PktKey :=
  ⟨⟨2, 5020, 1, 0, []⟩, ⟨2, 5020, node, 0, []⟩, 110, 110, 110, false⟩

/-- With one open file, a packet is closed for another and opened again. -/
def twoPackets : List OutpktCall :=
  [.message (keyTo 2) oneClock { seq := 1 } (lit "a") none,
    .message (keyTo 3) oneClock { seq := 2 } (lit "b") none,
    .message (keyTo 2) oneClock {} (lit "c") none, .close fun _ => {}]

theorem twoPackets_exact : (Run.run (outpktStep onePool) (.start (fun _ => none) 1)
    twoPackets).Exact onePool := by
  refine outpkts_exact onePool (fun _ => none) (by decide) twoPackets ?_
  refine ⟨⟨rfl, fun _ => ?_⟩, ⟨rfl, fun _ => ?_⟩, ⟨rfl, fun hnew => ?_⟩, fun _ => rfl, trivial⟩
  · exact ⟨by decide +kernel, rfl, rfl, by decide, by decide +kernel, by decide +kernel⟩
  · exact ⟨by decide +kernel, rfl, rfl, by decide, by decide +kernel, by decide +kernel⟩
  · exact absurd hnew (by decide +kernel)

/-- The directory is missing at first: the packet gets no header. -/
def lateHeader : List OutpktCall :=
  [.message (keyTo 2) oneClock { seq := 1, fopen := { fopen := false } } (lit "a") none,
    .message (keyTo 2) oneClock {} (lit "b") none, .close fun _ => {}]

theorem lateHeader_not_exact : ¬ (Run.run (outpktStep onePool) (.start (fun _ => none) 1)
    lateHeader).Exact onePool := by
  intro h
  have hall := List.all_eq_true.mpr fun r hr => beq_iff_eq.mpr (h.renamed r hr)
  revert hall
  decide +kernel

end

end Fidogate

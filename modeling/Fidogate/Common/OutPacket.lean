/-
# `Fidogate.Common.OutPacket` — packet.c: packets in the outbound

`pkt_open` opens the OUT file of a node at its terminating 0-word, or writes
the header of a new one, and `pkt_close` puts a 0-word behind what was
written.  What the file operations do is given beforehand (`PktOutcomes`);
its defaults are a run in which they all succeed.
-/
import Fidogate.Common.Areasbbs
import Fidogate.Common.Outbound
import Fidogate.Toss.Ftnpack

namespace Fidogate

open Bytes

/-! ## A file that is written from a place on -/

/-- An open stream: the file as it was, the place, and what was written. -/
structure OutStream where
  name : Str
  old : Str
  pos : Nat
  out : Str

def OutStream.put (s : OutStream) (bs : Str) : OutStream := { s with out := s.out ++ bs }

@[simp] theorem OutStream.put_nil (s : OutStream) : s.put [] = s := by
  simp [OutStream.put]

@[simp] theorem OutStream.put_put (s : OutStream) (bs bs' : Str) :
    (s.put bs).put bs' = s.put (bs ++ bs') := by
  simp [OutStream.put]

/-- The file when `limit` bytes were written. -/
def OutStream.content (s : OutStream) : Option Nat → Str
  | none => s.old.take s.pos ++ overwrite (s.old.drop s.pos) s.out
  | some limit => s.old.take s.pos ++ overwrite (s.old.drop s.pos) (s.out.take limit)

/-- More was put out than could be written. -/
def OutStream.over (s : OutStream) (limit : Option Nat) : Bool :=
  limit.any fun limit => limit < s.out.length

theorem OutStream.over_put {s : OutStream} {limit : Option Nat} {bs bs' : Str}
    (h : bs.length ≤ bs'.length) (ho : (s.put bs).over limit = true) :
    (s.put bs').over limit = true := by
  cases limit with
  | none => exact ho
  | some limit =>
      simp only [OutStream.over, OutStream.put, Option.any_some, decide_eq_true_eq,
        List.length_append] at ho ⊢
      omega

/-! ## Opening and closing -/

/-- What a round of the loop around `fopen` meets: the file can be opened, or
not for appending, or not again (another program removed it, if `gone`), or
not be locked, or it was removed before the lock was there. -/
inductive OpenRound
  | done
  | append
  | reopen (gone : Bool)
  | lock
  | deleted

/-- The outcomes of the operations on a packet: the directory, the BSY file,
the rounds of the loop, the calls of `fseek` and `ftell`, how many bytes can be
written, whether `ferror` sees at its `i`-th call that there were more, and
`fclose`. -/
structure PktOutcomes where
  mkdir : Bool := true
  bsy : Bool := true
  rounds : List OpenRound := []
  seek : Nat → Bool := fun _ => true
  limit : Option Nat := none
  seen : Nat → Bool := fun _ => true
  close : Bool := true

/-- The program: its outbound, addresses and passwords, its version and the
number of its process. -/
structure PktEnv where
  ob : Outbound
  cf : Config
  passwds : List Passwd
  major : Int
  minor : Int
  pid : Nat

/-- The text of a BSY file. -/
def bsyText (e : PktEnv) : Str := putDec e.pid ++ [lf]

/-- `bink_bsy_create`. -/
def bsyCreate (e : PktEnv) (o : PktOutcomes) (d : Files.Dir Str Str) (n : Node) :
    Option (Files.Dir Str Str) := do
  let name ← binkBsyName e.ob n
  if o.mkdir && o.bsy then some (Function.update d name (some (bsyText e))) else none

/-- `bink_bsy_delete`. -/
def bsyDelete (e : PktEnv) (d : Files.Dir Str Str) (n : Node) : Files.Dir Str Str :=
  match binkBsyName e.ob n with
  | some name => Function.update d name none
  | none => d

def MAX_COUNT : Nat := 50

/-- The file after it was opened for appending. -/
def appended (d : Files.Dir Str Str) (out : Str) : Files.Dir Str Str :=
  Function.update d out (some ((d out).getD []))

/-- The loop that opens and locks the file. -/
def openOut (out : Str) : Nat → List OpenRound → Files.Dir Str Str → Files.Dir Str Str × Bool
  | 0, _, d => (d, false)
  | _ + 1, [], d => (appended d out, true)
  | n + 1, r :: rs, d =>
      match r with
      | .done => (appended d out, true)
      | .append => (d, false)
      | .reopen gone =>
          openOut out n rs (if gone then Function.update d out none else appended d out)
      | .lock => (appended d out, false)
      | .deleted => openOut out n rs (Function.update d out none)

/-- The packet the header is written for. -/
def outPacket (e : PktEnv) (ck : Clock) (n : Node) : Packet :=
  { src := (cfSetBest e.cf n.zone n.net n.node).curAddr, dst := n, time := ck.time, baud := 0,
    version := 0, productL := 0, productH := 0, revMin := 0, revMaj := 0,
    passwd := ((passwdLookup e.passwds (lit "packet") n).map Passwd.passwd).getD [], capword := 0,
    psd := [] }

/-- The header of a new packet. -/
def outHeader (e : PktEnv) (ck : Clock) (n : Node) : Str :=
  pktPutHdr ck e.major e.minor (outPacket e ck n)

/-- What `pkt_open_node` does with the open file: the stream, and whether it is
left open. -/
def openStream (e : PktEnv) (ck : Clock) (o : PktOutcomes) (n : Node) (out old : Str) :
    OutStream × Bool :=
  if ! (o.seek 0 && o.seek 1) then (⟨out, old, 0, []⟩, false)
  else if old = [] then
    let s : OutStream := ⟨out, [], 0, outHeader e ck n⟩
    (s, ! (s.over o.limit && o.seen 0))
  else
    let pos := old.length - 2
    (⟨out, old, pos, []⟩, o.seek 2 && (pktGetInt16 (old.drop pos)).1 == 0 && o.seek 3)

/-- `pkt_open` without a name, `pkt_open_node`: `flav` is the flavour, `bsy`
whether a BSY file is made. -/
def pktOpenNode (e : PktEnv) (ck : Clock) (o : PktOutcomes) (n : Node) (flav : Option Str)
    (bsy : Bool) (d : Files.Dir Str Str) : Files.Dir Str Str × Option OutStream :=
  match binkFindOut e.ob d n flav with
  | none => (d, none)
  | some out =>
      if ! o.mkdir then (d, none)
      else
        match if bsy then bsyCreate e o d n else some d with
        | none => (d, none)
        | some d =>
            let leave := fun d => if bsy then bsyDelete e d n else d
            let (d, opened) := openOut out (MAX_COUNT - 1) o.rounds d
            if ! opened then (leave d, none)
            else
              let old := (d out).getD []
              let (s, ok) := openStream e ck o n out old
              if ok then (d, some s)
              else (leave (Function.update d out (some (s.content o.limit))), none)

/-- `pkt_close` of a packet that `pkt_open_node` opened. -/
def pktCloseNode (e : PktEnv) (o : PktOutcomes) (n : Node) (bsy : Bool) (s : OutStream)
    (d : Files.Dir Str Str) : Files.Dir Str Str × Bool :=
  let s := s.put (pktPutInt16 0)
  let d := Function.update d s.name (some (s.content o.limit))
  (if n.zone != -1 && bsy then bsyDelete e d n else d, o.close && ! s.over o.limit)

/-! ## Sessions -/

/-- A message that is written: at a time, with address lines or without. -/
structure SentMsg where
  ck : Clock
  msg : PacketMsg
  kludges : Bool

/-- `pkt_put_msg_hdr`, `tl_print` and the terminating 0-byte. -/
def SentMsg.text (m : SentMsg) : Str :=
  pktPutMsgHdr m.ck m.msg.1 ++ (if m.kludges then (addrKludges m.msg.1).flatten else []) ++
    m.msg.2.flatten ++ [nul]

/-- Opening, writing and closing. -/
structure Session where
  ck : Clock
  bsy : Bool
  msgs : List SentMsg

def Session.text (s : Session) : Str := s.msgs.flatMap SentMsg.text

/-- A session in which all operations succeed. -/
def pktSession (e : PktEnv) (n : Node) (flav : Str) (d : Files.Dir Str Str) (s : Session) :
    Option (Files.Dir Str Str) :=
  match pktOpenNode e s.ck {} n (some flav) s.bsy d with
  | (_, none) => none
  | (d, some st) => some (pktCloseNode e {} n s.bsy (st.put s.text) d).1

/-- One session after the other. -/
def pktSessions (e : PktEnv) (n : Node) (flav : Str) (d : Files.Dir Str Str)
    (ss : List Session) : Option (Files.Dir Str Str) :=
  ss.foldlM (pktSession e n flav) d

section

variable {e : PktEnv} {n : Node} {flav f head : Str} {d : Files.Dir Str Str} {s : Session}

/-- What is in front of the place a session writes to. -/
def OutHead (e : PktEnv) (ck : Clock) (n : Node) (old : Option Str) (head : Str) : Prop :=
  old.getD [] = [] ∧ head = outHeader e ck n ∨ old = some (head ++ pktPutInt16 0)

/-- The names of the BSY file and the OUT files of the node are different. -/
theorem bsyName_ne {outb : Str} (hfit : outb.length + 3 < MAXPATH) {t : OutbType}
    (ht : t ∈ outbTypes) : outbFile outb (lit "bsy") ≠ outbFile outb t.out := by
  have hlen : t.out.length = 3 ∧ lit "bsy" ≠ t.out := by
    revert t
    decide +kernel
  refine outbFile_ne ?_ ?_ hlen.2
  · exact hfit
  · rw [hlen.1]
    exact hfit

theorem overwrite_of_length_le {b p : Str} (h : b.length ≤ p.length) : overwrite b p = p := by
  rw [overwrite, List.drop_of_length_le h, List.append_nil]

theorem openStream_default (e : PktEnv) (ck : Clock) (n : Node) (out old : Str) :
    openStream e ck {} n out old =
      if old = [] then (⟨out, [], 0, outHeader e ck n⟩, true)
      else (⟨out, old, old.length - 2, []⟩,
        (pktGetInt16 (old.drop (old.length - 2))).1 == 0) := by
  simp [openStream, OutStream.over]

/-- The stream of a new file, or of one that ends in a 0-word. -/
theorem openStream_ok (e : PktEnv) (ck : Clock) (n : Node) (out : Str) {old : Option Str}
    (h : OutHead e ck n old head) : ∃ st : OutStream,
    openStream e ck {} n out (old.getD []) = (st, true) ∧ st.name = out ∧
      ∀ bs, ((st.put bs).put (pktPutInt16 0)).content none = head ++ bs ++ pktPutInt16 0 := by
  rcases h with ⟨hnil, hhead⟩ | hold
  · rw [hnil, hhead]
    refine ⟨⟨out, [], 0, outHeader e ck n⟩, ?_, rfl, fun bs => ?_⟩
    · rw [openStream_default, if_pos rfl]
    · simp only [OutStream.put, OutStream.content, List.take_nil, List.drop_nil, List.nil_append]
      rw [overwrite, List.drop_nil, List.append_nil]
  · rw [hold]
    have hne : head ++ pktPutInt16 0 ≠ [] := List.append_ne_nil_of_right_ne_nil head (by decide)
    have hpos : (head ++ pktPutInt16 0).length - 2 = head.length := by
      rw [List.length_append]
      rfl
    have hword : (pktGetInt16 (pktPutInt16 0)).1 = 0 := by decide
    refine ⟨⟨out, head ++ pktPutInt16 0, head.length, []⟩, ?_, rfl, fun bs => ?_⟩
    · rw [openStream_default, Option.getD_some, if_neg hne, hpos, List.drop_left, hword]
      rfl
    · simp only [OutStream.put, OutStream.content, List.take_left, List.drop_left,
        List.nil_append]
      rw [overwrite_of_length_le, List.append_assoc]
      rw [List.length_append]
      exact Nat.le_add_left _ _

theorem mem_binkFind {d : Files.Dir Str Str} {ext : OutbType → Str} {outb f : Str}
    {flav : Option Str} (h : binkFind d ext outb flav = some f) :
    ∃ t ∈ outbTypes, outbFile outb (ext t) = f := by
  unfold binkFind at h
  split at h
  · next t ht => exact ⟨t, List.mem_of_find?_eq_some ht, Option.some.inj h⟩
  · obtain ⟨flav₀, hflav⟩ := Option.bind_eq_some_iff.mp h
    obtain ⟨t, ht, he⟩ := Option.bind_eq_some_iff.mp hflav.2
    exact ⟨t, (List.mem_filter.mp (List.mem_of_getLast? ht)).1, Option.some.inj he⟩

theorem binkBsyName_of_out {outb : Str} (hout : binkOutName e.ob n = some outb) :
    binkBsyName e.ob n = some (outbFile outb (lit "bsy")) := by
  rw [binkBsyName, hout]
  rfl

/-- The file that is found is not the BSY file. -/
theorem findOut_ne_bsy {outb : Str} (hout : binkOutName e.ob n = some outb)
    (hfit : outb.length + 3 < MAXPATH) {flav : Option Str}
    (hfind : binkFindOut e.ob d n flav = some f) : f ≠ outbFile outb (lit "bsy") := by
  rw [binkFindOut, hout] at hfind
  obtain ⟨t, ht, rfl⟩ := mem_binkFind hfind
  exact (bsyName_ne hfit ht).symm

/-- What opening does when all operations succeed. -/
theorem pktOpenNode_ok {outb : Str} (hout : binkOutName e.ob n = some outb)
    (hfit : outb.length + 3 < MAXPATH) (hfind : binkFindOut e.ob d n (some flav) = some f)
    {ck : Clock} (bsy : Bool) (hhead : OutHead e ck n (d f) head) :
    ∃ d' st, pktOpenNode e ck {} n (some flav) bsy d = (d', some st) ∧ st.name = f ∧
      (∀ bs, ((st.put bs).put (pktPutInt16 0)).content none = head ++ bs ++ pktPutInt16 0) ∧
      ∀ g, g ≠ f → g ≠ outbFile outb (lit "bsy") → d' g = d g := by
  have hbsy := binkBsyName_of_out hout
  have hne := findOut_ne_bsy hout hfit hfind
  obtain ⟨st, hst, hname, hcontent⟩ := openStream_ok e ck n f hhead
  have hopen : ∀ d₀ : Files.Dir Str Str, d₀ f = d f →
      (∀ g, g ≠ f → g ≠ outbFile outb (lit "bsy") → d₀ g = d g) →
      openStream e ck {} n f ((appended d₀ f f).getD []) = (st, true) ∧
      ∀ g, g ≠ f → g ≠ outbFile outb (lit "bsy") → appended d₀ f g = d g := by
    intro d₀ hf hg
    refine ⟨?_, fun g hgf hgb => ?_⟩
    · rw [appended, Function.update_self, Option.getD_some, hf, hst]
    · rw [appended, Function.update_of_ne hgf, hg g hgf hgb]
  unfold pktOpenNode
  rw [hfind]
  cases bsy with
  | false =>
      obtain ⟨h1, h2⟩ := hopen d rfl fun g _ _ => rfl
      refine ⟨appended d f, st, ?_, hname, hcontent, h2⟩
      simp [openOut, MAX_COUNT, h1]
  | true =>
      obtain ⟨h1, h2⟩ := hopen (Function.update d (outbFile outb (lit "bsy")) (some (bsyText e)))
        (Function.update_of_ne hne _ _) fun g _ hgb => Function.update_of_ne hgb _ _
      refine ⟨_, st, ?_, hname, hcontent, h2⟩
      simp [bsyCreate, hbsy, openOut, MAX_COUNT, h1]

/-- What a session does: the messages stand between what was there and the
0-word, and other files stay as they were. -/
theorem pktSession_ok {outb : Str} (hout : binkOutName e.ob n = some outb)
    (hfit : outb.length + 3 < MAXPATH) (hfind : binkFindOut e.ob d n (some flav) = some f)
    (hhead : OutHead e s.ck n (d f) head) : ∃ d', pktSession e n flav d s = some d' ∧
      d' f = some (head ++ s.text ++ pktPutInt16 0) ∧
      ∀ g, g ≠ f → g ≠ outbFile outb (lit "bsy") → d' g = d g := by
  have hbsy := binkBsyName_of_out hout
  have hne := findOut_ne_bsy hout hfit hfind
  obtain ⟨d₁, st, hopen, hname, hcontent, hother⟩ := pktOpenNode_ok hout hfit hfind s.bsy hhead
  have hclose : ∀ g, g ≠ outbFile outb (lit "bsy") →
      (pktCloseNode e {} n s.bsy (st.put s.text) d₁).1 g =
        Function.update d₁ f (some (head ++ s.text ++ pktPutInt16 0)) g := by
    intro g hg
    unfold pktCloseNode
    dsimp only
    rw [hcontent, show ((st.put s.text).put (pktPutInt16 0)).name = f from hname]
    split
    · rw [bsyDelete, hbsy]
      exact Function.update_of_ne hg _ _
    · rfl
  refine ⟨_, by rw [pktSession, hopen], ?_, fun g hgf hgb => ?_⟩
  · rw [hclose f hne, Function.update_self]
  · rw [hclose g hgb, Function.update_of_ne hgf, hother g hgf hgb]

/-- What sessions leave of a file. -/
def sessionsText (head : Str) (ss : List Session) : Str :=
  head ++ ss.flatMap Session.text ++ pktPutInt16 0

/-- Sessions behind each other: the file is one header, or what was there, the
messages of all sessions in order, and a 0-word. -/
theorem pktSessions_ok {outb : Str} (hout : binkOutName e.ob n = some outb)
    (hfit : outb.length + 3 < MAXPATH) (hfind : binkFindOut e.ob d n (some flav) = some f)
    (s : Session) (ss : List Session) (hhead : OutHead e s.ck n (d f) head) :
    ∃ d', pktSessions e n flav d (s :: ss) = some d' ∧ d' f = some (sessionsText head (s :: ss)) ∧
      ∀ g, g ≠ f → g ≠ outbFile outb (lit "bsy") → d' g = d g := by
  induction ss generalizing d s head with
  | nil =>
      obtain ⟨d', hd', hf, hg⟩ := pktSession_ok hout hfit hfind hhead
      refine ⟨d', ?_, ?_, hg⟩
      · rw [pktSessions, List.foldlM_cons, hd']
        rfl
      · rw [hf, sessionsText, List.flatMap_singleton]
  | cons s' ss ih =>
      obtain ⟨d₁, hd₁, hf₁, hg₁⟩ := pktSession_ok hout hfit hfind hhead
      have hfind₁ : binkFindOut e.ob d₁ n (some flav) = some f := by
        rw [binkFindOut, hout] at hfind ⊢
        refine binkFind_again hfind (by rw [hf₁]; rfl) (fun t ht hne => ?_) _
        exact hg₁ _ hne (bsyName_ne hfit ht).symm
      obtain ⟨d', hd', hf, hg⟩ := ih hfind₁ s' (Or.inr hf₁)
      refine ⟨d', ?_, ?_, fun g hgf hgb => (hg g hgf hgb).trans (hg₁ g hgf hgb)⟩
      · rw [pktSessions, List.foldlM_cons, hd₁]
        exact hd'
      · rw [hf, sessionsText, sessionsText, List.flatMap_cons, List.flatMap_cons,
          List.flatMap_cons, List.append_assoc head, List.append_assoc head]

end

/-- A system with one outbound directory. -/
def oneEnv : PktEnv :=
  { ob := ⟨false, [(2, lit "out")], some (lit "/ftn")⟩
    cf := Config.read ⟨2, ⟨2, 5020, 1, 0, []⟩, ⟨2, 5020, 0, 0, []⟩⟩ [] []
    passwds := [], major := 5, minor := 10, pid := 1 }

def oneClock : Clock := ⟨0, 0, gmtime, fun _ => lit "GMT"⟩

/-- A session that writes nothing and one that writes a message. -/
def twoSessions : List Session :=
  [⟨oneClock, true, [⟨oneClock, (Message.clear, [lit "hi\r"]), true⟩]⟩]

theorem pktSessions_two : ∃ d', pktSessions oneEnv ⟨2, 5020, 400, 5, []⟩ (lit "Normal")
      (fun _ => none) (⟨oneClock, false, []⟩ :: twoSessions) = some d' ∧
    d' (lit "/ftn/out/139c0190.pnt/00000005.out") =
      some (sessionsText (outHeader oneEnv oneClock ⟨2, 5020, 400, 5, []⟩)
        (⟨oneClock, false, []⟩ :: twoSessions)) ∧
    ∀ g, g ≠ lit "/ftn/out/139c0190.pnt/00000005.out" →
      g ≠ outbFile (lit "/ftn/out/139c0190.pnt/00000005.") (lit "bsy") → d' g = none :=
  pktSessions_ok (by decide +kernel) (by decide +kernel) (by decide +kernel) _ _
    (Or.inl ⟨rfl, rfl⟩)

end Fidogate

/-
# `Fidogate.Toss.Noarc` — ftnpack.c: a packet is put into the outbound

`do_noarc` reads the messages of a packet one by one and writes each behind
those of the OUT packet before it reads the next.  `NoarcDelivered` is what this
should come to: all messages and no input, or no message and the input as it
was.  It does exactly where no error comes behind the first message
(`doNoarc_iff`).
-/
import Fidogate.Common.OutPacket
import Fidogate.Packet.Append

namespace Fidogate

open Bytes

/-! ## The function -/

def MSG_FILE : Int := 0x0010

/-- How files that come with netmail are found: the type of the packet, the
directory of `-F`, and the file in it of some name, whatever its case. -/
structure AttachOptions where
  netmail : Bool
  dir : Str
  search : Str → Option Str

/-- What a file attach leaves of the message and of `buffer`: `dir_search`
writes the name it found into the subject.  The entry in the FLO file is not
modelled. -/
def noarcAttach (opts : AttachOptions) (msg : Message) (b : Str) : Message × Str :=
  if opts.netmail && msg.attr / MSG_FILE % 2 == 1 && opts.dir != lit "/" && opts.dir != [] then
    match opts.search msg.subject with
    | some name =>
        ({ msg with subject := name },
         store b (bufCopy BUFFERSIZE (opts.dir ++ lit "/" ++ name)))
    | none => (msg, b)
  else (msg, b)

/-- The call: the program and its options, the node and flavour, the input
packet behind its header with what is in `buffer`, and the outcomes.  `lost` is
what an error of the device hides behind `fp`. -/
structure Noarc where
  e : PktEnv
  ck : Clock
  strict : Bool
  attach : AttachOptions
  dst : Node
  flav : Str
  name : Str
  buf : Str
  fp : Str
  lost : Str
  o : PktOutcomes
  unlink : Bool

/-- The loop; `i` counts the messages. -/
def noarcLoop (a : Noarc) : Nat → Nat → LineType → Str → Str → OutStream → OutStream × Bool
  | 0, _, _, _, _, s => (s, false)
  | k + 1, i, type, b, fp, s =>
      if type = .msgType ∧ fp ≠ [] then
        match pktGetMsgHdr a.ck a.strict Message.clear fp with
        | none => (s, false)
        | some (msg, fp) =>
            let r := pktGetBody b fp
            if r.type = .error then (s, false)
            else
              let m := noarcAttach a.attach msg r.buf
              let s := s.put (pktPutMsgHdr a.ck m.1)
              if s.over a.o.limit && a.o.seen (2 * i + 1) then (s, false)
              else
                let s := s.put (r.lines.flatten ++ [nul])
                if s.over a.o.limit && a.o.seen (2 * i + 2) then (s, false)
                else noarcLoop a k (i + 1) r.type m.2 r.fp s
      else (s, true)

/-- The kind of the word in front of a message. -/
def firstType (fp : Str) : LineType := if (pktGetInt16 fp).1 = MSG_TYPE then .msgType else .msgEnd

/-- `do_noarc` without a name for the new packet. -/
def doNoarc (a : Noarc) (d : Files.Dir Str Str) : Files.Dir Str Str × Bool :=
  match pktOpenNode a.e a.ck a.o a.dst (some a.flav) false d with
  | (d, none) => (d, false)
  | (d, some s) =>
      let (s, ok) := noarcLoop a (a.fp.length + 1) 0 (firstType a.fp) a.buf (pktGetInt16 a.fp).2 s
      let (d, closed) := pktCloseNode a.e a.o a.dst false s d
      if ok && closed && a.unlink then (Function.update d a.name none, true) else (d, false)

/-! ## What is read -/

/-- The messages up to the end of the packet or to an error, and whether it was
read to the end. -/
def readNoarc (a : Noarc) : Nat → LineType → Str → Str → List PacketMsg × Bool
  | 0, _, _, _ => ([], false)
  | k + 1, type, b, fp =>
      if type = .msgType ∧ fp ≠ [] then
        match pktGetMsgHdr a.ck a.strict Message.clear fp with
        | none => ([], false)
        | some (msg, fp) =>
            let r := pktGetBody b fp
            if r.type = .error then ([], false)
            else
              let m := noarcAttach a.attach msg r.buf
              let rest := readNoarc a k r.type m.2 r.fp
              ((m.1, r.lines) :: rest.1, rest.2)
      else ([], true)

/-- The messages of a packet. -/
def Noarc.read (a : Noarc) (fp : Str) : List PacketMsg × Bool :=
  readNoarc a (fp.length + 1) (firstType fp) a.buf (pktGetInt16 fp).2

/-- The messages as they are written. -/
def Noarc.text (a : Noarc) (ms : List PacketMsg) : Str := ms.flatMap (writeMessage a.ck)

/-! ## The rounds of the loop -/

theorem length_pktGetBodyLoop : ∀ (n : Nat) (tl : List Str) (b fp : Str),
    (pktGetBodyLoop n tl b fp).fp.length ≤ fp.length
  | 0, _, _, _ => Nat.le_refl _
  | n + 1, tl, b, fp => by
      have hline := length_pktGetLineLoop b BUFFERSIZE false [] fp
      rw [pktGetBodyLoop]
      split
      · exact (length_pktGetBodyLoop n _ _ _).trans hline
      · exact hline

theorem length_pktGetBody (b fp : Str) : (pktGetBody b fp).fp.length ≤ fp.length := by
  have hloop := length_pktGetBodyLoop (fp.length + 1) [] b fp
  unfold pktGetBody incompleteLine
  split <;> exact hloop

/-- More rounds than bytes make no difference. -/
theorem noarcLoop_steps (a : Noarc) : ∀ {k l : Nat} (i : Nat) (type : LineType) (b fp : Str)
    (s : OutStream), fp.length < k → fp.length < l →
    noarcLoop a k i type b fp s = noarcLoop a l i type b fp s
  | 0, _, _, _, _, _, _, h, _ => absurd h (Nat.not_lt_zero _)
  | _, 0, _, _, _, _, _, _, h => absurd h (Nat.not_lt_zero _)
  | k + 1, l + 1, i, type, b, fp, s, hk, hl => by
      rw [noarcLoop, noarcLoop]
      split
      · next hmore =>
          cases hhdr : pktGetMsgHdr a.ck a.strict Message.clear fp with
          | none => rfl
          | some r =>
              obtain ⟨msg, fp'⟩ := r
              have h1 := length_pktGetMsgHdr hmore.2 hhdr
              have h2 := length_pktGetBody b fp'
              dsimp only
              rw [noarcLoop_steps a (k := k) (l := l) (i + 1) _ _ (pktGetBody b fp').fp _
                (by omega) (by omega)]
      · rfl

theorem Noarc.text_cons (a : Noarc) (m : PacketMsg) (ms : List PacketMsg) :
    a.text (m :: ms) = pktPutMsgHdr a.ck m.1 ++ (m.2.flatten ++ [nul]) ++ a.text ms := by
  rw [text, List.flatMap_cons, writeMessage, List.append_assoc (pktPutMsgHdr _ _)]
  rfl

/-- What the loop writes: a front part of the messages, and all of them where
it ends without an error; it writes something where there is a message, and
stops only where the input is wrong or `ferror` tells that too much was
written. -/
structure LoopWrites (a : Noarc) (s : OutStream) (r : List PacketMsg × Bool)
    (w : OutStream × Bool) (m : Str) : Prop where
  put : w.1 = s.put m
  front : m <+: a.text r.1
  done : w.2 = true → r.2 = true ∧ m = a.text r.1
  starts : r.1 ≠ [] → m.head? = some 2
  stops : w.2 = false → r.2 = false ∨ w.1.over a.o.limit = true

section

variable {a : Noarc} {s : OutStream}

theorem loopWrites_nothing (ok : Bool) : LoopWrites a s ([], ok) (s, ok) [] :=
  ⟨(OutStream.put_nil s).symm, List.nil_prefix, fun h => ⟨h, rfl⟩, fun h => absurd rfl h,
    fun h => Or.inl h⟩

/-- The loop stops behind a part of the first message. -/
theorem loopWrites_over {msg : PacketMsg} {rest : List PacketMsg × Bool} {m : Str}
    (hm : m <+: pktPutMsgHdr a.ck msg.1 ++ (msg.2.flatten ++ [nul]))
    (hstart : m.head? = some 2) (ho : (s.put m).over a.o.limit = true) :
    LoopWrites a s (msg :: rest.1, rest.2) (s.put m, false) m where
  put := rfl
  front := by
    rw [Noarc.text_cons]
    exact hm.trans (List.prefix_append _ _)
  done h := by cases h
  starts _ := hstart
  stops _ := Or.inr ho

/-- The first message and what the loop writes behind it. -/
theorem loopWrites_cons {msg : PacketMsg} {rest : List PacketMsg × Bool} {w : OutStream × Bool}
    {m : Str}
    (h : LoopWrites a ((s.put (pktPutMsgHdr a.ck msg.1)).put (msg.2.flatten ++ [nul])) rest w m) :
    LoopWrites a s (msg :: rest.1, rest.2) w
      (pktPutMsgHdr a.ck msg.1 ++ (msg.2.flatten ++ [nul]) ++ m) where
  put := by
    rw [h.put, OutStream.put_put, OutStream.put_put, List.append_assoc (pktPutMsgHdr _ _)]
  front := by
    rw [Noarc.text_cons]
    exact (List.prefix_append_right_inj _).mpr h.front
  done hw := by
    obtain ⟨hr, hm⟩ := h.done hw
    rw [Noarc.text_cons, hm]
    exact ⟨hr, rfl⟩
  starts _ := rfl
  stops := h.stops

end

theorem noarcLoop_writes (a : Noarc) : ∀ (k i : Nat) (type : LineType) (b fp : Str)
    (s : OutStream), ∃ m, LoopWrites a s (readNoarc a k type b fp) (noarcLoop a k i type b fp s) m
  | 0, _, _, _, _, _ => ⟨[], loopWrites_nothing false⟩
  | k + 1, i, type, b, fp, s => by
      rw [readNoarc, noarcLoop]
      split
      · split
        · exact ⟨[], loopWrites_nothing false⟩
        · next msg fp' _ =>
            dsimp only
            split
            · exact ⟨[], loopWrites_nothing false⟩
            · split
              · next ho =>
                  exact ⟨_, loopWrites_over (List.prefix_append _ _) rfl (Bool.and_eq_true _ _ ▸ ho).1⟩
              · split
                · next ho =>
                    have ho := (Bool.and_eq_true _ _ ▸ ho).1
                    rw [OutStream.put_put] at ho ⊢
                    exact ⟨_, loopWrites_over (List.prefix_refl _) rfl ho⟩
                · obtain ⟨m, h⟩ := noarcLoop_writes a k (i + 1) (pktGetBody b fp').type
                    (noarcAttach a.attach msg (pktGetBody b fp').buf).2 (pktGetBody b fp').fp
                    ((s.put (pktPutMsgHdr a.ck
                      (noarcAttach a.attach msg (pktGetBody b fp').buf).1)).put
                      ((pktGetBody b fp').lines.flatten ++ [nul]))
                  exact ⟨_, loopWrites_cons h⟩
      · exact ⟨[], loopWrites_nothing true⟩

/-! ## What the file becomes -/

/-- The OUT file is new: it is missing or empty. -/
def IsNew (old : Option Str) : Prop := old.getD [] = []

instance (old : Option Str) : Decidable (IsNew old) := inferInstanceAs (Decidable (_ = _))

/-- The OUT file holds the messages it held before; a new one may be left empty
or with a header. -/
def Intact (a : Noarc) (old new : Option Str) : Prop :=
  new = old ∨ IsNew old ∧
    (new = some [] ∨ new = some (outHeader a.e a.ck a.dst ++ pktPutInt16 0))

/-- The stream of the OUT file. -/
def outStream (a : Noarc) (f : Str) (old : Option Str) : OutStream :=
  if IsNew old then ⟨f, [], 0, outHeader a.e a.ck a.dst⟩
  else ⟨f, old.getD [], (old.getD []).length - 2, []⟩

/-- A 0-word stands at the end of the file. -/
def EndsPacket (old : Option Str) : Prop :=
  (pktGetInt16 ((old.getD []).drop ((old.getD []).length - 2))).1 = 0

theorem eq_of_pktGetInt16_eq_zero {s : Str} (hl : s.length ≤ 2) (h : (pktGetInt16 s).1 = 0) :
    s = pktPutInt16 0 := by
  match s, hl, h with
  | [], _, h => exact absurd h (by decide)
  | [_], _, h => exact absurd h (by simp [pktGetInt16, ERROR])
  | [c, c'], _, h =>
      simp only [pktGetInt16] at h
      have h1 : c.toNat = 0 := by omega
      have h2 : c'.toNat = 0 := by omega
      rw [@UInt8.toNat_inj c 0 |>.mp h1, @UInt8.toNat_inj c' 0 |>.mp h2]
      rfl

/-- A file that ends in a 0-word is what stands in front of it, and the word. -/
theorem exists_head {old : Option Str} (hnew : ¬ IsNew old) (h : EndsPacket old) :
    ∃ head, old = some (head ++ pktPutInt16 0) := by
  cases old with
  | none => exact absurd rfl hnew
  | some s =>
      refine ⟨s.take (s.length - 2), ?_⟩
      have hlast : s.drop (s.length - 2) = pktPutInt16 0 := by
        refine eq_of_pktGetInt16_eq_zero ?_ h
        rw [List.length_drop]
        omega
      rw [← hlast, List.take_append_drop]

/-- The bytes that reach the file. -/
def upTo (limit : Option Nat) (bs : Str) : Str := limit.elim bs bs.take

theorem OutStream.content_eq (s : OutStream) (limit : Option Nat) :
    s.content limit = s.old.take s.pos ++ overwrite (s.old.drop s.pos) (upTo limit s.out) := by
  cases limit <;> rfl

theorem content_new {f : Str} {old : Option Str} (hnew : IsNew old) (a : Noarc) (bs : Str)
    (limit : Option Nat) : ((outStream a f old).put bs).content limit =
      upTo limit (outHeader a.e a.ck a.dst ++ bs) := by
  rw [outStream, if_pos hnew, OutStream.content_eq]
  simp only [OutStream.put, List.take_nil, List.drop_nil, List.nil_append, overwrite,
    List.append_nil]

theorem content_old {f head : Str} (a : Noarc) (bs : Str) (limit : Option Nat) :
    ((outStream a f (some (head ++ pktPutInt16 0))).put bs).content limit =
      head ++ overwrite (pktPutInt16 0) (upTo limit bs) := by
  have hnew : ¬ IsNew (some (head ++ pktPutInt16 0)) :=
    List.append_ne_nil_of_right_ne_nil head (by decide)
  have hpos : (head ++ pktPutInt16 0).length - 2 = head.length := by
    rw [List.length_append]
    rfl
  rw [outStream, if_neg hnew, OutStream.content_eq]
  simp only [OutStream.put, Option.getD_some, hpos, List.take_left, List.drop_left,
    List.nil_append]

/-- Overwriting a 0-word with a message changes it, unless nothing is written. -/
theorem overwrite_zero_iff {m : Str} (hm : m ≠ [] → m.head? = some 2) (limit : Option Nat) :
    overwrite (pktPutInt16 0) (upTo limit (m ++ pktPutInt16 0)) = pktPutInt16 0 ↔
      limit = some 0 ∨ m = [] := by
  cases m with
  | nil =>
      refine ⟨fun _ => Or.inr rfl, fun _ => ?_⟩
      cases limit with
      | none => rfl
      | some k =>
          match k with
          | 0 | 1 => rfl
          | k + 2 => simp [upTo, overwrite, pktPutInt16]
  | cons c m =>
      obtain rfl : c = 2 := Option.some.inj (hm (List.cons_ne_nil c m))
      cases limit with
      | none =>
          refine ⟨fun h => ?_, fun h => by simp at h⟩
          exact absurd (List.cons.inj h).1 (by decide)
      | some k =>
          cases k with
          | zero => exact ⟨fun _ => Or.inl rfl, fun _ => rfl⟩
          | succ k =>
              refine ⟨fun h => ?_, fun h => by simp at h⟩
              exact absurd (List.cons.inj h).1 (by decide)

/-- A new packet is as good as none where it was not begun, or has its header
and no message. -/
theorem upTo_header_iff {hdr m : Str} (hm : m ≠ [] → m.head? = some 2) (limit : Option Nat) :
    (upTo limit (hdr ++ (m ++ pktPutInt16 0)) = [] ∨
      upTo limit (hdr ++ (m ++ pktPutInt16 0)) = hdr ++ pktPutInt16 0) ↔
      limit = some 0 ∨ m = [] ∧ limit.all (hdr.length + 2 ≤ ·) = true := by
  have hne : m ++ pktPutInt16 0 ≠ [] := List.append_ne_nil_of_right_ne_nil m (by decide)
  cases limit with
  | none =>
      show hdr ++ (m ++ pktPutInt16 0) = [] ∨ hdr ++ (m ++ pktPutInt16 0) = hdr ++ pktPutInt16 0 ↔ _
      rw [List.append_cancel_left_eq, List.append_eq_nil_iff]
      simp [hne]
  | some k =>
      have hlen : (hdr ++ (m ++ pktPutInt16 0)).length = hdr.length + (m.length + 2) := by
        rw [List.length_append, List.length_append]
        rfl
      show (hdr ++ (m ++ pktPutInt16 0)).take k = [] ∨
        (hdr ++ (m ++ pktPutInt16 0)).take k = hdr ++ pktPutInt16 0 ↔ _
      simp only [Option.some.injEq, Option.all_some, decide_eq_true_eq]
      refine ⟨fun h => ?_, fun h => ?_⟩
      · rcases h with h | h
        · left
          have hk := congrArg List.length h
          rw [List.length_take, hlen, List.length_nil] at hk
          omega
        · right
          have hk := congrArg List.length h
          rw [List.length_take, hlen, List.length_append] at hk
          have h2 : (pktPutInt16 0).length = 2 := rfl
          have hle : hdr.length + 2 ≤ k := by omega
          refine ⟨?_, hle⟩
          by_contra hnil
          rw [List.take_append, List.take_of_length_le (by omega), List.append_cancel_left_eq] at h
          -- the first byte of the message is no 0
          have hhead := congrArg List.head? h
          rw [List.head?_take, if_neg (by omega), List.head?_append_of_ne_nil _ hnil,
            hm hnil] at hhead
          exact absurd hhead (by decide)
      · rcases h with rfl | ⟨rfl, hle⟩
        · exact Or.inl rfl
        · right
          rw [List.nil_append] at hlen ⊢
          exact List.take_of_length_le (by rw [hlen, List.length_nil]; omega)

/-- Whether the file was left intact when it was closed. -/
theorem intact_iff {a : Noarc} {f : Str} {old : Option Str} (hold : IsNew old ∨ EndsPacket old)
    {m : Str} (hm : m ≠ [] → m.head? = some 2) (limit : Option Nat) :
    Intact a old (some (((outStream a f old).put (m ++ pktPutInt16 0)).content limit)) ↔
      limit = some 0 ∨ m = [] ∧ (IsNew old →
        limit.all ((outHeader a.e a.ck a.dst).length + 2 ≤ ·) = true) := by
  by_cases hnew : IsNew old
  · have hempty : ∀ c : Str, some c = old → c = [] := by
      rintro c rfl
      exact hnew
    have hhdr := @upTo_header_iff (outHeader a.e a.ck a.dst) m hm limit
    rw [content_new hnew, Intact, Option.some.injEq, Option.some.injEq]
    refine ⟨fun h => ?_, fun h => ?_⟩
    · have hc := h.elim (fun h => Or.inl (hempty _ h)) And.right
      exact (hhdr.mp hc).imp_right fun h => ⟨h.1, fun _ => h.2⟩
    · exact Or.inr ⟨hnew, hhdr.mpr (h.imp_right fun h => ⟨h.1, h.2 hnew⟩)⟩
  · obtain ⟨head, rfl⟩ := exists_head hnew (hold.resolve_left hnew)
    rw [content_old, Intact]
    have hsame : some (head ++ overwrite (pktPutInt16 0) (upTo limit (m ++ pktPutInt16 0))) =
        some (head ++ pktPutInt16 0) ↔ limit = some 0 ∨ m = [] := by
      rw [Option.some.injEq, List.append_cancel_left_eq]
      exact overwrite_zero_iff hm limit
    rw [hsame]
    refine ⟨fun h => ?_, fun h => Or.inl (h.imp_right And.left)⟩
    rcases h with h | h
    · exact h.imp_right fun h => ⟨h, fun hn => absurd hn hnew⟩
    · exact absurd h.1 hnew

/-! ## Opening -/

/-- No other program removes the file while it is opened. -/
def Undisturbed (rs : List OpenRound) : Prop := ∀ r ∈ rs, r ≠ .reopen true ∧ r ≠ .deleted

theorem undisturbed_nil : Undisturbed [] := fun _ h => absurd h List.not_mem_nil

/-- What opening for appending does to a file. -/
structure Appended (d d' : Files.Dir Str Str) (f : Str) : Prop where
  other : ∀ g, g ≠ f → d' g = d g
  content : d' f = d f ∨ IsNew (d f) ∧ d' f = some []

theorem appended_self (d : Files.Dir Str Str) (f : Str) :
    appended d f f = some ((d f).getD []) :=
  Function.update_self _ _ _

theorem appended_appended (d : Files.Dir Str Str) (f : Str) : Appended d (appended d f) f := by
  refine ⟨fun g hg => Function.update_of_ne hg _ _, ?_⟩
  rw [appended_self]
  cases h : d f with
  | none => exact Or.inr ⟨rfl, rfl⟩
  | some c => exact Or.inl rfl

theorem Appended.trans {d d' d'' : Files.Dir Str Str} {f : Str} (h : Appended d d' f)
    (h' : Appended d' d'' f) : Appended d d'' f := by
  refine ⟨fun g hg => (h'.other g hg).trans (h.other g hg), ?_⟩
  rcases h.content, h'.content with ⟨h1 | h1, h2 | h2⟩
  · exact Or.inl (h2.trans h1)
  · exact Or.inr ⟨h1 ▸ h2.1, h2.2⟩
  · exact Or.inr ⟨h1.1, h2.trans h1.2⟩
  · exact Or.inr ⟨h1.1, h2.2⟩

theorem openOut_undisturbed {f : Str} : ∀ {k : Nat} {rs : List OpenRound}
    {d : Files.Dir Str Str}, Undisturbed rs → Appended d (openOut f k rs d).1 f ∧
      ((openOut f k rs d).2 = true → (openOut f k rs d).1 f = some ((d f).getD []))
  | 0, _, d, _ => ⟨⟨fun _ _ => rfl, Or.inl rfl⟩, fun h => (by cases h)⟩
  | _ + 1, [], d, _ => ⟨appended_appended d f, fun _ => appended_self d f⟩
  | k + 1, r :: rs, d, h => by
      obtain ⟨hr, hrs⟩ := List.forall_mem_cons.mp h
      match r, hr with
      | .done, _ => exact ⟨appended_appended d f, fun _ => appended_self d f⟩
      | .append, _ => exact ⟨⟨fun _ _ => rfl, Or.inl rfl⟩, fun h => (by cases h)⟩
      | .reopen true, hr => exact absurd rfl hr.1
      | .reopen false, _ =>
          have happ := appended_appended d f
          obtain ⟨ih1, ih2⟩ := @openOut_undisturbed f k rs (appended d f) hrs
          have hget : (appended d f f).getD [] = (d f).getD [] := by
            rw [appended_self]
            rfl
          rw [hget] at ih2
          exact ⟨happ.trans ih1, ih2⟩
      | .lock, _ => exact ⟨appended_appended d f, fun h => (by cases h)⟩
      | .deleted, hr => exact absurd rfl hr.2

/-- The OUT file is opened, and its end is as it should be. -/
def Starts (a : Noarc) (d : Files.Dir Str Str) (f : Str) : Prop :=
  (a.o.mkdir = true ∧ (openOut f (MAX_COUNT - 1) a.o.rounds d).2 = true ∧
    a.o.seek 0 = true ∧ a.o.seek 1 = true) ∧
  (IsNew (d f) ∨ a.o.seek 2 = true ∧ EndsPacket (d f) ∧ a.o.seek 3 = true)

theorem Appended.intact {a : Noarc} {d d' : Files.Dir Str Str} {f : Str} (h : Appended d d' f) :
    Intact a (d f) (d' f) :=
  h.content.imp_right fun h => ⟨h.1, Or.inl h.2⟩

section

variable {a : Noarc} {d : Files.Dir Str Str} {f : Str}

theorem openStream_eq (hs : a.o.seek 0 = true ∧ a.o.seek 1 = true) :
    openStream a.e a.ck a.o a.dst f ((d f).getD []) =
      if IsNew (d f) then
        (outStream a f (d f), ! ((outStream a f (d f)).over a.o.limit && a.o.seen 0))
      else
        (outStream a f (d f), a.o.seek 2 && (pktGetInt16 (((d f).getD []).drop
          (((d f).getD []).length - 2))).1 == 0 && a.o.seek 3) := by
  unfold openStream outStream
  rw [hs.1, hs.2]
  by_cases hnew : IsNew (d f)
  · have hnil : (d f).getD [] = [] := hnew
    simp [hnew, hnil]
  · have hnil : ¬ (d f).getD [] = [] := hnew
    simp [hnew, hnil]

theorem OutStream.content_nothing {s : OutStream} (h : s.out = []) (limit : Option Nat) :
    s.content limit = s.old := by
  have hnil : upTo limit [] = [] := by cases limit <;> simp [upTo]
  rw [OutStream.content_eq, h, hnil]
  exact List.take_append_drop s.pos s.old

/-- The file is there; what is left depends on its end. -/
theorem pktOpenNode_opened (hfind : binkFindOut a.e.ob d a.dst (some a.flav) = some f)
    (hund : Undisturbed a.o.rounds) (hmkdir : a.o.mkdir = true)
    (hopen : (openOut f (MAX_COUNT - 1) a.o.rounds d).2 = true) :
    ∃ d', Appended d d' f ∧ d' f = some ((d f).getD []) ∧
      pktOpenNode a.e a.ck a.o a.dst (some a.flav) false d =
        if (openStream a.e a.ck a.o a.dst f ((d f).getD [])).2 then
          (d', some (openStream a.e a.ck a.o a.dst f ((d f).getD [])).1)
        else
          (Function.update d' f (some
            ((openStream a.e a.ck a.o a.dst f ((d f).getD [])).1.content a.o.limit)), none) := by
  obtain ⟨happ, hcontent⟩ := @openOut_undisturbed f (MAX_COUNT - 1) a.o.rounds d hund
  refine ⟨_, happ, hcontent hopen, ?_⟩
  unfold pktOpenNode
  rw [hfind]
  simp [hmkdir, hopen, hcontent hopen]

/-- Where the file cannot be opened it stays as it was, or is left empty. -/
theorem pktOpenNode_stops (hfind : binkFindOut a.e.ob d a.dst (some a.flav) = some f)
    (hund : Undisturbed a.o.rounds) (h : ¬ Starts a d f) :
    ∃ d', pktOpenNode a.e a.ck a.o a.dst (some a.flav) false d = (d', none) ∧
      Appended d d' f := by
  obtain ⟨happ, hcontent⟩ := @openOut_undisturbed f (MAX_COUNT - 1) a.o.rounds d hund
  cases hmkdir : a.o.mkdir with
  | false =>
      refine ⟨d, ?_, fun _ _ => rfl, Or.inl rfl⟩
      unfold pktOpenNode
      rw [hfind]
      simp [hmkdir]
  | true =>
      cases hopen : (openOut f (MAX_COUNT - 1) a.o.rounds d).2 with
      | false =>
          refine ⟨_, ?_, happ⟩
          unfold pktOpenNode
          rw [hfind]
          simp [hmkdir, hopen]
      | true =>
          obtain ⟨d', happ', hf, heq⟩ := pktOpenNode_opened hfind hund hmkdir hopen
          have hstream : (openStream a.e a.ck a.o a.dst f ((d f).getD [])).2 = false ∧
              (openStream a.e a.ck a.o a.dst f ((d f).getD [])).1.out = [] ∧
              (openStream a.e a.ck a.o a.dst f ((d f).getD [])).1.old = (d f).getD [] := by
            by_cases hs : a.o.seek 0 = true ∧ a.o.seek 1 = true
            · have hnot : ¬ (IsNew (d f) ∨
                  a.o.seek 2 = true ∧ EndsPacket (d f) ∧ a.o.seek 3 = true) :=
                fun hend => h ⟨⟨hmkdir, hopen, hs⟩, hend⟩
              obtain ⟨hnew, hend⟩ := not_or.mp hnot
              rw [openStream_eq hs, if_neg hnew, outStream, if_neg hnew]
              refine ⟨?_, rfl, rfl⟩
              rw [← Bool.not_eq_true, Bool.and_eq_true, Bool.and_eq_true, beq_iff_eq, and_assoc]
              exact hend
            · have hseek : (! (a.o.seek 0 && a.o.seek 1)) = true := by
                rw [Bool.not_eq_true', ← Bool.not_eq_true, Bool.and_eq_true]
                exact hs
              unfold openStream
              rw [if_pos hseek]
              exact ⟨rfl, rfl, rfl⟩
          rw [heq, hstream.1]
          refine ⟨_, rfl, fun g hg => ?_, ?_⟩
          · rw [Function.update_of_ne hg, happ'.other g hg]
          · rw [Function.update_self, OutStream.content_nothing hstream.2.1, hstream.2.2, ← hf]
            exact happ'.content

/-- Where it can, the header of a new packet may still be too long for the
disk. -/
theorem pktOpenNode_starts (hfind : binkFindOut a.e.ob d a.dst (some a.flav) = some f)
    (hund : Undisturbed a.o.rounds) (h : Starts a d f) :
    ∃ d', (∀ g, g ≠ f → d' g = d g) ∧
      (pktOpenNode a.e a.ck a.o a.dst (some a.flav) false d = (d', some (outStream a f (d f))) ∨
        IsNew (d f) ∧ (outStream a f (d f)).over a.o.limit = true ∧
          d' f = some ((outStream a f (d f)).content a.o.limit) ∧
          pktOpenNode a.e a.ck a.o a.dst (some a.flav) false d = (d', none)) := by
  obtain ⟨⟨hmkdir, hopen, hs⟩, hend⟩ := h
  obtain ⟨d', happ, hf, heq⟩ := pktOpenNode_opened hfind hund hmkdir hopen
  rw [heq, openStream_eq hs]
  by_cases hnew : IsNew (d f)
  · rw [if_pos hnew]
    cases hover : (outStream a f (d f)).over a.o.limit && a.o.seen 0 with
    | false => exact ⟨d', happ.other, Or.inl rfl⟩
    | true =>
        refine ⟨_, fun g hg => ?_, Or.inr ⟨hnew, (Bool.and_eq_true _ _ ▸ hover).1, ?_, rfl⟩⟩
        · rw [Function.update_of_ne hg, happ.other g hg]
        · exact Function.update_self _ _ _
  · have hok : (a.o.seek 2 && (pktGetInt16 (((d f).getD []).drop
        (((d f).getD []).length - 2))).1 == 0 && a.o.seek 3) = true := by
      rw [Bool.and_eq_true, Bool.and_eq_true, beq_iff_eq, and_assoc]
      exact hend.resolve_left hnew
    rw [if_neg hnew, hok]
    exact ⟨d', happ.other, Or.inl rfl⟩

end

/-! ## All or nothing -/

/-- Everything succeeds: the packet is read to its end, all of it can be
written, the file is closed and the input removed. -/
def Done (a : Noarc) (f : Str) (old : Option Str) : Prop :=
  (a.read a.fp).2 = true ∧
  ((outStream a f old).put (a.text (a.read a.fp).1 ++ pktPutInt16 0)).over a.o.limit = false ∧
  a.o.close = true ∧ a.unlink = true

/-- On OK the OUT packet holds its messages and behind them those of the whole
input, which is gone; on ERROR it holds its messages, and the input is as it
was. -/
def NoarcDelivered (a : Noarc) (d : Files.Dir Str Str) : Prop :=
  if (doNoarc a d).2 then
    ∃ f head, binkFindOut a.e.ob d a.dst (some a.flav) = some f ∧
      OutHead a.e a.ck a.dst (d f) head ∧ (a.read (a.fp ++ a.lost)).2 = true ∧
      (doNoarc a d).1 f = some (head ++ a.text (a.read (a.fp ++ a.lost)).1 ++ pktPutInt16 0) ∧
      (doNoarc a d).1 a.name = none
  else
    (doNoarc a d).1 a.name = d a.name ∧
    ∀ f, binkFindOut a.e.ob d a.dst (some a.flav) = some f →
      Intact a (d f) ((doNoarc a d).1 f)

/-- The OUT file cannot be opened; or nothing at all can be written; or an
error comes before the first message, and behind the header of a new packet;
or there is no error, and none of the device hides messages. -/
def NoarcSafe (a : Noarc) (d : Files.Dir Str Str) : Prop :=
  ∀ f, binkFindOut a.e.ob d a.dst (some a.flav) = some f → Starts a d f →
    a.o.limit = some 0 ∨
    (¬ Done a f (d f) ∧ (a.read a.fp).1 = [] ∧ (IsNew (d f) →
      a.o.limit.all ((outHeader a.e a.ck a.dst).length + 2 ≤ ·) = true)) ∨
    (Done a f (d f) ∧ (a.read (a.fp ++ a.lost)).2 = true ∧
      a.text (a.read (a.fp ++ a.lost)).1 = a.text (a.read a.fp).1)

/-- What a call leaves that opened the OUT file. -/
structure NoarcLeft (a : Noarc) (d : Files.Dir Str Str) (f : Str) (m : Str) : Prop where
  done : (doNoarc a d).2 = true ↔ Done a f (d f)
  text : Done a f (d f) → m = a.text (a.read a.fp).1
  starts : (a.read a.fp).1 ≠ [] → m.head? = some 2
  nothing : (a.read a.fp).1 = [] → m = []
  out : (doNoarc a d).1 f =
    some (((outStream a f (d f)).put (m ++ pktPutInt16 0)).content a.o.limit)
  input : (doNoarc a d).1 a.name = if (doNoarc a d).2 then none else d a.name

theorem outStream_name (a : Noarc) (f : Str) (old : Option Str) : (outStream a f old).name = f := by
  unfold outStream
  split <;> rfl

theorem noarcLeft {a : Noarc} {d d' : Files.Dir Str Str} {f : Str}
    (hname : a.name ≠ f) (hd' : ∀ g, g ≠ f → d' g = d g)
    (hopen : pktOpenNode a.e a.ck a.o a.dst (some a.flav) false d =
      (d', some (outStream a f (d f)))) : ∃ m, NoarcLeft a d f m := by
  obtain ⟨m, hw⟩ := noarcLoop_writes a (a.fp.length + 1) 0 (firstType a.fp) a.buf
    (pktGetInt16 a.fp).2 (outStream a f (d f))
  have hread : readNoarc a (a.fp.length + 1) (firstType a.fp) a.buf (pktGetInt16 a.fp).2 =
      a.read a.fp := rfl
  rw [hread] at hw
  refine ⟨m, ?_⟩
  generalize hloop : noarcLoop a (a.fp.length + 1) 0 (firstType a.fp) a.buf (pktGetInt16 a.fp).2
    (outStream a f (d f)) = w at hw
  have hclose : pktCloseNode a.e a.o a.dst false w.1 d' =
      (Function.update d' f
        (some (((outStream a f (d f)).put (m ++ pktPutInt16 0)).content a.o.limit)),
       a.o.close && ! ((outStream a f (d f)).put (m ++ pktPutInt16 0)).over a.o.limit) := by
    have hname : ((outStream a f (d f)).put (m ++ pktPutInt16 0)).name = f := outStream_name a f _
    rw [pktCloseNode, hw.put, OutStream.put_put, Bool.and_false, if_neg (by decide), hname]
  have hresult : doNoarc a d =
      if (w.2 && (a.o.close && ! ((outStream a f (d f)).put (m ++ pktPutInt16 0)).over a.o.limit) &&
          a.unlink) = true then
        (Function.update (Function.update d' f
          (some (((outStream a f (d f)).put (m ++ pktPutInt16 0)).content a.o.limit)))
          a.name none, true)
      else
        (Function.update d' f
          (some (((outStream a f (d f)).put (m ++ pktPutInt16 0)).content a.o.limit)), false) := by
    rw [doNoarc, hopen]
    dsimp only
    rw [hloop, hclose]
  have hfront : m.length ≤ (a.text (a.read a.fp).1).length := hw.front.length_le
  have hdone : (w.2 && (a.o.close &&
      ! ((outStream a f (d f)).put (m ++ pktPutInt16 0)).over a.o.limit) && a.unlink) = true ↔
      Done a f (d f) := by
    simp only [Bool.and_eq_true, Bool.not_eq_true']
    refine ⟨fun ⟨⟨hw2, hc, ho⟩, hu⟩ => ?_, fun ⟨hr, ho, hc, hu⟩ => ?_⟩
    · obtain ⟨hr, rfl⟩ := hw.done hw2
      exact ⟨hr, ho, hc, hu⟩
    · have hw2 : w.2 = true := by
        by_contra hw2
        rcases hw.stops (Bool.not_eq_true _ ▸ hw2) with h | h
        · rw [hr] at h
          cases h
        · rw [hw.put] at h
          rw [OutStream.over_put (by rw [List.length_append]; omega) h] at ho
          cases ho
      obtain ⟨-, rfl⟩ := hw.done hw2
      exact ⟨⟨hw2, hc, ho⟩, hu⟩
  have htext : Done a f (d f) → m = a.text (a.read a.fp).1 := fun h =>
    (hw.done (Bool.and_eq_true _ _ ▸ (Bool.and_eq_true _ _ ▸ hdone.mpr h).1).1).2
  have hnothing : (a.read a.fp).1 = [] → m = [] := by
    intro h
    rw [h] at hfront
    exact List.length_eq_zero_iff.mp (Nat.le_zero.mp hfront)
  by_cases h : Done a f (d f)
  · rw [if_pos (hdone.mpr h)] at hresult
    refine ⟨?_, htext, hw.starts, hnothing, ?_, ?_⟩
    · rw [hresult]
      exact ⟨fun _ => h, fun _ => rfl⟩
    · rw [hresult]
      exact (Function.update_of_ne (Ne.symm hname) _ _).trans (Function.update_self _ _ _)
    · rw [hresult]
      exact Function.update_self _ _ _
  · rw [if_neg (mt hdone.mp h)] at hresult
    refine ⟨?_, htext, hw.starts, hnothing, ?_, ?_⟩
    · rw [hresult]
      exact ⟨fun h => (by cases h), fun h' => absurd h' h⟩
    · rw [hresult]
      exact Function.update_self _ _ _
    · rw [hresult]
      exact (Function.update_of_ne hname _ _).trans (hd' _ hname)

theorem upTo_of_not_over {s : OutStream} {limit : Option Nat} (h : s.over limit = false) :
    upTo limit s.out = s.out := by
  cases limit with
  | none => rfl
  | some k =>
      have hle : ¬ k < s.out.length := by simpa [OutStream.over] using h
      exact List.take_of_length_le (Nat.not_lt.mp hle)

/-- Where everything fits, the messages stand between what was there and the
0-word. -/
theorem content_fits {a : Noarc} {f head m : Str} {old : Option Str} {limit : Option Nat}
    (hhead : OutHead a.e a.ck a.dst old head)
    (h : ((outStream a f old).put (m ++ pktPutInt16 0)).over limit = false) :
    ((outStream a f old).put (m ++ pktPutInt16 0)).content limit =
      head ++ m ++ pktPutInt16 0 := by
  have hout := upTo_of_not_over h
  rcases hhead with ⟨hnew, hhdr⟩ | hold
  · have hnew : IsNew old := hnew
    rw [outStream, if_pos hnew] at hout
    rw [content_new hnew, hhdr, List.append_assoc]
    exact hout
  · rw [hold] at hout ⊢
    have hnew : ¬ IsNew (some (head ++ pktPutInt16 0)) :=
      List.append_ne_nil_of_right_ne_nil head (by decide)
    rw [outStream, if_neg hnew] at hout
    rw [content_old, show upTo limit (m ++ pktPutInt16 0) = m ++ pktPutInt16 0 from hout,
      overwrite_of_length_le, List.append_assoc]
    rw [List.length_append]
    exact Nat.le_add_left _ _

theorem exists_outHead {a : Noarc} {old : Option Str} (h : IsNew old ∨ EndsPacket old) :
    ∃ head, OutHead a.e a.ck a.dst old head := by
  by_cases hnew : IsNew old
  · exact ⟨_, Or.inl ⟨hnew, rfl⟩⟩
  · obtain ⟨head, hold⟩ := exists_head hnew (h.resolve_left hnew)
    exact ⟨head, Or.inr hold⟩

section

variable {a : Noarc} {d : Files.Dir Str Str} {f : Str}

/-- A call that succeeds. -/
theorem noarcDelivered_done (hfind : binkFindOut a.e.ob d a.dst (some a.flav) = some f)
    (hold : IsNew (d f) ∨ EndsPacket (d f)) {m : Str} (h : NoarcLeft a d f m)
    (hdone : Done a f (d f)) : NoarcDelivered a d ↔
      (a.read (a.fp ++ a.lost)).2 = true ∧
      a.text (a.read (a.fp ++ a.lost)).1 = a.text (a.read a.fp).1 := by
  have hok := h.done.mpr hdone
  have hcontent : ∀ head, OutHead a.e a.ck a.dst (d f) head →
      (doNoarc a d).1 f = some (head ++ a.text (a.read a.fp).1 ++ pktPutInt16 0) := by
    intro head hhead
    rw [h.out, h.text hdone, content_fits hhead hdone.2.1]
  rw [NoarcDelivered, if_pos hok]
  refine ⟨fun ⟨f', head, hf', hhead, hread, hout, hname⟩ => ?_, fun ⟨hread, htext⟩ => ?_⟩
  · obtain rfl := Option.some.inj (hfind.symm.trans hf')
    rw [hcontent head hhead] at hout
    exact ⟨hread, (List.append_cancel_left (List.append_cancel_right (Option.some.inj hout))).symm⟩
  · obtain ⟨head, hhead⟩ := exists_outHead (a := a) hold
    refine ⟨f, head, hfind, hhead, hread, ?_, ?_⟩
    · rw [htext]
      exact hcontent head hhead
    · rw [h.input, if_pos hok]

/-- A call that returns an error behind the opening. -/
theorem noarcDelivered_error (hfind : binkFindOut a.e.ob d a.dst (some a.flav) = some f)
    (hold : IsNew (d f) ∨ EndsPacket (d f)) {m : Str} (h : NoarcLeft a d f m)
    (hdone : ¬ Done a f (d f)) : NoarcDelivered a d ↔
      a.o.limit = some 0 ∨ (a.read a.fp).1 = [] ∧ (IsNew (d f) →
        a.o.limit.all ((outHeader a.e a.ck a.dst).length + 2 ≤ ·) = true) := by
  have hok : ¬ (doNoarc a d).2 = true := mt h.done.mp hdone
  have hm : m ≠ [] → m.head? = some 2 := fun hm => h.starts (mt h.nothing hm)
  have hnil : m = [] ↔ (a.read a.fp).1 = [] := by
    refine ⟨fun hm => ?_, h.nothing⟩
    by_contra hread
    have hhead := h.starts hread
    rw [hm] at hhead
    cases hhead
  rw [NoarcDelivered, if_neg hok, ← hnil, ← intact_iff hold hm, ← h.out]
  refine ⟨fun hd => hd.2 f hfind, fun hd => ⟨?_, fun f' hf' => ?_⟩⟩
  · rw [h.input, if_neg hok]
  · obtain rfl := Option.some.inj (hfind.symm.trans hf')
    exact hd

end

/-- A header that cannot be written whole. -/
theorem intact_header_iff {a : Noarc} {f : Str} {old : Option Str} {limit : Option Nat}
    (hnew : IsNew old) (hover : (outStream a f old).over limit = true) :
    limit.all ((outHeader a.e a.ck a.dst).length + 2 ≤ ·) = false ∧
    (Intact a old (some ((outStream a f old).content limit)) ↔ limit = some 0) := by
  cases limit with
  | none => cases hover
  | some k =>
      have hk : k < (outHeader a.e a.ck a.dst).length := by
        simpa [OutStream.over, outStream, hnew] using hover
      have hall : (some k).all ((outHeader a.e a.ck a.dst).length + 2 ≤ ·) = false := by
        rw [Option.all_some, decide_eq_false_iff_not]
        omega
      have hput := content_new (f := f) hnew a [] (some k)
      rw [OutStream.put_nil, List.append_nil] at hput
      have hcut : ((outStream a f old).put ([] ++ pktPutInt16 0)).content (some k) =
          (outStream a f old).content (some k) := by
        rw [hput, content_new hnew]
        exact List.take_append_of_le_length (Nat.le_of_lt hk)
      have hiff := @intact_iff a f old (Or.inl hnew) [] (fun h => absurd rfl h) (some k)
      rw [hcut] at hiff
      refine ⟨hall, hiff.trans ⟨fun h => h.elim id fun h => ?_, Or.inl⟩⟩
      exact absurd (h.2 hnew) (by rw [hall]; decide)

/-- All messages are put into the outbound and the input is removed, or none
and it is kept, just where the call is safe. -/
theorem doNoarc_iff (a : Noarc) (d : Files.Dir Str Str) (hund : Undisturbed a.o.rounds)
    (hname : ∀ f, binkFindOut a.e.ob d a.dst (some a.flav) = some f → a.name ≠ f) :
    NoarcDelivered a d ↔ NoarcSafe a d := by
  cases hfind : binkFindOut a.e.ob d a.dst (some a.flav) with
  | none =>
      have hresult : doNoarc a d = (d, false) := by
        unfold doNoarc pktOpenNode
        rw [hfind]
      refine ⟨fun _ f hf => (by rw [hfind] at hf; cases hf), fun _ => ?_⟩
      rw [NoarcDelivered, hresult, if_neg Bool.false_ne_true]
      exact ⟨rfl, fun f hf => (by rw [hfind] at hf; cases hf)⟩
  | some f =>
      have hname := hname f hfind
      have hsafe : NoarcSafe a d ↔ (Starts a d f → a.o.limit = some 0 ∨
          (¬ Done a f (d f) ∧ (a.read a.fp).1 = [] ∧ (IsNew (d f) →
            a.o.limit.all ((outHeader a.e a.ck a.dst).length + 2 ≤ ·) = true)) ∨
          (Done a f (d f) ∧ (a.read (a.fp ++ a.lost)).2 = true ∧
            a.text (a.read (a.fp ++ a.lost)).1 = a.text (a.read a.fp).1)) := by
        refine ⟨fun h => h f hfind, fun h f' hf' => ?_⟩
        obtain rfl := Option.some.inj (hfind.symm.trans hf')
        exact h
      rw [hsafe]
      by_cases hstarts : Starts a d f
      · rw [forall_prop_of_true hstarts]
        have hold : IsNew (d f) ∨ EndsPacket (d f) := hstarts.2.imp_right fun h => h.2.1
        obtain ⟨d', hother, hopen⟩ := pktOpenNode_starts hfind hund hstarts
        rcases hopen with hopen | ⟨hnew, hover, hout, hopen⟩
        · obtain ⟨m, h⟩ := noarcLeft hname hother hopen
          by_cases hdone : Done a f (d f)
          · rw [noarcDelivered_done hfind hold h hdone]
            have hlimit : a.o.limit ≠ some 0 := by
              intro hlimit
              have hover := hdone.2.1
              rw [hlimit] at hover
              simp [OutStream.over, OutStream.put, pktPutInt16] at hover
            exact ⟨fun h => Or.inr (Or.inr ⟨hdone, h⟩), fun h => h.elim (fun h => absurd h hlimit)
              fun h => h.elim (fun h => absurd hdone h.1) And.right⟩
          · rw [noarcDelivered_error hfind hold h hdone]
            exact or_congr_right ⟨fun h => Or.inl ⟨hdone, h⟩,
              fun h => h.elim And.right fun h => absurd h.1 hdone⟩
        · have hnone : doNoarc a d = (d', false) := by rw [doNoarc, hopen]
          obtain ⟨hall, hintact⟩ := intact_header_iff hnew hover
          have hleft : NoarcDelivered a d ↔ a.o.limit = some 0 := by
            rw [NoarcDelivered, hnone, if_neg Bool.false_ne_true, ← hintact, ← hout]
            refine ⟨fun h => h.2 f hfind, fun h => ⟨hother _ hname, fun f' hf' => ?_⟩⟩
            obtain rfl := Option.some.inj (hfind.symm.trans hf')
            exact h
          have hdone : ¬ Done a f (d f) := by
            intro hdone
            have hput := @OutStream.over_put (outStream a f (d f)) a.o.limit []
              (a.text (a.read a.fp).1 ++ pktPutInt16 0) (Nat.zero_le _)
              (by rw [OutStream.put_nil]; exact hover)
            rw [hdone.2.1] at hput
            cases hput
          rw [hleft]
          refine ⟨Or.inl, fun h => h.elim id fun h => h.elim (fun h => ?_) fun h => ?_⟩
          · exact absurd (h.2.2 hnew) (by rw [hall]; decide)
          · exact absurd h.1 hdone
      · obtain ⟨d', hopen, happ⟩ := pktOpenNode_stops hfind hund hstarts
        have hresult : doNoarc a d = (d', false) := by rw [doNoarc, hopen]
        refine ⟨fun _ hs => absurd hs hstarts, fun _ => ?_⟩
        rw [NoarcDelivered, hresult, if_neg Bool.false_ne_true]
        refine ⟨happ.other _ hname, fun f' hf' => ?_⟩
        obtain rfl := Option.some.inj (hfind.symm.trans hf')
        exact happ.intact

/-- A packet of one message, up to the byte behind its body. -/
def oneBody : Str :=
  [2, 0] ++ List.replicate 12 0 ++ lit "01 Jan 70  00:00:00" ++ [nul] ++ lit "a" ++ [nul] ++
    lit "b" ++ [nul] ++ lit "c" ++ [nul] ++ lit "x" ++ [cr, nul]

/-- A call for a packet; all operations succeed. -/
def oneNoarc (fp : Str) : Noarc :=
  { e := oneEnv, ck := oneClock, strict := false, attach := ⟨false, [], fun _ => none⟩
    dst := ⟨2, 5020, 400, 0, []⟩, flav := lit "Normal", name := lit "/ftn/p/1.pkt", buf := []
    fp := fp, lost := [], o := {}, unlink := true }

theorem oneNoarc_name (fp : Str) : ∀ f, binkFindOut oneEnv.ob (fun _ => none)
    ⟨2, 5020, 400, 0, []⟩ (some (lit "Normal")) = some f → (oneNoarc fp).name ≠ f := by
  intro f hf
  have hout : binkFindOut oneEnv.ob (fun _ => none) ⟨2, 5020, 400, 0, []⟩ (some (lit "Normal")) =
      some (lit "/ftn/out/139c0190.out") := by decide +kernel
  rw [hout] at hf
  obtain rfl := Option.some.inj hf
  show lit "/ftn/p/1.pkt" ≠ _
  decide +kernel

/-- A whole packet is delivered. -/
theorem doNoarc_one : NoarcDelivered (oneNoarc (oneBody ++ [0, 0])) fun _ => none := by
  have hiff := doNoarc_iff (oneNoarc (oneBody ++ [0, 0])) (fun _ => none) undisturbed_nil
    (oneNoarc_name _)
  apply hiff.mpr
  intro f _ _
  have hread : ((oneNoarc (oneBody ++ [0, 0])).read (oneBody ++ [0, 0])).2 = true := by
    decide +kernel
  exact Or.inr (Or.inr ⟨⟨hread, rfl, rfl, rfl⟩, hread, rfl⟩)

/-- A packet that ends inside the header of its second message: the first one
is in the outbound, and the input is kept. -/
theorem doNoarc_cut : ¬ NoarcDelivered (oneNoarc (oneBody ++ [2, 0, 7])) fun _ => none := by
  intro h
  have hread : ((oneNoarc (oneBody ++ [2, 0, 7])).read (oneBody ++ [2, 0, 7])).2 = false ∧
      ((oneNoarc (oneBody ++ [2, 0, 7])).read (oneBody ++ [2, 0, 7])).1 ≠ [] := by
    decide +kernel
  have hfind : binkFindOut oneEnv.ob (fun _ => none) ⟨2, 5020, 400, 0, []⟩ (some (lit "Normal")) =
      some (lit "/ftn/out/139c0190.out") := by decide +kernel
  have hnew : IsNew none := rfl
  obtain ⟨d', hother, hopen⟩ := @pktOpenNode_starts (oneNoarc (oneBody ++ [2, 0, 7]))
    (fun _ => none) (lit "/ftn/out/139c0190.out") hfind undisturbed_nil
    ⟨⟨rfl, rfl, rfl, rfl⟩, Or.inl hnew⟩
  rcases hopen with hopen | ⟨-, hover, -⟩
  · obtain ⟨m, hleft⟩ := noarcLeft (oneNoarc_name _ _ hfind) hother hopen
    have hdone : ¬ Done (oneNoarc (oneBody ++ [2, 0, 7])) (lit "/ftn/out/139c0190.out") none :=
      fun hdone => by
        have hok := hdone.1
        rw [show (oneNoarc (oneBody ++ [2, 0, 7])).fp = oneBody ++ [2, 0, 7] from rfl,
          hread.1] at hok
        cases hok
    rcases (noarcDelivered_error hfind (Or.inl hnew) hleft hdone).mp h with h | h
    · cases h
    · exact hread.2 h.1
  · cases hover

end Fidogate

/-
# `Fidogate.Packet.RoundTrip` — a packet is read as it was written

The reader finds the end of a message by its NUL and the 16-bit word behind
it, so the framing of a message never depends on the next one: all that can
go wrong is a body line the reader does not end at its CR (`BodyLine.Kept`)
and a date whose zone the reader guesses wrong (`DateKept`).
-/
import Fidogate.Packet.Line
import Fidogate.Packet.DateText
import Fidogate.Toss.Ftnpack

namespace Fidogate

open Bytes

/-! ## Numbers and strings -/

theorem putc_toNat (v : Int) : ((putc v).toNat : Int) = v % 256 := by
  have h : (v % 256).toNat < 256 := by omega
  simp only [putc, UInt8.toNat_ofNat']
  omega

theorem pktGetInt16_put {v : Int} (h0 : 0 ≤ v) (h1 : v < 65536) (fp : Str) :
    pktGetInt16 (pktPutInt16 v ++ fp) = (v, fp) := by
  simp only [pktPutInt16, List.cons_append, List.nil_append, pktGetInt16, putc_toNat]
  congr 1
  omega

theorem pktGetString_put {s : Str} (h : nul ∉ s) {n : Nat} (hn : s.length < n) (fp : Str) :
    pktGetString (pktPutString s ++ fp) n = (s, s.length + 1, fp) := by
  have hp : ∀ c ∈ s, (c != nul) = true := fun c hc => bne_iff_ne.mpr (fun e => h (e ▸ hc))
  have ht : (pktPutString s ++ fp).takeWhile (· != nul) = s := by
    rw [pktPutString, List.append_assoc, List.takeWhile_append_of_pos hp]
    simp
  have hd : (pktPutString s ++ fp).drop s.length = nul :: fp := by
    rw [pktPutString, List.append_assoc, List.drop_left]
    rfl
  simp only [pktGetString, ht, hd, List.drop_one, List.tail_cons]
  rw [List.take_of_length_le (by omega)]
  simp

/-! ## Message header -/

/-- What the 16-bit fields and the string buffers of a message header hold. -/
structure MsgFits (ck : Clock) (m : Message) : Prop where
  fromNode : 0 ≤ m.nodeFrom.node ∧ m.nodeFrom.node < 65536
  toNode : 0 ≤ m.nodeTo.node ∧ m.nodeTo.node < 65536
  fromNet : 0 ≤ m.nodeFrom.net ∧ m.nodeFrom.net < 65536
  toNet : 0 ≤ m.nodeTo.net ∧ m.nodeTo.net < 65536
  attr : 0 ≤ m.attr ∧ m.attr < 65536
  cost : 0 ≤ m.cost ∧ m.cost < 65536
  date : DateFits ck m.date m.tz
  nameTo : nul ∉ m.nameTo ∧ m.nameTo.length < MSG_MAXNAME
  nameFrom : nul ∉ m.nameFrom ∧ m.nameFrom.length < MSG_MAXNAME
  subject : nul ∉ m.subject ∧ m.subject.length < MSG_MAXSUBJ

/-- The part of a message that its header has fields for. -/
def Message.onWire (m : Message) : Message :=
  { Message.clear with
    nodeFrom := { nodeClear with net := m.nodeFrom.net, node := m.nodeFrom.node }
    nodeTo := { nodeClear with net := m.nodeTo.net, node := m.nodeTo.node }
    nodeOrig := { nodeClear with net := m.nodeFrom.net, node := m.nodeFrom.node }
    attr := m.attr, cost := m.cost, date := m.date
    nameTo := m.nameTo, nameFrom := m.nameFrom, subject := m.subject }

theorem readMsgField_put {s : Str} (h : nul ∉ s) {size limit : Nat} (hn : s.length < limit)
    (hs : limit ≤ size) (strict : Bool) (fp : Str) :
    readMsgField (pktPutString s ++ fp) size limit strict = some (s, fp) := by
  have hle : ¬ limit < s.length + 1 := by omega
  simp [readMsgField, pktGetString_put h (by omega : s.length < size), hle]

theorem pktGetDate_put {ck : Clock} {t : Int} {tz : Option Str} (h : DateFits ck t tz)
    (fp : Str) :
    pktGetDate ck (pktPutDate ck t tz ++ fp) =
      (parsedate ck (dateTz ck DATE_FTS_0001 t tz), fp) := by
  have ht : (t == -1) = false := by
    have := h.nonneg
    rw [beq_eq_false_iff_ne]
    omega
  have hp := gmtime_printable h.local_nonneg
  have hlen : (dateTz ck DATE_FTS_0001 t tz).length = 19 := by
    rw [dateTz_fts h, dateConv_fts_length hp]
  have hnul : nul ∉ dateTz ck DATE_FTS_0001 t tz := by
    rw [dateTz_fts h]
    exact dateConv_fts_nul hp ck _
  have h20 : (dateTz ck DATE_FTS_0001 t tz ++ [nul]).length = MSG_MAXDATE := by
    simp [hlen, MSG_MAXDATE]
  have hc : cstr (dateTz ck DATE_FTS_0001 t tz ++ [nul]) = dateTz ck DATE_FTS_0001 t tz := by
    have := cstr_store (b := []) hnul
    simpa [store, overwrite] using this
  simp only [pktGetDate, pktPutDate, pktPutString, ht, Bool.false_eq_true, if_false]
  rw [if_neg (by rw [List.length_append, h20]; omega), ← h20, List.take_left, List.drop_left, hc]

/-- A header behind its type word, where no string needs cutting. -/
def msgHdrRest (ck : Clock) (m : Message) : Str :=
  pktPutInt16 m.nodeFrom.node ++ (pktPutInt16 m.nodeTo.node ++ (pktPutInt16 m.nodeFrom.net ++
    (pktPutInt16 m.nodeTo.net ++ (pktPutInt16 m.attr ++ (pktPutInt16 m.cost ++
    (pktPutDate ck m.date m.tz ++ (pktPutString m.nameTo ++ (pktPutString m.nameFrom ++
    pktPutString m.subject))))))))

theorem pktPutMsgHdr_eq {ck : Clock} {m : Message} (h : MsgFits ck m) :
    pktPutMsgHdr ck m = stx :: nul :: msgHdrRest ck m := by
  have e1 : m.nameTo.take (MSG_MAXNAME - 1) = m.nameTo :=
    List.take_of_length_le (by have := h.nameTo.2; omega)
  have e2 : m.nameFrom.take (MSG_MAXNAME - 1) = m.nameFrom :=
    List.take_of_length_le (by have := h.nameFrom.2; omega)
  have e3 : m.subject.take (MSG_MAXSUBJ - 1) = m.subject :=
    List.take_of_length_le (by have := h.subject.2; omega)
  have ht : pktPutInt16 MSG_TYPE = [stx, nul] := by decide
  simp only [pktPutMsgHdr, pktMsgSanitizeStrings, e1, e2, e3, List.append_assoc, msgHdrRest, ht,
    List.cons_append, List.nil_append]

/-- A header is read back, its date as `parsedate` understands it. -/
theorem pktGetMsgHdr_put {ck : Clock} {m : Message} (h : MsgFits ck m) (strict : Bool)
    (fp : Str) :
    pktGetMsgHdr ck strict Message.clear (msgHdrRest ck m ++ fp) =
      some ({ m.onWire with date := parsedate ck (dateTz ck DATE_FTS_0001 m.date m.tz) }, fp) := by
  simp only [msgHdrRest, List.append_assoc, pktGetMsgHdr, pktGetInt16_put h.fromNode.1 h.fromNode.2,
    pktGetInt16_put h.toNode.1 h.toNode.2, pktGetInt16_put h.fromNet.1 h.fromNet.2,
    pktGetInt16_put h.toNet.1 h.toNet.2, pktGetInt16_put h.attr.1 h.attr.2,
    pktGetInt16_put h.cost.1 h.cost.2, pktGetDate_put h.date,
    readMsgField_put h.nameTo.1 h.nameTo.2 (by decide : MSG_MAXNAME ≤ NAMEBUFSIZE),
    readMsgField_put h.nameFrom.1 h.nameFrom.2 (by decide : MSG_MAXNAME ≤ NAMEBUFSIZE),
    readMsgField_put h.subject.1 h.subject.2 (by decide : MSG_MAXSUBJ ≤ SUBJBUFSIZE)]
  rfl

/-! ## Body -/

/-- A body: lines of which none but the first starts with a LF, which would
belong to the line before. -/
structure Body where
  lines : List BodyLine
  sep : ∀ l ∈ lines.tail, l.text.head? ≠ some lf

def Body.texts (body : Body) : List Str := body.lines.map BodyLine.bytes

theorem BodyLine.head_ne_lf {l : BodyLine} (h : l.text.head? ≠ some lf) (s : Str) :
    (l.bytes ++ s).head? ≠ some lf := by
  rw [BodyLine.bytes]
  cases ht : l.text with
  | nil => exact (by decide : some cr ≠ some lf)
  | cons c t =>
      rw [ht] at h
      simpa using h

/-- No line behind another one starts with a LF, nor does what follows them. -/
theorem head_lines_ne_lf {ls : List BodyLine} (h : ∀ l ∈ ls, l.text.head? ≠ some lf) {rest : Str}
    (hr : rest.head? ≠ some lf) : ((ls.map BodyLine.bytes).flatten ++ rest).head? ≠ some lf := by
  cases ls with
  | nil => exact hr
  | cons l ls =>
      rw [List.map_cons, List.flatten_cons, List.append_assoc]
      exact l.head_ne_lf (h l List.mem_cons_self) _

/-- The word behind the NUL of a message: 2 or 0. -/
def endByte : LineType → UInt8
  | .msgType => stx
  | _ => nul

/-- The end of a message, met at the start of a line. -/
theorem pktGetLine_end {t : LineType} (ht : t = .msgType ∨ t = .msgEnd) (b rest : Str) :
    pktGetLine b (nul :: endByte t :: nul :: rest) = ⟨t, store b [], rest⟩ := by
  rcases ht with rfl | rfl <;> rfl

theorem pktGetBodyLoop_kept {t : LineType} (rest : Str) (ht : t = .msgType ∨ t = .msgEnd) :
    ∀ (ls : List BodyLine) (n : Nat) (tl : List Str) (b : Str), ls.length < n →
      (∀ l ∈ ls, l.Kept) → (∀ l ∈ ls.tail, l.text.head? ≠ some lf) →
      ∃ b', pktGetBodyLoop n tl b
          ((ls.map BodyLine.bytes).flatten ++ nul :: endByte t :: nul :: rest) =
        ⟨t, tl ++ ls.map BodyLine.bytes, store b' [], rest⟩
  | [], n + 1, tl, b, _, _, _ => by
      refine ⟨b, ?_⟩
      rw [pktGetBodyLoop]
      simp only [List.map_nil, List.flatten_nil, List.nil_append, pktGetLine_end ht,
        List.append_nil]
      rcases ht with rfl | rfl <;> rfl
  | l :: ls, n + 1, tl, b, hn, hk, hs => by
      have hnul : (nul :: endByte t :: nul :: rest).head? ≠ some lf :=
        (by decide : some nul ≠ some lf)
      have hhead := @head_lines_ne_lf ls hs _ hnul
      obtain ⟨b', ih⟩ := pktGetBodyLoop_kept rest ht ls n (tl ++ [l.bytes]) (store b l.bytes)
        (by simpa using hn) (fun l' h => hk l' (List.mem_cons_of_mem _ h))
        (fun l' h => hs l' (List.mem_of_mem_tail h))
      refine ⟨b', ?_⟩
      rw [List.map_cons, List.flatten_cons, List.append_assoc, pktGetBodyLoop,
        pktGetLine_kept (hk l List.mem_cons_self) b hhead]
      simp only [if_true, cstr_store l.nul_not_mem, ih, List.append_assoc, List.singleton_append]

theorem lines_pktGetBodyLoop : ∀ (n : Nat) (tl : List Str) (b fp : Str),
    tl <+: (pktGetBodyLoop n tl b fp).lines
  | 0, tl, b, fp => List.prefix_refl tl
  | n + 1, tl, b, fp => by
      rw [pktGetBodyLoop]
      split
      · exact (List.prefix_append _ _).trans (lines_pktGetBodyLoop n _ _ _)
      · exact List.prefix_refl tl

theorem lines_incompleteLine (r : GotBody) : r.lines <+: (incompleteLine r).lines := by
  unfold incompleteLine
  split
  · exact List.prefix_append _ _
  · exact List.prefix_refl _

theorem incompleteLine_type (r : GotBody) : (incompleteLine r).type = r.type := by
  unfold incompleteLine
  split <;> rfl

/-- An incomplete line gets longer when it is terminated. -/
theorem cstr_bufAppend {b q : Str} (hq : nul ∉ q) (hl : q.length ≤ 32766) :
    q.length < (cstr (bufAppend (store b q) [cr, lf])).length := by
  have hc : cstr (store b q) = q := cstr_store hq
  have hn : nul ∉ q ++ List.take (BUFFERSIZE - q.length - 1) [cr, lf] := by
    intro h
    rcases List.mem_append.mp h with h | h
    · exact hq h
    · exact absurd (List.mem_of_mem_take h) (by decide)
  rw [bufAppend, hc, cstr_store hn, List.length_append, List.length_take]
  have : BUFFERSIZE = 32768 := rfl
  simp
  omega

/-- Where a line is lost, the lines read differ from those written. -/
theorem pktGetBodyLoop_lost (rest : Str) (hr : rest.head? ≠ some lf) :
    ∀ (ls : List BodyLine) (n : Nat) (tl : List Str) (b : Str), ls.length < n →
      (∀ l ∈ ls.tail, l.text.head? ≠ some lf) → (∃ l ∈ ls, ¬ l.Kept) →
      let r := incompleteLine (pktGetBodyLoop n tl b ((ls.map BodyLine.bytes).flatten ++ rest))
      r.type = .error ∨ r.lines ≠ tl ++ ls.map BodyLine.bytes
  | [], n, tl, b, _, _, h => by simp at h
  | l :: ls, 0, tl, b, hn, _, _ => by simp at hn
  | l :: ls, n + 1, tl, b, hn, hs, h => by
      rw [List.map_cons, List.flatten_cons, List.append_assoc]
      by_cases hl : l.Kept
      · have hhead := @head_lines_ne_lf ls hs _ hr
        obtain ⟨l', hl', hlost⟩ := h
        have hmem : l' ∈ ls := by
          rcases List.mem_cons.mp hl' with e | hm
          · exact absurd (e ▸ hl) hlost
          · exact hm
        have ih := pktGetBodyLoop_lost rest hr ls n (tl ++ [l.bytes]) (store b l.bytes)
          (by simpa using hn) (fun l' h => hs l' (List.mem_of_mem_tail h)) ⟨l', hmem, hlost⟩
        rw [pktGetBodyLoop, pktGetLine_kept hl b hhead]
        simpa only [if_true, cstr_store l.nul_not_mem, List.append_assoc,
          List.singleton_append] using ih
      · have hlost := pktGetLine_lost hl b ((ls.map BodyLine.bytes).flatten ++ rest)
        rw [pktGetBodyLoop]
        generalize pktGetLine b (l.bytes ++ ((ls.map BodyLine.bytes).flatten ++ rest)) = g at hlost
        rcases hlost with he | ⟨q, hq, hbuf, hlen, ⟨ht, hne⟩ | ⟨ht, hpre⟩⟩
        · left
          rw [incompleteLine_type, if_neg (by rw [he]; decide), he]
        · -- the reader goes on behind another line
          right
          rw [if_pos ht, hbuf, cstr_store hq]
          intro e
          have hp := (lines_pktGetBodyLoop n (tl ++ [q]) (store b q) g.fp).trans
            (lines_incompleteLine _)
          rw [e, List.prefix_append_right_inj] at hp
          exact hne (List.cons_prefix_cons.mp hp).1
        · -- the message ended inside the line
          by_cases he : g.type = .error
          · left
            rw [incompleteLine_type, if_neg ht, he]
          right
          have hq0 : q ≠ [] := by
            intro e
            rw [e, List.prefix_nil] at hpre
            simp [BodyLine.bytes] at hpre
          rw [if_neg ht, incompleteLine, hbuf]
          simp only [cstr_store hq]
          rw [if_pos (by simp [he, hq0])]
          intro e
          have h2 := cstr_bufAppend (b := b) hq hlen
          have h3 := hpre.length_le
          simp only [List.append_cancel_left_eq, List.cons.injEq] at e
          rw [e.1] at h2
          omega

theorem Body.length_le (body : Body) : body.lines.length ≤ body.texts.flatten.length := by
  unfold Body.texts
  induction body.lines with
  | nil => simp
  | cons l ls ih =>
      have := l.length_bytes
      simp only [List.map_cons, List.flatten_cons, List.length_append, List.length_cons]
      omega

/-- A body all of whose lines are kept is read back. -/
theorem pktGetBody_kept {t : LineType} (ht : t = .msgType ∨ t = .msgEnd) {body : Body}
    (hk : ∀ l ∈ body.lines, l.Kept) (b rest : Str) :
    ∃ b', pktGetBody b (body.texts.flatten ++ nul :: endByte t :: nul :: rest) =
      ⟨t, body.texts, b', rest⟩ := by
  have hn : body.lines.length <
      (body.texts.flatten ++ nul :: endByte t :: nul :: rest).length + 1 := by
    have := body.length_le
    rw [List.length_append]
    omega
  obtain ⟨b', h⟩ := pktGetBodyLoop_kept rest ht body.lines _ [] b hn hk body.sep
  refine ⟨store b' [], ?_⟩
  simp only [pktGetBody, Body.texts] at h ⊢
  rw [h, incompleteLine]
  simp [cstr_store (b := b') (p := []) (by simp)]

/-- A body with a lost line is not. -/
theorem pktGetBody_lost {body : Body} (h : ∃ l ∈ body.lines, ¬ l.Kept) (b : Str) {rest : Str}
    (hr : rest.head? ≠ some lf) :
    (pktGetBody b (body.texts.flatten ++ rest)).type = .error ∨
      (pktGetBody b (body.texts.flatten ++ rest)).lines ≠ body.texts := by
  have hn : body.lines.length < (body.texts.flatten ++ rest).length + 1 := by
    have := body.length_le
    rw [List.length_append]
    omega
  have := pktGetBodyLoop_lost rest hr body.lines _ [] b hn body.sep h
  simpa [pktGetBody, Body.texts] using this

/-! ## The messages of a packet -/

/-- The word that stands in front of the messages still to come. -/
def nextType : List (Message × Body) → LineType
  | [] => .msgEnd
  | _ :: _ => .msgType

/-- The messages as `writeMessage` takes them. -/
def toPacketMsg (m : Message × Body) : PacketMsg := (m.1, m.2.texts)

/-- The stream behind the type word of the first message. -/
def streamTail (ck : Clock) : List (Message × Body) → Str
  | [] => []
  | m :: ms =>
      msgHdrRest ck m.1 ++ (m.2.texts.flatten ++
        nul :: endByte (nextType ms) :: nul :: streamTail ck ms)

theorem stream_eq {ck : Clock} : ∀ {ms : List (Message × Body)}, (∀ m ∈ ms, MsgFits ck m.1) →
    (ms.map toPacketMsg).flatMap (writeMessage ck) ++ pktPutInt16 0 =
      endByte (nextType ms) :: nul :: streamTail ck ms
  | [], _ => rfl
  | m :: ms, h => by
      have ih := stream_eq (fun m' hm => h m' (List.mem_cons_of_mem _ hm))
      rw [List.map_cons, List.flatMap_cons, List.append_assoc, ih, writeMessage, toPacketMsg,
        pktPutMsgHdr_eq (h m List.mem_cons_self), streamTail]
      simp [nextType, endByte]

theorem nextType_cases (ms : List (Message × Body)) :
    nextType ms = .msgType ∨ nextType ms = .msgEnd := by
  cases ms with
  | nil => exact .inr rfl
  | cons m ms => exact .inl rfl

/-- A message that reads back as it was written. -/
def MsgKept (ck : Clock) (m : Message × Body) : Prop :=
  DateKept ck m.1.date m.1.tz ∧ ∀ l ∈ m.2.lines, l.Kept

/-- What a message is on reading. -/
def wireMsg (m : Message × Body) : PacketMsg := (m.1.onWire, m.2.texts)

theorem msgHdrRest_ne_nil (ck : Clock) (m : Message) (s : Str) : msgHdrRest ck m ++ s ≠ [] := by
  simp [msgHdrRest, pktPutInt16]

theorem readMessages_iff {ck : Clock} (strict : Bool) : ∀ (ms : List (Message × Body)) (n : Nat)
    (b : Str), ms.length < n → (∀ m ∈ ms, MsgFits ck m.1) →
    (readMessages ck strict n (nextType ms) b (streamTail ck ms) = some (ms.map wireMsg) ↔
      ∀ m ∈ ms, MsgKept ck m)
  | [], n + 1, b, _, _ => by simp [readMessages, nextType]
  | m :: ms, n + 1, b, hn, hf => by
      have hfm := hf m List.mem_cons_self
      rw [readMessages, streamTail, if_pos ⟨rfl, msgHdrRest_ne_nil ck m.1 _⟩,
        pktGetMsgHdr_put hfm]
      simp only [List.map_cons, List.forall_mem_cons]
      by_cases hk : ∀ l ∈ m.2.lines, l.Kept
      · obtain ⟨b', hbody⟩ := pktGetBody_kept (nextType_cases ms) hk b (streamTail ck ms)
        have ih := readMessages_iff strict ms n b' (by simpa using hn)
          (fun m' hm => hf m' (List.mem_cons_of_mem _ hm))
        have hne : nextType ms ≠ .error := by
          rcases nextType_cases ms with h | h <;> rw [h] <;> decide
        rw [hbody]
        simp only [hne, if_false, Option.map_eq_some_iff]
        rw [MsgKept, ← parsedate_dateTz_iff hfm.date]
        constructor
        · rintro ⟨ms', hms', e⟩
          obtain ⟨e1, rfl⟩ := List.cons.inj e
          refine ⟨⟨?_, hk⟩, ih.mp hms'⟩
          simpa [wireMsg, Message.onWire] using congrArg (fun x => x.1.date) e1
        · rintro ⟨⟨hd, -⟩, hrest⟩
          exact ⟨_, ih.mpr hrest, by rw [hd]; rfl⟩
      · have hlost : ∃ l ∈ m.2.lines, ¬ l.Kept := by simpa using hk
        refine iff_of_false ?_ (fun h => hk h.1.2)
        rcases pktGetBody_lost hlost b
          (show (nul :: endByte (nextType ms) :: nul :: streamTail ck ms).head? ≠ some lf from
            (by decide : some nul ≠ some lf)) with h | h
        · rw [if_pos h]
          exact fun e => by cases e
        · split
          · exact fun e => by cases e
          · intro e
            obtain ⟨ms', -, e⟩ := Option.map_eq_some_iff.mp e
            exact h (congrArg Prod.snd (List.cons.inj e).1)

/-! ## Packet header -/

/-- The broken-down time of a packet is a valid one of the years 1900 to
2099, which is what the reader accepts. -/
structure PacketFits (ck : Clock) (pkt : Packet) : Prop where
  year : 0 ≤ (ck.localtime pkt.time).year ∧ (ck.localtime pkt.time).year ≤ 199
  mon : 0 ≤ (ck.localtime pkt.time).mon ∧ (ck.localtime pkt.time).mon ≤ 11
  mday : 0 ≤ (ck.localtime pkt.time).mday ∧ (ck.localtime pkt.time).mday ≤ 31
  hour : 0 ≤ (ck.localtime pkt.time).hour ∧ (ck.localtime pkt.time).hour ≤ 23
  min : 0 ≤ (ck.localtime pkt.time).min ∧ (ck.localtime pkt.time).min ≤ 59
  sec : 0 ≤ (ck.localtime pkt.time).sec ∧ (ck.localtime pkt.time).sec ≤ 59

theorem length_pktPutStringPadded (s : Str) (n : Nat) : (pktPutStringPadded s n).length = n := by
  simp only [pktPutStringPadded, List.length_append, List.length_take, List.length_replicate]
  omega

theorem length_pktPutInt16 (v : Int) : (pktPutInt16 v).length = 2 := rfl

theorem length_pktPutHdrRaw (ck : Clock) (pkt : Packet) :
    (pktPutHdrRaw ck pkt).length = 54 + pkt.psd.length := by
  have h8 : PKT_MAXPASSWD = 8 := rfl
  unfold pktPutHdrRaw
  simp only [List.length_append, length_pktPutInt16, length_pktPutStringPadded,
    List.length_cons, List.length_nil, h8]

theorem length_pktPutHdr (ck : Clock) (major minor : Int) (pkt : Packet) :
    (pktPutHdr ck major minor pkt).length = PKT_HDRLEN := by
  rw [pktPutHdr, length_pktPutHdrRaw]
  rfl

theorem word_zero (v : Int) (s : Str) : word (pktPutInt16 v ++ s) 0 = v % 65536 := by
  simp only [word, pktPutInt16, List.cons_append, List.nil_append, List.getD_cons_zero,
    List.getD_cons_succ, putc_toNat]
  omega

theorem word_add (v : Int) (s : Str) (i : Nat) : word (pktPutInt16 v ++ s) (i + 2) = word s i := rfl

/-- The header of a packet is accepted. -/
theorem pktGetHdr_put {ck : Clock} {pkt : Packet} (h : PacketFits ck pkt) (mktime : Tm → Int)
    (defzone major minor : Int) (fp : Str) :
    (pktGetHdr ck mktime defzone (pktPutHdr ck major minor pkt ++ fp)).1 = OK ∧
      (pktGetHdr ck mktime defzone (pktPutHdr ck major minor pkt ++ fp)).2.2 = fp := by
  obtain ⟨hy, hmo, hd, hh, hmi, hs⟩ := h
  have hlen := length_pktPutHdr ck major minor pkt
  have hok : pktHdrOk (pktPutHdr ck major minor pkt) = true := by
    have hv : (pktFillHdr major minor pkt).version = 2 ∧
        (pktFillHdr major minor pkt).time = pkt.time := ⟨rfl, rfl⟩
    unfold pktPutHdr pktPutHdrRaw
    simp only [pktHdrOk, List.append_assoc, word_add, word_zero, Bool.and_eq_true,
      decide_eq_true_eq, beq_iff_eq, hv, PKT_VERSION]
    omega
  have hnot : ¬ (pktPutHdr ck major minor pkt ++ fp).length < PKT_HDRLEN := by
    rw [List.length_append, hlen]
    omega
  have htake : (pktPutHdr ck major minor pkt ++ fp).take PKT_HDRLEN =
      pktPutHdr ck major minor pkt := by
    rw [← hlen, List.take_left]
  have hdrop : (pktPutHdr ck major minor pkt ++ fp).drop PKT_HDRLEN = fp := by
    rw [← hlen, List.drop_left]
  constructor
  · simp only [pktGetHdr, if_neg hnot, htake, hok, if_true]
  · simp only [pktGetHdr, if_neg hnot, hdrop]

/-! ## The packet -/

theorem length_le_flatMap (ck : Clock) : ∀ ms : List PacketMsg,
    ms.length ≤ (ms.flatMap (writeMessage ck)).length
  | [] => Nat.le_refl _
  | m :: ms => by
      have ih := length_le_flatMap ck ms
      simp only [List.flatMap_cons, writeMessage, List.length_append, List.length_cons,
        List.length_nil]
      omega

/-- A machine that keeps UTC. -/
def utcClock : Clock := ⟨0, 0, gmtime, fun _ => lit "GMT"⟩

def onePacket : Packet :=
  { src := ⟨2, 5020, 1, 0, []⟩, dst := ⟨2, 5020, 2, 0, []⟩, time := 1000000000, baud := 0,
    version := 2, productL := 0, productH := 0, revMin := 0, revMaj := 0, passwd := lit "SECRET",
    capword := 0, psd := [] }

def oneMessage : Message :=
  { Message.clear with
    nodeFrom := ⟨2, 5020, 1, 0, []⟩, nodeTo := ⟨2, 5020, 2, 0, []⟩, attr := 1,
    date := 1000000000, nameTo := lit "Sysop", nameFrom := lit "User", subject := lit "Hi" }

/-- A body of a single line. -/
def oneLine (text : Str) (h0 : nul ∉ text) (hc : cr ∉ text) : Body :=
  ⟨[⟨text, 0, h0, hc⟩], by simp⟩

theorem onePacket_fits : PacketFits utcClock onePacket := by
  constructor <;> decide +kernel

theorem oneMessage_fits : MsgFits utcClock oneMessage := by
  refine ⟨?_, ?_, ?_, ?_, ?_, ?_, ⟨?_, ?_, ?_⟩, ?_, ?_, ?_⟩ <;> decide +kernel

end Fidogate

/-
# `Fidogate.Gate.Split` — rfc2ftn.c: splitting a message that is too large

`snd_message` counts the parts in one loop over the body and writes them in
another.  Both close a part with the line that takes it over the maximum, but
they do not see the same sizes: the first asks `BUF_LAST` for the last byte of
a pointer, whose `sizeof` is that of a pointer, and so looks for the LF no
further than the eighth byte; the second works on `buffer`, which holds no
more than BUFFERSIZE - 1 bytes of a line.

`splitRight_iff` says at which maximum the two agree on a body, and
`sndMessage_splitRight_iff` which bodies are split right at every maximum.
-/
import Fidogate.Common.Message
import Fidogate.Common.NodeText
import Fidogate.Lib.Cuts

namespace Fidogate

open Bytes

/-! ## Lines and their sizes -/

/-- `sizeof(char *)`. -/
def PTRSIZE : Nat := 8

/-- `str_last(s, len)`.  The bytes behind an empty string are read as NUL. -/
def strLast (s : Str) (len : Nat) : UInt8 := s.getD (min (s.length - 1) (len - 1)) nul

/-- What a line adds to `lsize`, `len` being what `sizeof` gave `BUF_LAST`. -/
def lsizeOf (len : Nat) (s : Str) : Nat := s.length + if strLast s len = lf then 1 else 0

/-- The size of a line with CR LF for its LF. -/
def lineSize (s : Str) : Nat := s.length + if s.getLast? = some lf then 1 else 0

/-- The line in `buffer`, with what a reader would take for control lines defused. -/
def bufferLine (line : Str) : Str :=
  let buffer := line.take (BUFFERSIZE - 1)
  if hasPrefix (lit "--- ") buffer then buffer.set 1 43
  else if hasPrefix (lit " * Origin:") buffer then buffer.set 1 43
  else if hasPrefix (lit "SEEN-BY") buffer then buffer.set 4 43
  else buffer

/-- `pkt_put_line`, `met_cr` being set. -/
def pktPutLineLoop : Bool → Str → Str
  | _, [] => []
  | metCr, c :: s =>
      if c = cr then cr :: pktPutLineLoop true s
      else if c = lf then (if metCr then [] else [cr]) ++ pktPutLineLoop metCr s
      else c :: pktPutLineLoop false s

/-- `pkt_put_line`. -/
def pktPutLine (s : Str) : Str := pktPutLineLoop false s

/-! ## The parts -/

/-- What `snd_message` has ready when it comes to the body: the message
header, the lines that stand in front of the split line (by the part and by
whether the message is split), and those behind the text. -/
structure SndEnv where
  ck : Clock
  msg : Message
  subj : Str
  kludges : Nat → Bool → Str
  trailer : Str
  noFsc0047 : Bool
  addr : Node
  timeSplit : Int
  seq : Int

def DATE_SPLIT : Str := lit "%d %b %y %H:%M:%S"

/-- `%-ws`. -/
def putStrL (w : Nat) (s : Str) : Str := s ++ List.replicate (w - s.length) sp

/-- The subject of a part. -/
def partSubject (subj : Str) (split part : Nat) : Str :=
  if split ≠ 0 ∧ 1 < part then (putIntZ 2 part ++ lit ": " ++ subj).take (SUBJBUFSIZE - 1)
  else subj.take (SUBJBUFSIZE - 1)

/-- The line that announces a part: the SPLIT kludge or the part line. -/
def splitLine (e : SndEnv) (split part : Nat) : Str :=
  if split = 0 then []
  else if e.noFsc0047 then
    lit " * Large message split by FIDOGATE: part " ++
      (putIntZ 2 part ++ (lit "/" ++ (putIntZ 2 split ++ [cr, cr])))
  else
    soh :: lit "SPLIT: " ++ putStrL 18 (dateTz e.ck DATE_SPLIT e.timeSplit none) ++ lit " @@" ++
      putStrL 11 (((putInt e.addr.net ++ lit "/" ++ putInt e.addr.node).take 19).take 11) ++
      lit " " ++ putStrL 5 (putInt e.seq) ++ lit " " ++
      (putIntZ 2 part ++ (lit "/" ++ (putIntZ 2 split ++ (lit " +++++++++++" ++ [cr]))))

/-- A message as it is written, in this order; `lines` is the text. -/
structure FtnPart where
  msg : Message
  kludges : Str
  announce : Str
  lines : List Str
  trailer : Str

def FtnPart.text (p : FtnPart) : Str := p.lines.flatMap pktPutLine

/-- The message with the given lines for its text. -/
def SndEnv.part (e : SndEnv) (split part : Nat) (lines : List Str) : FtnPart :=
  { msg := { e.msg with subject := partSubject e.subj split part }
    kludges := e.kludges part (split != 0)
    announce := splitLine e split part
    lines := lines
    trailer := e.trailer }

/-- The loop that counts the parts. -/
def splitLoop (maxsize : Int) : Nat → Nat → List Str → Nat
  | split, _, [] => split
  | split, lsize, line :: p =>
      if maxsize < ((lsize + lsizeOf PTRSIZE line : Nat) : Int) then
        splitLoop maxsize (split + 1) 0 p
      else splitLoop maxsize split (lsize + lsizeOf PTRSIZE line) p

/-- `split`: the number of parts, 0 for a message that is not split. -/
def sndSplit (maxsize : Int) (body : List Str) : Nat :=
  if 0 < maxsize then
    let split := splitLoop maxsize 1 0 body
    if split = 1 then 0 else split
  else 0

/-- The loop that writes the parts; `lines` is the text of the part at hand. -/
def sndLoop (e : SndEnv) (maxsize : Int) (split : Nat) :
    Nat → Nat → List Str → List Str → List FtnPart
  | part, _, lines, [] => [e.part split part lines]
  | part, lsize, lines, line :: p =>
      let buffer := bufferLine line
      let lsize := lsize + lsizeOf BUFFERSIZE buffer
      if split ≠ 0 ∧ maxsize < (lsize : Int) then
        e.part split part (lines ++ [buffer]) :: sndLoop e maxsize split (part + 1) 0 [] p
      else sndLoop e maxsize split part lsize (lines ++ [buffer]) p

/-- `snd_message`, from the decoded body on. -/
def sndMessage (e : SndEnv) (maxsize : Int) (body : List Str) : List FtnPart :=
  sndLoop e maxsize (sndSplit maxsize body) 1 0 [] body

/-! ## What splitting is to do -/

/-- The size of a text. -/
def textSize (lines : List Str) : Nat := Cuts.total lineSize lines

/-- The messages announce their number and how many they are, when there are
several; they carry the text that would go out unsplit; without its last line
no text exceeds the maximum; and there are several when the body exceeds it. -/
structure SplitRight (e : SndEnv) (maxsize : Int) (body : List Str) : Prop where
  announced : ∀ i (h : i < (sndMessage e maxsize body).length),
    ((sndMessage e maxsize body)[i]).announce =
      splitLine e (if 1 < (sndMessage e maxsize body).length then
        (sndMessage e maxsize body).length else 0) (i + 1)
  whole : (sndMessage e maxsize body).flatMap FtnPart.text =
    (sndMessage e 0 body).flatMap FtnPart.text
  bounded : 0 < maxsize → ∀ p ∈ sndMessage e maxsize body,
    (textSize p.lines.dropLast : Int) ≤ maxsize
  split_iff : 0 < maxsize →
    (1 < (sndMessage e maxsize body).length ↔ maxsize < (textSize body : Int))

/-! ## The sizes the two loops see -/

theorem strLast_eq {s : Str} {len : Nat} (h : s.length ≤ len) :
    strLast s len = s.getLast?.getD nul := by
  rw [strLast, List.getLast?_eq_getElem?, List.getD_eq_getElem?_getD]
  congr 2
  omega

/-- The whole line is in sight. -/
theorem lsizeOf_eq {s : Str} {len : Nat} (h : s.length ≤ len) : lsizeOf len s = lineSize s := by
  rw [lsizeOf, lineSize, strLast_eq h]
  congr 1
  refine if_congr ?_ rfl rfl
  cases s.getLast? with
  | none => exact ⟨fun e => absurd e (by decide), fun e => absurd e (by simp)⟩
  | some c => simp

theorem getLast?_set {s : Str} {i : Nat} (c : UInt8) (h : i + 1 < s.length) :
    (s.set i c).getLast? = s.getLast? := by
  rw [List.getLast?_eq_getElem?, List.getLast?_eq_getElem?, List.length_set,
    List.getElem?_set_ne (by omega)]

theorem length_le_of_hasPrefix {p s : Str} (h : hasPrefix p s = true) : p.length ≤ s.length := by
  obtain ⟨t, rfl⟩ := hasPrefix_iff.mp h
  simp

/-- A line is defused without a change of its length or its end. -/
theorem bufferLine_same (line : Str) :
    (bufferLine line).length = (line.take (BUFFERSIZE - 1)).length ∧
      (bufferLine line).getLast? = (line.take (BUFFERSIZE - 1)).getLast? := by
  rw [bufferLine]
  split
  · next h =>
    have hl : 4 ≤ _ := length_le_of_hasPrefix h
    exact ⟨List.length_set, getLast?_set _ (by omega)⟩
  · split
    · next h =>
      have hl : 10 ≤ _ := length_le_of_hasPrefix h
      exact ⟨List.length_set, getLast?_set _ (by omega)⟩
    · split
      · next h =>
        have hl : 7 ≤ _ := length_le_of_hasPrefix h
        exact ⟨List.length_set, getLast?_set _ (by omega)⟩
      · exact ⟨rfl, rfl⟩

theorem lineSize_bufferLine (line : Str) :
    lineSize (bufferLine line) = lineSize (line.take (BUFFERSIZE - 1)) := by
  rw [lineSize, lineSize, (bufferLine_same line).1, (bufferLine_same line).2]

theorem lsizeOf_bufferLine (line : Str) :
    lsizeOf BUFFERSIZE (bufferLine line) = lineSize (bufferLine line) := by
  refine lsizeOf_eq ?_
  rw [(bufferLine_same line).1, List.length_take]
  exact le_trans (min_le_left _ _) (Nat.sub_le _ _)

theorem lineSize_bufferLine_of_lt {line : Str} (h : line.length < BUFFERSIZE) :
    lineSize (bufferLine line) = lineSize line := by
  rw [lineSize_bufferLine, List.take_of_length_le (by omega)]

/-- What is cut off takes its size along. -/
theorem lineSize_bufferLine_le (line : Str) : lineSize (bufferLine line) ≤ lineSize line := by
  by_cases h : line.length < BUFFERSIZE
  · exact (lineSize_bufferLine_of_lt h).le
  · rw [lineSize_bufferLine, lineSize, lineSize, List.length_take]
    have hb : BUFFERSIZE = 32768 := rfl
    split <;> omega

/-! ## The two loops cut -/

/-- The sizes the loop that counts sees. -/
def countSize (line : Str) : Nat := lsizeOf PTRSIZE line

/-- The loop that counts closes a part for each cut. -/
theorem splitLoop_eq (m : Nat) : ∀ (split lsize : Nat) (p : List Str),
    splitLoop m split lsize p = split + Cuts.cuts countSize m lsize p
  | split, lsize, [] => rfl
  | split, lsize, line :: p => by
      have hc : lsizeOf PTRSIZE line = countSize line := rfl
      rw [splitLoop, Cuts.cuts, hc]
      simp only [Int.ofNat_lt]
      by_cases h : m < lsize + countSize line
      · rw [if_pos h, if_pos h, splitLoop_eq m (split + 1) 0 p]
        omega
      · rw [if_neg h, if_neg h]
        exact splitLoop_eq m split _ p

theorem sndSplit_eq {m : Nat} (h : 0 < m) (body : List Str) :
    sndSplit m body =
      if Cuts.cuts countSize m 0 body = 0 then 0 else Cuts.cuts countSize m 0 body + 1 := by
  have hm : (0 : Int) < m := by exact_mod_cast h
  rw [sndSplit, if_pos hm]
  simp only [splitLoop_eq]
  split_ifs <;> omega

theorem sndSplit_of_nonpos {maxsize : Int} (h : maxsize ≤ 0) (body : List Str) :
    sndSplit maxsize body = 0 := if_neg (not_lt.mpr h)

/-- Without a split everything goes into one message. -/
theorem sndLoop_zero (e : SndEnv) (maxsize : Int) :
    ∀ (part lsize : Nat) (lines p : List Str),
      sndLoop e maxsize 0 part lsize lines p = [e.part 0 part (lines ++ p.map bufferLine)]
  | part, _, lines, [] => by simp [sndLoop]
  | part, lsize, lines, line :: p => by
      rw [sndLoop]
      simp only [ne_eq, not_true_eq_false, false_and, if_false]
      rw [sndLoop_zero e maxsize part _ _ p]
      simp

/-- With a split the loop that writes makes a message of each piece. -/
theorem sndLoop_pieces (e : SndEnv) (m : Nat) {split : Nat} (hs : split ≠ 0) :
    ∀ (part lsize : Nat) (lines p : List Str), lsize = Cuts.total (lsizeOf BUFFERSIZE) lines →
      sndLoop e m split part lsize lines p =
        (Cuts.pieces (lsizeOf BUFFERSIZE) m lines (p.map bufferLine)).mapIdx
          fun i piece => e.part split (part + i) piece
  | part, _, lines, [], _ => by simp [sndLoop, Cuts.pieces]
  | part, lsize, lines, line :: p, h => by
      have hnew := sndLoop_pieces e m hs (part + 1) 0 [] p rfl
      have hold := sndLoop_pieces e m hs part (lsize + lsizeOf BUFFERSIZE (bufferLine line))
        (lines ++ [bufferLine line]) p (by simp [h])
      rw [sndLoop, List.map_cons, Cuts.pieces]
      simp only [ne_eq, hs, not_false_eq_true, true_and, Int.ofNat_lt, ← h]
      by_cases hl : m < lsize + lsizeOf BUFFERSIZE (bufferLine line)
      · rw [if_pos hl, if_pos hl, hnew, List.mapIdx_cons]
        simp [Nat.add_assoc, Nat.add_comm 1]
      · rw [if_neg hl, if_neg hl]
        exact hold

/-! ## The announcements differ -/

theorem putIntZ_inj {w a b : Nat} {s t : Str} (hs : s.length = t.length)
    (h : putIntZ w a ++ s = putIntZ w b ++ t) : a = b := by
  have he := (List.append_inj' h hs).1
  rw [← getDec_putIntZ w a, he, getDec_putIntZ]

theorem splitLine_ne_nil (e : SndEnv) {split : Nat} (h : split ≠ 0) (part : Nat) :
    splitLine e split part ≠ [] := by
  rw [splitLine, if_neg h]
  split
  · intro he
    have hl := congrArg List.length he
    simp [lit] at hl
  · simp

/-- A line announces one number of parts. -/
theorem splitLine_inj {e : SndEnv} {a b part : Nat} (h : splitLine e a part = splitLine e b part) :
    a = b := by
  by_cases ha : a = 0
  · by_contra hb
    have hb0 : b ≠ 0 := fun h0 => hb (ha.trans h0.symm)
    refine splitLine_ne_nil e hb0 part ?_
    rw [← h, splitLine, if_pos ha]
  · by_cases hb : b = 0
    · refine absurd ?_ (splitLine_ne_nil e ha part)
      rw [h, splitLine, if_pos hb]
    · rw [splitLine, splitLine, if_neg ha, if_neg hb] at h
      split at h
      · have h1 := List.append_cancel_left h
        exact putIntZ_inj rfl (List.append_cancel_left (List.append_cancel_left h1))
      · have h1 := List.append_cancel_left h
        exact putIntZ_inj rfl (List.append_cancel_left (List.append_cancel_left h1))

/-! ## The messages that go out -/

theorem sndMessage_unsplit (e : SndEnv) {maxsize : Int} {body : List Str}
    (h : sndSplit maxsize body = 0) :
    sndMessage e maxsize body = [e.part 0 1 (body.map bufferLine)] := by
  rw [sndMessage, h, sndLoop_zero]
  rfl

theorem sndMessage_split (e : SndEnv) {m : Nat} {body : List Str} (h : sndSplit m body ≠ 0) :
    sndMessage e m body =
      (Cuts.pieces (lsizeOf BUFFERSIZE) m [] (body.map bufferLine)).mapIdx
        fun i piece => e.part (sndSplit m body) (1 + i) piece :=
  sndLoop_pieces e m h 1 0 [] body rfl

theorem text_mapIdx (e : SndEnv) (split : Nat) : ∀ (part : Nat) (ps : List (List Str)),
    (ps.mapIdx fun i piece => e.part split (part + i) piece).flatMap FtnPart.text =
      ps.flatten.flatMap pktPutLine
  | _, [] => rfl
  | part, piece :: ps => by
      have ih := text_mapIdx e split (part + 1) ps
      simp only [Nat.add_assoc, Nat.add_comm 1] at ih
      rw [List.mapIdx_cons, List.flatMap_cons, ih, List.flatten_cons, List.flatMap_append]
      rfl

/-- The text goes out whole at every maximum. -/
theorem sndMessage_text (e : SndEnv) (maxsize : Int) (body : List Str) :
    (sndMessage e maxsize body).flatMap FtnPart.text =
      (body.map bufferLine).flatMap pktPutLine := by
  by_cases h : sndSplit maxsize body = 0
  · rw [sndMessage_unsplit e h, List.flatMap_singleton]
    rfl
  · obtain ⟨m, rfl⟩ : ∃ m : Nat, maxsize = m := by
      refine ⟨maxsize.toNat, (Int.toNat_of_nonneg ?_).symm⟩
      by_contra hn
      exact h (sndSplit_of_nonpos (by omega) body)
    rw [sndMessage_split e h, text_mapIdx, Cuts.flatten_pieces, List.nil_append]

theorem sndMessage_whole (e : SndEnv) (maxsize : Int) (body : List Str) :
    (sndMessage e maxsize body).flatMap FtnPart.text =
      (sndMessage e 0 body).flatMap FtnPart.text := by
  rw [sndMessage_text, sndMessage_text]

/-- The sizes the loop that writes sees. -/
def writeSize (line : Str) : Nat := lineSize (bufferLine line)

/-- The cuts of the loop that writes. -/
theorem cuts_bufferLine (m : Nat) (body : List Str) :
    Cuts.cuts (lsizeOf BUFFERSIZE) m 0 (body.map bufferLine) =
      Cuts.cuts writeSize m 0 body := by
  rw [Cuts.cuts_map]
  exact Cuts.cuts_congr _ _ _ _ fun line _ => lsizeOf_bufferLine line

theorem length_sndMessage (e : SndEnv) {m : Nat} {body : List Str} (h : sndSplit m body ≠ 0) :
    (sndMessage e m body).length = Cuts.cuts writeSize m 0 body + 1 := by
  rw [sndMessage_split e h, List.length_mapIdx, Cuts.length_pieces, Cuts.total_nil,
    cuts_bufferLine]

theorem announce_sndMessage (e : SndEnv) {m : Nat} {body : List Str} (h : sndSplit m body ≠ 0)
    {i : Nat} (hi : i < (sndMessage e m body).length) :
    ((sndMessage e m body)[i]).announce = splitLine e (sndSplit m body) (i + 1) := by
  simp only [sndMessage_split e h, List.getElem_mapIdx, SndEnv.part, Nat.add_comm 1]

theorem textSize_dropLast_le : ∀ lines : List Str, textSize lines.dropLast ≤ textSize lines
  | [] => le_rfl
  | [line] => Nat.zero_le _
  | line :: line' :: lines => by
      have ih := textSize_dropLast_le (line' :: lines)
      simp only [textSize, List.dropLast_cons_cons, Cuts.total_cons] at ih ⊢
      omega

theorem textSize_map_bufferLine_le : ∀ body : List Str,
    textSize (body.map bufferLine) ≤ textSize body
  | [] => le_rfl
  | line :: body => by
      have hl := lineSize_bufferLine_le line
      have ih := textSize_map_bufferLine_le body
      simp only [textSize, List.map_cons, Cuts.total_cons] at ih ⊢
      omega

/-- No part exceeds the maximum by more than its last line. -/
theorem textSize_piece_le {m : Nat} {body piece : List Str}
    (h : piece ∈ Cuts.pieces (lsizeOf BUFFERSIZE) m [] (body.map bufferLine)) :
    textSize piece.dropLast ≤ m := by
  have hline : ∀ line ∈ piece.dropLast, lineSize line = lsizeOf BUFFERSIZE line := by
    intro line hl
    have hmem : line ∈ (Cuts.pieces (lsizeOf BUFFERSIZE) m [] (body.map bufferLine)).flatten :=
      List.mem_flatten.mpr ⟨piece, h, List.dropLast_subset _ hl⟩
    rw [Cuts.flatten_pieces, List.nil_append] at hmem
    obtain ⟨l, _, rfl⟩ := List.mem_map.mp hmem
    exact (lsizeOf_bufferLine l).symm
  rw [textSize, Cuts.total_congr lineSize hline]
  exact Cuts.pieces_bounded _ m [] _ (Nat.zero_le _) piece h

/-! ## When a body is split right -/

theorem splitRight_of_nonpos (e : SndEnv) {maxsize : Int} (h : maxsize ≤ 0) (body : List Str) :
    SplitRight e maxsize body := by
  have hm := sndMessage_unsplit e (sndSplit_of_nonpos h body)
  refine ⟨?_, sndMessage_whole e maxsize body, fun hp => absurd hp (not_lt.mpr h),
    fun hp => absurd hp (not_lt.mpr h)⟩
  rw [hm]
  intro i hi
  obtain rfl : i = 0 := by simpa using hi
  rfl

/-- No message is split that the first loop takes for small enough. -/
theorem splitRight_iff_of_le (e : SndEnv) {m : Nat} (hm : 0 < m) {body : List Str}
    (h : Cuts.total countSize body ≤ m) :
    SplitRight e m body ↔ textSize body ≤ m := by
  have hc : Cuts.cuts countSize m 0 body = 0 :=
    (Cuts.cuts_eq_zero_iff countSize m 0 body (Nat.zero_le _)).mpr (by omega)
  have hs : sndSplit m body = 0 := by rw [sndSplit_eq hm, if_pos hc]
  have hsnd := sndMessage_unsplit e hs
  constructor
  · intro hr
    have hsplit := hr.split_iff (by exact_mod_cast hm)
    rw [hsnd] at hsplit
    simpa using hsplit
  · intro hle
    refine ⟨?_, sndMessage_whole e m body, ?_, ?_⟩
    · rw [hsnd]
      intro i hi
      obtain rfl : i = 0 := by simpa using hi
      rfl
    · rw [hsnd]
      intro _ p hp
      obtain rfl := List.mem_singleton.mp hp
      have h1 := textSize_dropLast_le (body.map bufferLine)
      have h2 := textSize_map_bufferLine_le body
      exact_mod_cast h1.trans (h2.trans hle)
    · rw [hsnd]
      intro _
      simpa using hle

/-- A message that is split comes in as many parts as announced when the two
loops cut equally often. -/
theorem splitRight_iff_of_lt (e : SndEnv) {m : Nat} (hm : 0 < m) {body : List Str}
    (h : m < Cuts.total countSize body) :
    SplitRight e m body ↔
      m < textSize body ∧ Cuts.cuts countSize m 0 body = Cuts.cuts writeSize m 0 body := by
  have hc : Cuts.cuts countSize m 0 body ≠ 0 := fun h0 => by
    have := (Cuts.cuts_eq_zero_iff countSize m 0 body (Nat.zero_le _)).mp h0
    omega
  have hs : sndSplit m body = Cuts.cuts countSize m 0 body + 1 := by
    rw [sndSplit_eq hm, if_neg hc]
  have hs0 : sndSplit m body ≠ 0 := by omega
  have hlen := length_sndMessage e hs0
  constructor
  · intro hr
    have hfirst := hr.announced 0 (by omega)
    rw [announce_sndMessage e hs0] at hfirst
    have hcount := splitLine_inj hfirst
    have hsplit := hr.split_iff (by exact_mod_cast hm)
    rw [hlen] at hcount hsplit
    split at hcount
    · next h1 => exact ⟨by exact_mod_cast hsplit.mp h1, by omega⟩
    · omega
  · rintro ⟨hlt, heq⟩
    refine ⟨?_, sndMessage_whole e m body, ?_, ?_⟩
    · intro i hi
      rw [announce_sndMessage e hs0, if_pos (by omega), hs, hlen, heq]
    · rw [sndMessage_split e hs0]
      intro _ p hp
      obtain ⟨i, hi, rfl⟩ := List.mem_mapIdx.mp hp
      exact_mod_cast textSize_piece_le (List.getElem_mem hi)
    · intro _
      rw [hlen]
      constructor
      · intro _
        exact_mod_cast hlt
      · intro _
        omega

/-- At which maximum a body is split right: without a limit, when it is small
enough for both the sizes that count and the true ones, or when it is too
large for both and both loops cut it equally often. -/
theorem splitRight_iff (e : SndEnv) (maxsize : Int) (body : List Str) :
    SplitRight e maxsize body ↔
      maxsize ≤ 0 ∨
      ((textSize body : Int) ≤ maxsize ∧ (Cuts.total countSize body : Int) ≤ maxsize) ∨
      (maxsize < (textSize body : Int) ∧ maxsize < (Cuts.total countSize body : Int) ∧
        Cuts.cuts countSize maxsize.toNat 0 body = Cuts.cuts writeSize maxsize.toNat 0 body) := by
  by_cases h0 : maxsize ≤ 0
  · exact iff_of_true (splitRight_of_nonpos e h0 body) (Or.inl h0)
  · obtain ⟨m, rfl⟩ : ∃ m : Nat, maxsize = m := ⟨maxsize.toNat, by omega⟩
    have hm : 0 < m := by omega
    rw [Int.toNat_natCast]
    rcases Nat.lt_or_ge m (Cuts.total countSize body) with h | h
    · rw [splitRight_iff_of_lt e hm h]
      constructor
      · rintro ⟨ht, hc⟩
        exact Or.inr (Or.inr ⟨by omega, by omega, hc⟩)
      · rintro (hn | ⟨_, hn⟩ | ⟨ht, _, hc⟩)
        · exact absurd hn h0
        · omega
        · exact ⟨by omega, hc⟩
    · rw [splitRight_iff_of_le e hm h]
      constructor
      · intro ht
        exact Or.inr (Or.inl ⟨by omega, by omega⟩)
      · rintro (hn | ⟨ht, _⟩ | ⟨_, hn, _⟩)
        · exact absurd hn h0
        · omega
        · omega

/-! ## Which bodies are split right at every maximum -/

/-- A line as it comes from the body: LF at its end only. -/
def IsLine (line : Str) : Prop := lf ∉ line.dropLast

/-- Both loops see the size of the line: it fits the buffer, and if it ends in
LF the LF is within the first eight bytes. -/
def SeenWhole (line : Str) : Prop :=
  line.length < BUFFERSIZE ∧ (line.length ≤ PTRSIZE ∨ line.getLast? ≠ some lf)

theorem strLast_ne_lf {line : Str} (hl : IsLine line) (h : PTRSIZE < line.length) :
    strLast line PTRSIZE ≠ lf := by
  have hp : PTRSIZE = 8 := rfl
  have hi : 7 < line.dropLast.length := by
    rw [List.length_dropLast]
    omega
  have hmin : min (line.length - 1) (PTRSIZE - 1) = 7 := by omega
  rw [strLast, hmin]
  intro he
  refine hl ?_
  rw [← he, List.getD_eq_getElem?_getD, List.getElem?_eq_getElem (by omega), Option.getD_some,
    ← List.getElem_dropLast hi]
  exact List.getElem_mem hi

/-- The loop that counts misses the LF of a longer line and nothing else. -/
theorem countSize_of_lt {line : Str} (hl : IsLine line) (h : PTRSIZE < line.length) :
    countSize line = line.length := by
  rw [countSize, lsizeOf, if_neg (strLast_ne_lf hl h)]
  rfl

theorem countSize_le {line : Str} (hl : IsLine line) : countSize line ≤ lineSize line := by
  rcases Nat.lt_or_ge PTRSIZE line.length with h | h
  · rw [countSize_of_lt hl h, lineSize]
    omega
  · exact (lsizeOf_eq h).le

theorem countSize_eq_iff {line : Str} (hl : IsLine line) :
    countSize line = lineSize line ↔ line.length ≤ PTRSIZE ∨ line.getLast? ≠ some lf := by
  rcases Nat.lt_or_ge PTRSIZE line.length with h | h
  · rw [countSize_of_lt hl h, lineSize]
    by_cases hlf : line.getLast? = some lf
    · rw [if_pos hlf]
      exact iff_of_false (by omega) (by simp only [hlf, ne_eq, not_true, or_false]; omega)
    · rw [if_neg hlf]
      exact iff_of_true rfl (Or.inr hlf)
  · exact iff_of_true (lsizeOf_eq h) (Or.inl h)

/-- The loop that writes misses what does not fit the buffer. -/
theorem writeSize_lt {line : Str} (hl : IsLine line) (h : BUFFERSIZE ≤ line.length) :
    writeSize line < lineSize line := by
  have hb : BUFFERSIZE = 32768 := rfl
  have hlen : (line.take (BUFFERSIZE - 1)).length = 32767 := by
    rw [List.length_take]
    omega
  have hlast : (line.take (BUFFERSIZE - 1)).getLast? ≠ some lf := by
    intro he
    refine hl ?_
    rw [List.dropLast_eq_take]
    refine (List.take_subset_take_left line ?_) (List.mem_of_getLast? he)
    omega
  rw [writeSize, lineSize_bufferLine, lineSize, lineSize, hlen, if_neg hlast]
  omega

/-- A body of lines that both loops see whole is split right at every maximum. -/
theorem splitRight_of_seenWhole (e : SndEnv) {body : List Str}
    (h : ∀ line ∈ body, countSize line = lineSize line ∧ writeSize line = lineSize line)
    (maxsize : Int) : SplitRight e maxsize body := by
  have ht : Cuts.total countSize body = textSize body :=
    Cuts.total_congr _ fun line hl => (h line hl).1
  have hc : Cuts.cuts countSize maxsize.toNat 0 body = Cuts.cuts writeSize maxsize.toNat 0 body :=
    Cuts.cuts_congr _ _ _ _ fun line hl => (h line hl).1.trans (h line hl).2.symm
  rw [splitRight_iff, ht]
  rcases lt_or_ge maxsize (textSize body : Int) with hlt | hle
  · exact Or.inr (Or.inr ⟨hlt, hlt, hc⟩)
  · exact Or.inr (Or.inl ⟨hle, hle⟩)

theorem length_le_countSize (line : Str) : line.length ≤ countSize line := Nat.le_add_right _ _

/-- Where the loop that counts misses a LF, the size it has for the whole body
is a maximum that shows it. -/
theorem countSize_eq_of_splitRight (e : SndEnv) {body : List Str} (hb : ∀ line ∈ body, IsLine line)
    (h : ∀ maxsize, SplitRight e maxsize body) : ∀ line ∈ body, countSize line = lineSize line := by
  have hle : ∀ line ∈ body, countSize line ≤ lineSize line :=
    fun line hl => countSize_le (hb line hl)
  have htotal := Cuts.total_le countSize hle
  rcases (splitRight_iff e (Cuts.total countSize body) body).mp (h _) with h0 | ⟨ht, _⟩ | ⟨_, hn, _⟩
  · intro line hl
    have h1 := Cuts.le_total countSize hl
    have h2 := length_le_countSize line
    obtain rfl : line = [] := List.length_eq_zero_iff.mp (by omega)
    rfl
  · refine Cuts.eq_of_total_eq countSize hle ?_
    rw [textSize] at ht
    omega
  · omega

/-- Where a line does not fit the buffer, a maximum just below the size of the
body shows it: one cut is announced and none is made. -/
theorem length_lt_of_splitRight (e : SndEnv) {body : List Str} (hb : ∀ line ∈ body, IsLine line)
    (hc : ∀ line ∈ body, countSize line = lineSize line)
    (h : ∀ maxsize, SplitRight e maxsize body) : ∀ line ∈ body, line.length < BUFFERSIZE := by
  intro line hl
  by_contra hlong
  have hbuf : BUFFERSIZE = 32768 := rfl
  have hlarge : BUFFERSIZE ≤ Cuts.total lineSize body := by
    have h1 := Cuts.le_total lineSize hl
    have h2 : line.length ≤ lineSize line := Nat.le_add_right _ _
    omega
  have hwle : ∀ line ∈ body, writeSize line ≤ lineSize line :=
    fun line _ => lineSize_bufferLine_le line
  have hwlt : Cuts.total writeSize body < Cuts.total lineSize body := by
    refine lt_of_le_of_ne (Cuts.total_le writeSize hwle) ?_
    intro heq
    have hsame := Cuts.eq_of_total_eq writeSize hwle heq line hl
    have hlt := writeSize_lt (hb line hl) (by omega)
    omega
  have hcount : Cuts.total countSize body = Cuts.total lineSize body :=
    Cuts.total_congr _ hc
  obtain ⟨m, hm⟩ : ∃ m, Cuts.total lineSize body = m + 1 :=
    ⟨Cuts.total lineSize body - 1, by omega⟩
  have hone : Cuts.cuts countSize m 0 body = 1 :=
    Cuts.cuts_of_total_eq_succ countSize m 0 body (Nat.zero_le _) (by omega)
  have hnone : Cuts.cuts writeSize m 0 body = 0 :=
    (Cuts.cuts_eq_zero_iff writeSize m 0 body (Nat.zero_le _)).mpr (by omega)
  rcases (splitRight_iff e m body).mp (h m) with h0 | ⟨ht, _⟩ | ⟨_, _, heq⟩
  · omega
  · rw [textSize] at ht
    omega
  · rw [Int.toNat_natCast, hone, hnone] at heq
    exact absurd heq (by decide)

/-- A body is split right at every maximum just when both loops see all its
lines whole. -/
theorem forall_splitRight_iff (e : SndEnv) {body : List Str} (hb : ∀ line ∈ body, IsLine line) :
    (∀ maxsize, SplitRight e maxsize body) ↔ ∀ line ∈ body, SeenWhole line := by
  constructor
  · intro h line hl
    have hc := countSize_eq_of_splitRight e hb h
    exact ⟨length_lt_of_splitRight e hb hc h line hl,
      (countSize_eq_iff (hb line hl)).mp (hc line hl)⟩
  · intro h
    refine splitRight_of_seenWhole e fun line hl => ⟨?_, ?_⟩
    · exact (countSize_eq_iff (hb line hl)).mpr (h line hl).2
    · exact lineSize_bufferLine_of_lt (h line hl).1

/-- When a body is split right: at a given maximum, and at all of them. -/
theorem sndMessage_splitRight_iff (e : SndEnv) (body : List Str) :
    (∀ maxsize : Int, SplitRight e maxsize body ↔
      maxsize ≤ 0 ∨
      ((textSize body : Int) ≤ maxsize ∧ (Cuts.total countSize body : Int) ≤ maxsize) ∨
      (maxsize < (textSize body : Int) ∧ maxsize < (Cuts.total countSize body : Int) ∧
        Cuts.cuts countSize maxsize.toNat 0 body = Cuts.cuts writeSize maxsize.toNat 0 body)) ∧
    ((∀ line ∈ body, IsLine line) →
      ((∀ maxsize : Int, SplitRight e maxsize body) ↔ ∀ line ∈ body, SeenWhole line)) :=
  ⟨fun maxsize => splitRight_iff e maxsize body, forall_splitRight_iff e⟩

/-- A message the gateway makes. -/
def newsEnv : SndEnv :=
  { ck := ⟨0, 0, gmtime, fun _ => lit "GMT"⟩
    msg :=
      { nodeFrom := ⟨2, 5020, 1, 0, []⟩, nodeTo := ⟨2, 5020, 2, 0, []⟩,
        nodeOrig := ⟨2, 5020, 1, 0, []⟩, attr := 0, cost := 0, date := 0, tz := none,
        nameTo := lit "All", nameFrom := lit "User", subject := [], area := none }
    subj := lit "News"
    kludges := fun _ _ => []
    trailer := []
    noFsc0047 := false
    addr := ⟨2, 5020, 1, 0, []⟩
    timeSplit := 0
    seq := 1 }

/-- Six lines of nine letters: the loop that counts closes a part every three
lines and has three announced, the loop that writes closes one every two lines
and makes four. -/
theorem sndMessage_miscounts :
    ¬ ∀ (e : SndEnv) (maxsize : Int) (body : List Str), (∀ line ∈ body, IsLine line) →
      SplitRight e maxsize body := by
  intro h
  have hline : IsLine (lit "ninebytes" ++ [lf]) := by
    rw [IsLine, List.dropLast_concat]
    decide
  have hr := h newsEnv 20 (List.replicate 6 (lit "ninebytes" ++ [lf])) fun line hl =>
    List.eq_of_mem_replicate hl ▸ hline
  rcases (splitRight_iff _ _ _).mp hr with h0 | ⟨ht, _⟩ | ⟨_, _, hc⟩
  · exact absurd h0 (by decide)
  · exact absurd ht (by decide)
  · exact absurd hc (by decide)

end Fidogate

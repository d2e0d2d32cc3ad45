/-
# `Fidogate.Common.HeaderEnc` — mime.c: the encoder of header lines

The state carries what the encoder did as well: its writes to the buffer, the
tails of multibyte sequences it put behind the limit of a line, and the calls
of `encode`.  `p` and `rest` are what is left of the whole string, since the
search for the end of a sequence does not look at the length of the word.
Lengths are numbers: the lines of a header are printed to a buffer of 4096
bytes before they come here, so no counter overflows.
-/
import Fidogate.Common.MimeBase64
import Fidogate.Lib.Trims

namespace Fidogate

open Bytes

/-! ## The state -/

/-- `MIME_QP` and `MIME_B64` -/
inductive MimeEncType
  | qp
  | b64
  deriving DecidableEq, Repr

/-- A write of `len` bytes from index `pos` on, where `size` are allocated. -/
structure EncWrite where
  pos : Nat
  len : Nat
  size : Nat
deriving DecidableEq, Repr

/-- A tail that `mime_word_enc_qp_flush_mb` is about to put out. -/
structure EncTail where
  pos : Nat
  codes : Nat
  size : Nat
deriving DecidableEq, Repr

/-- A call of `encode`: the bytes of the word that were left, and those it
took.  `again` says that the loop broke the line before it, `fresh` that the
loop or the start of the word did. -/
structure EncCall where
  left : Nat
  consumed : Nat
  again : Bool
  fresh : Bool
deriving DecidableEq, Repr

/-- `mime_word_enc_state`; `encodedLine` is what stands in front of `pos`. -/
structure MimeWordEncState where
  encodedLine : Str
  size : Nat
  vpos : Nat
  rem : Str
  isMime : Bool
  writes : List EncWrite
  tails : List EncTail
  calls : List EncCall
deriving DecidableEq, Repr

/-- `pos` -/
def MimeWordEncState.pos (s : MimeWordEncState) : Nat := s.encodedLine.length

/-- `MIME_HEADER_CODE_START` -/
def MIME_HEADER_CODE_START : Str := lit "=?"

/-- `MIME_HEADER_CODE_MIDDLE_QP` and `MIME_HEADER_CODE_MIDDLE_B64` -/
def MimeEncType.encoding : MimeEncType → Str
  | .qp => lit "?Q?"
  | .b64 => lit "?B?"

/-- `MIME_HEADER_CODE_END` -/
def MIME_HEADER_CODE_END : Str := lit "?="

/-- `MIME_HEADER_STR_DELIM` -/
def MIME_HEADER_STR_DELIM : Str := [lf]

/-- `MIME_MAX_ENC_LEN` -/
def MIME_MAX_ENC_LEN : Nat := 31

/-- `MAX_UTF8_LEN` -/
def MAX_UTF8_LEN : Nat := 4

/-- The size of the buffer at first; it grows by one less. -/
def encSize : Nat := MIME_STRING_LIMIT + (MIME_HEADER_STR_DELIM.length + 1)

/-! ## Writes -/

/-- Bytes are written at `pos`. -/
def encStore (t : Str) (s : MimeWordEncState) : MimeWordEncState :=
  { s with
    encodedLine := s.encodedLine ++ t
    vpos := s.vpos + t.length
    writes := s.writes ++ [⟨s.pos, t.length, s.size⟩] }

/-- `encoded_line[pos] = '\0'` -/
def encTerminate (s : MimeWordEncState) : MimeWordEncState :=
  { s with writes := s.writes ++ [⟨s.pos, 1, s.size⟩] }

/-- `mime_inc_size` -/
def mimeIncSize (inc : Nat) (s : MimeWordEncState) : MimeWordEncState :=
  { s with size := s.size + inc }

/-- `mime_check_and_inc_size` -/
def mimeCheckAndIncSize (inc : Nat) (s : MimeWordEncState) : MimeWordEncState :=
  if s.pos + inc ≤ s.size - 1 then s else mimeIncSize inc s

/-- `mime_strcat` -/
def mimeStrcat (str : Str) (s : MimeWordEncState) : MimeWordEncState :=
  encTerminate (encStore str s)

/-- `mime_strlcpy` -/
def mimeStrlcpy (str : Str) (len : Nat) (s : MimeWordEncState) : MimeWordEncState :=
  encTerminate (mimeCheckAndIncSize 1 (encStore (str.take len) s))

/-! ## Words and lines -/

/-- `isspace` -/
def isspace (c : UInt8) : Bool := c == sp || 9 ≤ c && c ≤ 13

/-- `charset_is_7bit` -/
def charsetIs7bit (s : Str) : Bool := s.all fun c => c &&& 0x80 == 0

/-- `mime_b64_calc_len` -/
def mimeB64CalcLen (s : Str) : Nat :=
  s.length / 3 * 4 + if s.length % 3 ≠ 0 then 4 else 0

/-- `mime_qp_calc_len` -/
def mimeQpCalcLen (s : Str) : Nat :=
  (s.map fun c => if mimeQpIsPlain c then 1 else QP_NLET_MAX).sum

/-- `calc_len` -/
def MimeEncType.calcLen : MimeEncType → Str → Nat
  | .qp => mimeQpCalcLen
  | .b64 => mimeB64CalcLen

section

variable (cs : Str) (enc : MimeEncType)

/-- `mime_word_calc_len`: the length, and the spaces in front of `start`.
`calc_len` reads `len` bytes from `start` on; bytes behind the string do not
count, and nothing looks at the length then. -/
def mimeWordCalcLen (s : MimeWordEncState) (rest : Str) (len : Nat) : Nat × Nat :=
  let token := rest.take len
  let start := (token.takeWhile isspace).length
  let is7bit := charsetIs7bit token
  let encodedLen :=
    if s.isMime then
      if is7bit then MIME_HEADER_CODE_END.length + len else enc.calcLen token
    else if is7bit then len
    else
      1 + MIME_HEADER_CODE_START.length + cs.length + enc.encoding.length +
        enc.calcLen ((rest.drop start).take len)
  (encodedLen + if s.rem ≠ [] then B64_NLET_PER_CHUNK else 0, start)

/-- Bytes are put behind those in `rem`. -/
def encRemind (t : Str) (len : Nat) (s : MimeWordEncState) : MimeWordEncState :=
  { s with
    rem := s.rem ++ t
    writes := s.writes ++ [⟨s.rem.length, len, B64_ENC_CHUNK⟩] }

/-- `mime_flush_reminder` -/
def mimeFlushReminder (s : MimeWordEncState) : MimeWordEncState :=
  if s.rem = [] then s else { encStore (mimeB64EncodeChunk s.rem) s with rem := [] }

/-- `mime_add_reminder`: `p` goes on by the value returned, and `len` goes down
by it. -/
def mimeAddReminder (s : MimeWordEncState) (p : Str) (len limit : Nat) :
    MimeWordEncState × Nat :=
  if s.rem = [] then (s, 0)
  else if s.rem.length + len < B64_ENC_CHUNK then (encRemind (p.take len) len s, len)
  else if s.vpos + B64_NLET_PER_CHUNK > limit then (s, 0)
  else
    let remLeft := B64_ENC_CHUNK - s.rem.length
    (mimeFlushReminder (encRemind (p.take remLeft) remLeft s), remLeft)

/-- `mime_save_reminder` of less than a chunk -/
def mimeSaveReminder (s : MimeWordEncState) (p : Str) (len : Nat) : MimeWordEncState × Nat :=
  (encRemind (p.take len) len { s with rem := [] }, len)

/-- `mime_word_end` -/
def mimeWordEnd (s : MimeWordEncState) : MimeWordEncState :=
  if s.isMime then { mimeStrcat MIME_HEADER_CODE_END s with isMime := false } else s

/-- `mime_line_break` -/
def mimeLineBreak (s : MimeWordEncState) : MimeWordEncState :=
  { mimeStrcat MIME_HEADER_STR_DELIM (mimeWordEnd (mimeIncSize (encSize - 1) s)) with
    vpos := 0
    isMime := false }

/-- A word with one chunk does not fit the line. -/
def wordStartBreaks (s : MimeWordEncState) : Bool :=
  let len := 1 + MIME_HEADER_CODE_START.length + cs.length + enc.encoding.length +
    B64_NLET_PER_CHUNK + MIME_HEADER_CODE_END.length
  s.vpos + len > MIME_STRING_LIMIT

/-- `mime_word_start` -/
def mimeWordStart (s : MimeWordEncState) : MimeWordEncState :=
  let s := if wordStartBreaks cs enc s then mimeLineBreak s else s
  let s := mimeStrcat MIME_HEADER_CODE_START (mimeStrcat [sp] s)
  { mimeStrcat enc.encoding (mimeStrcat cs s) with isMime := true }

/-- `mime_switch_to_plain` -/
def mimeSwitchToPlain (s : MimeWordEncState) : MimeWordEncState :=
  if ! s.isMime then s
  else
    let extraLen := if s.rem ≠ [] then B64_NLET_PER_CHUNK else 0
    let s :=
      if s.vpos + extraLen + MIME_HEADER_CODE_END.length > MIME_STRING_LIMIT then
        mimeWordStart cs enc (mimeLineBreak s)
      else s
    mimeWordEnd (mimeFlushReminder s)

/-- `mime_max_mb_chunks_qp` and `mime_max_mb_chunks_b64` -/
def MimeEncType.maxMbChunks : Nat :=
  if ! strieq cs (lit "utf-8") then 0
  else
    match enc with
    | .qp => MAX_UTF8_LEN - 1
    | .b64 => (MAX_UTF8_LEN - 1 + (B64_ENC_CHUNK - 1)) / B64_ENC_CHUNK

/-- A byte of a sequence behind its first. -/
def isMbTail (c : UInt8) : Bool := c &&& 0x80 == 0x80 && c &&& 0x40 == 0

/-- `mime_get_mb_tail` -/
def mimeGetMbTail (p : Str) : Nat :=
  if enc.maxMbChunks cs = 0 || ! strieq cs (lit "utf-8") then 0
  else (p.takeWhile isMbTail).length

/-! ## The encoders -/

/-- The variables of the loop of `mime_word_enc_b64`. -/
structure B64Enc where
  state : MimeWordEncState
  p : Str
  left : Nat
  done : Nat
  endOfLine : Bool

/-- The loop of `mime_word_enc_b64`; `none` if the rounds do not suffice. -/
def mimeWordEncB64Loop (limit : Nat) : Nat → B64Enc → Option B64Enc
  | 0, _ => none
  | n + 1, e =>
      if e.left < B64_ENC_CHUNK || e.endOfLine then some e
      else
        let endOfLine : Bool :=
          e.state.vpos + (MimeEncType.b64.maxMbChunks cs + 1) * B64_NLET_PER_CHUNK > limit
        let toEncode := if endOfLine then mimeGetMbTail cs .b64 e.p else e.left
        let chunk := min toEncode B64_ENC_CHUNK
        let state :=
          if chunk = 0 then e.state else encStore (mimeB64EncodeChunk (e.p.take chunk)) e.state
        mimeWordEncB64Loop limit n
          ⟨state, e.p.drop chunk, e.left - chunk, e.done + chunk, endOfLine⟩

/-- `mime_word_enc_b64` -/
def mimeWordEncB64 (s : MimeWordEncState) (p : Str) (len : Nat) :
    Option (MimeWordEncState × Nat) := do
  let limit := MIME_STRING_LIMIT - MIME_HEADER_CODE_END.length - B64_NLET_PER_CHUNK
  let (s, done) := mimeAddReminder s p len limit
  let e ← mimeWordEncB64Loop cs limit (len + 2) ⟨s, p.drop done, len - done, done, false⟩
  let s := encTerminate e.state
  if ! e.endOfLine && e.left < B64_ENC_CHUNK then
    let (s, n) := mimeSaveReminder s e.p e.left
    some (s, e.done + n)
  else some (s, e.done)

/-- `mime_word_enc_qp_flush_mb` -/
def mimeWordEncQpFlushMb (s : MimeWordEncState) (p : Str) : MimeWordEncState × Nat :=
  let toEncode := mimeGetMbTail cs .qp p
  let t := p.take toEncode
  let s := { s with tails := s.tails ++ [⟨s.pos, (qpCodes t).length, s.size⟩] }
  (t.foldl (fun s c => encStore (mimeQpEncodeOctet c) s) s, toEncode)

/-- The loop of `mime_word_enc_qp`, over `left`: what it has consumed in the
end.  `len - left` is that also if `left` was less than the tail. -/
def mimeWordEncQpLoop (limit : Nat) : Nat → MimeWordEncState → Str → MimeWordEncState × Nat
  | 0, s, _ => (s, 0)
  | left + 1, s, p =>
      if s.vpos + (MimeEncType.qp.maxMbChunks cs + 1) * QP_NLET_MAX > limit then
        mimeWordEncQpFlushMb cs s p
      else
        let r := mimeWordEncQpLoop limit left
          (encStore (mimeQpEncodeOctet (p.headD nul)) s) p.tail
        (r.1, r.2 + 1)

/-- `mime_word_enc_qp` -/
def mimeWordEncQp (s : MimeWordEncState) (p : Str) (len : Nat) : MimeWordEncState × Nat :=
  let limit := MIME_STRING_LIMIT - MIME_HEADER_CODE_END.length
  let (s, consumed) := mimeWordEncQpLoop cs limit len s p
  (encTerminate s, consumed)

/-- `encode` -/
def MimeEncType.encode (s : MimeWordEncState) (p : Str) (len : Nat) :
    Option (MimeWordEncState × Nat) :=
  match enc with
  | .qp => some (mimeWordEncQp cs s p len)
  | .b64 => mimeWordEncB64 cs s p len

/-! ## Headers -/

/-- `mime_7bit_try`, which may give up with the state it has switched. -/
def mime7bitTry (s : MimeWordEncState) (rest : Str) (len : Nat) : MimeWordEncState × Bool :=
  let s := mimeSwitchToPlain cs enc s
  if len > MIME_STRING_LIMIT then (s, false)
  else
    let (encodedLen, start) := mimeWordCalcLen cs enc s rest len
    let s := if s.vpos + encodedLen > MIME_STRING_LIMIT then mimeLineBreak s else s
    if lf ∈ rest.take start then
      (mimeStrlcpy (rest.drop start) (len - start) (mimeStrcat [sp] s), true)
    else (mimeStrlcpy rest len s, true)

/-- The loop of `mime_word_enc`; `none` if the rounds do not suffice, or if
`left -= consumed` wraps around. -/
def mimeWordEncLoop : Nat → MimeWordEncState → Str → Nat → Bool → Option MimeWordEncState
  | 0, _, _, _, _ => none
  | n + 1, s, p, left, again => do
      let fresh := again || ! s.isMime && wordStartBreaks cs enc s
      let s := if ! s.isMime then mimeWordStart cs enc s else s
      let (s, consumed) ← enc.encode cs s p left
      let s := { s with calls := s.calls ++ [⟨left, consumed, again, fresh⟩] }
      if left < consumed then none
      else if left - consumed = 0 then some s
      else mimeWordEncLoop n (mimeLineBreak s) (p.drop consumed) (left - consumed) true

/-- `mime_word_enc` -/
def mimeWordEnc (s : MimeWordEncState) (rest : Str) (len : Nat) : Option MimeWordEncState :=
  let (s, ok) := if charsetIs7bit (rest.take len) then mime7bitTry cs enc s rest len else (s, false)
  if ok then some s
  else
    let start := (mimeWordCalcLen cs enc s rest len).2
    if ! s.isMime then mimeWordEncLoop cs enc (len + 2) s (rest.drop start) (len - start) false
    else mimeWordEncLoop cs enc (len + 2) s rest len false

/-- `mime_header_enc_start` -/
def mimeHeaderEncStart : MimeWordEncState :=
  ⟨[], encSize, 0, [], false, [⟨0, 1, encSize⟩], [], []⟩

/-- `mime_header_enc_end`; the byte in front of an empty line is taken to be no
LF. -/
def mimeHeaderEncEnd (s : MimeWordEncState) : MimeWordEncState :=
  let s :=
    if s.isMime then
      let len := MIME_HEADER_CODE_END.length + if s.rem ≠ [] then B64_NLET_PER_CHUNK else 0
      let s :=
        if s.vpos + len > MIME_STRING_LIMIT then mimeWordStart cs enc (mimeLineBreak s) else s
      mimeWordEnd (mimeFlushReminder s)
    else s
  let s := mimeCheckAndIncSize (MIME_HEADER_STR_DELIM.length + 1) s
  let s := if s.encodedLine.getLast? ≠ some lf then mimeStrcat MIME_HEADER_STR_DELIM s else s
  encTerminate s

/-- CR and LF -/
def isCrlf (c : UInt8) : Bool := c == cr || c == lf

/-- The loop of `mime_header_unfold`, `d` being what is copied. -/
def mimeHeaderUnfoldLoop : Str → Str → Str
  | d, [] => d
  | d, c :: s =>
      if ! isCrlf c then mimeHeaderUnfoldLoop (d ++ [c]) s
      else
        match s with
        | [] => d
        | c' :: _ =>
            if ! isCrlf c' && ! isDelim blanks c' && d.getLast?.any (! isDelim blanks ·) then
              mimeHeaderUnfoldLoop (d ++ [sp]) s
            else mimeHeaderUnfoldLoop d s

/-- `mime_header_unfold` -/
def mimeHeaderUnfold (src : Str) : Str := mimeHeaderUnfoldLoop [] src

/-- The loop of `mime_header_enc` over the words; `rest` begins with the word,
of `len` bytes. -/
def mimeHeaderEncLoop : Nat → MimeWordEncState → Str → Nat → Option MimeWordEncState
  | 0, _, _, _ => none
  | n + 1, s, rest, len => do
      let s ← mimeWordEnc cs enc s rest len
      let rest := rest.drop len
      let spaces := (rest.takeWhile (isDelim blanks)).length
      let word := rest.drop spaces
      if word = [] then some s
      else mimeHeaderEncLoop n s rest (spaces + (word.takeWhile (! isDelim blanks ·)).length)

/-- `mime_header_enc`: ERROR is `some none`. -/
def mimeHeaderEnc (src : Str) : Option (Option MimeWordEncState) :=
  let src := mimeHeaderUnfold src
  if sp ∉ src then some none
  else
    let len := (src.takeWhile (· != sp)).length
    (mimeHeaderEncLoop cs enc (src.length + 1) mimeHeaderEncStart src len).map fun s =>
      some (mimeHeaderEncEnd cs enc s)

end

/-! ## What an operation leaves alone -/

section

variable {cs : Str} {enc : MimeEncType} (t : Str) (s : MimeWordEncState)

@[simp] theorem rem_encStore : (encStore t s).rem = s.rem := rfl
@[simp] theorem calls_encStore : (encStore t s).calls = s.calls := rfl
@[simp] theorem isMime_encStore : (encStore t s).isMime = s.isMime := rfl
@[simp] theorem vpos_encStore : (encStore t s).vpos = s.vpos + t.length := rfl
@[simp] theorem rem_encTerminate : (encTerminate s).rem = s.rem := rfl
@[simp] theorem calls_encTerminate : (encTerminate s).calls = s.calls := rfl
@[simp] theorem isMime_encTerminate : (encTerminate s).isMime = s.isMime := rfl
@[simp] theorem vpos_encTerminate : (encTerminate s).vpos = s.vpos := rfl
@[simp] theorem rem_mimeStrcat : (mimeStrcat t s).rem = s.rem := rfl
@[simp] theorem calls_mimeStrcat : (mimeStrcat t s).calls = s.calls := rfl
@[simp] theorem isMime_mimeStrcat : (mimeStrcat t s).isMime = s.isMime := rfl
@[simp] theorem vpos_mimeStrcat : (mimeStrcat t s).vpos = s.vpos + t.length := rfl
@[simp] theorem calls_encRemind (len : Nat) : (encRemind t len s).calls = s.calls := rfl
@[simp] theorem isMime_encRemind (len : Nat) : (encRemind t len s).isMime = s.isMime := rfl

@[simp] theorem length_encoding : enc.encoding.length = 3 := by cases enc <;> rfl

@[simp] theorem rem_mimeCheckAndIncSize (inc : Nat) : (mimeCheckAndIncSize inc s).rem = s.rem := by
  rw [mimeCheckAndIncSize]
  split <;> rfl

@[simp] theorem calls_mimeCheckAndIncSize (inc : Nat) :
    (mimeCheckAndIncSize inc s).calls = s.calls := by
  rw [mimeCheckAndIncSize]
  split <;> rfl

@[simp] theorem isMime_mimeCheckAndIncSize (inc : Nat) :
    (mimeCheckAndIncSize inc s).isMime = s.isMime := by
  rw [mimeCheckAndIncSize]
  split <;> rfl

@[simp] theorem rem_mimeWordEnd : (mimeWordEnd s).rem = s.rem := by
  rw [mimeWordEnd]
  split <;> rfl

@[simp] theorem calls_mimeWordEnd : (mimeWordEnd s).calls = s.calls := by
  rw [mimeWordEnd]
  split <;> rfl

@[simp] theorem isMime_mimeWordEnd : (mimeWordEnd s).isMime = false := by
  rw [mimeWordEnd]
  split
  · rfl
  · next h => simpa using h

@[simp] theorem rem_mimeLineBreak : (mimeLineBreak s).rem = s.rem := rem_mimeWordEnd _
@[simp] theorem calls_mimeLineBreak : (mimeLineBreak s).calls = s.calls := calls_mimeWordEnd _
@[simp] theorem isMime_mimeLineBreak : (mimeLineBreak s).isMime = false := rfl
@[simp] theorem vpos_mimeLineBreak : (mimeLineBreak s).vpos = 0 := rfl

@[simp] theorem rem_mimeWordStart : (mimeWordStart cs enc s).rem = s.rem := by
  rw [mimeWordStart]
  split <;> simp

@[simp] theorem calls_mimeWordStart : (mimeWordStart cs enc s).calls = s.calls := by
  rw [mimeWordStart]
  split <;> simp

@[simp] theorem isMime_mimeWordStart : (mimeWordStart cs enc s).isMime = true := rfl

@[simp] theorem calls_mimeFlushReminder : (mimeFlushReminder s).calls = s.calls := by
  rw [mimeFlushReminder]
  split <;> rfl

@[simp] theorem isMime_mimeFlushReminder : (mimeFlushReminder s).isMime = s.isMime := by
  rw [mimeFlushReminder]
  split <;> rfl

@[simp] theorem rem_mimeFlushReminder : (mimeFlushReminder s).rem = [] := by
  rw [mimeFlushReminder]
  split
  · assumption
  · rfl

@[simp] theorem calls_mimeSwitchToPlain : (mimeSwitchToPlain cs enc s).calls = s.calls := by
  rw [mimeSwitchToPlain]
  split
  · rfl
  · simp only [calls_mimeWordEnd, calls_mimeFlushReminder, apply_ite MimeWordEncState.calls,
      calls_mimeWordStart, calls_mimeLineBreak, ite_self]

@[simp] theorem isMime_mimeSwitchToPlain : (mimeSwitchToPlain cs enc s).isMime = false := by
  rw [mimeSwitchToPlain]
  split
  · next h => simpa using h
  · simp

/-- The word begins on a new line. -/
theorem vpos_mimeWordStart (h : s.vpos = 0 ∨ wordStartBreaks cs enc s = true) :
    (mimeWordStart cs enc s).vpos = 6 + cs.length := by
  have hstart : MIME_HEADER_CODE_START.length = 2 := rfl
  rw [mimeWordStart]
  split
  · simp only [vpos_mimeStrcat, vpos_mimeLineBreak, length_encoding, hstart, List.length_singleton]
    omega
  · next hb =>
      have hv : s.vpos = 0 := h.resolve_right hb
      simp only [vpos_mimeStrcat, hv, length_encoding, hstart, List.length_singleton]
      omega

end

/-! ## The rest of a word -/

/-- Behind the word comes no byte that goes on with a sequence. -/
def StopsAt (p : Str) (left : Nat) : Prop := ∀ c ∈ (p.drop left).head?, isMbTail c = false

theorem StopsAt.drop {p : Str} {left k : Nat} (h : StopsAt p left) (hk : k ≤ left) :
    StopsAt (p.drop k) (left - k) := by
  rw [StopsAt, List.drop_drop, Nat.add_sub_cancel' hk]
  exact h

theorem length_takeWhile_le {q : UInt8 → Bool} : ∀ {n : Nat} {p : Str},
    (∀ c ∈ (p.drop n).head?, q c = false) → (p.takeWhile q).length ≤ n
  | _, [], _ => Nat.zero_le _
  | 0, c :: p, h => by
      have hc : q c = false := h c rfl
      rw [List.takeWhile_cons_of_neg (by rw [hc]; exact Bool.false_ne_true)]
      exact Nat.le_refl 0
  | n + 1, c :: p, h => by
      have ih := length_takeWhile_le (q := q) (n := n) (p := p) h
      rw [List.takeWhile_cons]
      split
      · exact Nat.succ_le_succ ih
      · exact Nat.zero_le _

theorem drop_length_takeWhile (q : UInt8 → Bool) : ∀ p : Str,
    p.drop (p.takeWhile q).length = p.dropWhile q
  | [] => rfl
  | c :: p => by
      rw [List.takeWhile_cons, List.dropWhile_cons]
      split
      · exact drop_length_takeWhile q p
      · rfl

section

variable {cs : Str} {enc : MimeEncType}

/-- A sequence does not go on behind its word. -/
theorem StopsAt.tail_le {p : Str} {left : Nat} (h : StopsAt p left) :
    mimeGetMbTail cs enc p ≤ left := by
  rw [mimeGetMbTail]
  split
  · exact Nat.zero_le _
  · exact length_takeWhile_le h

theorem mimeAddReminder_le (s : MimeWordEncState) (p : Str) (len limit : Nat) :
    (mimeAddReminder s p len limit).2 ≤ len := by
  rw [mimeAddReminder]
  split
  · exact Nat.zero_le _
  · split
    · exact Nat.le_refl _
    · split
      · exact Nat.zero_le _
      · next h _ =>
          show B64_ENC_CHUNK - s.rem.length ≤ len
          omega

/-- Less than a chunk is carried to the next word. -/
theorem rem_mimeAddReminder {s : MimeWordEncState} (h : s.rem.length < B64_ENC_CHUNK) (p : Str)
    (len limit : Nat) : (mimeAddReminder s p len limit).1.rem.length < B64_ENC_CHUNK := by
  rw [mimeAddReminder]
  split
  · exact h
  · split
    · next hlt =>
        have hle := List.length_take_le len p
        rw [encRemind, List.length_append]
        omega
    · split
      · exact h
      · simp [B64_ENC_CHUNK]

@[simp] theorem calls_mimeAddReminder (s : MimeWordEncState) (p : Str) (len limit : Nat) :
    (mimeAddReminder s p len limit).1.calls = s.calls := by
  rw [mimeAddReminder]
  split
  · rfl
  · split
    · rfl
    · split <;> simp

@[simp] theorem isMime_mimeAddReminder (s : MimeWordEncState) (p : Str) (len limit : Nat) :
    (mimeAddReminder s p len limit).1.isMime = s.isMime := by
  rw [mimeAddReminder]
  split
  · rfl
  · split
    · rfl
    · split <;> simp

/-- With room for a chunk nothing is added only if there is nothing to add to. -/
theorem mimeAddReminder_pos {s : MimeWordEncState} {p : Str} {len limit : Nat}
    (hrem : s.rem.length < B64_ENC_CHUNK) (hlen : 0 < len)
    (hroom : s.vpos + B64_NLET_PER_CHUNK ≤ limit) :
    0 < (mimeAddReminder s p len limit).2 ∨ mimeAddReminder s p len limit = (s, 0) := by
  rw [mimeAddReminder]
  split
  · exact .inr rfl
  · split
    · exact .inl hlen
    · rw [if_neg (Nat.not_lt.mpr hroom)]
      exact .inl (Nat.sub_pos_of_lt hrem)

/-- A round of the loop takes the bytes of a chunk, or of a tail. -/
theorem mimeWordEncB64Loop_ends {limit : Nat} : ∀ (n : Nat) (e : B64Enc),
    StopsAt e.p e.left → (if e.endOfLine then 0 else e.left) + 1 < n →
    ∃ e', mimeWordEncB64Loop cs limit n e = some e' ∧ e'.done + e'.left = e.done + e.left ∧
      e'.state.rem = e.state.rem ∧ e'.state.calls = e.state.calls ∧
      e'.state.isMime = e.state.isMime
  | 0, _, _, hn => absurd hn (Nat.not_lt_zero _)
  | n + 1, e, hstop, hn => by
      rw [mimeWordEncB64Loop]
      by_cases hend : (e.left < B64_ENC_CHUNK || e.endOfLine) = true
      · rw [if_pos hend]
        exact ⟨e, rfl, rfl, rfl, rfl, rfl⟩
      · rw [if_neg hend]
        simp only [Bool.or_eq_true, decide_eq_true_eq, not_or, Bool.not_eq_true] at hend
        obtain ⟨hleft, heol⟩ := hend
        rw [heol, if_neg Bool.false_ne_true] at hn
        extract_lets endOfLine toEncode chunk state
        have hchunk : chunk ≤ e.left := by
          refine Nat.le_trans (Nat.min_le_left _ _) ?_
          show (if endOfLine then mimeGetMbTail cs .b64 e.p else e.left) ≤ e.left
          split
          · exact hstop.tail_le
          · exact Nat.le_refl _
        have hone : endOfLine = false → chunk = B64_ENC_CHUNK := by
          intro h
          have hto : toEncode = e.left := if_neg (by rw [h]; exact Bool.false_ne_true)
          exact Nat.min_eq_right (by rw [hto]; omega)
        have hthree : B64_ENC_CHUNK = 3 := rfl
        obtain ⟨e', h, hsum, hrem, hcalls, hmime⟩ := mimeWordEncB64Loop_ends n
          ⟨state, e.p.drop chunk, e.left - chunk, e.done + chunk, endOfLine⟩ (hstop.drop hchunk)
          (by
            dsimp only
            split
            · omega
            · next h =>
                have := hone (by simpa using h)
                omega)
        have hstate : state.rem = e.state.rem ∧ state.calls = e.state.calls ∧
            state.isMime = e.state.isMime := by
          by_cases hc : chunk = 0 <;> simp [state, hc]
        refine ⟨e', h, ?_, hrem.trans hstate.1, hcalls.trans hstate.2.1, hmime.trans hstate.2.2⟩
        dsimp only at hsum
        omega

theorem mimeWordEncB64Loop_le {limit : Nat} : ∀ (n : Nat) (e : B64Enc) {e' : B64Enc},
    mimeWordEncB64Loop cs limit n e = some e' → e.done ≤ e'.done
  | n + 1, e, e', h => by
      rw [mimeWordEncB64Loop] at h
      split at h
      · cases h
        exact Nat.le_refl _
      · exact Nat.le_trans (Nat.le_add_right _ _) (mimeWordEncB64Loop_le n _ h)

/-- The first round takes a chunk where the line has room. -/
theorem mimeWordEncB64Loop_pos {limit : Nat} {n : Nat} {e e' : B64Enc}
    (hleft : B64_ENC_CHUNK ≤ e.left) (heol : e.endOfLine = false)
    (hroom : e.state.vpos + (MimeEncType.b64.maxMbChunks cs + 1) * B64_NLET_PER_CHUNK ≤ limit)
    (h : mimeWordEncB64Loop cs limit n e = some e') : e.done < e'.done := by
  cases n with
  | zero => cases h
  | succ n =>
      rw [mimeWordEncB64Loop, if_neg (by simp [heol, Nat.not_lt.mpr hleft])] at h
      simp only [Nat.not_lt.mpr hroom, decide_false, if_neg Bool.false_ne_true,
        Nat.min_eq_right hleft] at h
      have hle := mimeWordEncB64Loop_le n _ h
      exact Nat.lt_of_lt_of_le (Nat.lt_add_of_pos_right (by decide)) hle

/-- What `encode` does to a word of which `len` bytes are left. -/
structure Encodes (s : MimeWordEncState) (len : Nat) (s' : MimeWordEncState) (k : Nat) : Prop where
  le : k ≤ len
  rem : s'.rem.length < B64_ENC_CHUNK
  calls : s'.calls = s.calls
  isMime : s'.isMime = s.isMime

theorem maxMbChunks_le : enc.maxMbChunks cs ≤ 3 := by
  simp only [MimeEncType.maxMbChunks]
  split
  · exact Nat.zero_le _
  · cases enc <;> decide

/-- The limit up to which `mime_word_enc_b64` begins chunks. -/
def B64_LIMIT : Nat := MIME_STRING_LIMIT - MIME_HEADER_CODE_END.length - B64_NLET_PER_CHUNK

/-- Behind the loop of `mime_word_enc_b64`. -/
def b64Leave (e : B64Enc) : MimeWordEncState × Nat :=
  if ! e.endOfLine && e.left < B64_ENC_CHUNK then
    ((mimeSaveReminder (encTerminate e.state) e.p e.left).1, e.done + e.left)
  else (encTerminate e.state, e.done)

theorem mimeWordEncB64_eq (s : MimeWordEncState) (p : Str) (len : Nat) :
    mimeWordEncB64 cs s p len =
      (mimeWordEncB64Loop cs B64_LIMIT (len + 2)
        ⟨(mimeAddReminder s p len B64_LIMIT).1, p.drop (mimeAddReminder s p len B64_LIMIT).2,
          len - (mimeAddReminder s p len B64_LIMIT).2, (mimeAddReminder s p len B64_LIMIT).2,
          false⟩).map b64Leave := by
  rw [mimeWordEncB64, Option.map_eq_bind]
  refine congrArg (Option.bind _) (funext fun e => ?_)
  rw [Function.comp_apply, b64Leave]
  split <;> rfl

theorem mimeWordEncB64_ends {s : MimeWordEncState} {p : Str} {len : Nat} (hstop : StopsAt p len)
    (hrem : s.rem.length < B64_ENC_CHUNK) :
    ∃ s' k, mimeWordEncB64 cs s p len = some (s', k) ∧ Encodes s len s' k ∧
      (s.vpos + 16 ≤ B64_LIMIT → 0 < len → 0 < k) := by
  have hadd := mimeAddReminder_le s p len B64_LIMIT
  have hthree : B64_ENC_CHUNK = 3 := rfl
  obtain ⟨e, he, hsum, hrem2, hcalls, hmime⟩ := @mimeWordEncB64Loop_ends cs B64_LIMIT (len + 2)
    ⟨(mimeAddReminder s p len B64_LIMIT).1, p.drop (mimeAddReminder s p len B64_LIMIT).2,
      len - (mimeAddReminder s p len B64_LIMIT).2, (mimeAddReminder s p len B64_LIMIT).2, false⟩
    (hstop.drop hadd) (by
      rw [if_neg Bool.false_ne_true]
      dsimp only
      omega)
  have hle := mimeWordEncB64Loop_le _ _ he
  dsimp only at hsum hrem2 hcalls hmime hle
  rw [Nat.add_sub_cancel' hadd] at hsum
  rw [calls_mimeAddReminder] at hcalls
  rw [isMime_mimeAddReminder] at hmime
  -- what the call takes
  have hdone : e.done ≤ (b64Leave e).2 ∧ (b64Leave e).2 ≤ len := by
    rw [b64Leave]
    split <;> dsimp only <;> omega
  refine ⟨(b64Leave e).1, (b64Leave e).2, by rw [mimeWordEncB64_eq, he]; rfl,
    ⟨hdone.2, ?_, ?_, ?_⟩, fun hroom hlen => ?_⟩
  · rw [b64Leave]
    split
    · next h =>
        have htake := List.length_take_le e.left e.p
        simp only [Bool.and_eq_true, decide_eq_true_eq] at h
        simp only [mimeSaveReminder, encRemind, List.nil_append]
        omega
    · show e.state.rem.length < B64_ENC_CHUNK
      rw [hrem2]
      exact rem_mimeAddReminder hrem p len B64_LIMIT
  · rw [b64Leave]
    split <;> exact hcalls
  · rw [b64Leave]
    split <;> exact hmime
  · -- the reminder takes a byte, or a chunk fits the line, or the word is shorter
    have hfour : B64_NLET_PER_CHUNK = 4 := rfl
    have hroom : s.vpos + B64_NLET_PER_CHUNK ≤ B64_LIMIT := by omega
    rcases mimeAddReminder_pos (p := p) hrem hlen hroom with h | h
    · omega
    · rw [h] at he hle
      dsimp only at he hle
      rw [Nat.sub_zero] at he
      by_cases hthree : B64_ENC_CHUNK ≤ len
      · have hmb := @maxMbChunks_le cs .b64
        have := mimeWordEncB64Loop_pos hthree rfl (by
          rw [hfour]
          dsimp only
          omega) he
        exact Nat.lt_of_lt_of_le (Nat.lt_of_le_of_lt (Nat.zero_le _) this) hdone.1
      · have he' : e = ⟨s, p.drop 0, len, 0, false⟩ := by
          rw [mimeWordEncB64Loop, if_pos (by simp [Nat.lt_of_not_le hthree])] at he
          exact (Option.some.inj he).symm
        rw [he', b64Leave, if_pos (by simp [Nat.lt_of_not_le hthree])]
        dsimp only
        omega

theorem foldl_encStore (t : Str) : ∀ s : MimeWordEncState,
    (t.foldl (fun s c => encStore (mimeQpEncodeOctet c) s) s).rem = s.rem ∧
      (t.foldl (fun s c => encStore (mimeQpEncodeOctet c) s) s).calls = s.calls ∧
      (t.foldl (fun s c => encStore (mimeQpEncodeOctet c) s) s).isMime = s.isMime := by
  induction t with
  | nil => exact fun s => ⟨rfl, rfl, rfl⟩
  | cons c t ih => exact fun s => ih (encStore (mimeQpEncodeOctet c) s)

theorem mimeWordEncQpLoop_ends {limit : Nat} : ∀ (left : Nat) (s : MimeWordEncState) (p : Str),
    StopsAt p left → (mimeWordEncQpLoop cs limit left s p).2 ≤ left ∧
      (mimeWordEncQpLoop cs limit left s p).1.rem = s.rem ∧
      (mimeWordEncQpLoop cs limit left s p).1.calls = s.calls ∧
      (mimeWordEncQpLoop cs limit left s p).1.isMime = s.isMime
  | 0, s, p, _ => ⟨Nat.le_refl _, rfl, rfl, rfl⟩
  | left + 1, s, p, hstop => by
      rw [mimeWordEncQpLoop]
      split
      · exact ⟨hstop.tail_le, foldl_encStore _ _⟩
      · have hstop' : StopsAt p.tail left := by
          have := hstop.drop (k := 1) (Nat.le_add_left 1 left)
          rwa [List.drop_one] at this
        obtain ⟨hle, hrest⟩ := mimeWordEncQpLoop_ends left
          (encStore (mimeQpEncodeOctet (p.headD nul)) s) p.tail hstop'
        exact ⟨Nat.succ_le_succ hle, hrest⟩

theorem mimeWordEncQp_ends {s : MimeWordEncState} {p : Str} {len : Nat} (hstop : StopsAt p len)
    (hrem : s.rem.length < B64_ENC_CHUNK) :
    Encodes s len (mimeWordEncQp cs s p len).1 (mimeWordEncQp cs s p len).2 ∧
      (s.vpos + 16 ≤ B64_LIMIT → 0 < len → 0 < (mimeWordEncQp cs s p len).2) := by
  obtain ⟨hle, hr, hc, hm⟩ := @mimeWordEncQpLoop_ends cs
    (MIME_STRING_LIMIT - MIME_HEADER_CODE_END.length) len s p hstop
  refine ⟨⟨hle, ?_, hc, hm⟩, fun hroom hlen => ?_⟩
  · show (mimeWordEncQpLoop cs _ len s p).1.rem.length < B64_ENC_CHUNK
    rwa [hr]
  · cases len with
    | zero => exact absurd hlen (Nat.lt_irrefl 0)
    | succ len =>
        have hmb := @maxMbChunks_le cs .qp
        have hlimit : B64_LIMIT + 4 = MIME_STRING_LIMIT - MIME_HEADER_CODE_END.length := rfl
        have hthree : QP_NLET_MAX = 3 := rfl
        show 0 < (mimeWordEncQpLoop cs _ (len + 1) s p).2
        rw [mimeWordEncQpLoop, if_neg (by rw [← hlimit, hthree]; omega)]
        exact Nat.succ_pos _

/-- `encode` ends; it takes no more than there is, and something where the line
is new. -/
theorem encode_ends {s : MimeWordEncState} {p : Str} {len : Nat} (hstop : StopsAt p len)
    (hrem : s.rem.length < B64_ENC_CHUNK) :
    ∃ s' k, enc.encode cs s p len = some (s', k) ∧ Encodes s len s' k ∧
      (s.vpos + 16 ≤ B64_LIMIT → 0 < len → 0 < k) := by
  cases enc with
  | qp => exact ⟨_, _, rfl, mimeWordEncQp_ends hstop hrem⟩
  | b64 => exact mimeWordEncB64_ends hstop hrem

/-! ## The loops over words -/

/-- A call takes no more than there is, and something behind a line break. -/
structure EncCall.Advances (c : EncCall) : Prop where
  le : c.consumed ≤ c.left
  again : c.again = true → 0 < c.consumed
  fresh : c.fresh = true → 0 < c.left → 0 < c.consumed

/-- Between words less than a chunk is carried, and all calls went on. -/
structure MimeWordEncState.Goes (s : MimeWordEncState) : Prop where
  rem : s.rem.length < B64_ENC_CHUNK
  calls : ∀ c ∈ s.calls, c.Advances

/-- The start of a word leaves what is carried and the calls. -/
theorem started_frame (s : MimeWordEncState) :
    (if ! s.isMime then mimeWordStart cs enc s else s).rem = s.rem ∧
      (if ! s.isMime then mimeWordStart cs enc s else s).calls = s.calls := by
  split
  · exact ⟨rem_mimeWordStart s, calls_mimeWordStart s⟩
  · exact ⟨rfl, rfl⟩

/-- Behind a line break only the start of the word is on the line. -/
theorem vpos_started (hcs : cs.length ≤ MIME_MAX_ENC_LEN) {s : MimeWordEncState}
    {again : Bool} (hagain : again = true → s.vpos = 0 ∧ s.isMime = false)
    (hfresh : (again || ! s.isMime && wordStartBreaks cs enc s) = true) :
    (if ! s.isMime then mimeWordStart cs enc s else s).vpos + 16 ≤ B64_LIMIT := by
  have hmime : s.isMime = false ∧ (s.vpos = 0 ∨ wordStartBreaks cs enc s = true) := by
    rcases Bool.or_eq_true_iff.mp hfresh with h | h
    · exact ⟨(hagain h).2, .inl (hagain h).1⟩
    · rw [Bool.and_eq_true, Bool.not_eq_true'] at h
      exact ⟨h.1, .inr h.2⟩
  have hlimit : B64_LIMIT = 70 := rfl
  have hmax : MIME_MAX_ENC_LEN = 31 := rfl
  rw [if_pos (by rw [hmime.1]; rfl), vpos_mimeWordStart s hmime.2]
  omega

theorem mimeWordEncLoop_ends (hcs : cs.length ≤ MIME_MAX_ENC_LEN) : ∀ (n : Nat)
    (s : MimeWordEncState) (p : Str) (left : Nat) (again : Bool), StopsAt p left → s.Goes →
    (again = true → 0 < left ∧ s.vpos = 0 ∧ s.isMime = false) →
    left + (if again then 0 else 1) < n →
    ∃ s', mimeWordEncLoop cs enc n s p left again = some s' ∧ s'.Goes
  | 0, _, _, _, _, _, _, _, hn => absurd hn (Nat.not_lt_zero _)
  | n + 1, s, p, left, again, hstop, hs, hagain, hn => by
      have hrem1 : (if ! s.isMime then mimeWordStart cs enc s else s).rem.length <
          B64_ENC_CHUNK := by
        rw [(started_frame s).1]
        exact hs.rem
      have hcalls1 := (@started_frame cs enc s).2
      have hvpos := @vpos_started cs enc hcs s again fun h => (hagain h).2
      rw [mimeWordEncLoop]
      generalize hfresh : (again || ! s.isMime && wordStartBreaks cs enc s) = fresh at hvpos ⊢
      generalize (if ! s.isMime then mimeWordStart cs enc s else s) = s1 at hrem1 hcalls1 hvpos ⊢
      obtain ⟨s2, k, he, hk, hpos⟩ := @encode_ends cs enc s1 p left hstop hrem1
      simp only [he, Option.bind_eq_bind, Option.bind_some]
      have hcall : EncCall.Advances ⟨left, k, again, fresh⟩ := by
        refine ⟨hk.le, fun h => hpos (hvpos ?_) (hagain h).1, fun h => hpos (hvpos h)⟩
        rw [← hfresh, show again = true from h, Bool.true_or]
      have hcalls : ∀ c ∈ s2.calls ++ [⟨left, k, again, fresh⟩], c.Advances := by
        intro c hc
        rw [hk.calls, hcalls1] at hc
        rcases List.mem_append.mp hc with hc | hc
        · exact hs.calls c hc
        · rw [List.mem_singleton.mp hc]
          exact hcall
      rw [if_neg (Nat.not_lt.mpr hk.le)]
      by_cases hleft : left - k = 0
      · rw [if_pos hleft]
        exact ⟨_, rfl, hk.rem, hcalls⟩
      · rw [if_neg hleft]
        refine mimeWordEncLoop_ends hcs n _ _ _ true (hstop.drop hk.le) ⟨?_, ?_⟩
          (fun _ => ⟨Nat.pos_of_ne_zero hleft, rfl, rfl⟩) ?_
        · rw [rem_mimeLineBreak]
          exact hk.rem
        · rw [calls_mimeLineBreak]
          exact hcalls
        · rw [if_pos rfl]
          cases again with
          | false =>
              rw [if_neg Bool.false_ne_true] at hn
              omega
          | true =>
              have := hcall.again rfl
              dsimp only at this
              rw [if_pos rfl] at hn
              omega

theorem mimeSwitchToPlain_goes {s : MimeWordEncState} (hs : s.Goes) :
    (mimeSwitchToPlain cs enc s).Goes := by
  refine ⟨?_, by rw [calls_mimeSwitchToPlain]; exact hs.calls⟩
  rw [mimeSwitchToPlain]
  split
  · exact hs.rem
  · simp [B64_ENC_CHUNK]

theorem MimeWordEncState.Goes.strcat {s : MimeWordEncState} (h : s.Goes) (str : Str) :
    (mimeStrcat str s).Goes := ⟨h.rem, h.calls⟩

theorem MimeWordEncState.Goes.strlcpy {s : MimeWordEncState} (h : s.Goes) (str : Str) (len : Nat) :
    (mimeStrlcpy str len s).Goes where
  rem := by
    rw [mimeStrlcpy, rem_encTerminate, rem_mimeCheckAndIncSize]
    exact h.rem
  calls := by
    rw [mimeStrlcpy, calls_encTerminate, calls_mimeCheckAndIncSize]
    exact h.calls

theorem mime7bitTry_goes {s : MimeWordEncState} (hs : s.Goes) (rest : Str) (len : Nat) :
    (mime7bitTry cs enc s rest len).1.Goes := by
  have hsw := @mimeSwitchToPlain_goes cs enc s hs
  rw [mime7bitTry]
  generalize mimeSwitchToPlain cs enc s = s1 at hsw ⊢
  dsimp only
  have hbreak : ∀ n, (if s1.vpos + n > MIME_STRING_LIMIT then mimeLineBreak s1 else s1).Goes := by
    intro n
    split
    · exact ⟨by rw [rem_mimeLineBreak]; exact hsw.rem, by rw [calls_mimeLineBreak]; exact hsw.calls⟩
    · exact hsw
  split
  · exact hsw
  · split
    · exact ((hbreak _).strcat [sp]).strlcpy _ _
    · exact (hbreak _).strlcpy _ _

theorem mimeWordEnc_ends (hcs : cs.length ≤ MIME_MAX_ENC_LEN) {s : MimeWordEncState}
    (hs : s.Goes) {rest : Str} {len : Nat} (hstop : StopsAt rest len) :
    ∃ s', mimeWordEnc cs enc s rest len = some s' ∧ s'.Goes := by
  have htry : (if charsetIs7bit (rest.take len) then mime7bitTry cs enc s rest len
      else (s, false)).1.Goes := by
    split
    · exact mime7bitTry_goes hs rest len
    · exact hs
  rw [mimeWordEnc]
  generalize (if charsetIs7bit (rest.take len) then mime7bitTry cs enc s rest len
    else (s, false)) = r at htry ⊢
  obtain ⟨s1, ok⟩ := r
  dsimp only at htry ⊢
  have hstart : (mimeWordCalcLen cs enc s1 rest len).2 ≤ len :=
    Nat.le_trans (List.takeWhile_sublist _).length_le (List.length_take_le _ _)
  split
  · exact ⟨s1, rfl, htry⟩
  · split
    · exact mimeWordEncLoop_ends hcs _ _ _ _ _ (hstop.drop hstart) htry
        (fun h => absurd h Bool.false_ne_true) (by rw [if_neg Bool.false_ne_true]; omega)
    · exact mimeWordEncLoop_ends hcs _ _ _ _ _ hstop htry
        (fun h => absurd h Bool.false_ne_true) (by rw [if_neg Bool.false_ne_true]; omega)

theorem isMbTail_blank {c : UInt8} (h : isDelim blanks c = true) : isMbTail c = false := by
  rw [isDelim, List.contains_iff_mem, blanks, List.mem_cons, List.mem_singleton] at h
  rcases h with rfl | rfl <;> rfl

/-- Where a word ends. -/
theorem stopsAt_word (rest : Str) : StopsAt rest
    ((rest.takeWhile (isDelim blanks)).length +
      ((rest.drop (rest.takeWhile (isDelim blanks)).length).takeWhile
        (! isDelim blanks ·)).length) := by
  intro c hc
  rw [← List.drop_drop, drop_length_takeWhile (! isDelim blanks ·)] at hc
  refine isMbTail_blank ?_
  simpa using Trims.dropWhile_head _ c hc

/-- and where the first one does. -/
theorem stopsAt_first (src : Str) : StopsAt src (src.takeWhile (· != sp)).length := by
  intro c hc
  rw [drop_length_takeWhile] at hc
  have hsp : c = sp := by simpa using Trims.dropWhile_head src c hc
  rw [hsp]
  rfl

theorem mimeHeaderEncLoop_ends (hcs : cs.length ≤ MIME_MAX_ENC_LEN) : ∀ (n : Nat)
    (s : MimeWordEncState) (rest : Str) (len : Nat), StopsAt rest len → s.Goes →
    rest.length - len < n → ∃ s', mimeHeaderEncLoop cs enc n s rest len = some s' ∧ s'.Goes
  | 0, _, _, _, _, _, hn => absurd hn (Nat.not_lt_zero _)
  | n + 1, s, rest, len, hstop, hs, hn => by
      obtain ⟨s1, h1, hs1⟩ := @mimeWordEnc_ends cs enc hcs s hs rest len hstop
      rw [mimeHeaderEncLoop, h1]
      simp only [Option.bind_eq_bind, Option.bind_some]
      split
      · exact ⟨s1, rfl, hs1⟩
      · next hword =>
          refine mimeHeaderEncLoop_ends hcs n s1 (rest.drop len) _ (stopsAt_word _) hs1 ?_
          -- the word has a byte
          have hpos : 0 < (((rest.drop len).drop ((rest.drop len).takeWhile
              (isDelim blanks)).length).takeWhile (! isDelim blanks ·)).length := by
            rw [drop_length_takeWhile] at hword ⊢
            have hhead := List.head_dropWhile_not (isDelim blanks) (l := rest.drop len) hword
            obtain ⟨c, word, hcw⟩ := List.exists_cons_of_ne_nil hword
            simp only [hcw, List.head_cons] at hhead
            rw [hcw, List.takeWhile_cons_of_pos (by rw [hhead]; rfl)]
            exact Nat.succ_pos _
          have hrest := List.length_drop (i := len) (l := rest)
          have : (rest.drop len).length ≠ 0 := by
            intro h0
            rw [List.length_eq_zero_iff.mp h0] at hpos
            exact absurd hpos (by simp)
          omega

theorem calls_mimeHeaderEncEnd (s : MimeWordEncState) :
    (mimeHeaderEncEnd cs enc s).calls = s.calls := by
  have hlast : ∀ s : MimeWordEncState,
      (if s.encodedLine.getLast? ≠ some lf then mimeStrcat MIME_HEADER_STR_DELIM s else s).calls =
        s.calls := by
    intro s
    split <;> rfl
  rw [mimeHeaderEncEnd]
  simp only [calls_encTerminate, hlast, calls_mimeCheckAndIncSize]
  split
  · simp only [calls_mimeWordEnd, calls_mimeFlushReminder, apply_ite MimeWordEncState.calls,
      calls_mimeWordStart, calls_mimeLineBreak, ite_self]
  · rfl

/-- The encoder ends for every string; each call of `encode` takes no more than
the word has, and a byte of it behind each line break. -/
theorem mimeHeaderEnc_ends (src : Str) (hcs : cs.length ≤ MIME_MAX_ENC_LEN) :
    ∃ r, mimeHeaderEnc cs enc src = some r ∧ ∀ s ∈ r, ∀ c ∈ s.calls, c.Advances := by
  rw [mimeHeaderEnc]
  dsimp only
  split
  · exact ⟨none, rfl, by simp⟩
  · next hsp =>
      have hstop := stopsAt_first (mimeHeaderUnfold src)
      obtain ⟨s, h, hs⟩ := @mimeHeaderEncLoop_ends cs enc hcs ((mimeHeaderUnfold src).length + 1)
        mimeHeaderEncStart _ _ hstop ⟨by decide, by simp [mimeHeaderEncStart]⟩ (by omega)
      refine ⟨_, by rw [h]; rfl, fun s' hs' => ?_⟩
      obtain rfl : mimeHeaderEncEnd cs enc s = s' := Option.some.inj hs'
      rw [calls_mimeHeaderEncEnd]
      exact hs.calls

theorem mimeHeaderEnc_ends_broken :
    (lit "utf-8").length ≤ MIME_MAX_ENC_LEN ∧
      ∃ r, mimeHeaderEnc (lit "utf-8") .qp (lit "a: " ++ List.replicate 60 0x80) = some r ∧
        ∀ s ∈ r, ∀ c ∈ s.calls, c.Advances :=
  ⟨by decide, mimeHeaderEnc_ends _ (by decide)⟩

/-- `hdr_enc_does_not_break_utf8`, one of the tests -/
example : ((mimeHeaderEnc (lit "utf-8") .b64 (lit ("Subject: " ++
      "\xd0\xad\xd1\x82\xd0\xbe \xd0\xb2\xd0\xb0\xd1\x88\xd0\xb5 " ++
      "\xd0\xa4\xd0\x98\xd0\x94\xd0\x9e (\xd0\xbf\xd0\xb5\xd1\x80\xd0\xb5" ++
      "\xd0\xb8\xd0\xb7\xd0\xb4\xd0\xb0\xd0\xbd\xd0\xb8\xd0\xb5)"))).bind id).map (·.encodedLine) =
    some (lit ("Subject: =?utf-8?B?0K3RgtC+INCy0LDRiNC1INCk0JjQlNCeICjQv9C10YDQtQ==?=\n" ++
      " =?utf-8?B?0LjQt9C00LDQvdC40LUp?=\n")) := by
  decide +kernel

end

end Fidogate

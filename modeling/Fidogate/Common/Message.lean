/-
# `Fidogate.Common.Message` — message.c: the text body of a message

A body is read line by line into the one global `buffer`; `pkt_get_body`
keeps the lines, `pkt_get_body_parse` sorts them into a `MsgBody`.
-/
import Fidogate.Common.Packet

namespace Fidogate

open Bytes

def BUFFERSIZE : Nat := 32768

/-! ## Reading a line -/

/-- What `pkt_get_line` returns. -/
inductive LineType
  | error
  | line
  | msgEnd
  | msgType
  deriving DecidableEq, Repr

/-- The return value, the buffer and the rest of the file. -/
structure GotLine where
  type : LineType
  buf : Str
  fp : Str

/-- The loop of `pkt_get_line`: `b` is the buffer as it was, `p` what was put
into it so far. -/
def pktGetLineLoop (b : Str) (size : Nat) (readLf : Bool) (p : Str) : Str → GotLine
  | [] =>
      if size ≤ 3 then ⟨.line, store b p, []⟩
      else if readLf then ⟨.line, store b p, []⟩
      else ⟨.error, overwrite b p, []⟩
  | c :: fp =>
      if size ≤ 3 then ⟨.line, store b p, c :: fp⟩
      else if readLf && c != lf then ⟨.line, store b p, c :: fp⟩
      else if c == nul then
        match fp with
        | c1 :: c2 :: fp =>
            if c2 == nul && c1 == stx then ⟨.msgType, store b p, fp⟩
            else if c2 == nul && c1 == nul then ⟨.msgEnd, store b p, fp⟩
            else
              -- an orphan NUL: the two bytes behind it belong to the line
              let cs := [c1, c2].filter (· != nul)
              pktGetLineLoop b (size - cs.length) readLf (p ++ cs) fp
        | _ => ⟨.error, overwrite b p, []⟩
      else if c == stx then
        match fp with
        | [] => ⟨.error, overwrite b p, []⟩
        | c1 :: fp =>
            -- 02 00 is taken for the start of the next message
            if c1 == nul then ⟨.msgType, store b p, fp⟩
            else pktGetLineLoop b (size - 2) readLf (p ++ [c, c1]) fp
      else pktGetLineLoop b (size - 1) (readLf || c == cr) (p ++ [c]) fp

/-- `pkt_get_line(fp, buffer, sizeof(buffer))`. -/
def pktGetLine (b fp : Str) : GotLine := pktGetLineLoop b BUFFERSIZE false [] fp

/-! ## Reading a body as it is -/

/-- What the loops over a body leave behind. -/
structure GotBody where
  type : LineType
  lines : List Str
  buf : Str
  fp : Str

/-- `while ((type = pkt_get_line(...)) == 1) tl_append(tl, buffer)`.  A line
takes at least one byte, so the length of the file bounds the rounds. -/
def pktGetBodyLoop : Nat → List Str → Str → Str → GotBody
  | 0, tl, b, fp => ⟨.error, tl, b, fp⟩
  | n + 1, tl, b, fp =>
      let r := pktGetLine b fp
      if r.type = .line then pktGetBodyLoop n (tl ++ [cstr r.buf]) r.buf r.fp
      else ⟨r.type, tl, r.buf, r.fp⟩

/-- `BUF_APPEND(buffer, s)`. -/
def bufAppend (b s : Str) : Str :=
  store b (cstr b ++ s.take (BUFFERSIZE - (cstr b).length - 1))

/-- The incomplete last line of a body, if any, terminated by CR LF. -/
def incompleteLine (r : GotBody) : GotBody :=
  if r.type ≠ .error && cstr r.buf != [] then
    let b := bufAppend r.buf [cr, lf]
    { r with lines := r.lines ++ [cstr b], buf := b }
  else r

/-- `pkt_get_body`. -/
def pktGetBody (b fp : Str) : GotBody :=
  incompleteLine (pktGetBodyLoop (fp.length + 1) [] b fp)

/-! ## The parts of a body -/

/-- `MsgBody`. -/
structure MsgBody where
  area : Option Str
  kludge : List Str
  rfc : List Str
  body : List Str
  tear : Option Str
  origin : Option Str
  seenby : List Str
  path : List Str
  via : List Str
  deriving DecidableEq, Repr

/-- `msg_body_init`, `msg_body_clear`. -/
def MsgBody.clear : MsgBody := ⟨none, [], [], [], none, none, [], [], []⟩

/-- `is_blank_line`. -/
def isBlankLine (s : Str) : Bool := s.all isSpace

/-- `FTN_RFC_HEADERS`. -/
def rfcHeaders : List Str :=
  ["From:", "Reply-To:", "UUCPFROM:", "To:", "Cc:", "Bcc:", "Newsgroups:", "Sender:",
   "Content-Transfer-Encoding:", "Header-To:", "Header-Cc:", "Subject:", "User-Agent:",
   "X-Mailer:", "X-Newsreader:", "In-Reply-To:", "References:"].map lit

def isKludgeLine (l : Str) : Bool := l.head? == some soh

def isAreaLine (l : Str) : Bool := hasPrefix (lit "AREA:") l

/-- One copy of the line for each header it starts with. -/
def rfcMatches (l : Str) : List Str := (rfcHeaders.filter (hasPrefixI · l)).map fun _ => l

def isTearLine (l : Str) : Bool :=
  hasPrefix (lit "---") l && (l[3]? == some sp || l[3]? == some cr)

def isOriginLine (l : Str) : Bool := hasPrefix (lit " * Origin:") l

def isPathLine (l : Str) : Bool := hasPrefix (soh :: lit "PATH") l

def isSeenbyLine (l : Str) : Bool := hasPrefix (lit "SEEN-BY") l

def isViaLine (l : Str) : Bool := hasPrefix (soh :: lit "Via") l || hasPrefix (soh :: lit "Recd") l

/-! ## The parser -/

/-- `do_flag`. -/
inductive DoFlag
  | hiKludge
  | parseBlank
  | searchRfc
  | bodyNetmail
  | bodyEchomail
  deriving DecidableEq, Repr

/-- The variables of `pkt_get_body_parse`; the three `found` flags are its
`line`. -/
structure ParseState where
  msg : MsgBody
  lookForArea : Bool
  parseBlank : Nat
  doFlag : DoFlag
  foundKludge : Bool
  foundOrigin : Bool
  foundTear : Bool
  ret : Int
  deriving DecidableEq, Repr

def ParseState.init : ParseState := ⟨.clear, true, 3, .hiKludge, false, false, false, ERROR⟩

/-- A line that is none of the control lines: text, behind a tear or origin
line that turns out to have been text as well. -/
def bodyText (st : ParseState) (l : Str) : ParseState :=
  if !st.foundKludge && !st.foundOrigin && !st.foundTear then
    { st with msg := { st.msg with body := st.msg.body ++ [l] } }
  else if st.foundTear then
    { st with
      msg := { st.msg with body := st.msg.body ++ st.msg.tear.toList ++ [l], tear := none }
      foundTear := false }
  else if st.foundOrigin then
    { st with
      msg := { st.msg with body := st.msg.body ++ st.msg.origin.toList ++ [l], origin := none }
      foundOrigin := false }
  else st

/-- The two body states, which differ in their control lines. -/
def bodyLine (echo : Bool) (st : ParseState) (l : Str) : ParseState :=
  if isTearLine l && st.msg.tear.isNone then
    { st with msg := { st.msg with tear := some l }, foundTear := true }
  else if isOriginLine l && st.msg.origin.isNone then
    { st with msg := { st.msg with origin := some l }, foundOrigin := true }
  else if echo && isPathLine l then
    { st with msg := { st.msg with path := st.msg.path ++ [l] }, foundKludge := true }
  else if echo && isSeenbyLine l then
    { st with msg := { st.msg with seenby := st.msg.seenby ++ [l] }, foundKludge := true }
  else if !echo && isViaLine l then
    { st with msg := { st.msg with via := st.msg.via ++ [l] }, foundKludge := true }
  else bodyText st l

/-- `SEARCH_RFC` and the states behind it. -/
def rfcLine (st : ParseState) (l : Str) : ParseState :=
  if rfcMatches l != [] then
    { st with msg := { st.msg with rfc := st.msg.rfc ++ rfcMatches l } }
  else if st.msg.area.isSome then bodyLine true { st with doFlag := .bodyEchomail } l
  else bodyLine false { st with doFlag := .bodyNetmail, ret := OK } l

/-- `PARSE_BLANK` and the states behind it. -/
def blankLine (st : ParseState) (l : Str) : ParseState :=
  let st := { st with parseBlank := st.parseBlank - 1 }
  if !isBlankLine l || st.parseBlank == 0 then rfcLine { st with doFlag := .searchRfc } l
  else st

/-- One round of the loop; `none` is the return for want of a first kludge. -/
def parseLine (st : ParseState) (l : Str) : Option ParseState :=
  match st.doFlag with
  | .hiKludge =>
      if isKludgeLine l then
        some { st with msg := { st.msg with kludge := st.msg.kludge ++ [l] }, ret := OK }
      else if st.lookForArea && isAreaLine l then
        some { st with msg := { st.msg with area := some l }, lookForArea := false, ret := OK }
      else if st.ret == OK then some (blankLine { st with doFlag := .parseBlank } l)
      else none
  | .parseBlank => some (blankLine st l)
  | .searchRfc => some (rfcLine st l)
  | .bodyNetmail => some (bodyLine false st l)
  | .bodyEchomail => some (bodyLine true st l)

/-- What `pkt_get_body_parse` leaves: `code` is what it returns, `type` how
the text ended. -/
structure GotMsgBody where
  code : Int
  type : LineType
  msg : MsgBody
  buf : Str
  fp : Str
  deriving DecidableEq

def seenbyText (dst : Node) : Str :=
  lit "SEEN-BY: " ++ putInt dst.net ++ lit "/" ++ putInt dst.node

def pathText (dst : Node) : Str :=
  soh :: lit "PATH: " ++ putInt dst.net ++ lit "/" ++ putInt dst.node

/-- The lines made up for an echomail that lacks them; `b` is what is in the
buffer then. -/
def missingLines (dst : Node) (b : Str) (m : MsgBody) : MsgBody :=
  if m.area.isNone then m
  else
    { m with
      tear := some (m.tear.getD (lit "---" ++ [cr]))
      origin := some (m.origin.getD (cstr b))
      seenby := if m.seenby = [] then [seenbyText dst] else m.seenby
      path := if m.path = [] then [pathText dst] else m.path }

/-- The buffer behind `missingLines`. -/
def missingBuf (dst : Node) (b : Str) (m : MsgBody) : Str :=
  if m.area.isNone then b
  else
    let b := if m.seenby = [] then store b (seenbyText dst) else b
    if m.path = [] then store b (pathText dst) else b

/-- The loop of `pkt_get_body_parse`. -/
def pktGetBodyParseLoop (dst : Node) : Nat → ParseState → Str → Str → GotMsgBody
  | 0, st, b, fp => ⟨ERROR, .error, st.msg, b, fp⟩
  | n + 1, st, b, fp =>
      let r := pktGetLine b fp
      if r.type = .line then
        match parseLine st (cstr r.buf) with
        | some st' => pktGetBodyParseLoop dst n st' r.buf r.fp
        | none => ⟨ERROR, .line, st.msg, r.buf, r.fp⟩
      else
        -- at the end of the file the text so far counts
        ⟨st.ret, r.type, missingLines dst r.buf st.msg, missingBuf dst r.buf st.msg, r.fp⟩

/-- `pkt_get_body_parse`. -/
def pktGetBodyParse (dst : Node) (b fp : Str) : GotMsgBody :=
  pktGetBodyParseLoop dst (fp.length + 1) .init b fp

/-! ## Writing a body -/

/-- The lines `msg_put_msgbody` writes, in its order. -/
def MsgBody.lines (m : MsgBody) : List Str :=
  m.area.toList ++ m.kludge ++ m.rfc ++ m.body ++ m.tear.toList ++ m.origin.toList ++
    m.seenby ++ m.path ++ m.via

/-- `msg_put_msgbody`. -/
def msgPutMsgbody (m : MsgBody) : Str := m.lines.flatten ++ [nul]

end Fidogate

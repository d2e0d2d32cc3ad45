/-
# `Fidogate.Common.MimeBody` — mime.c: decoding a body; rfcheader.c: its header

Sections without parts are decoded from their lines to lines: their own lists
are only ever appended to.  A multipart body works on the lists themselves.
`recode` is `charset_recode_buf` on one line, `none` being its ERROR.
-/
import Fidogate.Common.Textlist
import Fidogate.Common.Strtok
import Fidogate.Common.Message

namespace Fidogate

open Bytes Chain

/-! ## rfcheader.c -/

/-- `is_blank` of the first byte -/
def startsBlank (s : Str) : Bool := s.head?.any (isDelim blanks)

/-- The line is the end of a header. -/
def endsHeader (s : Str) : Bool := s.head? = some cr || s.head? = some lf

/-- The loop of `header_read_list`: `first`, `queue` and the header lines. -/
def headerReadLoop : List Str → Bool → Str → List Str → List Str
  | [], _, queue, headers => if 1 < queue.length then headers ++ [queue] else headers
  | line :: body, first, queue, headers =>
      let buf := line.take (BUFFERSIZE - 1)
      if endsHeader buf then if 1 < queue.length then headers ++ [queue] else headers
      else
        let buf := stripCrlf buf
        if startsBlank buf then
          headerReadLoop body first (queue ++ buf.take (BUFFERSIZE - queue.length - 1)) headers
        else
          headerReadLoop body false (bufCopy BUFFERSIZE buf)
            (if first then headers else headers ++ [queue])

/-- `header_read_list` -/
def headerReadList (body : List Str) : List Str := headerReadLoop body true [] []

/-- `header_get` -/
def headerGet (header : List Str) (name : Str) : Option Str :=
  (header.find? fun p => hasPrefixI name p && p[name.length]? = some 58).map fun p =>
    (p.drop (name.length + 1)).dropWhile isSpace

/-- The loop of `header_delete_from_body`, over the lines that were there when
it began: the next turn takes what is first then. -/
def headerDeleteLoop : List Str → Lines → Textlist → Option (Textlist × Lines)
  | [], _, _ => none
  | _ :: more, h, body => do
      let line ← body.first
      let c ← cell h line
      let (body, h) ← tlDelete h body line
      if endsHeader c.val then some (body, h) else headerDeleteLoop more h body

/-- `header_delete_from_body` -/
def headerDeleteFromBody (h : Lines) (body : Textlist) : Option (Textlist × Lines) :=
  headerDeleteLoop (tlLines h body) h body

/-! ## The MIME fields of a header -/

/-- `MIMEInfo`, without the fields that decoding a body does not read -/
structure MIMEInfo where
  type : Option Str
  typeType : Option Str
  typeCharset : Option Str
  typeBoundary : Option Str
  encoding : Option Str
deriving DecidableEq, Repr

/-- `mime_parse_header` -/
def mimeParseHeader (str : Str) : List Str :=
  (strtok [59] str).map fun p => (stripSpace p).dropWhile isSpace

/-- `mime_attr_value` -/
def mimeAttrValue (str : Str) : Option Str :=
  match str.dropWhile (· != 61) with
  | [] => none
  | _ :: p =>
      let p := if p.head? = some dquote then p.tail else p
      some (p.takeWhile fun c => ! (c == dquote || isSpace c))

/-- A parameter of a header line; the value of one without `=` is a NULL that
`s_copy` reads. -/
def mimeAttr (line : List Str) (attr : Str) : Option (Option Str) :=
  match line.find? (hasPrefixI attr) with
  | none => some none
  | some l => (mimeAttrValue l).map some

/-- `get_mime_from_header` -/
def getMimeFromHeader (header : List Str) : Option MIMEInfo := do
  let type := headerGet header (lit "Content-Type")
  let line := (type.map mimeParseHeader).getD []
  let charset ← mimeAttr line (lit "charset")
  let boundary ← mimeAttr line (lit "boundary")
  let disp := headerGet header (lit "Content-Disposition")
  let _ ← mimeAttr ((disp.map mimeParseHeader).getD []) (lit "filename")
  some { type := type, typeType := line.head?, typeCharset := charset, typeBoundary := boundary,
         encoding := headerGet header (lit "Content-Transfer-Encoding") }

/-! ## Transfer encodings -/

/-- `mime_qptoint` -/
def mimeQptoint (c : UInt8) : Option UInt8 :=
  if 48 ≤ c && c ≤ 57 then some (c - 48)
  else if 65 ≤ c && c ≤ 70 then some (c - 65 + 10)
  else if 97 ≤ c && c ≤ 102 then some (c - 97 + 10)
  else none

/-- `mime_qp_decode` of a whole string, whose NUL is no hexadecimal digit -/
def mimeQpDecode : Str → Option Str
  | [] => some []
  | c :: s =>
      if c = lf || c = cr then some [lf]
      else if c = 95 then (mimeQpDecode s).map (sp :: ·)
      else if c ≠ 61 then (mimeQpDecode s).map ((c &&& 0x7F) :: ·)
      else
        match s with
        | [] => none
        | [d] => if d = lf || d = cr then some [lf] else none
        | d :: e :: s =>
            if d = lf || d = cr then some [lf]
            else
              match mimeQptoint d, mimeQptoint e with
              | some vh, some vl => (mimeQpDecode s).map ((vh * 16 + vl) :: ·)
              | _, _ => none

/-- The loop of `mime_debody_qp`, `full` being the text of `full_line`.  A
line shorter than the soft line break it is compared with is taken to differ. -/
def mimeDebodyQpLoop : List Str → Str → List Str → Option (List Str)
  | [], _, dec => some dec
  | line :: body, full, dec =>
      match mimeQpDecode line with
      | none => none
      | some s =>
          let full := full ++ stripCrlf (cstr s)
          if (lit "=\n").isSuffixOf line || (lit "=\x0d\n").isSuffixOf line then
            mimeDebodyQpLoop body full dec
          else mimeDebodyQpLoop body [] (dec ++ [full ++ [lf]])

/-- `mime_debody_qp` -/
def mimeDebodyQp (body : List Str) : Option (List Str) := mimeDebodyQpLoop body [] []

/-- `mime_b64toint` -/
def mimeB64toint (c : UInt8) : Option Nat :=
  if 65 ≤ c && c ≤ 90 then some (c.toNat - 65)
  else if 97 ≤ c && c ≤ 122 then some (0x1a + (c.toNat - 97))
  else if 48 ≤ c && c ≤ 57 then some (0x34 + (c.toNat - 48))
  else if c = 43 then some 0x3e
  else if c = 47 then some 0x3f
  else if c = 61 then some 0x40
  else none

/-- `mime_b64_decode` -/
def mimeB64Decode : Str → Option Str
  | [] => some []
  | a :: b :: c :: d :: s => do
      let v1 ← mimeB64toint a
      let v2 ← mimeB64toint b
      let v3 ← mimeB64toint c
      let v4 ← mimeB64toint d
      let o1 := UInt8.ofNat (v1 <<< 2 ||| v2 >>> 4)
      let o2 := UInt8.ofNat ((v2 <<< 4) &&& 0xf0 ||| v3 >>> 2)
      let o3 := UInt8.ofNat ((v3 <<< 6) &&& 0xc0 ||| v4)
      if v3 < 0x40 then
        if v4 < 0x40 then do some (o1 :: o2 :: o3 :: (← mimeB64Decode s))
        else do some (o1 :: o2 :: (← mimeB64Decode s))
      else if v4 < 0x40 then none
      else do some (o1 :: (← mimeB64Decode s))
  | _ => none

/-- The output of `mime_debody_base64`: the lines, the line that is being
collected in `out_str`, and how much `left` allows it to grow. -/
structure B64Out where
  body : List Str
  str : Str
  left : Nat

/-- `MAX_LINE_LENGTH` -/
def MAX_LINE_LENGTH : Nat := 32768

/-- `MIME_ENC_STRING_LIMIT` -/
def MIME_ENC_STRING_LIMIT : Nat := 80

/-- `mime_debody_flush_str`, after which `left` starts anew.  A string of less
than two bytes stays where it is. -/
def mimeDebodyFlushStr (o : B64Out) : B64Out :=
  let len := o.str.length
  if len < 2 then { o with left := MAX_LINE_LENGTH }
  else
    let str :=
      if o.str[len - 2]? = some cr then o.str.take (len - 2) ++ [lf]
      else if o.str.getLast? ≠ some lf then o.str ++ [lf]
      else o.str
    ⟨o.body ++ [str], [], MAX_LINE_LENGTH⟩

/-- The decoded text up to its last LF, line by line; `left` is never 0. -/
def b64Newlines : Nat → B64Out → Str → B64Out × Str
  | 0, o, dec => (o, dec)
  | n + 1, o, dec =>
      if lf ∈ dec then
        let len := (dec.takeWhile (· != lf)).length + 1
        let m := min len o.left
        b64Newlines n (mimeDebodyFlushStr { o with str := o.str ++ dec.take m }) (dec.drop m)
      else (o, dec)

/-- The decoded text behind its last LF. -/
def b64Tail : Nat → B64Out → Str → B64Out
  | 0, o, _ => o
  | n + 1, o, dec =>
      if dec.length < o.left then
        { o with str := o.str ++ dec, left := o.left - dec.length }
      else
        let m := o.left
        let o := mimeDebodyFlushStr { o with str := o.str ++ dec.take m }
        if dec.length - m = 0 then o else b64Tail n o (dec.drop m)

/-- The loop of `mime_debody_base64` -/
def mimeDebodyBase64Loop : List Str → B64Out → List Str
  | [], o => if o.left ≠ MAX_LINE_LENGTH then (mimeDebodyFlushStr o).body else o.body
  | line :: body, o =>
      let encLen := min line.length MIME_ENC_STRING_LIMIT / 4 * 4
      match mimeB64Decode (line.take encLen) with
      | none => o.body
      | some s =>
          let dec := cstr s
          let (o, rest) := b64Newlines (dec.length + 1) o dec
          mimeDebodyBase64Loop body (b64Tail (rest.length + 1) o rest)

/-- `mime_debody_base64` -/
def mimeDebodyBase64 (body : List Str) : List Str :=
  mimeDebodyBase64Loop body ⟨[], [], MAX_LINE_LENGTH⟩

/-! ## Sections -/

section

variable (recode : Str → Str → Str → Option Str) (toCharset : Str) (chFallback : Option Str)

/-- The loop of `mime_decharset_section` -/
def recodeLines (charset : Str) : List Str → List Str
  | [] => []
  | line :: body =>
      match recode line charset toCharset with
      | none => line :: body
      | some res => res :: recodeLines charset body

/-- `mime_decharset_section` -/
def mimeDecharsetSection (body : List Str) (mime : MIMEInfo) : List Str :=
  match mime.typeCharset with
  | none => body
  | some charset => if strieq charset toCharset then body else recodeLines recode toCharset charset body

/-- Whether `mime_debody_section` takes a section for text. -/
def MIMEInfo.isText (mime : MIMEInfo) : Bool :=
  mime.typeType.all (strieq · (lit "text/plain")) || mime.type.isNone

/-- Whether it takes it for a multipart one. -/
def MIMEInfo.isMultipart (mime : MIMEInfo) : Bool :=
  ! mime.isText && mime.typeType.any (hasPrefixI (lit "multipart/"))

/-- The text of a section without parts; `none` if it is skipped. -/
def mimeDebodyText (mime : MIMEInfo) (body : List Str) : Option (List Str) :=
  let dec :=
    match mime.encoding with
    | none => some body
    | some e =>
        if strieq e (lit "8bit") || strieq e (lit "7bit") then some body
        else if strieq e (lit "base64") then some (mimeDebodyBase64 body)
        else if strieq e (lit "quoted-printable") then mimeDebodyQp body
        else none
  dec.map fun dec => mimeDecharsetSection recode toCharset dec mime

/-- `get_mime_from_header`, the charset falling back on `ch_fallback`. -/
def sectionMime (header : List Str) : Option MIMEInfo :=
  (getMimeFromHeader header).map fun mime =>
    { mime with typeCharset := mime.typeCharset.or chFallback }

/-- The function that decodes a section: of a list and its header, the new
list unless the section is skipped. -/
abbrev DebodySection := Lines → Textlist → List Str → Option (Option Textlist × Lines)

/-- `if (ptr_body != NULL) tl_addtl_move(dec_body, ptr_body)` -/
def moveSection (h : Lines) (dec : Textlist) : Option Textlist → Option (Textlist × Lines)
  | none => some (dec, h)
  | some ptr => tlAddtlMove h dec ptr

/-- The second loop of `mime_debody_multipart`, over the lines behind the
first boundary line: `dec_body` and `tmp_body`. -/
def multipartLoop (debody : DebodySection) (boundary finBoundary : Str) :
    List Str → Textlist → Textlist → Lines → Option (Textlist × Lines)
  | [], dec, _, h => some (dec, h)
  | line :: body, dec, tmp, h =>
      if ! hasPrefix boundary line then do
        let (tmp, h) ← tlAppend h tmp line
        multipartLoop debody boundary finBoundary body dec tmp h
      else do
        let header := headerReadList (tlLines h tmp)
        let (tmp, h) ← headerDeleteFromBody h tmp
        let (ptr, h) ← debody h tmp header
        let (dec, h) ← moveSection h dec ptr
        let (tmp, h) ← tlClear h tmp
        if hasPrefix finBoundary line then some (dec, h)
        else multipartLoop debody boundary finBoundary body dec tmp h

/-- The delimiter lines of a boundary parameter begin with this. -/
def delimiter (boundary : Str) : Str := lit "--" ++ boundary

/-- and the last one with this. -/
def closeDelimiter (boundary : Str) : Str := delimiter boundary ++ lit "--"

/-- `mime_debody_multipart`, which reads the `next` of NULL if there is no
boundary line -/
def mimeDebodyMultipartWith (debody : DebodySection) (h : Lines) (body : Textlist)
    (mime : MIMEInfo) : Option (Option Textlist × Lines) :=
  match mime.typeBoundary with
  | none => some (none, h)
  | some b =>
      match (tlLines h body).dropWhile (! hasPrefix (delimiter b) ·) with
      | [] => none
      | _ :: rest => do
          let (dec, h) ← multipartLoop debody (delimiter b) (closeDelimiter b) rest tlInit tlInit h
          some (some dec, h)

/-- `mime_debody_section`, for sections nested less than `n` deep -/
def mimeDebodySection : Nat → DebodySection
  | n, h, body, header => do
      let mime ← sectionMime chFallback header
      if mime.isText then
        match mimeDebodyText recode toCharset mime (tlLines h body) with
        | none => some (none, h)
        | some dec => do
            let (list, h) ← tlCopy h tlInit dec
            some (some list, h)
      else if mime.isMultipart then
        match n with
        | 0 => none
        | n + 1 => mimeDebodyMultipartWith (mimeDebodySection n) h body mime
      else some (none, h)

/-- `mime_debody_multipart`: no section is nested deeper than the body has
lines. -/
def mimeDebodyMultipart (h : Lines) (body : Textlist) (mime : MIMEInfo) :
    Option (Option Textlist × Lines) :=
  mimeDebodyMultipartWith (mimeDebodySection recode toCharset chFallback (tlLines h body).length) h body
    mime

/-- `mime_body_dec`; a list without lines counts as no list. -/
def mimeBodyDec (h : Lines) (body : Textlist) (header : List Str) :
    Option (Option Textlist × Lines) := do
  let n := (tlLines h body).length + 1
  let (dec, h) ← mimeDebodySection recode toCharset chFallback n h body header
  some (dec.filter fun l => l.first.isSome, h)

end

end Fidogate

/-
# `Fidogate.Common.Parsedate` — parsedate.y: reading a time

The grammar is parsed by its own LALR(1) choices, shifting where it has a
conflict: a number behind `day month` is the year, a signed number behind a
time is its zone.
-/
import Fidogate.Common.Date

namespace Fidogate

open Bytes

inductive Meridian
  | am
  | pm
  | h24
  deriving DecidableEq

inductive DstMode
  | on
  | off
  | maybe
  deriving DecidableEq

/-- The tokens of `date_lex`. -/
inductive DateTok
  | day
  | dayzone (n : Int)
  | meridian (m : Meridian)
  | month (n : Int)
  | monthUnit (n : Int)
  | secUnit (n : Int)
  | snumber (n : Int)
  | unumber (n : Int)
  | zone (n : Int)
  | dst
  | char (c : UInt8)
  deriving DecidableEq

/-! ## Tables -/

def monthDayTable : List (Str × DateTok) :=
  [("january", .month 1), ("february", .month 2), ("march", .month 3), ("april", .month 4),
   ("may", .month 5), ("june", .month 6), ("july", .month 7), ("august", .month 8),
   ("september", .month 9), ("october", .month 10), ("november", .month 11),
   ("december", .month 12), ("sunday", .day), ("monday", .day), ("tuesday", .day),
   ("wednesday", .day), ("thursday", .day), ("friday", .day), ("saturday", .day)].map
  fun p => (lit p.1, p.2)

def unitsTable : List (Str × DateTok) :=
  [("year", .monthUnit 12), ("month", .monthUnit 1), ("week", .secUnit (7 * 24 * 60 * 60)),
   ("day", .secUnit (1 * 24 * 60 * 60)), ("hour", .secUnit (60 * 60)), ("minute", .secUnit 60),
   ("min", .secUnit 60), ("second", .secUnit 1), ("sec", .secUnit 1)].map
  fun p => (lit p.1, p.2)

def timezoneTable : List (Str × DateTok) :=
  [("gmt", .zone 0), ("ut", .zone 0), ("utc", .zone 0), ("cut", .zone 0), ("z", .zone 0),
   ("wet", .zone 0), ("bst", .dayzone 0), ("nst", .zone 210), ("ndt", .dayzone 210),
   ("ast", .zone 240), ("adt", .dayzone 240), ("est", .zone 300), ("edt", .dayzone 300),
   ("cst", .zone 360), ("cdt", .dayzone 360), ("mst", .zone 420), ("mdt", .dayzone 420),
   ("pst", .zone 480), ("pdt", .dayzone 480), ("yst", .zone 540), ("ydt", .dayzone 540),
   ("akst", .zone 540), ("akdt", .dayzone 540), ("hst", .zone 600), ("hast", .zone 600),
   ("hadt", .dayzone 600), ("ces", .dayzone (-60)), ("cest", .dayzone (-60)),
   ("mez", .zone (-60)), ("mezt", .dayzone (-60)), ("cet", .zone (-60)), ("met", .zone (-60)),
   ("mez", .zone (-60)), ("mewt", .zone (-60)), ("mest", .dayzone (-60)),
   ("mes", .dayzone (-60)), ("mesz", .dayzone (-60)), ("msz", .dayzone (-60)),
   ("metdst", .dayzone (-60)), ("eet", .zone (-120)), ("msk", .zone (-180)),
   ("msd", .dayzone (-180)), ("wast", .zone (-480)), ("wadt", .dayzone (-480)),
   ("hkt", .zone (-480)), ("cct", .zone (-480)), ("jst", .zone (-540)), ("kst", .zone (-540)),
   ("kdt", .zone (-540)), ("cast", .zone (-570)), ("cadt", .dayzone (-570)),
   ("east", .zone (-600)), ("eadt", .dayzone (-600)), ("nzst", .zone (-720)),
   ("nzdt", .dayzone (-720))].map
  fun p => (lit p.1, p.2)

/-- The first entry of a table with this very name. -/
def tableFind (t : List (Str × DateTok)) (w : Str) : Option DateTok :=
  (t.find? fun p => p.1 == w).map (·.2)

/-! ## The lexer -/

/-- The rest of `LookupWord` behind the month table. -/
def lookupOther (buff : Str) : DateTok :=
  let plain := buff.filter (· != 46)
  match tableFind timezoneTable buff with
  | some t => t
  | none =>
      if buff == lit "dst" then .dst
      else match tableFind unitsTable buff with
        | some t => t
        | none =>
            match (if 1 < buff.length && buff.getLast? == some 115 then
                tableFind unitsTable buff.dropLast else none) with
            | some t => t
            | none =>
                if plain == lit "am" then .meridian .am
                else if plain == lit "pm" then .meridian .pm
                else if plain.length != buff.length then
                  (tableFind timezoneTable plain).getD (.zone 0)
                else .zone 0

/-- `LookupWord`; a word of three letters, or of four with a period last, may
abbreviate a month or a day. -/
def lookupWord (buff : Str) : DateTok :=
  let found :=
    if buff.length == 3 || (buff.length == 4 && buff[3]? == some 46) then
      (monthDayTable.find? fun p => p.1.take 3 == buff.take 3).map (·.2)
    else tableFind monthDayTable buff
  match found with
  | some t => t
  | none => lookupOther buff

/-- `isspace`. -/
def isCSpace (c : UInt8) : Bool := isSpace c || c == 11 || c == 12

/-- The text behind a comment that is open `nesting` deep; `none` if it is bad. -/
def skipComment : Nat → Str → Option Str
  | _, [] => none
  | _, 92 :: [] => none
  | n, 92 :: d :: s => if 128 ≤ d || d == nul then none else skipComment n s
  | n, c :: s =>
      if c == 41 then if n ≤ 1 then some s else skipComment (n - 1) s
      else if c == 40 then skipComment (n + 1) s
      else if 128 ≤ c || c == cr || c == nul then none
      else skipComment n s

/-- `date_lex` until the end of the text (a byte from 128 up is a negative
token, which the parser takes for the end). -/
def dateTokens : Nat → Str → List DateTok
  | 0, _ => []
  | _, [] => []
  | n + 1, c :: s =>
      if isCSpace c then dateTokens n s
      else if c == 40 then
        match skipComment 1 s with
        | none => [.char 63]
        | some s' => dateTokens n s'
      else if isDigit c then
        .unumber (getDec 0 ((c :: s).takeWhile isDigit)) ::
          dateTokens n ((c :: s).dropWhile isDigit)
      else if c == 45 || c == 43 then
        if (s.head?.map isDigit).getD false then
          .snumber ((if c == 45 then -1 else 1) * (getDec 0 (s.takeWhile isDigit) : Int)) ::
            dateTokens n (s.dropWhile isDigit)
        else dateTokens n s
      else if isAlpha c then
        let w := (c :: s).takeWhile fun d => isAlpha d || d == 46
        lookupWord ((w.take 19).map toLower) :: dateTokens n ((c :: s).drop w.length)
      else if c == nul || 128 ≤ c then []
      else .char c :: dateTokens n s

/-! ## The grammar -/

/-- The global variables the actions set. -/
structure DateState where
  year : Int
  month : Int
  day : Int
  hour : Int
  minutes : Int
  seconds : Int
  tz : Int
  dst : DstMode
  mer : Meridian
  relMonth : Int
  relSeconds : Int
  haveDate : Nat
  haveTime : Nat
  haveRel : Bool

/-- `numzone`. -/
def numzone (n : Int) : Option Int :=
  let a : Int := n.natAbs
  if a > 9999 || a % 100 ≥ 60 then none
  else if n < 0 then some (a / 100 * 60 + a % 100)
  else some (-(a / 100 * 60 + a % 100))

/-- `o_merid`. -/
def oMerid : List DateTok → Meridian × List DateTok
  | .meridian m :: ts => (m, ts)
  | ts => (.h24, ts)

/-- The item `time` or `time zone`, the time itself being read. -/
def timeZone (st : DateState) : List DateTok → Option (DateState × List DateTok)
  | .zone z :: .dst :: ts =>
      some ({ st with tz := z, dst := .on, haveTime := st.haveTime + 1 }, ts)
  | .zone z :: .snumber n :: ts =>
      if z != 0 then none
      else (numzone n).map fun v =>
        ({ st with tz := v, dst := .off, haveTime := st.haveTime + 1 }, ts)
  | .zone z :: ts =>
      some ({ st with tz := z, dst := .off, haveTime := st.haveTime + 1 }, ts)
  | .dayzone z :: ts =>
      some ({ st with tz := z, dst := .on, haveTime := st.haveTime + 1 }, ts)
  | .snumber n :: ts =>
      (numzone n).map fun v =>
        ({ st with tz := v, dst := .off, haveTime := st.haveTime + 1 }, ts)
  | ts => some ({ st with haveTime := st.haveTime + 1 }, ts)

/-- The end of `time` behind its numbers: a zone number or `o_merid`. -/
def timeTail (st : DateState) (h m s : Int) (ts : List DateTok) :
    Option (DateState × List DateTok) :=
  match ts with
  | .snumber n :: ts' =>
      match numzone n with
      | none => none
      | some v =>
          timeZone { st with hour := h, minutes := m, seconds := s, tz := v, mer := .h24,
                             dst := .off } ts'
  | _ =>
      timeZone { st with hour := h, minutes := m, seconds := s, mer := (oMerid ts).1 }
        (oMerid ts).2

/-- One `item`. -/
def dateItem (st : DateState) : List DateTok → Option (DateState × List DateTok)
  | .unumber a :: .char 58 :: .unumber b :: .char 58 :: .unumber c :: ts => timeTail st a b c ts
  | .unumber _ :: .char 58 :: .unumber _ :: .char 58 :: _ => none
  | .unumber a :: .char 58 :: .unumber b :: ts => timeTail st a b 0 ts
  | .unumber _ :: .char 58 :: _ => none
  | .unumber a :: .char 47 :: .unumber b :: .char 47 :: .unumber c :: ts =>
      if a > 100 then
        some ({ st with year := a, month := b, day := c, haveDate := st.haveDate + 1 }, ts)
      else some ({ st with month := a, day := b, year := c, haveDate := st.haveDate + 1 }, ts)
  | .unumber _ :: .char 47 :: .unumber _ :: .char 47 :: _ => none
  | .unumber a :: .char 47 :: .unumber b :: ts =>
      some ({ st with month := a, day := b, haveDate := st.haveDate + 1 }, ts)
  | .unumber _ :: .char 47 :: _ => none
  | .unumber a :: .month m :: .unumber y :: ts =>
      some ({ st with day := a, month := m, year := y, haveDate := st.haveDate + 1 }, ts)
  | .unumber a :: .month m :: ts =>
      some ({ st with day := a, month := m, haveDate := st.haveDate + 1 }, ts)
  | .unumber a :: .secUnit u :: ts =>
      some ({ st with relSeconds := st.relSeconds + a * u, haveRel := true }, ts)
  | .unumber a :: .monthUnit u :: ts =>
      some ({ st with relMonth := st.relMonth + a * u, haveRel := true }, ts)
  | .unumber a :: ts =>
      timeZone { st with hour := if a < 100 then a else a / 100,
                         minutes := if a < 100 then 0 else a % 100,
                         seconds := 0, mer := (oMerid ts).1 } (oMerid ts).2
  | .month m :: .unumber d :: .char 44 :: .unumber y :: ts =>
      some ({ st with month := m, day := d, year := y, haveDate := st.haveDate + 1 }, ts)
  | .month _ :: .unumber _ :: .char 44 :: _ => none
  | .month m :: .unumber d :: ts =>
      some ({ st with month := m, day := d, haveDate := st.haveDate + 1 }, ts)
  | .day :: .char 44 :: .unumber d :: .month m :: .unumber y :: ts =>
      some ({ st with day := d, month := m, year := y, haveDate := st.haveDate + 1 }, ts)
  | .day :: .unumber d :: .month m :: .unumber y :: ts =>
      some ({ st with day := d, month := m, year := y, haveDate := st.haveDate + 1 }, ts)
  | .snumber n :: .secUnit u :: ts =>
      some ({ st with relSeconds := st.relSeconds + n * u, haveRel := true }, ts)
  | .snumber n :: .monthUnit u :: ts =>
      some ({ st with relMonth := st.relMonth + n * u, haveRel := true }, ts)
  | _ => none

/-- `date_parse`: items to the end of the tokens. -/
def dateParse : Nat → DateState → List DateTok → Option DateState
  | _, st, [] => some st
  | 0, _, _ :: _ => none
  | n + 1, st, ts =>
      match dateItem st ts with
      | none => none
      | some (st', ts') => dateParse n st' ts'

/-! ## Conversion -/

def daysNormal : List Int := [0, 31, 28, 31, 30, 31, 30, 31, 31, 30, 31, 30, 31]

def daysLeap : List Int := [0, 31, 29, 31, 30, 31, 30, 31, 31, 30, 31, 30, 31]

def leapYears : List Int :=
  [1972, 1976, 1980, 1984, 1988, 1992, 1996, 2000, 2004, 2008, 2012, 2016, 2020, 2024, 2028,
   2032, 2036]

/-- `ToSeconds`. -/
def toSeconds (hours minutes seconds : Int) (mer : Meridian) : Int :=
  if minutes < 0 || minutes > 59 || seconds < 0 || seconds > 61 then -1
  else match mer with
    | .h24 =>
        if hours < 0 || hours > 23 then -1 else (hours * 60 + minutes) * 60 + seconds
    | .am =>
        if hours < 1 || hours > 12 then -1
        else ((if hours == 12 then 0 else hours) * 60 + minutes) * 60 + seconds
    | .pm =>
        if hours < 1 || hours > 12 then -1
        else ((if hours == 12 then 12 else hours + 12) * 60 + minutes) * 60 + seconds

/-- The four-digit year of `Convert`. -/
def fullYear (year : Int) : Int :=
  let y := if year < 0 then -year else year
  let y := if y < 100 then y + 1900 else y
  if y < 1970 then y + 100 else y

/-- `Convert`. -/
def convert (ck : Clock) (tz month day year hours minutes seconds : Int) (mer : Meridian)
    (dst : DstMode) : Int :=
  let year := fullYear year
  let mp := if year ∈ leapYears then daysLeap else daysNormal
  if year < 1970 || year > 2038 || month < 1 || month > 12 || day < 1 ||
      day > mp.getD month.toNat 0 then -1
  else
    let days := day - 1 + (year - 1970) * 365 + (leapYears.takeWhile (· < year)).length +
      ((mp.drop 1).take (month - 1).toNat).sum
    let julian := days * 86400 + tz * 60
    let tod := toSeconds hours minutes seconds mer
    if tod < 0 then -1
    else
      let t := julian + tod
      if dst == .on || (dst == .maybe && (ck.localtime t).isdst) then t - 3600 else t

/-- `DSTcorrect`. -/
def dstCorrect (ck : Clock) (start future : Int) : Int :=
  let startDay := ((ck.localtime start).hour + 1).tmod 24
  let futureDay := ((ck.localtime future).hour + 1).tmod 24
  (future - start) + (startDay - futureDay) * 3600

/-- `RelativeMonth`. -/
def relativeMonth (ck : Clock) (tz start relMonth : Int) : Int :=
  let tm := ck.localtime start
  let month := 12 * tm.year + tm.mon + relMonth
  dstCorrect ck start
    (convert ck tz (month.tmod 12 + 1) tm.mday (month.tdiv 12) tm.hour tm.min tm.sec .h24 .maybe)

/-- The variables when `parsedate` starts. -/
def dateInit (ck : Clock) : DateState :=
  let tm := ck.localtime ck.time
  { year := tm.year, month := tm.mon + 1, day := tm.mday, hour := 0, minutes := 0, seconds := 0,
    tz := if tm.isdst then ck.tzone + 60 else ck.tzone, dst := .maybe, mer := .h24,
    relMonth := 0, relSeconds := 0, haveDate := 0, haveTime := 0, haveRel := false }

/-- `parsedate(p, NULL)`. -/
def parsedate (ck : Clock) (p : Str) : Int :=
  let tm := ck.localtime ck.time
  let ts := dateTokens (p.length + 1) p
  match dateParse ts.length (dateInit ck) ts with
  | none => -1
  | some st =>
      if st.haveTime > 1 || st.haveDate > 1 then -1
      else
        let start :=
          if st.haveDate > 0 || st.haveTime > 0 then
            convert ck st.tz st.month st.day st.year st.hour st.minutes st.seconds st.mer st.dst
          else if st.haveRel then ck.time
          else ck.time - ((tm.hour * 60 + tm.min) * 60 + tm.sec)
        if (st.haveDate > 0 || st.haveTime > 0) && start < 0 then -1
        else
          let start := start + st.relSeconds
          let start :=
            if st.relMonth != 0 then start + relativeMonth ck st.tz start st.relMonth else start
          if start == -1 then 0 else start

end Fidogate

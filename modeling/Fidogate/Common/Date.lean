/-
# `Fidogate.Common.Date` — date.c: printing a time

The C library's calendar (`gmtime`) is computed here; what depends on the
machine, the local time zone and its daylight-saving rules, is the `Clock`
the functions are given.
-/
import Fidogate.Lib.Bytes

namespace Fidogate

open Bytes

/-- `struct tm`. -/
structure Tm where
  sec : Int
  min : Int
  hour : Int
  mday : Int
  mon : Int
  year : Int
  wday : Int
  yday : Int
  isdst : Bool
  deriving DecidableEq, Repr

/-- The machine's clock: the current time, the minutes UTC is ahead of local
time now (`TIMEINFO.tzone`), `localtime` and `strftime`'s `%Z`. -/
structure Clock where
  time : Int
  tzone : Int
  localtime : Int → Tm
  tzName : Tm → Str

/-! ## The calendar -/

def isLeap (y : Int) : Bool := y % 4 == 0 && (y % 100 != 0 || y % 400 == 0)

def yearLen (y : Int) : Int := if isLeap y then 366 else 365

def monthLens (y : Int) : List Int :=
  [31, if isLeap y then 29 else 28, 31, 30, 31, 30, 31, 31, 30, 31, 30, 31]

/-- The year and the day of the year of day `d` counted from the first of
January of `y`. -/
def splitYear : Nat → Int → Int → Int × Int
  | 0, y, d => (y, d)
  | n + 1, y, d =>
      if d < 0 then splitYear n (y - 1) (d + yearLen (y - 1))
      else if d < yearLen y then (y, d)
      else splitYear n (y + 1) (d - yearLen y)

/-- The month and the day of the month of day `d` counted from the first day
of month `m`. -/
def splitMonth : Int → List Int → Int → Int × Int
  | m, [], d => (m, d)
  | m, l :: ls, d => if d < l then (m, d) else splitMonth (m + 1) ls (d - l)

/-- `gmtime`. -/
def gmtime (t : Int) : Tm :=
  let days := t / 86400
  let s := t % 86400
  let yd := splitYear (days.natAbs + 1) 1970 days
  let md := splitMonth 0 (monthLens yd.1) yd.2
  { sec := s % 60, min := s / 60 % 60, hour := s / 3600, mday := md.2 + 1, mon := md.1,
    year := yd.1 - 1900, wday := (days + 4) % 7, yday := yd.2, isdst := false }

/-! ## Time zone texts -/

/-- `sscanf("%02u")`: white space, a sign, up to two characters in all. -/
def scanU2 (s : Str) : Option (Nat × Str) :=
  let s := s.dropWhile (fun c => isSpace c || c == 11 || c == 12)
  match s with
  | [] => none
  | c :: s' =>
      if c == 43 || c == 45 then
        match s' with
        | d :: s'' =>
            if isDigit d then
              some (if c == 45 then (2 ^ 32 - getDec 0 [d]) % 2 ^ 32 else getDec 0 [d], s'')
            else none
        | [] => none
      else if isDigit c then
        match s' with
        | d :: s'' => if isDigit d then some (getDec 0 [c, d], s'') else some (getDec 0 [c], s')
        | [] => some (getDec 0 [c], [])
      else none

/-- `date_tz_str_to_time`: the minutes of a TZUTC text, -1 on error. -/
def dateTzStrToTime : Option Str → Int
  | none => -1
  | some s =>
      let r : Int × Str :=
        match s with
        | 43 :: s' => (1, s')
        | 45 :: s' => (-1, s')
        | _ => (1, s)
      match scanU2 r.2 with
      | none => -1
      | some (hours, s') =>
          match scanU2 s' with
          | none => -1
          | some (mins, _) => r.1 * ((hours * 60 + mins) % 2 ^ 32 : Nat)

/-! ## Formats -/

def weekdays : List Str :=
  ["Sun", "Mon", "Tue", "Wed", "Thu", "Fri", "Sat"].map lit

def months : List Str :=
  ["Jan", "Feb", "Mar", "Apr", "May", "Jun", "Jul", "Aug", "Sep", "Oct", "Nov", "Dec"].map lit

/-- `off = -ti.tzone`, an `int`. -/
def dateOff (tzone : Int) : Int := (-tzone).bmod (2 ^ 32)

/-- The text of one conversion of `date_buf`; `tzone` is the zone in effect. -/
def dateField (ck : Clock) (tm : Tm) (tzone : Int) (c : UInt8) : Str :=
  let off : Int := (dateOff tzone).natAbs
  let sign : UInt8 := if 0 ≤ dateOff tzone then 43 else 45
  if c == 97 then weekdays.getD tm.wday.toNat []                     -- a
  else if c == 98 then months.getD tm.mon.toNat []                   -- b
  else if c == 100 then putIntZ 2 tm.mday                            -- d
  else if c == 72 then putIntZ 2 tm.hour                             -- H
  else if c == 71 then putIntZ 2 (tm.hour - off / 60)                -- G
  else if c == 86 then putIntZ 2 (tm.min - off % 60)                 -- V
  else if c == 85 then lit "UTC"                                     -- U
  else if c == 106 then putIntZ 3 tm.yday                            -- j
  else if c == 109 then putIntZ 2 (tm.mon + 1)                       -- m
  else if c == 77 then putIntZ 2 tm.min                              -- M
  else if c == 83 then putIntZ 2 tm.sec                              -- S
  else if c == 119 then putInt tm.wday                               -- w
  else if c == 120 then                                              -- x
    months.getD tm.mon.toNat [] ++ sp :: putIntW 2 tm.mday ++ sp :: putIntW 4 (tm.year + 1900)
  else if c == 88 then                                               -- X
    putIntZ 2 tm.hour ++ 58 :: putIntZ 2 tm.min ++ 58 :: putIntZ 2 tm.sec
  else if c == 121 then putIntZ 2 (tm.year.tmod 100)                 -- y
  else if c == 89 then putIntW 4 (1900 + tm.year)                    -- Y
  else if c == 90 then ck.tzName tm                                  -- Z
  else if c == 78 then                                               -- N
    (if 0 ≤ dateOff tzone then [] else [45]) ++ putIntZ 2 (off / 60) ++ putIntZ 2 (off % 60)
  else if c == 79 then sign :: putIntZ 2 (off / 60) ++ putIntZ 2 (off % 60)   -- O
  else [c]

/-- The conversions of a format, one after the other. -/
def dateConv (ck : Clock) (tm : Tm) (tzone : Int) : Str → Str
  | [] => []
  | [c] => if c == 37 then [] else [c]
  | c :: c' :: fmt =>
      if c == 37 then dateField ck tm tzone c' ++ dateConv ck tm tzone fmt
      else c :: dateConv ck tm tzone (c' :: fmt)

/-- `date_buf`; a `tz` of -1 means the clock's own zone. -/
def dateBuf (ck : Clock) (len : Nat) (fmt : Str) (t : Int) (tz : Int) : Str :=
  let tzone := if tz != -1 then tz else ck.tzone
  (dateConv ck (gmtime (t - tzone * 60)) tzone fmt).take (len - 1)

/-- The zone argument `date_tz` hands to `date_buf`. -/
def dateTzArg (tz : Option Str) : Int :=
  let z := dateTzStrToTime tz
  if z != -1 then -z else z

/-- `date_tz`. -/
def dateTz (ck : Clock) (fmt : Str) (t : Int) (tz : Option Str) : Str :=
  dateBuf ck 128 fmt t (dateTzArg tz)

/-- The zone in effect for `date_tz`: minutes UTC is ahead. -/
def dateZone (ck : Clock) (tz : Option Str) : Int :=
  if dateTzArg tz != -1 then dateTzArg tz else ck.tzone

def DATE_DEFAULT : Str := lit "%a, %d %b %Y %H:%M:%S %O"
def DATE_FTS_0001 : Str := lit "%d %b %y  %H:%M:%S"

/-- `DATE_VIA`, without and with `FTS_VIA`. -/
def DATE_VIA (ftsVia : Bool) : Str :=
  if ftsVia then lit "%Y%m%d.%H%M%S.%N" else lit "%a %b %d %Y at %H:%M:%S %Z"

/-- `date(DATE_VIA, NULL)`. -/
def dateVia (ftsVia : Bool) (ck : Clock) : Str := dateTz ck (DATE_VIA ftsVia) ck.time none

/-! ## What the calendar gives -/

/-- Days from 1970 to the first of January of `y`. -/
def yearBase (y : Int) : Int :=
  (y - 1970) * 365 + (y - 1969) / 4 - (y - 1901) / 100 + (y - 1601) / 400

theorem yearBase_succ (y : Int) : yearBase (y + 1) = yearBase y + yearLen y := by
  simp only [yearBase, yearLen, isLeap, Bool.and_eq_true, Bool.or_eq_true, beq_iff_eq,
    bne_iff_ne, ne_eq]
  split <;> omega

theorem yearLen_pos (y : Int) : 365 ≤ yearLen y := by
  unfold yearLen
  split <;> omega

/-- Splitting off years keeps the day count. -/
theorem splitYear_spec : ∀ (n : Nat) (y d : Int), 0 ≤ d → d < n →
    0 ≤ (splitYear n y d).2 ∧ (splitYear n y d).2 < yearLen (splitYear n y d).1 ∧
    y ≤ (splitYear n y d).1 ∧
    yearBase (splitYear n y d).1 + (splitYear n y d).2 = yearBase y + d
  | 0, y, d, h0, hn => absurd hn (by omega)
  | n + 1, y, d, h0, hn => by
      have hneg : ¬ d < 0 := by omega
      by_cases hd : d < yearLen y
      · have he : splitYear (n + 1) y d = (y, d) := by simp [splitYear, hneg, hd]
        rw [he]
        exact ⟨h0, hd, Int.le_refl _, rfl⟩
      · have hl := yearLen_pos y
        obtain ⟨h1, h2, h3, h4⟩ :=
          splitYear_spec n (y + 1) (d - yearLen y) (by omega) (by omega)
        simp only [splitYear, hneg, if_false, hd]
        refine ⟨h1, h2, by omega, ?_⟩
        rw [h4, yearBase_succ]
        omega

/-- Splitting off months keeps the day count. -/
theorem splitMonth_spec : ∀ (ls : List Int) (m d : Int), 0 ≤ d → d < ls.sum →
    ∃ (k : Nat) (l : Int), splitMonth m ls d = (m + k, d - (ls.take k).sum) ∧ ls[k]? = some l ∧
      0 ≤ d - (ls.take k).sum ∧ d - (ls.take k).sum < l
  | [], m, d, h0, h => absurd h (by simp only [List.sum_nil]; omega)
  | l :: ls, m, d, h0, h => by
      by_cases hd : d < l
      · refine ⟨0, l, ?_, rfl, ?_, ?_⟩
        · simp [splitMonth, hd]
        · simpa using h0
        · simpa using hd
      · rw [List.sum_cons] at h
        obtain ⟨k, l', h1, h2, h3, h4⟩ := splitMonth_spec ls (m + 1) (d - l) (by omega) (by omega)
        refine ⟨k + 1, l', ?_, ?_, ?_, ?_⟩
        · simp only [splitMonth, hd, if_false, h1, List.take_succ_cons, List.sum_cons,
            Prod.mk.injEq]
          constructor <;> push_cast <;> omega
        · simpa using h2
        · rw [List.take_succ_cons, List.sum_cons]; omega
        · rw [List.take_succ_cons, List.sum_cons]; omega

theorem monthLens_sum (y : Int) : (monthLens y).sum = yearLen y := by
  simp only [monthLens, yearLen]
  split <;> rfl

end Fidogate

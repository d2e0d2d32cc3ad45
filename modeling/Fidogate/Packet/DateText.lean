/-
# `Fidogate.Packet.DateText` — the date of a message header is read back

A message header carries its date as local time with a two-digit year.  The
writer takes local time from the zone of the moment (or from TZUTC), the
reader adds the standard zone of the moment and then asks the C library
whether daylight saving was in effect at the time it got.  The two agree
exactly when the zone offsets do (`parsedate_dateTz`).
-/
import Mathlib.Tactic.IntervalCases
import Fidogate.Common.Parsedate

namespace Fidogate

open Bytes

/-! ## The text -/

theorem putIntZ_two : ∀ n < 100, ∃ c d : UInt8, putIntZ 2 (n : Nat) = [c, d] ∧
    isDigit c = true ∧ isDigit d = true ∧ getDec 0 [c, d] = n := by
  have h : ∀ n < 100,
      putIntZ 2 (n : Nat) = [48 + (n / 10).toUInt8, 48 + (n % 10).toUInt8] ∧
      isDigit (48 + (n / 10).toUInt8) = true ∧ isDigit (48 + (n % 10).toUInt8) = true ∧
      getDec 0 [48 + (n / 10).toUInt8, 48 + (n % 10).toUInt8] = n := by decide +kernel
  exact fun n hn => ⟨_, _, h n hn⟩

/-- The fields of a broken-down time whose text is a date of the packet. -/
structure Tm.Printable (tm : Tm) : Prop where
  mday : 0 ≤ tm.mday ∧ tm.mday < 100
  mon : 0 ≤ tm.mon ∧ tm.mon < 12
  year : 0 ≤ tm.year
  hour : 0 ≤ tm.hour ∧ tm.hour < 24
  min : 0 ≤ tm.min ∧ tm.min < 60
  sec : 0 ≤ tm.sec ∧ tm.sec < 60

theorem dateConv_fts (ck : Clock) (tm : Tm) (tz : Int) :
    dateConv ck tm tz DATE_FTS_0001 =
      putIntZ 2 tm.mday ++ sp :: (months.getD tm.mon.toNat [] ++ sp ::
        (putIntZ 2 (tm.year.tmod 100) ++ sp :: sp :: (putIntZ 2 tm.hour ++ 58 ::
          (putIntZ 2 tm.min ++ 58 :: putIntZ 2 tm.sec)))) := by
  have h : DATE_FTS_0001 =
      [37, 100, 32, 37, 98, 32, 37, 121, 32, 32, 37, 72, 58, 37, 77, 58, 37, 83] := by decide
  rw [h]
  simp [dateConv, dateField]

theorem months_getD_length (m : Nat) (h : m < 12) : (months.getD m []).length = 3 := by
  interval_cases m <;> rfl

/-- Every date of a header has the width the reader takes. -/
theorem dateConv_fts_length {tm : Tm} (h : tm.Printable) (ck : Clock) (tz : Int) :
    (dateConv ck tm tz DATE_FTS_0001).length = 19 := by
  obtain ⟨hd, hm, hy, hh, hmi, hs⟩ := h
  have two : ∀ n : Int, 0 ≤ n → n < 100 → (putIntZ 2 n).length = 2 := by
    intro n h0 h1
    obtain ⟨k, rfl⟩ := Int.eq_ofNat_of_zero_le h0
    obtain ⟨c, d, hk, -⟩ := putIntZ_two k (by omega)
    rw [hk]
    rfl
  have hy2 : 0 ≤ tm.year.tmod 100 ∧ tm.year.tmod 100 < 100 :=
    ⟨Int.tmod_nonneg _ hy, Int.tmod_lt_of_pos _ (by decide)⟩
  rw [dateConv_fts]
  simp only [List.length_append, List.length_cons, two _ hd.1 hd.2, two _ hy2.1 hy2.2,
    two _ hh.1 (by omega), two _ hmi.1 (by omega), two _ hs.1 (by omega),
    months_getD_length _ (by omega : tm.mon.toNat < 12)]

theorem isDigit_ne_nul {c : UInt8} (h : isDigit c = true) : nul ≠ c := by
  intro e
  rw [← e] at h
  exact absurd h (by decide)

theorem dateConv_fts_nul {tm : Tm} (h : tm.Printable) (ck : Clock) (tz : Int) :
    nul ∉ dateConv ck tm tz DATE_FTS_0001 := by
  obtain ⟨hd, hm, hy, hh, hmi, hs⟩ := h
  have two : ∀ n : Int, 0 ≤ n → n < 100 → nul ∉ putIntZ 2 n := by
    intro n h0 h1
    obtain ⟨k, rfl⟩ := Int.eq_ofNat_of_zero_le h0
    obtain ⟨c, d, hk, hc, hd, -⟩ := putIntZ_two k (by omega)
    rw [hk]
    simp [isDigit_ne_nul hc, isDigit_ne_nul hd]
  have hmon : ∀ m < 12, nul ∉ months.getD m [] := by decide
  have hy2 : 0 ≤ tm.year.tmod 100 ∧ tm.year.tmod 100 < 100 :=
    ⟨Int.tmod_nonneg _ hy, Int.tmod_lt_of_pos _ (by decide)⟩
  rw [dateConv_fts]
  simp only [List.mem_append, List.mem_cons, two _ hd.1 hd.2, two _ hy2.1 hy2.2,
    two _ hh.1 (by omega), two _ hmi.1 (by omega), two _ hs.1 (by omega),
    hmon _ (by omega : tm.mon.toNat < 12)]
  decide

/-! ## The tokens of the text -/

theorem dateTokens_sp (n : Nat) (s : Str) : dateTokens (n + 1) (sp :: s) = dateTokens n s := by
  rfl

theorem dateTokens_colon (n : Nat) (s : Str) :
    dateTokens (n + 1) (58 :: s) = .char 58 :: dateTokens n s := by
  rfl

theorem dateTokens_two (n k : Nat) (hk : k < 100) (s : Str)
    (hs : ∀ c ∈ s.head?, isDigit c = false) :
    dateTokens (n + 1) (putIntZ 2 k ++ s) = .unumber k :: dateTokens n s := by
  obtain ⟨c, d, h, hc, hd, hv⟩ := putIntZ_two k hk
  have hstop : s.takeWhile isDigit = [] ∧ s.dropWhile isDigit = s := by
    cases s with
    | nil => exact ⟨rfl, rfl⟩
    | cons e s => simp [hs e rfl]
  have hns : isCSpace c = false ∧ (c == 40) = false := by
    have h1 : 48 ≤ c.toNat := by
      simp only [isDigit, Bool.and_eq_true, decide_eq_true_eq, UInt8.le_iff_toNat_le] at hc
      exact hc.1
    have hne : ∀ b : UInt8, b.toNat < 48 → (c == b) = false := by
      intro b hb
      simp only [beq_eq_false_iff_ne, ne_eq]
      intro e
      rw [e] at h1
      omega
    simp only [isCSpace, isSpace, hne 40 (by decide), hne sp (by decide), hne tab (by decide),
      hne cr (by decide), hne lf (by decide), hne 11 (by decide), hne 12 (by decide),
      Bool.or_self, and_self]
  rw [h]
  simp only [List.cons_append, List.nil_append, dateTokens, hns.1, hns.2, hc, if_true,
    List.takeWhile_cons, List.dropWhile_cons, hd, hstop.1, hstop.2, hv, Bool.false_eq_true,
    if_false]

theorem dateTokens_month (n m : Nat) (hm : m < 12) (s : Str) :
    dateTokens (n + 1) (months.getD m [] ++ sp :: s) =
      .month (m + 1) :: dateTokens n (sp :: s) := by
  interval_cases m <;> rfl

/-- The numbers of the text come out of the lexer. -/
theorem dateTokens_fts {tm : Tm} (h : tm.Printable) (ck : Clock) (tz : Int) :
    dateTokens 20 (dateConv ck tm tz DATE_FTS_0001) =
      [.unumber tm.mday, .month (tm.mon + 1), .unumber (tm.year.tmod 100), .unumber tm.hour,
        .char 58, .unumber tm.min, .char 58, .unumber tm.sec] := by
  obtain ⟨hd, hm, hy, hh, hmi, hs⟩ := h
  have hy2 : 0 ≤ tm.year.tmod 100 ∧ tm.year.tmod 100 < 100 :=
    ⟨Int.tmod_nonneg _ hy, Int.tmod_lt_of_pos _ (by decide)⟩
  have two : ∀ (n : Nat) (i : Int) (s : Str), 0 ≤ i → i < 100 →
      (∀ c ∈ s.head?, isDigit c = false) →
      dateTokens (n + 1) (putIntZ 2 i ++ s) = .unumber i :: dateTokens n s := by
    intro n i s h0 h1 hs
    obtain ⟨k, rfl⟩ := Int.eq_ofNat_of_zero_le h0
    exact dateTokens_two n k (by omega) s hs
  have hsp : ∀ s : Str, ∀ c ∈ (sp :: s).head?, isDigit c = false := by
    intro s c hc
    simp only [List.head?_cons, Option.mem_some_iff] at hc
    exact hc ▸ rfl
  have hco : ∀ s : Str, ∀ c ∈ (58 :: s : Str).head?, isDigit c = false := by
    intro s c hc
    simp only [List.head?_cons, Option.mem_some_iff] at hc
    exact hc ▸ rfl
  have hmon : (tm.mon.toNat : Int) = tm.mon := Int.toNat_of_nonneg hm.1
  rw [dateConv_fts, two 19 _ _ hd.1 hd.2 (hsp _), dateTokens_sp,
    dateTokens_month 17 _ (by omega), dateTokens_sp, two 15 _ _ hy2.1 hy2.2 (hsp _),
    dateTokens_sp, dateTokens_sp, two 12 _ _ hh.1 (by omega) (hco _), dateTokens_colon,
    two 10 _ _ hmi.1 (by omega) (hco _), dateTokens_colon, hmon]
  have hlast := two 8 tm.sec [] hs.1 (by omega) (fun c hc => absurd hc (by simp))
  rw [List.append_nil] at hlast
  rw [hlast]
  rfl

/-! ## The calendar, forth and back -/

theorem monthLens_le {y : Int} {j : Nat} {l : Int} (h : (monthLens y)[j]? = some l) :
    j < 12 ∧ l ≤ 31 := by
  have hj : j < 12 := (List.getElem?_eq_some_iff.mp h).1
  refine ⟨hj, ?_⟩
  unfold monthLens at h
  cases isLeap y <;> interval_cases j <;> simp at h <;> omega

/-- `gmtime` of a time from 1970 on: the day count it splits up. -/
theorem gmtime_civil {t : Int} (h : 0 ≤ t) : ∃ (j : Nat) (l : Int),
    (gmtime t).mon = j ∧ 0 ≤ (gmtime t).year - 70 ∧
    (monthLens ((gmtime t).year + 1900))[j]? = some l ∧
    1 ≤ (gmtime t).mday ∧ (gmtime t).mday ≤ l ∧
    yearBase ((gmtime t).year + 1900) + ((monthLens ((gmtime t).year + 1900)).take j).sum +
      ((gmtime t).mday - 1) = t / 86400 := by
  have hd : 0 ≤ t / 86400 := Int.ediv_nonneg h (by decide)
  obtain ⟨h1, h2, h3, h4⟩ :=
    splitYear_spec ((t / 86400).natAbs + 1) 1970 (t / 86400) hd (by omega)
  have hbase : yearBase 1970 = 0 := by decide
  rw [hbase] at h4
  have hsum := monthLens_sum (splitYear ((t / 86400).natAbs + 1) 1970 (t / 86400)).1
  obtain ⟨k, l, e, hl, hlo, hhi⟩ := splitMonth_spec _ 0 _ h1 (hsum ▸ h2)
  refine ⟨k, l, ?_, ?_, ?_, ?_, ?_, ?_⟩
  · simp [gmtime, e]
  · simp only [gmtime]; omega
  · simpa [gmtime] using hl
  · simp only [gmtime, e]; omega
  · simp only [gmtime, e]; omega
  · simp only [gmtime, e, Int.sub_add_cancel]; omega

theorem gmtime_clock (t : Int) :
    (0 ≤ (gmtime t).hour ∧ (gmtime t).hour < 24) ∧ (0 ≤ (gmtime t).min ∧ (gmtime t).min < 60) ∧
    (0 ≤ (gmtime t).sec ∧ (gmtime t).sec < 60) ∧
    ((gmtime t).hour * 60 + (gmtime t).min) * 60 + (gmtime t).sec = t % 86400 := by
  simp only [gmtime]
  omega

theorem gmtime_printable {t : Int} (h : 0 ≤ t) : (gmtime t).Printable := by
  obtain ⟨j, l, hm, hy, hl, hd1, hd2, -⟩ := gmtime_civil h
  obtain ⟨hh, hmi, hs, -⟩ := gmtime_clock t
  have hle := monthLens_le hl
  exact ⟨by omega, by omega, by omega, hh, hmi, hs⟩

/-- The tables of `Convert` and the calendar agree on every year it takes. -/
theorem convert_tables : ∀ k < 69,
    fullYear ((1970 + (k : Nat) - 1900 : Int).tmod 100) = 1970 + k ∧
    (if (1970 + k : Int) ∈ leapYears then daysLeap else daysNormal) =
      0 :: monthLens (1970 + k) ∧
    ((1970 + k : Int) - 1970) * 365 + (leapYears.takeWhile (· < (1970 + k : Int))).length =
      yearBase (1970 + k) := by
  decide +kernel

/-- What `Convert` adds to the local time of a text without a zone. -/
def readerOffset (ck : Clock) (local_ : Int) : Int :=
  (dateInit ck).tz * 60 -
    if (ck.localtime (local_ + (dateInit ck).tz * 60)).isdst then 3600 else 0

/-- `Convert` undoes `gmtime`, up to the zone. -/
theorem convert_gmtime {t : Int} (ck : Clock) (h : 0 ≤ t) (hy : (gmtime t).year ≤ 138) :
    convert ck (dateInit ck).tz ((gmtime t).mon + 1) (gmtime t).mday
      ((gmtime t).year.tmod 100) (gmtime t).hour (gmtime t).min (gmtime t).sec .h24 .maybe =
    t + readerOffset ck t := by
  obtain ⟨j, l, hm, hy0, hl, hd1, hd2, hdays⟩ := gmtime_civil h
  obtain ⟨hh, hmi, hs, hsecs⟩ := gmtime_clock t
  generalize (gmtime t).mday = day at *
  generalize (gmtime t).hour = hour at *
  generalize (gmtime t).min = min at *
  generalize (gmtime t).sec = sec at *
  obtain ⟨k, hk, hY⟩ : ∃ k : Nat, k < 69 ∧ (gmtime t).year = 1970 + k - 1900 :=
    ⟨((gmtime t).year - 70).toNat, by omega, by omega⟩
  obtain ⟨hfull, htab, hbase⟩ := convert_tables k hk
  have hY' : (1970 + (k : Int) - 1900) + 1900 = 1970 + k := by omega
  rw [hY, hY'] at hl hdays
  have hj := (monthLens_le hl).1
  have hmon : ((j : Int) + 1).toNat = j + 1 ∧ ((j : Int) + 1 - 1).toNat = j := by omega
  have hget : (0 :: monthLens (1970 + k)).getD (j + 1) 0 = l := by
    rw [List.getD_cons_succ, List.getD_eq_getElem?_getD, hl]
    rfl
  have hsec : toSeconds hour min sec .h24 = t % 86400 := by
    rw [← hsecs]
    simp only [toSeconds]
    rw [if_neg (by simp; omega), if_neg (by simp; omega)]
  rw [hm, hY]
  simp only [convert, hfull, htab, hmon.1, hmon.2, hget, hsec]
  rw [if_neg (by simp; omega), if_neg (by omega)]
  have hsum : ((day - 1 + (1970 + (k : Int) - 1970) * 365 +
      (leapYears.takeWhile (· < (1970 + k : Int))).length +
      (((0 :: monthLens (1970 + k)).drop 1).take j).sum) * 86400 + (dateInit ck).tz * 60 +
      t % 86400) = t + (dateInit ck).tz * 60 := by
    rw [List.drop_one, List.tail_cons]
    omega
  rw [hsum]
  simp only [readerOffset]
  by_cases hdst : (ck.localtime (t + (dateInit ck).tz * 60)).isdst = true
  · simp [hdst]; omega
  · simp [hdst]

/-! ## The text is read back -/

/-- The local time a date is printed in. -/
def localTime (ck : Clock) (t : Int) (tz : Option Str) : Int := t - dateZone ck tz * 60

/-- A date the two-digit year of the header can hold. -/
structure DateFits (ck : Clock) (t : Int) (tz : Option Str) : Prop where
  nonneg : 0 ≤ t
  local_nonneg : 0 ≤ localTime ck t tz
  year : (gmtime (localTime ck t tz)).year ≤ 138

/-- The reader of the text adds the offset the writer took off. -/
def DateKept (ck : Clock) (t : Int) (tz : Option Str) : Prop :=
  readerOffset ck (localTime ck t tz) = dateZone ck tz * 60

theorem dateTz_fts {ck : Clock} {t : Int} {tz : Option Str} (h : DateFits ck t tz) :
    dateTz ck DATE_FTS_0001 t tz =
      dateConv ck (gmtime (localTime ck t tz)) (dateZone ck tz) DATE_FTS_0001 := by
  have hlen := dateConv_fts_length (gmtime_printable h.local_nonneg) ck (dateZone ck tz)
  simp only [dateTz, dateBuf]
  exact List.take_of_length_le (by
    show (dateConv ck (gmtime (localTime ck t tz)) (dateZone ck tz) DATE_FTS_0001).length ≤ _
    omega)

/-- What the reader makes of a printed date. -/
theorem parsedate_dateTz {ck : Clock} {t : Int} {tz : Option Str} (h : DateFits ck t tz) :
    parsedate ck (dateTz ck DATE_FTS_0001 t tz) =
      if localTime ck t tz + readerOffset ck (localTime ck t tz) < 0 then -1
      else localTime ck t tz + readerOffset ck (localTime ck t tz) := by
  have hp := gmtime_printable h.local_nonneg
  have hconv := convert_gmtime ck h.local_nonneg h.year
  rw [dateTz_fts h, parsedate, dateConv_fts_length hp, dateTokens_fts hp]
  have hparse : dateParse 8 (dateInit ck) [.unumber (gmtime (localTime ck t tz)).mday,
      .month ((gmtime (localTime ck t tz)).mon + 1),
      .unumber ((gmtime (localTime ck t tz)).year.tmod 100),
      .unumber (gmtime (localTime ck t tz)).hour, .char 58,
      .unumber (gmtime (localTime ck t tz)).min, .char 58,
      .unumber (gmtime (localTime ck t tz)).sec] =
      some { dateInit ck with
        day := (gmtime (localTime ck t tz)).mday, month := (gmtime (localTime ck t tz)).mon + 1,
        year := (gmtime (localTime ck t tz)).year.tmod 100,
        hour := (gmtime (localTime ck t tz)).hour, minutes := (gmtime (localTime ck t tz)).min,
        seconds := (gmtime (localTime ck t tz)).sec, haveDate := 1, haveTime := 1 } := rfl
  simp only [List.length_cons, List.length_nil, hparse]
  have hdst : (dateInit ck).dst = .maybe ∧ (dateInit ck).mer = .h24 ∧
      (dateInit ck).relMonth = 0 ∧ (dateInit ck).relSeconds = 0 := ⟨rfl, rfl, rfl, rfl⟩
  simp only [hdst, hconv]
  generalize localTime ck t tz + readerOffset ck (localTime ck t tz) = r
  by_cases hr : r < 0
  · simp [hr]
  · have hr1 : r ≠ -1 := by omega
    simp [hr, hr1]

theorem parsedate_dateTz_iff {ck : Clock} {t : Int} {tz : Option Str} (h : DateFits ck t tz) :
    parsedate ck (dateTz ck DATE_FTS_0001 t tz) = t ↔ DateKept ck t tz := by
  have h0 := h.nonneg
  rw [parsedate_dateTz h]
  simp only [DateKept]
  have hl : localTime ck t tz = t - dateZone ck tz * 60 := rfl
  split <;> omega

end Fidogate

/-
# `Fidogate.Gate.Tzutc` — date.c and rfc2ftn.c: the zone of a date

`rfc2ftn_add_tzutc` puts the zone of an RFC date into a TZUTC kludge, and
`date_tz` prints a date by the zone of such a kludge.  `tzutcKept` says which
offsets come back, and for which kludges the date that is printed is the
instant it was printed for; `rfcInstant` reads it.
-/
import Fidogate.Common.NodePrint
import Fidogate.Packet.DateText
import Fidogate.Toss.Netmail

namespace Fidogate

open Bytes

/-! ## The kludge -/

/-- `%4s` -/
def putStrW (w : Nat) (s : Str) : Str := List.replicate (w - s.length) sp ++ s

/-- The text `rfc2ftn_add_tzutc` writes for the zone of an RFC date, or for none. -/
def tzutcText (ck : Clock) : Option Str → Str
  | none => dateTz ck (lit "%N") ck.time none
  | some tz =>
      -- `-XXXX\0`; the buffer is taken one byte shorter behind a `+`
      if tz.head? = some 43 then putStrW 4 (tz.tail.take 4) else putStrW 4 (tz.take 5)

/-- `rfc2ftn_add_tzutc`. -/
def rfc2ftnAddTzutc (ck : Clock) (tz : Option Str) : Str :=
  soh :: (lit "TZUTC: " ++ tzutcText ck tz ++ [cr])

/-- `date_tz` with no format. -/
def dateTzDefault (ck : Clock) (t : Int) (tz : Option Str) : Str :=
  if t = -1 then lit "INVALID" else dateTz ck DATE_DEFAULT t tz

/-! ## What a date denotes -/

/-- A zone of an RFC date. -/
def rfcZoneText (neg : Bool) (hours mins : Nat) : Str :=
  (if neg then 45 else 43) :: (putIntZ 2 hours ++ putIntZ 2 mins)

/-- The minutes it stands for. -/
def zoneOffset (neg : Bool) (hours mins : Nat) : Int :=
  if neg then -(hours * 60 + mins : Int) else hours * 60 + mins

/-- The minutes UTC is ahead in a zone `+hhmm` or `-hhmm`. -/
def rfcZone : Str → Option Int
  | [] => none
  | c :: ds =>
      if ! ds.all isDigit then none
      else if c = 43 then numzone (getDec 0 ds)
      else if c = 45 then numzone (-(getDec 0 ds : Int))
      else none

/-- The instant of a date `day, dd mon year hh:mm:ss zone`. -/
def rfcInstant (s : Str) : Option Int :=
  match words false blanks s with
  | [_, d, b, y, hms, z] => do
      let mon ← months.findIdx? (· == b)
      let zone ← rfcZone z
      let day := yearBase (atoi y) + ((monthLens (atoi y)).take mon).sum + ((getDec 0 d : Int) - 1)
      let clock : Int := (getDec 0 (hms.take 2) * 60 + getDec 0 ((hms.drop 3).take 2)) * 60 +
        getDec 0 (hms.drop 6)
      some (day * 86400 + clock + zone * 60)
  | _ => none

/-- A number of `sscanf("%02u")`, with its sign. -/
def scanI2 (s : Str) : Option (Int × Str) :=
  match s.dropWhile (fun c => isSpace c || c == 11 || c == 12) with
  | [] => none
  | c :: s =>
      if c == 43 || c == 45 then
        match s with
        | d :: s =>
            if isDigit d then some (if c == 45 then -(getDec 0 [d] : Int) else getDec 0 [d], s)
            else none
        | [] => none
      else if isDigit c then
        match s with
        | d :: s' => if isDigit d then some ((getDec 0 [c, d] : Int), s')
            else some ((getDec 0 [c] : Int), s)
        | [] => some ((getDec 0 [c] : Int), [])
      else none

/-- The sign of a TZUTC text, and what stands behind. -/
def tzSign (s : Str) : Int × Str :=
  match s with
  | 43 :: s' => (1, s')
  | 45 :: s' => (-1, s')
  | _ => (1, s)

/-- The two numbers of a TZUTC text, behind the sign. -/
def tzNumbers (s : Str) : Option (Int × Int) := do
  let (hours, s) ← scanI2 (tzSign s).2
  let (mins, _) ← scanI2 s
  some (hours, mins)

/-- The kludge has no two numbers, or they are a time below 100 hours. -/
def TzFits (tz : Option Str) : Prop :=
  ∀ s hours mins, tz = some s → tzNumbers s = some (hours, mins) →
    0 ≤ hours * 60 + mins ∧ hours * 60 + mins < 6000

/-- `gmtime` has a result: the year is an `int`. -/
def GmtimeOk (t : Int) : Prop := -(2 ^ 31) ≤ (gmtime t).year ∧ (gmtime t).year + 1900 < 2 ^ 31

instance (t : Int) : Decidable (GmtimeOk t) := inferInstanceAs (Decidable (_ ∧ _))

/-! ## Reading a kludge -/

theorem getDec_one {c : UInt8} (h : isDigit c = true) : getDec 0 [c] < 10 := by
  simpa using @getDec_lt [c] 0 (by simpa using h)

theorem getDec_two {c d : UInt8} (hc : isDigit c = true) (hd : isDigit d = true) :
    getDec 0 [c, d] < 100 := by
  simpa using @getDec_lt [c, d] 0 (by simp [hc, hd])

theorem scanU2_eq (s : Str) :
    scanU2 s = (scanI2 s).map fun r => ((r.1 % 2 ^ 32).toNat, r.2) := by
  have hsmall : ∀ {v : Nat}, v < 100 → ((v : Int) % 2 ^ 32).toNat = v := by
    intro v hv
    omega
  unfold scanU2 scanI2
  dsimp only
  generalize s.dropWhile (fun c => isSpace c || c == 11 || c == 12) = s
  cases s with
  | nil => rfl
  | cons c s =>
    dsimp only
    by_cases hsign : (c == 43 || c == 45) = true
    · rw [if_pos hsign, if_pos hsign]
      cases s with
      | nil => rfl
      | cons d s =>
        dsimp only
        by_cases hd : isDigit d = true
        · have := getDec_one hd
          rw [if_pos hd, if_pos hd, Option.map_some]
          congr 2
          split
          · omega
          · omega
        · rw [if_neg hd, if_neg hd]
          rfl
    · rw [if_neg hsign, if_neg hsign]
      by_cases hc : isDigit c = true
      · rw [if_pos hc, if_pos hc]
        have h1 := getDec_one hc
        cases s with
        | nil => rw [Option.map_some, hsmall (by omega)]
        | cons d s =>
          dsimp only
          by_cases hd : isDigit d = true
          · rw [if_pos hd, if_pos hd, Option.map_some, hsmall (getDec_two hc hd)]
          · rw [if_neg hd, if_neg hd, Option.map_some, hsmall (by omega)]
      · rw [if_neg hc, if_neg hc]
        rfl

theorem scanI2_range {s r : Str} {v : Int} (h : scanI2 s = some (v, r)) : -9 ≤ v ∧ v ≤ 99 := by
  unfold scanI2 at h
  generalize s.dropWhile (fun c => isSpace c || c == 11 || c == 12) = s at h
  cases s with
  | nil => cases h
  | cons c s =>
    dsimp only at h
    by_cases hsign : (c == 43 || c == 45) = true
    · rw [if_pos hsign] at h
      cases s with
      | nil => cases h
      | cons d s =>
        dsimp only at h
        by_cases hd : isDigit d = true
        · have := getDec_one hd
          rw [if_pos hd, Option.some.injEq, Prod.mk.injEq] at h
          rw [← h.1]
          split
          · omega
          · omega
        · rw [if_neg hd] at h
          cases h
    · rw [if_neg hsign] at h
      by_cases hc : isDigit c = true
      · rw [if_pos hc] at h
        have h1 := getDec_one hc
        cases s with
        | nil =>
          rw [Option.some.injEq, Prod.mk.injEq] at h
          omega
        | cons d s =>
          dsimp only at h
          by_cases hd : isDigit d = true
          · have h2 := getDec_two hc hd
            rw [if_pos hd, Option.some.injEq, Prod.mk.injEq] at h
            omega
          · rw [if_neg hd, Option.some.injEq, Prod.mk.injEq] at h
            omega
      · rw [if_neg hc] at h
        cases h

theorem tzSign_value (s : Str) : (tzSign s).1 = 1 ∨ (tzSign s).1 = -1 := by
  unfold tzSign
  split
  · exact .inl rfl
  · exact .inr rfl
  · exact .inl rfl

theorem dateTzStrToTime_tzSign (s : Str) :
    dateTzStrToTime (some s) = match scanU2 (tzSign s).2 with
      | none => -1
      | some (hours, s') =>
          match scanU2 s' with
          | none => -1
          | some (mins, _) => (tzSign s).1 * ((hours * 60 + mins) % 2 ^ 32 : Nat) := rfl

/-- What `date_tz_str_to_time` makes of the two numbers. -/
theorem dateTzStrToTime_eq (s : Str) :
    dateTzStrToTime (some s) = match tzNumbers s with
      | none => -1
      | some (hours, mins) => (tzSign s).1 * ((hours * 60 + mins) % 2 ^ 32) := by
  rw [dateTzStrToTime_tzSign, tzNumbers, scanU2_eq]
  cases scanI2 (tzSign s).2 with
  | none => rfl
  | some r =>
    dsimp only [Option.map_some, Option.bind_eq_bind, Option.bind_some]
    rw [scanU2_eq]
    cases scanI2 r.2 with
    | none => rfl
    | some q =>
      dsimp only [Option.map_some, Option.bind_some]
      congr 1
      omega

theorem tzNumbers_range {s : Str} {hours mins : Int} (h : tzNumbers s = some (hours, mins)) :
    (-9 ≤ hours ∧ hours ≤ 99) ∧ -9 ≤ mins ∧ mins ≤ 99 := by
  simp only [tzNumbers, Option.bind_eq_bind, Option.bind_eq_some_iff, Option.some.injEq,
    Prod.mk.injEq, Prod.exists] at h
  obtain ⟨hours', r, h1, mins', r', h2, rfl, rfl⟩ := h
  exact ⟨scanI2_range h1, scanI2_range h2⟩

/-- The offset that is read stays below 100 hours for the kludges that fit, and for no other. -/
theorem dateTzStrToTime_lt_iff (tz : Option Str) :
    (dateTzStrToTime tz).natAbs < 6000 ↔ TzFits tz := by
  cases tz with
  | none => exact iff_of_true (by decide) fun s hours mins hs => nomatch hs
  | some s =>
    rw [dateTzStrToTime_eq]
    cases hn : tzNumbers s with
    | none =>
      refine iff_of_true (show (-1 : Int).natAbs < 6000 by decide) fun s' hours mins hs hn' => ?_
      rw [← Option.some.inj hs, hn] at hn'
      cases hn'
    | some r =>
      obtain ⟨hours, mins⟩ := r
      obtain ⟨h1, h2⟩ := tzNumbers_range hn
      have hfits : TzFits (some s) ↔ 0 ≤ hours * 60 + mins ∧ hours * 60 + mins < 6000 := by
        constructor
        · exact fun h => h s hours mins rfl hn
        · intro h s' hours' mins' hs hn'
          rw [← Option.some.inj hs, hn, Option.some.injEq, Prod.mk.injEq] at hn'
          rw [← hn'.1, ← hn'.2]
          exact h
      rw [hfits]
      have hsign : (tzSign s).1.natAbs = 1 := by
        rcases tzSign_value s with hs | hs
        · rw [hs]
          rfl
        · rw [hs]
          rfl
      dsimp only
      rw [Int.natAbs_mul, hsign, Nat.one_mul]
      omega

/-! ## The zone that is printed -/

theorem getDec_append (v : Nat) (s t : Str) : getDec v (s ++ t) = getDec (getDec v s) t :=
  List.foldl_append ..

theorem getDec_hhmm {h m : Nat} (hm : m < 100) :
    getDec 0 (putIntZ 2 (h : Nat) ++ putIntZ 2 (m : Nat)) = h * 100 + m := by
  obtain ⟨c, d, hput, hc, hd, hval⟩ := putIntZ_two m hm
  rw [getDec_append, getDec_putIntZ, hput]
  have hc' : 48 ≤ c.toNat := by
    have key : ∀ c : UInt8, isDigit c = true → 48 ≤ c.toNat := forall_byte (by decide +kernel)
    exact key c hc
  simp only [getDec, List.foldl_cons, List.foldl_nil] at hval ⊢
  omega

theorem isDigit_putIntZ {w n : Nat} {c : UInt8} (hc : c ∈ putIntZ w n) : isDigit c = true := by
  rw [putIntZ, if_neg (by omega)] at hc
  rcases List.mem_append.mp hc with hc | hc
  · rw [List.eq_of_mem_replicate hc]
    rfl
  · exact isDigit_of_mem_putDec hc

/-- A number `hhmm`, as `numzone` takes it. -/
theorem numzone_hhmm {n : Int} {a : Nat} (hn : n.natAbs = a / 60 * 100 + a % 60) :
    numzone n = if a < 6000 then some (if n < 0 then (a : Int) else -a) else none := by
  have hmod : ¬ ((n.natAbs : Int) % 100 ≥ 60) := by omega
  have hback : (n.natAbs : Int) / 100 * 60 + (n.natAbs : Int) % 100 = a := by omega
  unfold numzone
  dsimp only
  rw [hback]
  by_cases ha : a < 6000
  · have hle : ¬ ((n.natAbs : Int) > 9999) := by omega
    rw [if_pos ha, if_neg (by
      rw [Bool.or_eq_true, decide_eq_true_eq, decide_eq_true_eq]
      omega)]
    split
    · rfl
    · rfl
  · rw [if_neg ha, if_pos (by
      rw [Bool.or_eq_true, decide_eq_true_eq, decide_eq_true_eq]
      omega)]

/-- The zone `%O` prints, as a reader takes it. -/
theorem rfcZone_dateOff (off : Int) :
    rfcZone ((if 0 ≤ off then 43 else 45) :: (putIntZ 2 (off.natAbs / 60 : Nat) ++
      putIntZ 2 (off.natAbs % 60 : Nat))) = if off.natAbs < 6000 then some (-off) else none := by
  have hdigits : (putIntZ 2 (off.natAbs / 60 : Nat) ++ putIntZ 2 (off.natAbs % 60 : Nat)).all
      isDigit = true := by
    rw [List.all_eq_true]
    intro c hc
    rcases List.mem_append.mp hc with hc | hc
    · exact isDigit_putIntZ hc
    · exact isDigit_putIntZ hc
  have hval : getDec 0 (putIntZ 2 (off.natAbs / 60 : Nat) ++ putIntZ 2 (off.natAbs % 60 : Nat)) =
      off.natAbs / 60 * 100 + off.natAbs % 60 := getDec_hhmm (by omega)
  rw [rfcZone, hdigits, hval, if_neg (by decide)]
  by_cases hoff : 0 ≤ off
  · rw [if_pos hoff, if_pos rfl, numzone_hhmm rfl]
    congr 1
    rw [if_neg (by omega)]
    congr 1
    omega
  · rw [if_neg hoff, if_neg (by decide), if_pos rfl, numzone_hhmm (by rw [Int.natAbs_neg]; rfl)]
    congr 1
    rw [if_pos (by omega)]
    congr 1
    omega

/-! ## The date that is printed -/

theorem splitYear_base : ∀ (n : Nat) (y d : Int), (0 ≤ d ∧ d < n ∨ 0 < n ∧ d < yearLen y ∧ 0 ≤ d ∨
      d < 0 ∧ -d < n) →
    0 ≤ (splitYear n y d).2 ∧ (splitYear n y d).2 < yearLen (splitYear n y d).1 ∧
      yearBase (splitYear n y d).1 + (splitYear n y d).2 = yearBase y + d
  | 0, y, d, h => by omega
  | n + 1, y, d, h => by
    have hl := yearLen_pos y
    have hl' := yearLen_pos (y - 1)
    by_cases hneg : d < 0
    · have hb : yearBase y = yearBase (y - 1) + yearLen (y - 1) := by
        have := yearBase_succ (y - 1)
        rwa [Int.sub_add_cancel] at this
      obtain ⟨h1, h2, h3⟩ := splitYear_base n (y - 1) (d + yearLen (y - 1)) (by omega)
      simp only [splitYear, hneg, if_true]
      exact ⟨h1, h2, by omega⟩
    · by_cases hd : d < yearLen y
      · have he : splitYear (n + 1) y d = (y, d) := by simp [splitYear, hneg, hd]
        rw [he]
        exact ⟨by omega, hd, rfl⟩
      · have hb := yearBase_succ y
        obtain ⟨h1, h2, h3⟩ := splitYear_base n (y + 1) (d - yearLen y) (by omega)
        simp only [splitYear, hneg, if_false, hd]
        exact ⟨h1, h2, by omega⟩

/-- `gmtime` of any time: the day count it splits up. -/
theorem gmtime_date (t : Int) : ∃ (j : Nat) (l : Int), (gmtime t).mon = j ∧
    (monthLens ((gmtime t).year + 1900))[j]? = some l ∧
    1 ≤ (gmtime t).mday ∧ (gmtime t).mday ≤ l ∧
    yearBase ((gmtime t).year + 1900) + ((monthLens ((gmtime t).year + 1900)).take j).sum +
      ((gmtime t).mday - 1) = t / 86400 := by
  obtain ⟨h1, h2, h4⟩ :=
    splitYear_base ((t / 86400).natAbs + 1) 1970 (t / 86400) (by omega)
  have hbase : yearBase 1970 = 0 := by decide
  rw [hbase] at h4
  have hsum := monthLens_sum (splitYear ((t / 86400).natAbs + 1) 1970 (t / 86400)).1
  obtain ⟨k, l, e, hl, hlo, hhi⟩ := splitMonth_spec _ 0 _ h1 (hsum ▸ h2)
  refine ⟨k, l, ?_, ?_, ?_, ?_, ?_⟩
  · simp [gmtime, e]
  · simpa [gmtime] using hl
  · simp only [gmtime, e]; omega
  · simp only [gmtime, e]; omega
  · simp only [gmtime, e, Int.sub_add_cancel]; omega

theorem dateConv_default (ck : Clock) (tm : Tm) (tz : Int) :
    dateConv ck tm tz DATE_DEFAULT =
      (weekdays.getD tm.wday.toNat [] ++ [44]) ++ sp :: (putIntZ 2 tm.mday ++ sp ::
        (months.getD tm.mon.toNat [] ++ sp :: (putIntW 4 (1900 + tm.year) ++ sp ::
          ((putIntZ 2 tm.hour ++ 58 :: (putIntZ 2 tm.min ++ 58 :: putIntZ 2 tm.sec)) ++ sp ::
            ((if 0 ≤ dateOff tz then 43 else 45) :: (putIntZ 2 ((dateOff tz).natAbs / 60 : Nat) ++
              putIntZ 2 ((dateOff tz).natAbs % 60 : Nat))))))) := by
  have h : DATE_DEFAULT = [37, 97, 44, 32, 37, 100, 32, 37, 98, 32, 37, 89, 32, 37, 72, 58, 37, 77,
      58, 37, 83, 32, 37, 79] := by decide
  rw [h]
  simp [dateConv, dateField]

theorem isWord_blanks {w : Str} (hne : w ≠ []) (h : ∀ c ∈ w, c ≠ sp ∧ c ≠ tab) :
    IsWord false blanks w := by
  refine ⟨hne, fun c hc => ?_, fun hq => nomatch hq⟩
  obtain ⟨h1, h2⟩ := h c hc
  simp [isDelim, blanks, h1, h2]

theorem isDigit_not_blank {c : UInt8} (h : isDigit c = true) : c ≠ sp ∧ c ≠ tab :=
  forall_byte (P := fun c => isDigit c = true → c ≠ sp ∧ c ≠ tab) (by decide +kernel) c h

theorem isWord_putIntZ {n : Int} (h : 0 ≤ n) : IsWord false blanks (putIntZ 2 n) := by
  obtain ⟨k, rfl⟩ := Int.eq_ofNat_of_zero_le h
  refine isWord_blanks ?_ fun c hc => isDigit_not_blank (isDigit_putIntZ hc)
  rw [putIntZ, if_neg (by omega)]
  exact List.append_ne_nil_of_right_ne_nil _ (putDec_ne_nil _)

theorem isWord_putInt (n : Int) : IsWord false blanks (putInt n) := by
  refine isWord_blanks (putInt_ne_nil n) fun c hc => ?_
  rcases putInt_bytes n hc with rfl | hc
  · decide
  · exact isDigit_not_blank hc

/-- Blanks in front of a word do not count. -/
theorem words_replicate (k : Nat) (s : Str) :
    words false blanks (List.replicate k sp ++ s) = words false blanks s := by
  induction k with
  | zero => rfl
  | succ k ih => rw [List.replicate_succ, List.cons_append, words_cons rfl, ih]

/-- The words of a printed date. -/
theorem words_default (ck : Clock) (t tz : Int) :
    words false blanks (dateConv ck (gmtime t) tz DATE_DEFAULT) =
      [weekdays.getD (gmtime t).wday.toNat [] ++ [44], putIntZ 2 (gmtime t).mday,
        months.getD (gmtime t).mon.toNat [], putInt (1900 + (gmtime t).year),
        putIntZ 2 (gmtime t).hour ++ 58 :: (putIntZ 2 (gmtime t).min ++
          58 :: putIntZ 2 (gmtime t).sec),
        (if 0 ≤ dateOff tz then 43 else 45) :: (putIntZ 2 ((dateOff tz).natAbs / 60 : Nat) ++
          putIntZ 2 ((dateOff tz).natAbs % 60 : Nat))] := by
  obtain ⟨j, l, hj, hl, hd1, hd2, -⟩ := gmtime_date t
  obtain ⟨hh, hmi, hs, -⟩ := gmtime_clock t
  have hjlt := (monthLens_le hl).1
  have hw : (gmtime t).wday.toNat < 7 := by
    simp only [gmtime]
    omega
  have hwday : IsWord false blanks (weekdays.getD (gmtime t).wday.toNat [] ++ [44]) := by
    have key : ∀ k < 7, ∀ c ∈ weekdays.getD k [] ++ [44], c ≠ sp ∧ c ≠ tab := by
      decide +kernel
    exact isWord_blanks (List.append_ne_nil_of_right_ne_nil _ (List.cons_ne_nil _ _)) (key _ hw)
  have hmon : IsWord false blanks (months.getD (gmtime t).mon.toNat []) := by
    have key : ∀ k < 12, months.getD k [] ≠ [] ∧ ∀ c ∈ months.getD k [], c ≠ sp ∧ c ≠ tab := by
      decide +kernel
    obtain ⟨h1, h2⟩ := key j hjlt
    rw [hj, Int.toNat_natCast]
    exact isWord_blanks h1 h2
  have htime : IsWord false blanks (putIntZ 2 (gmtime t).hour ++ 58 :: (putIntZ 2 (gmtime t).min ++
      58 :: putIntZ 2 (gmtime t).sec)) := by
    refine isWord_blanks (List.append_ne_nil_of_right_ne_nil _ (List.cons_ne_nil _ _)) ?_
    have hput : ∀ {n : Int}, 0 ≤ n → ∀ c ∈ putIntZ 2 n, c ≠ sp ∧ c ≠ tab := by
      intro n hn c hc
      obtain ⟨k, rfl⟩ := Int.eq_ofNat_of_zero_le hn
      exact isDigit_not_blank (isDigit_putIntZ hc)
    intro c hc
    simp only [List.mem_append, List.mem_cons] at hc
    rcases hc with hc | rfl | hc | rfl | hc
    · exact hput hh.1 c hc
    · decide
    · exact hput hmi.1 c hc
    · decide
    · exact hput hs.1 c hc
  have hzone : IsWord false blanks ((if 0 ≤ dateOff tz then 43 else 45) ::
      (putIntZ 2 ((dateOff tz).natAbs / 60 : Nat) ++
        putIntZ 2 ((dateOff tz).natAbs % 60 : Nat))) := by
    refine isWord_blanks (List.cons_ne_nil _ _) fun c hc => ?_
    rcases List.mem_cons.mp hc with rfl | hc
    · split
      · decide
      · decide
    · rcases List.mem_append.mp hc with hc | hc
      · exact isDigit_not_blank (isDigit_putIntZ hc)
      · exact isDigit_not_blank (isDigit_putIntZ hc)
  rw [dateConv_default, words_append hwday rfl, words_append (isWord_putIntZ (by omega)) rfl,
    words_append hmon rfl, putIntW, List.append_assoc, words_replicate,
    words_append (isWord_putInt _) rfl, words_append htime rfl, words_word hzone]

/-- The numbers of a printed clock. -/
theorem getDec_clock {h m : Nat} (hh : h < 24) (hm : m < 60) (s : Nat) :
    getDec 0 ((putIntZ 2 (h : Nat) ++ 58 :: (putIntZ 2 (m : Nat) ++ 58 :: putIntZ 2 (s : Nat))).take
        2) = h ∧
      getDec 0 (((putIntZ 2 (h : Nat) ++ 58 :: (putIntZ 2 (m : Nat) ++
        58 :: putIntZ 2 (s : Nat))).drop 3).take 2) = m ∧
      getDec 0 ((putIntZ 2 (h : Nat) ++ 58 :: (putIntZ 2 (m : Nat) ++
        58 :: putIntZ 2 (s : Nat))).drop 6) = s := by
  obtain ⟨a, b, hput, -, -, hval⟩ := putIntZ_two h (by omega)
  obtain ⟨c, d, mput, -, -, mval⟩ := putIntZ_two m (by omega)
  rw [hput, mput]
  exact ⟨hval, mval, getDec_putIntZ 2 s⟩

/-- The date that is printed for an instant, as a reader takes it. -/
theorem rfcInstant_default (ck : Clock) (t tz : Int) :
    rfcInstant (dateConv ck (gmtime t) tz DATE_DEFAULT) =
      if (dateOff tz).natAbs < 6000 then some (t - dateOff tz * 60) else none := by
  obtain ⟨j, l, hj, hl, hd1, hd2, hday⟩ := gmtime_date t
  obtain ⟨hh, hmi, hs, hclock⟩ := gmtime_clock t
  have hjlt := (monthLens_le hl).1
  have hmon : months.findIdx? (· == months.getD j []) = some j := by
    have key : ∀ k < 12, months.findIdx? (· == months.getD k []) = some k := by decide
    exact key j hjlt
  rw [rfcInstant, words_default]
  dsimp only
  rw [hj, Int.toNat_natCast, hmon, rfcZone_dateOff, atoi_putInt, Int.add_comm 1900]
  generalize (gmtime t).year = year at *
  generalize hday' : (gmtime t).mday = mday at *
  generalize (gmtime t).hour = hour at *
  generalize (gmtime t).min = min at *
  generalize (gmtime t).sec = sec at *
  obtain ⟨d, rfl⟩ := Int.eq_ofNat_of_zero_le (show 0 ≤ mday by omega)
  obtain ⟨h, rfl⟩ := Int.eq_ofNat_of_zero_le hh.1
  obtain ⟨m, rfl⟩ := Int.eq_ofNat_of_zero_le hmi.1
  obtain ⟨s, rfl⟩ := Int.eq_ofNat_of_zero_le hs.1
  obtain ⟨c1, c2, c3⟩ := @getDec_clock h m (by omega) (by omega) s
  rw [c1, c2, c3, getDec_putIntZ]
  split
  next =>
    dsimp only [Option.bind_eq_bind, Option.bind_some]
    congr 1
    omega
  next => rfl

theorem length_putIntZ_le {k n : Nat} (hk : 2 ≤ k) (h : n < 10 ^ k) :
    (putIntZ 2 (n : Nat)).length ≤ k := by
  have hlen := (length_putDec_le_iff (by omega)).mpr h
  rw [putIntZ, if_neg (by omega), List.length_append, List.length_replicate, Int.natAbs_natCast]
  omega

/-- The text of a date fits its buffer. -/
theorem length_default (ck : Clock) {t : Int} (ht : GmtimeOk t) (tz : Int) :
    (dateConv ck (gmtime t) tz DATE_DEFAULT).length ≤ 127 := by
  obtain ⟨j, l, hj, hl, hd1, hd2, -⟩ := gmtime_date t
  obtain ⟨hh, hmi, hs, -⟩ := gmtime_clock t
  obtain ⟨hjlt, hl31⟩ := monthLens_le hl
  have hw : (gmtime t).wday.toNat < 7 := by
    simp only [gmtime]
    omega
  have hwday : (weekdays.getD (gmtime t).wday.toNat []).length = 3 := by
    have key : ∀ k < 7, (weekdays.getD k []).length = 3 := by decide
    exact key _ hw
  have hmon : (months.getD (gmtime t).mon.toNat []).length = 3 :=
    months_getD_length _ (by omega)
  have two : ∀ {n : Int}, 0 ≤ n → n < 100 → (putIntZ 2 n).length ≤ 2 := by
    intro n h0 h1
    obtain ⟨k, rfl⟩ := Int.eq_ofNat_of_zero_le h0
    exact length_putIntZ_le (Nat.le_refl 2) (by omega)
  have hyear : (putIntW 4 (1900 + (gmtime t).year)).length ≤ 11 := by
    have hdec : (putDec (1900 + (gmtime t).year).natAbs).length ≤ 10 :=
      (length_putDec_le_iff (by decide)).mpr (by rw [GmtimeOk] at ht; omega)
    have hlen : (putInt (1900 + (gmtime t).year)).length ≤ 11 := by
      rw [putInt]
      split
      · rw [List.length_cons]
        omega
      · omega
    rw [putIntW, List.length_append, List.length_replicate]
    omega
  have hoff : (dateOff tz).natAbs ≤ 2 ^ 31 := by
    have h1 := @Int.bmod_lt (-tz) (2 ^ 32) (by decide)
    have h2 := @Int.le_bmod (-tz) (2 ^ 32) (by decide)
    rw [← dateOff] at h1 h2
    omega
  have hhours := @length_putIntZ_le 8 ((dateOff tz).natAbs / 60) (by decide) (by omega)
  have hmins := @length_putIntZ_le 2 ((dateOff tz).natAbs % 60) (by decide) (by omega)
  have hday := two (show 0 ≤ (gmtime t).mday by omega) (by omega)
  have hhour := two hh.1 (by omega)
  have hmin := two hmi.1 (by omega)
  have hsec := two hs.1 (by omega)
  rw [dateConv_default]
  simp only [List.length_append, List.length_cons, List.length_nil, hwday, hmon]
  omega

/-- The date header is the instant it was printed for exactly if the zone is below 100 hours. -/
theorem dateTzDefault_iff (ck : Clock) {t : Int} {tz : Option Str}
    (ht : GmtimeOk (t - dateZone ck tz * 60)) :
    rfcInstant (dateTzDefault ck t tz) = some t ↔ t ≠ -1 ∧ (dateZone ck tz).natAbs < 6000 := by
  unfold dateTzDefault
  by_cases h1 : t = -1
  · rw [if_pos h1]
    exact iff_of_false (Option.some_ne_none t).symm fun h => h.1 h1
  · have htext : dateTz ck DATE_DEFAULT t tz =
        dateConv ck (gmtime (t - dateZone ck tz * 60)) (dateZone ck tz) DATE_DEFAULT :=
      List.take_of_length_le (length_default ck ht _)
    rw [if_neg h1, htext, rfcInstant_default, and_iff_right h1]
    have hoff : (dateZone ck tz).natAbs < 6000 → dateOff (dateZone ck tz) = -dateZone ck tz :=
      fun h => Int.bmod_eq_of_le (by omega) (by omega)
    split
    next hlt =>
      rw [Option.some.injEq]
      constructor
      · intro h
        omega
      · intro h
        rw [hoff h]
        omega
    next hge =>
      refine iff_of_false (Option.some_ne_none t).symm fun h => hge ?_
      rw [hoff h]
      omega

theorem natAbs_dateTzArg (tz : Option Str) :
    (dateTzArg tz).natAbs = (dateTzStrToTime tz).natAbs := by
  unfold dateTzArg
  dsimp only
  split
  · exact Int.natAbs_neg _
  · rfl

/-- The zone in effect is that of the kludge, or the clock's. -/
theorem dateZone_lt_iff {ck : Clock} (hck : ck.tzone.natAbs < 1440) (tz : Option Str) :
    (dateZone ck tz).natAbs < 6000 ↔ TzFits tz := by
  have harg := natAbs_dateTzArg tz
  rw [← dateTzStrToTime_lt_iff, dateZone]
  split
  next => rw [harg]
  next he =>
    have he : dateTzArg tz = -1 := by simpa using he
    rw [he] at harg
    refine iff_of_true (by omega) ?_
    rw [← harg]
    decide

/-! ## The offset that is written -/

theorem scanI2_two {n : Nat} (h : n < 100) (s : Str) :
    scanI2 (putIntZ 2 (n : Nat) ++ s) = some ((n : Int), s) := by
  obtain ⟨c, d, hput, hc, hd, hval⟩ := putIntZ_two n h
  have key : ∀ c : UInt8, isDigit c = true →
      (isSpace c || c == 11 || c == 12) = false ∧ (c == 43 || c == 45) = false :=
    forall_byte (by decide +kernel)
  obtain ⟨hspace, hsign⟩ := key c hc
  rw [hput, List.cons_append, List.cons_append, List.nil_append, scanI2,
    List.dropWhile_cons_of_neg (by rw [hspace]; exact Bool.false_ne_true)]
  dsimp only
  rw [hsign, if_neg Bool.false_ne_true, if_pos hc, if_pos hd, hval]

example : scanI2 (lit "05 x") = some (5, lit " x") := by
  decide +kernel

theorem tzSign_digit {c : UInt8} (hc : isDigit c = true) (s : Str) :
    tzSign (c :: s) = (1, c :: s) := by
  unfold tzSign
  split
  next he =>
    rw [(List.cons.inj he).1] at hc
    exact absurd hc (by decide)
  next he =>
    rw [(List.cons.inj he).1] at hc
    exact absurd hc (by decide)
  next => rfl

/-- An offset `hhmm`, with a minus in front or without, is read back. -/
theorem dateTzStrToTime_hhmm (neg : Bool) {h m : Nat} (hh : h < 100) (hm : m < 100) (r : Str) :
    dateTzStrToTime (some ((if neg then [45] else []) ++ (putIntZ 2 (h : Nat) ++
      (putIntZ 2 (m : Nat) ++ r)))) = zoneOffset neg h m := by
  have hsign : tzSign ((if neg then [45] else []) ++ (putIntZ 2 (h : Nat) ++
      (putIntZ 2 (m : Nat) ++ r))) = (if neg then -1 else 1, putIntZ 2 (h : Nat) ++
        (putIntZ 2 (m : Nat) ++ r)) := by
    cases neg with
    | true => rfl
    | false =>
      obtain ⟨c, d, hput, hc, -⟩ := putIntZ_two h hh
      rw [hput]
      exact tzSign_digit hc _
  have hnumbers : tzNumbers ((if neg then [45] else []) ++ (putIntZ 2 (h : Nat) ++
      (putIntZ 2 (m : Nat) ++ r))) = some ((h : Int), (m : Int)) := by
    rw [tzNumbers, hsign]
    dsimp only [Option.bind_eq_bind]
    rw [scanI2_two hh, Option.bind_some, scanI2_two hm]
    rfl
  have hmod : ((h : Int) * 60 + m) % 2 ^ 32 = h * 60 + m := by omega
  rw [dateTzStrToTime_eq, hnumbers, hsign, zoneOffset]
  dsimp only
  rw [hmod]
  cases neg with
  | true => rw [if_pos rfl, if_pos rfl, Int.neg_one_mul]
  | false => rw [if_neg Bool.false_ne_true, if_neg Bool.false_ne_true, Int.one_mul]

/-- The value of a kludge line of this text. -/
theorem kludgeValue_hhmm (neg : Bool) {h : Nat} (hh : h < 100) (r : Str) :
    kludgeValue (lit "TZUTC") (soh :: (lit "TZUTC: " ++ ((if neg then [45] else []) ++
      (putIntZ 2 (h : Nat) ++ r)))) = (if neg then [45] else []) ++ (putIntZ 2 (h : Nat) ++ r) := by
  have hvalue : ∀ s : Str, kludgeValue (lit "TZUTC") (soh :: (lit "TZUTC: " ++ s)) =
      (sp :: s).dropWhile isSpace := fun _ => rfl
  have key : ∀ c : UInt8, isDigit c = true → isSpace c = false := forall_byte (by decide +kernel)
  rw [hvalue, List.dropWhile_cons_of_pos (by decide)]
  cases neg with
  | true => rfl
  | false =>
    obtain ⟨c, d, hput, hc, -⟩ := putIntZ_two h hh
    rw [hput]
    exact List.dropWhile_cons_of_neg (by rw [key c hc]; exact Bool.false_ne_true)

/-- The line is read back as the offset. -/
theorem dateTzStrToTime_line {ck : Clock} {tz : Option Str} {neg : Bool} {h m : Nat} (hh : h < 100)
    (hm : m < 100) (htext : tzutcText ck tz = (if neg then [45] else []) ++
      (putIntZ 2 (h : Nat) ++ putIntZ 2 (m : Nat))) :
    dateTzStrToTime (some (kludgeValue (lit "TZUTC") (rfc2ftnAddTzutc ck tz))) =
      zoneOffset neg h m := by
  rw [rfc2ftnAddTzutc, htext, List.append_assoc, List.append_assoc, List.append_assoc,
    kludgeValue_hhmm neg hh, dateTzStrToTime_hhmm neg hh hm]

theorem length_putIntZ_two {n : Nat} (h : n < 100) : (putIntZ 2 (n : Nat)).length = 2 := by
  obtain ⟨c, d, hput, -⟩ := putIntZ_two n h
  rw [hput]
  rfl

/-- The kludge for an RFC date is its zone, without the plus and what stands behind. -/
theorem tzutcText_zone (ck : Clock) (neg : Bool) {h m : Nat} (hh : h < 100) (hm : m < 100)
    (tail : Str) : tzutcText ck (some (rfcZoneText neg h m ++ tail)) =
      (if neg then [45] else []) ++ (putIntZ 2 (h : Nat) ++ putIntZ 2 (m : Nat)) := by
  have hlen : (putIntZ 2 (h : Nat) ++ putIntZ 2 (m : Nat)).length = 4 := by
    rw [List.length_append, length_putIntZ_two hh, length_putIntZ_two hm]
  have htake : ((putIntZ 2 (h : Nat) ++ putIntZ 2 (m : Nat)) ++ tail).take 4 =
      putIntZ 2 (h : Nat) ++ putIntZ 2 (m : Nat) := List.take_left' hlen
  rw [tzutcText, rfcZoneText]
  cases neg with
  | true =>
    rw [if_neg (show ¬ _ by simp), List.cons_append, List.take_succ_cons, if_pos rfl, if_pos rfl,
      htake, putStrW, List.length_cons, hlen]
    rfl
  | false =>
    rw [if_neg Bool.false_ne_true, if_neg Bool.false_ne_true, List.cons_append, List.head?_cons,
      if_pos rfl, List.tail_cons, htake, putStrW, hlen]
    rfl

/-- The kludge without an RFC date is the local offset. -/
theorem tzutcText_none {ck : Clock} (hck : ck.tzone.natAbs < 1440) :
    tzutcText ck none = (if decide (0 < ck.tzone) then [45] else []) ++
      (putIntZ 2 (ck.tzone.natAbs / 60 : Nat) ++ putIntZ 2 (ck.tzone.natAbs % 60 : Nat)) := by
  have hoff : dateOff ck.tzone = -ck.tzone := Int.bmod_eq_of_le (by omega) (by omega)
  have htext : tzutcText ck none = ((if 0 ≤ dateOff ck.tzone then [] else [45]) ++
      putIntZ 2 ((dateOff ck.tzone).natAbs / 60 : Nat) ++
        putIntZ 2 ((dateOff ck.tzone).natAbs % 60 : Nat) ++ []).take 127 := rfl
  have h1 := length_putIntZ_two (n := ck.tzone.natAbs / 60) (by omega)
  have h2 := length_putIntZ_two (n := ck.tzone.natAbs % 60) (by omega)
  rw [htext, hoff, Int.natAbs_neg, List.append_nil, List.take_of_length_le, List.append_assoc]
  · congr 1
    by_cases hpos : 0 < ck.tzone
    · rw [if_neg (by omega), if_pos (by simpa using hpos)]
    · rw [if_pos (by omega), if_neg (by simpa using hpos)]
  · rw [List.length_append, List.length_append, h1, h2]
    split
    · decide
    · decide

/-- Every offset below 24 hours comes back from the kludge; and the date that is printed by a
kludge is the instant exactly if that is not -1 and the kludge fits. -/
theorem tzutcKept (ck : Clock) (hck : ck.tzone.natAbs < 1440) (t : Int) (tz : Option Str)
    (ht : GmtimeOk (t - dateZone ck tz * 60)) :
    (∀ (neg : Bool) (h m : Nat) (tail : Str), h < 24 → m < 60 →
      dateTzStrToTime (some (kludgeValue (lit "TZUTC")
        (rfc2ftnAddTzutc ck (some (rfcZoneText neg h m ++ tail))))) = zoneOffset neg h m) ∧
    dateTzStrToTime (some (kludgeValue (lit "TZUTC") (rfc2ftnAddTzutc ck none))) = -ck.tzone ∧
    (rfcInstant (dateTzDefault ck t tz) = some t ↔ t ≠ -1 ∧ TzFits tz) := by
  refine ⟨fun neg h m tail hh hm => ?_, ?_, ?_⟩
  · exact dateTzStrToTime_line (by omega) (by omega)
      (tzutcText_zone ck neg (by omega) (by omega) tail)
  · rw [dateTzStrToTime_line (by omega) (by omega) (tzutcText_none hck), zoneOffset]
    by_cases hpos : 0 < ck.tzone
    · rw [if_pos (by simpa using hpos)]
      omega
    · rw [if_neg (by simpa using hpos)]
      omega
  · rw [dateTzDefault_iff ck ht, dateZone_lt_iff hck]

/-- A clock in UTC, for a kludge of an hour. -/
theorem tzutcKept_hour :
    (0 : Int).natAbs < 1440 ∧ rfcInstant (dateTzDefault ⟨0, 0, gmtime, fun _ => []⟩ 0
      (some (lit "0100"))) = some 0 :=
  ⟨by decide, ((tzutcKept ⟨0, 0, gmtime, fun _ => []⟩ (by decide) 0 (some (lit "0100"))
    (by decide +kernel)).2.2).mpr ⟨by decide, fun s hours mins hs hn => by
      rw [← Option.some.inj hs, show tzNumbers (lit "0100") = some (1, 0) by decide,
        Option.some.injEq, Prod.mk.injEq] at hn
      omega⟩⟩

/-- A year is at most as far as there are rounds. -/
theorem splitYear_within : ∀ (k : Nat) (y d : Int),
    y - k ≤ (splitYear k y d).1 ∧ (splitYear k y d).1 ≤ y + k
  | 0, y, d => by
      rw [splitYear]
      omega
  | k + 1, y, d => by
      have hback := splitYear_within k (y - 1) (d + yearLen (y - 1))
      have hon := splitYear_within k (y + 1) (d - yearLen y)
      rw [splitYear]
      split
      · omega
      · split
        · dsimp only
          omega
        · omega

/-- A year takes a day at least. -/
theorem gmtimeOk_of_days {t : Int} (h : (t / 86400).natAbs < 2 ^ 30) : GmtimeOk t := by
  have hyear := splitYear_within ((t / 86400).natAbs + 1) 1970 (t / 86400)
  have heq : (gmtime t).year = (splitYear ((t / 86400).natAbs + 1) 1970 (t / 86400)).1 - 1900 := rfl
  rw [GmtimeOk, heq]
  omega

/-- Of a kludge with a second sign the clock takes a number of the `long`, and the zone that is
printed is one of an `int`. -/
theorem tzutcKept_sign :
    rfcInstant (dateTzDefault ⟨0, 0, gmtime, fun _ => []⟩ 0 (some (lit "+-105"))) ≠ some 0 := by
  rw [Ne, dateTzDefault_iff _ (gmtimeOk_of_days (by decide +kernel))]
  rintro ⟨-, h⟩
  exact absurd h (by decide)

end Fidogate

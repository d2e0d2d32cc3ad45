/-
# `Fidogate.Toss.ArcmailSearch` — ftnpack.c: which ArcMail archive is used

`arcmail_search` over the archives of one name, by their last digit.  One loop
goes down from the last digit and keeps what it finds in seven variables.
`Searched` says what they hold behind each digit; `arcmailRight_iff` says for
which archives the digit that is chosen in the end is the right one.
-/
import Mathlib.Algebra.Order.Ring.Int
import Mathlib.Logic.Function.Basic
import Mathlib.Tactic.Common

namespace Fidogate

/-! ## The search -/

/-- `check_old`, of a file with this time behind its last change. -/
def checkOld (age dt : Int) : Bool := dt < age

/-- An archive. -/
structure Archive where
  size : Nat
  age : Int
  deriving DecidableEq

/-- > 24 h -/
def Archive.old (a : Archive) : Bool := checkOld a.age (24 * 60 * 60)

/-- The archives of a name by the index of their digit in `C`. -/
abbrev ArcDir := Nat → Option Archive

/-- `last_arcmail_chars` as the packing file sets it. -/
def lastArcmailChars (n : Int) : Nat :=
  if n = 0 then 9 else if n = 1 then 15 else if n = 2 then 35
  else if n < 0 ∨ 35 < n then 35 else n.toNat

/-- The variables of the loop; a digit that is still 0 is none. -/
structure ArcSearch where
  dir : ArcDir
  minarc : Nat
  fm : Bool
  fms : Option Nat
  ne : Bool
  nne : Option Nat
  sok : Option Nat
  cc : Nat

/-- The maximum size is exceeded. -/
def Exceeds (maxArc psize : Int) (size : Nat) : Prop := maxArc ≠ 0 ∧ maxArc + psize.tdiv 2 ≤ size

instance (maxArc psize : Int) (size : Nat) : Decidable (Exceeds maxArc psize size) :=
  inferInstanceAs (Decidable (_ ∧ _))

/-- The next number, mo0 -> mo1. -/
def nextDigit (last c : Nat) : Nat := if c < last then c + 1 else c

/-- What the loop does with an archive it does not skip. -/
def arcmailFound (last : Nat) (maxArc psize : Int) (c size : Nat) (s : ArcSearch) : ArcSearch :=
  let s :=
    if Exceeds maxArc psize size then
      { s with cc := if s.cc = 0 then nextDigit last c else s.cc }
    else if size ≠ 0 then { s with sok := some c, fm := false }
    else s
  let s := if size ≠ 0 ∧ size < s.minarc then { s with fms := some c, minarc := size } else s
  if s.cc = 0 then { s with cc := c } else s

/-- The loop at the digit `c`. -/
def arcmailStep (last : Nat) (maxArc psize : Int) (c : Nat) (s : ArcSearch) : ArcSearch :=
  match s.dir c with
  | none => { s with nne := some c, ne := false }
  | some a =>
      if a.size = 0 then
        let s := { s with dir := Function.update s.dir c none }
        if a.old then s
        else
          arcmailFound last maxArc psize c a.size
            { s with nne := some c, ne := false,
                     cc := if s.cc = 0 then nextDigit last c else s.cc }
      else arcmailFound last maxArc psize c a.size s

/-- `for (c = last_arcmail_chars; c >= 0; c--)`, for so many digits. -/
def arcmailLoop (last : Nat) (maxArc psize : Int) : Nat → ArcSearch → ArcSearch
  | 0, s => s
  | c + 1, s => arcmailLoop last maxArc psize c (arcmailStep last maxArc psize c s)

/-- The directory without an empty archive of the last digit. -/
def arcmailCycle (dir : ArcDir) (last : Nat) : ArcDir :=
  if (dir last).any (·.size == 0) then Function.update dir last none else dir

/-- `arcmail_search`: the directory, and the digit the name is set to. -/
def arcmailSearch (dir : ArcDir) (last : Nat) (maxArc psize : Int) : ArcDir × Option Nat :=
  let s := arcmailLoop last maxArc psize (last + 1)
    { dir := arcmailCycle dir last, minarc := 2 ^ 30, fm := true, fms := none, ne := true,
      nne := none, sok := none, cc := 0 }
  let cc :=
    if ! s.fm then s.sok
    else if s.cc = last ∧ (s.dir last).any (maxArc < ·.size) then if s.ne then s.fms else s.nne
    else some s.cc
  (s.dir, cc)

/-! ## What is right -/

/-- A non-empty archive below the maximum size. -/
def ArcOk (maxArc psize : Int) (a : Option Archive) : Prop :=
  ∃ x, a = some x ∧ 0 < x.size ∧ ¬ Exceeds maxArc psize x.size

/-- A non-empty archive that is not. -/
def ArcFull (maxArc psize : Int) (a : Option Archive) : Prop :=
  ∃ x, a = some x ∧ 0 < x.size ∧ Exceeds maxArc psize x.size

/-- An archive that was truncated within the last 24 hours. -/
def ArcTruncated (a : Option Archive) : Prop := ∃ x, a = some x ∧ x.size = 0 ∧ x.old = false

/-- The digit is allowed: an archive below the maximum size is chosen if there is one; if not,
and a digit is unused, a name that does not exist and was not truncated of late; and a full
archive only if all are full, and then the smallest. -/
def ArcmailRight (dir : ArcDir) (last : Nat) (maxArc psize : Int) (dir' : ArcDir)
    (digit : Option Nat) : Prop :=
  ∃ i ≤ last, digit = some i ∧
    ((∃ j ≤ last, ArcOk maxArc psize (dir j)) → ArcOk maxArc psize (dir i)) ∧
    ((∀ j ≤ last, ¬ ArcOk maxArc psize (dir j)) → (∃ j ≤ last, dir j = none) →
      dir' i = none ∧ ¬ ArcTruncated (dir i)) ∧
    (ArcFull maxArc psize (dir i) → ∀ j ≤ last, ArcFull maxArc psize (dir j) ∧
      ∀ x y, dir i = some x → dir j = some y → x.size ≤ y.size)

/-- The digit has no archive, or one that was truncated. -/
def ArcHole (a : Option Archive) : Prop := a = none ∨ ArcTruncated a

/-- The digit has an archive that is not skipped. -/
def ArcTaken (a : Option Archive) : Prop := ∃ x, a = some x ∧ (x.size = 0 → x.old = false)

/-! ## What the loop has found -/

section

variable {last : Nat} {maxArc psize : Int} {dir : ArcDir}

/-- The variables behind the digits from `k` to the last. -/
structure Searched (last : Nat) (maxArc psize : Int) (dir : ArcDir) (k : Nat) (s : ArcSearch) :
    Prop where
  below : ∀ c < k, s.dir c = dir c
  cleared : ∀ c, k ≤ c → c ≤ last → s.dir c = (dir c).filter (0 < ·.size)
  fm : s.fm = true → ∀ c, k ≤ c → c ≤ last → ¬ ArcOk maxArc psize (dir c)
  sok : s.fm = false → ∃ c, s.sok = some c ∧ c ≤ last ∧ ArcOk maxArc psize (dir c)
  ne : s.ne = true → ∀ c, k ≤ c → c ≤ last → ¬ ArcHole (dir c)
  nne : s.ne = false → ∃ c, s.nne = some c ∧ k ≤ c ∧ c ≤ last ∧ ArcHole (dir c) ∧
    ∀ j, k ≤ j → j < c → ¬ ArcHole (dir j)
  minarc : s.minarc ≤ 2 ^ 30 ∧ ∀ c, k ≤ c → c ≤ last → ∀ x, dir c = some x → 0 < x.size →
    s.minarc ≤ x.size
  fms : (s.fms = none → s.minarc = 2 ^ 30) ∧ ∀ i, s.fms = some i →
    s.minarc < 2 ^ 30 ∧ i ≤ last ∧ ∃ x, dir i = some x ∧ 0 < x.size ∧ x.size = s.minarc
  cc : s.fm = true → (s.cc = 0 ∧ ∀ c, k ≤ c → c ≤ last → ¬ ArcTaken (dir c)) ∨
    ∃ h, k ≤ h ∧ h ≤ last ∧ ArcTaken (dir h) ∧ (∀ c, h < c → c ≤ last → ¬ ArcTaken (dir c)) ∧
      s.cc = nextDigit last h

theorem nextDigit_pos (h : 0 < last) (c : Nat) (hc : c ≤ last) : 0 < nextDigit last c := by
  unfold nextDigit
  split <;> omega

/-- What holds of the digits behind `k` and of `k` holds of the digits from `k` on. -/
theorem from_succ {P : Nat → Prop} {k : Nat} (hk : P k) (h : ∀ c, k + 1 ≤ c → c ≤ last → P c) :
    ∀ c, k ≤ c → c ≤ last → P c := by
  intro c hc hl
  rcases Nat.eq_or_lt_of_le hc with rfl | hlt
  · exact hk
  · exact h c hlt hl

/-- A digit that is skipped leaves `cc` as it is. -/
theorem Searched.cc_skipped {k : Nat} {s : ArcSearch} (hno : ¬ ArcTaken (dir k))
    (h : Searched last maxArc psize dir (k + 1) s) (hfm : s.fm = true) :
    (s.cc = 0 ∧ ∀ c, k ≤ c → c ≤ last → ¬ ArcTaken (dir c)) ∨
      ∃ i, k ≤ i ∧ i ≤ last ∧ ArcTaken (dir i) ∧ (∀ c, i < c → c ≤ last → ¬ ArcTaken (dir c)) ∧
        s.cc = nextDigit last i := by
  rcases h.cc hfm with ⟨h0, hno'⟩ | ⟨i, h1, h2, h3, h4, h5⟩
  · exact .inl ⟨h0, from_succ hno hno'⟩
  · exact .inr ⟨i, Nat.le_of_succ_le h1, h2, h3, h4, h5⟩

/-- The first hole stays the first one in front of a digit that is none. -/
theorem Searched.nne_kept {k : Nat} {s : ArcSearch} (hhole : ¬ ArcHole (dir k))
    (h : Searched last maxArc psize dir (k + 1) s) (hne : s.ne = false) :
    ∃ c, s.nne = some c ∧ k ≤ c ∧ c ≤ last ∧ ArcHole (dir c) ∧
      ∀ j, k ≤ j → j < c → ¬ ArcHole (dir j) := by
  obtain ⟨c, h1, h2, h3, h4, h5⟩ := h.nne hne
  refine ⟨c, h1, Nat.le_of_succ_le h2, h3, h4, fun j hj hjc => ?_⟩
  rcases Nat.eq_or_lt_of_le hj with rfl | hlt
  · exact hhole
  · exact h5 j hlt hjc

/-- No archive. -/
theorem Searched.absent {k : Nat} {s : ArcSearch} (hk : k ≤ last) (hdir : dir k = none)
    (h : Searched last maxArc psize dir (k + 1) s) :
    Searched last maxArc psize dir k { s with nne := some k, ne := false } := by
  have hno : ∀ {P : Archive → Prop}, ¬ ∃ x, dir k = some x ∧ P x := by
    rintro P ⟨x, hx, -⟩
    rw [hdir] at hx
    cases hx
  have hcc := h.cc_skipped hno
  refine ⟨fun c hc => h.below c (Nat.lt_succ_of_lt hc), ?_, ?_, h.sok, ?_, ?_, ?_, h.fms, hcc⟩
  · refine from_succ ?_ h.cleared
    rw [show s.dir k = dir k from h.below k (Nat.lt_succ_self k), hdir]
    rfl
  · exact fun hfm => from_succ hno (h.fm hfm)
  · exact fun hne => nomatch hne
  · exact fun _ => ⟨k, rfl, Nat.le_refl k, hk, .inl hdir, fun j h1 h2 => by omega⟩
  · exact ⟨h.minarc.1, from_succ (fun x hx => by rw [hdir] at hx; cases hx) h.minarc.2⟩

section

variable {k : Nat} {s : ArcSearch} {a : Archive} (hdir : dir k = some a) (hsize : a.size = 0)

include hdir hsize

theorem not_ok_of_empty : ¬ ArcOk maxArc psize (dir k) := by
  rintro ⟨x, hx, hpos, -⟩
  rw [Option.some.inj (hx.symm.trans hdir)] at hpos
  omega

omit hdir hsize in
theorem Searched.removed_below (h : Searched last maxArc psize dir (k + 1) s) :
    ∀ c < k, Function.update s.dir k none c = dir c := fun c hc =>
  (Function.update_of_ne (Nat.ne_of_lt hc) _ _).trans (h.below c (Nat.lt_succ_of_lt hc))

/-- The empty archive is removed. -/
theorem Searched.removed_cleared (h : Searched last maxArc psize dir (k + 1) s) :
    ∀ c, k ≤ c → c ≤ last →
      Function.update s.dir k none c = (dir c).filter (0 < ·.size) := by
  refine from_succ ?_ fun c hc hl => ?_
  · refine (Function.update_self k _ _).trans ?_
    rw [hdir]
    exact (if_neg (by simp [hsize])).symm
  · exact (Function.update_of_ne (Nat.ne_of_gt hc) _ _).trans (h.cleared c hc hl)

theorem Searched.minarc_empty (h : Searched last maxArc psize dir (k + 1) s) :
    s.minarc ≤ 2 ^ 30 ∧ ∀ c, k ≤ c → c ≤ last → ∀ x, dir c = some x → 0 < x.size →
      s.minarc ≤ x.size := by
  refine ⟨h.minarc.1, from_succ (fun x hx hpos => ?_) h.minarc.2⟩
  rw [Option.some.inj (hx.symm.trans hdir)] at hpos
  omega

end

/-- An archive truncated long ago: it is removed, and nothing else. -/
theorem Searched.stale {k : Nat} {s : ArcSearch} {a : Archive} (hdir : dir k = some a)
    (hsize : a.size = 0) (hold : a.old = true) (h : Searched last maxArc psize dir (k + 1) s) :
    Searched last maxArc psize dir k { s with dir := Function.update s.dir k none } := by
  have hsome : ∀ {x}, dir k = some x → x = a := fun hx => Option.some.inj (hx.symm.trans hdir)
  have htr : ¬ ArcTruncated (dir k) := by
    rintro ⟨x, hx, -, hx'⟩
    rw [hsome hx, hold] at hx'
    cases hx'
  have hhole : ¬ ArcHole (dir k) := by
    rintro (hn | ht)
    · rw [hdir] at hn
      cases hn
    · exact htr ht
  have htaken : ¬ ArcTaken (dir k) := by
    rintro ⟨x, hx, hx'⟩
    rw [hsome hx, hold] at hx'
    exact absurd (hx' hsize) (by decide)
  have hnne := h.nne_kept hhole
  have hmin := h.minarc_empty hdir hsize
  have hcc := h.cc_skipped htaken
  exact ⟨h.removed_below, h.removed_cleared hdir hsize,
    fun hfm => from_succ (not_ok_of_empty hdir hsize) (h.fm hfm), h.sok,
    fun hne => from_succ hhole (h.ne hne), hnne, hmin, h.fms, hcc⟩

theorem arcmailFound_empty {c : Nat} {s : ArcSearch} (hcc : s.cc ≠ 0) :
    arcmailFound last maxArc psize c 0 s = s := by
  unfold arcmailFound
  by_cases hx : Exceeds maxArc psize (0 : Nat)
  · simp [hx, hcc]
  · simp [hx, hcc]

/-- An archive that is not empty. -/
theorem arcmailFound_eq {c size : Nat} {s : ArcSearch} (hpos : 0 < size)
    (hnext : 0 < nextDigit last c) :
    arcmailFound last maxArc psize c size s =
      { s with
        fm := if Exceeds maxArc psize size then s.fm else false
        sok := if Exceeds maxArc psize size then s.sok else some c
        fms := if size < s.minarc then some c else s.fms
        minarc := if size < s.minarc then size else s.minarc
        cc := if s.cc = 0 then if Exceeds maxArc psize size then nextDigit last c else c
          else s.cc } := by
  have hne : size ≠ 0 := Nat.ne_of_gt hpos
  unfold arcmailFound
  by_cases hx : Exceeds maxArc psize size
  · by_cases hm : size < s.minarc
    · by_cases hcc : s.cc = 0
      · simp [hx, hm, hcc, hne, Nat.ne_of_gt hnext]
      · simp [hx, hm, hcc, hne]
    · by_cases hcc : s.cc = 0
      · simp [hx, hm, hcc, Nat.ne_of_gt hnext]
      · simp [hx, hm, hcc]
  · by_cases hm : size < s.minarc
    · by_cases hcc : s.cc = 0
      · simp [hx, hm, hcc, hne]
      · simp [hx, hm, hcc, hne]
    · by_cases hcc : s.cc = 0
      · simp [hx, hm, hcc, hne]
      · simp [hx, hm, hcc, hne]

/-- `cc` behind an archive that is not skipped. -/
theorem Searched.cc_taken {k : Nat} {s : ArcSearch} {cc : Nat} (hk : k ≤ last)
    (htaken : ArcTaken (dir k)) (hcc : cc = if s.cc = 0 then nextDigit last k else s.cc)
    (hpos : 0 < last) (hfm : s.fm = true) (h : Searched last maxArc psize dir (k + 1) s) :
    ∃ i, k ≤ i ∧ i ≤ last ∧ ArcTaken (dir i) ∧ (∀ c, i < c → c ≤ last → ¬ ArcTaken (dir c)) ∧
      cc = nextDigit last i := by
  rcases h.cc hfm with ⟨h0, hno⟩ | ⟨i, h1, h2, h3, h4, h5⟩
  · rw [if_pos h0] at hcc
    exact ⟨k, Nat.le_refl k, hk, htaken, fun c hc hl => hno c hc hl, hcc⟩
  · have hne : s.cc ≠ 0 := by
      rw [h5]
      exact Nat.ne_of_gt (nextDigit_pos hpos i h2)
    rw [if_neg hne] at hcc
    exact ⟨i, Nat.le_of_succ_le h1, h2, h3, h4, hcc.trans h5⟩

/-- An archive truncated of late: it is removed, and its digit taken for unused. -/
theorem Searched.truncated {k : Nat} {s : ArcSearch} {a : Archive} (hpos : 0 < last)
    (hk : k ≤ last) (hdir : dir k = some a) (hsize : a.size = 0) (hold : a.old = false)
    (h : Searched last maxArc psize dir (k + 1) s) :
    Searched last maxArc psize dir k
      { s with dir := Function.update s.dir k none, nne := some k, ne := false,
               cc := if s.cc = 0 then nextDigit last k else s.cc } := by
  have htr : ArcTruncated (dir k) := ⟨a, hdir, hsize, hold⟩
  have hmin := h.minarc_empty hdir hsize
  refine ⟨h.removed_below, h.removed_cleared hdir hsize,
    fun hfm => from_succ (not_ok_of_empty hdir hsize) (h.fm hfm), h.sok, ?_, ?_, hmin, h.fms, ?_⟩
  · exact fun hne => nomatch hne
  · exact fun _ => ⟨k, rfl, Nat.le_refl k, hk, .inr htr, fun j h1 h2 => by omega⟩
  · exact fun hfm => .inr (h.cc_taken hk ⟨a, hdir, fun _ => hold⟩ rfl hpos hfm)

/-- An archive that is not empty. -/
theorem Searched.found {k : Nat} {s : ArcSearch} {a : Archive} (hpos : 0 < last) (hk : k ≤ last)
    (hdir : dir k = some a) (hsize : 0 < a.size)
    (h : Searched last maxArc psize dir (k + 1) s) :
    Searched last maxArc psize dir k (arcmailFound last maxArc psize k a.size s) := by
  have hsome : ∀ {x}, dir k = some x → x = a := fun hx => Option.some.inj (hx.symm.trans hdir)
  have hhole : ¬ ArcHole (dir k) := by
    rintro (hn | ⟨x, hx, h0, -⟩)
    · rw [hdir] at hn
      cases hn
    · rw [hsome hx] at h0
      omega
  have hokiff : ArcOk maxArc psize (dir k) ↔ ¬ Exceeds maxArc psize a.size := by
    constructor
    · rintro ⟨x, hx, -, hx'⟩
      rwa [hsome hx] at hx'
    · exact fun hx => ⟨a, hdir, hsize, hx⟩
  have hnne := h.nne_kept hhole
  rw [arcmailFound_eq hsize (nextDigit_pos hpos k hk)]
  refine ⟨fun c hc => h.below c (Nat.lt_succ_of_lt hc), ?_, ?_, ?_, ?_, ?_, ?_, ?_, ?_⟩
  · refine from_succ ?_ h.cleared
    rw [show s.dir k = dir k from h.below k (Nat.lt_succ_self k), hdir]
    exact (if_pos (by simp [hsize])).symm
  · intro hfm
    dsimp only at hfm
    split at hfm
    next hx => exact from_succ (fun hok => hokiff.mp hok hx) (h.fm hfm)
    next => cases hfm
  · intro hfm
    dsimp only at hfm ⊢
    split at hfm
    next hx =>
      rw [if_pos hx]
      exact h.sok hfm
    next hx =>
      rw [if_neg hx]
      exact ⟨k, rfl, hk, hokiff.mpr hx⟩
  · exact fun hne => from_succ hhole (h.ne hne)
  · exact hnne
  · dsimp only
    obtain ⟨hle, hmin⟩ := h.minarc
    split
    next hm =>
      refine ⟨by omega, from_succ (fun x hx _ => ?_) fun c hc hl x hx hp => ?_⟩
      · exact Nat.le_of_eq (congrArg Archive.size (hsome hx).symm)
      · have := hmin c hc hl x hx hp
        omega
    next hm =>
      refine ⟨hle, from_succ (fun x hx _ => ?_) hmin⟩
      rw [hsome hx]
      omega
  · dsimp only
    obtain ⟨hle, -⟩ := h.minarc
    split
    next hm =>
      refine ⟨fun hn => absurd hn (Option.some_ne_none k), fun i hi => ?_⟩
      obtain rfl := Option.some.inj hi
      exact ⟨by omega, hk, a, hdir, hsize, rfl⟩
    next hm => exact h.fms
  · intro hfm
    dsimp only at hfm ⊢
    split at hfm
    next hx =>
      rw [if_pos hx]
      exact .inr (h.cc_taken hk ⟨a, hdir, fun h0 => by omega⟩ rfl hpos hfm)
    next => cases hfm

theorem Searched.step {k : Nat} {s : ArcSearch} (hpos : 0 < last) (hk : k ≤ last)
    (h : Searched last maxArc psize dir (k + 1) s) :
    Searched last maxArc psize dir k (arcmailStep last maxArc psize k s) := by
  have hdir : s.dir k = dir k := h.below k (Nat.lt_succ_self k)
  unfold arcmailStep
  rw [hdir]
  cases hd : dir k with
  | none => exact h.absent hk hd
  | some a =>
    dsimp only
    split
    next h0 =>
      split
      next hold => exact h.stale hd h0 hold
      next hold =>
        have htr := h.truncated hpos hk hd h0 (Bool.eq_false_iff.mpr hold)
        rw [h0, arcmailFound_empty]
        · exact htr
        · dsimp only
          split
          next => exact Nat.ne_of_gt (nextDigit_pos hpos k hk)
          next hcc => exact hcc
    next h0 => exact h.found hpos hk hd (Nat.pos_of_ne_zero h0)

theorem Searched.loop (hpos : 0 < last) {k : Nat} (hk : k ≤ last + 1) :
    ∀ {s : ArcSearch}, Searched last maxArc psize dir k s →
      Searched last maxArc psize dir 0 (arcmailLoop last maxArc psize k s) := by
  induction k with
  | zero => exact fun h => h
  | succ k ih =>
    intro s h
    exact ih (Nat.le_of_succ_le hk) (h.step hpos (Nat.le_of_succ_le_succ hk))

/-- Before the loop nothing has been found. -/
theorem searched_init (last : Nat) (maxArc psize : Int) (dir : ArcDir) :
    Searched last maxArc psize dir (last + 1)
      { dir := dir, minarc := 2 ^ 30, fm := true, fms := none, ne := true, nne := none,
        sok := none, cc := 0 } := by
  have hno : ∀ {P : Nat → Prop} (c : Nat), last + 1 ≤ c → c ≤ last → P c := fun c h1 h2 => by omega
  exact {
    below := fun _ _ => rfl
    cleared := hno
    fm := fun _ => hno
    sok := fun h => absurd (show true = false from h) (by decide)
    ne := fun _ => hno
    nne := fun h => absurd (show true = false from h) (by decide)
    minarc := ⟨Nat.le_refl _, hno⟩
    fms := ⟨fun _ => rfl, fun i h => absurd h (Option.some_ne_none i).symm⟩
    cc := fun _ => .inl ⟨rfl, hno⟩ }

/-! ## The archives the search begins with -/

theorem arcmailCycle_of_ne {j : Nat} (h : j ≠ last) : arcmailCycle dir last j = dir j := by
  unfold arcmailCycle
  split
  · exact Function.update_of_ne h _ _
  · rfl

theorem arcmailCycle_last : arcmailCycle dir last last = (dir last).filter (0 < ·.size) := by
  unfold arcmailCycle
  cases hd : dir last with
  | none => exact hd
  | some a =>
    rw [Option.any_some]
    split
    next h =>
      rw [beq_iff_eq] at h
      exact (Function.update_self last _ _).trans (if_neg (by simp [h])).symm
    next h =>
      rw [beq_iff_eq] at h
      exact hd.trans (if_pos (by simp; omega)).symm

theorem filter_some_iff {a : Option Archive} {x : Archive} :
    a.filter (0 < ·.size) = some x ↔ a = some x ∧ 0 < x.size := by
  rw [Option.filter_eq_some_iff]
  simp

theorem arcmailCycle_some {j : Nat} {x : Archive} (hx : 0 < x.size) :
    arcmailCycle dir last j = some x ↔ dir j = some x := by
  by_cases h : j = last
  · rw [h, arcmailCycle_last, filter_some_iff, and_iff_left hx]
  · rw [arcmailCycle_of_ne h]

theorem arcOk_cycle {j : Nat} :
    ArcOk maxArc psize (arcmailCycle dir last j) ↔ ArcOk maxArc psize (dir j) := by
  constructor
  · rintro ⟨x, hx, hpos, h⟩
    exact ⟨x, (arcmailCycle_some hpos).mp hx, hpos, h⟩
  · rintro ⟨x, hx, hpos, h⟩
    exact ⟨x, (arcmailCycle_some hpos).mpr hx, hpos, h⟩

theorem not_full_of_ok {a : Option Archive} (h : ArcOk maxArc psize a) :
    ¬ ArcFull maxArc psize a := by
  rintro ⟨y, hy, -, hx⟩
  obtain ⟨x, rfl, -, hno⟩ := h
  rw [Option.some.inj hy] at hno
  exact hno hx

theorem full_of_not_ok {a : Option Archive} {x : Archive} (hx : a = some x) (hpos : 0 < x.size)
    (h : ¬ ArcOk maxArc psize a) : ArcFull maxArc psize a :=
  ⟨x, hx, hpos, by_contra fun hno => h ⟨x, hx, hpos, hno⟩⟩

theorem not_full_of_hole {a : Option Archive} (h : ArcHole a) : ¬ ArcFull maxArc psize a := by
  rintro ⟨y, hy, hpos, -⟩
  rcases h with h | ⟨x, hx, h0, -⟩
  · rw [hy] at h
    cases h
  · rw [hx] at hy
    rw [← Option.some.inj hy] at hpos
    omega

/-- The search chooses right: an archive has room; or all are full and either that of the last
digit does not exceed the maximum itself or one is below 1 GB; or the last is full and the first
digit that is unused or was truncated of late is an unused one, if there is one; or the last is
not full, and was not truncated of late with the digit in front of it taken and another unused. -/
def ArcmailFits (dir : ArcDir) (last : Nat) (maxArc psize : Int) : Prop :=
  (∃ j ≤ last, ArcOk maxArc psize (dir j)) ∨
  ((∀ j ≤ last, ArcFull maxArc psize (dir j)) ∧
    ((∃ x, dir last = some x ∧ (x.size : Int) ≤ maxArc) ∨
      ∃ j ≤ last, ∃ x, dir j = some x ∧ x.size < 2 ^ 30)) ∨
  (ArcFull maxArc psize (dir last) ∧ (∃ x, dir last = some x ∧ maxArc < x.size) ∧
    (∃ j ≤ last, ArcHole (dir j)) ∧
    ((∃ j ≤ last, dir j = none) → ∃ j ≤ last, dir j = none ∧ ∀ k < j, ¬ ArcTruncated (dir k))) ∨
  (¬ ArcFull maxArc psize (dir last) ∧
    ¬ (ArcTruncated (dir last) ∧ ArcTaken (dir (last - 1)) ∧ ∃ j ≤ last, dir j = none))

end

/-! ## The choice -/

section

variable {last : Nat} {maxArc psize : Int} {dir : ArcDir} {s : ArcSearch}

/-- `arcmail_search` behind its loop. -/
def arcmailChoice (last : Nat) (maxArc : Int) (s : ArcSearch) : Option Nat :=
  if ! s.fm then s.sok
  else if s.cc = last ∧ (s.dir last).any (maxArc < ·.size) then if s.ne then s.fms else s.nne
  else some s.cc

theorem right_of_found (h : Searched last maxArc psize (arcmailCycle dir last) 0 s)
    (hfm : s.fm = false) :
    ArcmailRight dir last maxArc psize s.dir (arcmailChoice last maxArc s) ∧
      ∃ j ≤ last, ArcOk maxArc psize (dir j) := by
  obtain ⟨c, hc, hle, hok⟩ := h.sok hfm
  rw [arcOk_cycle] at hok
  refine ⟨⟨c, hle, ?_, fun _ => hok, fun hno => absurd hok (hno c hle), fun hfull =>
    absurd hfull (not_full_of_ok hok)⟩, c, hle, hok⟩
  rw [arcmailChoice, hfm]
  exact hc

/-- No archive has room, and the search ends with one that is full. -/
theorem right_of_full {i : Nat} {d : ArcDir} {x : Archive} (hi : i ≤ last)
    (hok : ∀ j ≤ last, ¬ ArcOk maxArc psize (dir j))
    (hall : ∀ j ≤ last, ArcFull maxArc psize (dir j)) (hx : dir i = some x)
    (hmin : ∀ j ≤ last, ∀ y, dir j = some y → ArcFull maxArc psize (dir j) → x.size ≤ y.size) :
    ArcmailRight dir last maxArc psize d (some i) := by
  refine ⟨i, hi, rfl, ?_, ?_, ?_⟩
  · rintro ⟨j, hj, h⟩
    exact absurd h (hok j hj)
  · rintro - ⟨j, hj, h⟩
    obtain ⟨y, hy, -⟩ := hall j hj
    rw [h] at hy
    cases hy
  · intro _ j hj
    refine ⟨hall j hj, fun x' y hx' hy => ?_⟩
    rw [← Option.some.inj (hx.symm.trans hx')]
    exact hmin j hj y hy (hall j hj)

/-- No archive has room, and the search ends with a digit whose archive is gone. -/
theorem right_iff_of_none {c : Nat} {d : ArcDir} (hc : c ≤ last)
    (hok : ∀ j ≤ last, ¬ ArcOk maxArc psize (dir j)) (hnone : d c = none)
    (hfull : ¬ ArcFull maxArc psize (dir c)) :
    ArcmailRight dir last maxArc psize d (some c) ↔
      ((∃ j ≤ last, dir j = none) → ¬ ArcTruncated (dir c)) := by
  constructor
  · rintro ⟨i, -, hi, -, h, -⟩ hex
    rw [Option.some.inj hi]
    exact (h hok hex).2
  · intro h
    refine ⟨c, hc, rfl, ?_, fun _ hex => ⟨hnone, h hex⟩, fun h => absurd h hfull⟩
    rintro ⟨j, hj, h⟩
    exact absurd h (hok j hj)

/-- A packet that does not exist has the size -1. -/
theorem tdiv_two_nonneg {psize : Int} (h : -1 ≤ psize) : 0 ≤ psize.tdiv 2 := by
  by_cases h0 : 0 ≤ psize
  · exact Int.tdiv_nonneg h0 (by decide)
  · rw [show psize = -1 by omega]
    decide

section

variable (hok : ∀ j ≤ last, ¬ ArcOk maxArc psize (dir j))

include hok

theorem full_of_taken {i : Nat} {x : Archive} (hi : i ≤ last) (hx : dir i = some x)
    (hpos : 0 < x.size) : ArcFull maxArc psize (dir i) := full_of_not_ok hx hpos (hok i hi)

variable {a : Archive} (ha : dir last = some a) (hfull : ArcFull maxArc psize (dir last))

include ha hfull

/-- The archive of the last digit does not exceed the maximum itself. -/
theorem right_iff_of_le {d : ArcDir} (hpsize : -1 ≤ psize) (hmax : ¬ maxArc < a.size) :
    ArcmailRight dir last maxArc psize d (some last) ↔ ArcmailFits dir last maxArc psize := by
  constructor
  · rintro ⟨i, -, hi, -, -, hall⟩
    rw [← Option.some.inj hi] at hall
    exact .inr (.inl ⟨fun j hj => (hall hfull j hj).1, .inl ⟨a, ha, by omega⟩⟩)
  · rintro (⟨j, hj, hj'⟩ | ⟨hall, -⟩ | ⟨-, ⟨x, hx, hlt⟩, -⟩ | ⟨hno, -⟩)
    · exact absurd hj' (hok j hj)
    · refine right_of_full (Nat.le_refl _) hok hall ha fun j hj y hy hyfull => ?_
      obtain ⟨z, hz, -, -, hze⟩ := hyfull
      rw [hy, Option.some.injEq] at hz
      rw [← hz] at hze
      have := tdiv_two_nonneg hpsize
      omega
    · rw [ha, Option.some.injEq] at hx
      rw [← hx] at hlt
      exact absurd hlt hmax
    · exact absurd hfull hno

variable (h : Searched last maxArc psize dir 0 s) (hmax : maxArc < a.size)

include h hmax

/-- Every digit is taken, and the smallest archive is the choice. -/
theorem right_iff_of_smallest (hne : s.ne = true) :
    ArcmailRight dir last maxArc psize s.dir s.fms ↔ ArcmailFits dir last maxArc psize := by
  have hhole := h.ne hne
  constructor
  · rintro ⟨i, hi, hfms, -, -, hall⟩
    obtain ⟨hlt, -, x, hx, hp, hsz⟩ := h.fms.2 i hfms
    refine .inr (.inl ⟨fun j hj => (hall (full_of_taken hok hi hx hp) j hj).1,
      .inr ⟨i, hi, x, hx, ?_⟩⟩)
    rw [hsz]
    exact hlt
  · rintro (⟨j, hj, hj'⟩ | ⟨hall, hle | ⟨j, hj, x, hx, hlt⟩⟩ | ⟨-, -, ⟨j, hj, hj'⟩, -⟩ | ⟨hno, -⟩)
    · exact absurd hj' (hok j hj)
    · obtain ⟨x, hx, hle⟩ := hle
      rw [ha, Option.some.injEq] at hx
      rw [← hx] at hle
      omega
    · obtain ⟨y, hy, hp, -⟩ := hall j hj
      rw [hx, Option.some.injEq] at hy
      rw [← hy] at hp
      have hm := h.minarc.2 j (Nat.zero_le j) hj x hx hp
      cases hfms : s.fms with
      | none =>
        have := h.fms.1 hfms
        omega
      | some i =>
        obtain ⟨-, hi, z, hz, hzp, hzs⟩ := h.fms.2 i hfms
        refine right_of_full hi hok hall hz fun k hk w hw hwfull => ?_
        obtain ⟨v, hv, hvp, -⟩ := hwfull
        rw [hw, Option.some.injEq] at hv
        rw [← hv] at hvp
        rw [hzs]
        exact h.minarc.2 k (Nat.zero_le k) hk w hw hvp
    · exact absurd hj' (hhole j (Nat.zero_le j) hj)
    · exact absurd hfull hno

/-- A digit is free, and the first one is the choice. -/
theorem right_iff_of_free (hne : s.ne = false) :
    ArcmailRight dir last maxArc psize s.dir s.nne ↔ ArcmailFits dir last maxArc psize := by
  obtain ⟨c, hc, -, hcl, hhole, hlow⟩ := h.nne hne
  have hnf : ¬ ArcFull maxArc psize (dir c) := not_full_of_hole hhole
  have hnone : s.dir c = none := by
    rw [h.cleared c (Nat.zero_le _) hcl, Option.eq_none_iff_forall_ne_some]
    intro x hx
    obtain ⟨hx, hp⟩ := filter_some_iff.mp hx
    exact hnf (full_of_taken hok hcl hx hp)
  rw [hc, right_iff_of_none hcl hok hnone hnf]
  constructor
  · intro hno
    refine .inr (.inr (.inl ⟨hfull, ⟨a, ha, hmax⟩, ⟨c, hcl, hhole⟩, fun hex => ?_⟩))
    exact ⟨c, hcl, hhole.resolve_right (hno hex), fun k hk ht =>
      hlow k (Nat.zero_le k) hk (.inr ht)⟩
  · rintro (⟨j, hj, hj'⟩ | ⟨hall, -⟩ | ⟨-, -, -, hex⟩ | ⟨hno, -⟩)
    · exact absurd hj' (hok j hj)
    · exact absurd (hall c hcl) hnf
    · rintro hnone ⟨x, hx, ht⟩
      obtain ⟨j, -, hj, hjt⟩ := hex hnone
      rcases Nat.lt_trichotomy c j with hlt | rfl | hgt
      · exact hjt c hlt ⟨x, hx, ht⟩
      · rw [hj] at hx
        cases hx
      · exact hlow j (Nat.zero_le j) hgt (.inl hj)
    · exact absurd hfull hno

end

/-- No archive has room, and that of the last digit is full. -/
theorem right_iff_of_last (hpsize : -1 ≤ psize)
    (h : Searched last maxArc psize (arcmailCycle dir last) 0 s) (hfm : s.fm = true)
    (hok : ∀ j ≤ last, ¬ ArcOk maxArc psize (dir j)) {a : Archive} (ha : dir last = some a)
    (hpos : 0 < a.size) (hx : Exceeds maxArc psize a.size) :
    ArcmailRight dir last maxArc psize s.dir (arcmailChoice last maxArc s) ↔
      ArcmailFits dir last maxArc psize := by
  have hdir : arcmailCycle dir last = dir := by
    rw [arcmailCycle, ha, if_neg]
    simp only [Option.any_some, beq_iff_eq]
    exact Nat.ne_of_gt hpos
  rw [hdir] at h
  have hsdir : s.dir last = some a := by
    rw [h.cleared last (Nat.zero_le _) (Nat.le_refl _)]
    exact filter_some_iff.mpr ⟨ha, hpos⟩
  have hcc : s.cc = last := by
    have htaken : ArcTaken (dir last) := ⟨a, ha, fun h0 => by omega⟩
    rcases h.cc hfm with ⟨-, hno⟩ | ⟨i, -, hi, -, hno, hcc⟩
    · exact absurd htaken (hno last (Nat.zero_le _) (Nat.le_refl _))
    · rcases Nat.eq_or_lt_of_le hi with rfl | hlt
      · rw [hcc, nextDigit, if_neg (Nat.lt_irrefl _)]
      · exact absurd htaken (hno last hlt (Nat.le_refl _))
  have hfull : ArcFull maxArc psize (dir last) := ⟨a, ha, hpos, hx⟩
  have hchoice : arcmailChoice last maxArc s =
      if maxArc < a.size then if s.ne then s.fms else s.nne else some last := by
    rw [arcmailChoice, hfm, hsdir, hcc]
    simp
  rw [hchoice]
  by_cases hmax : maxArc < a.size
  · rw [if_pos hmax]
    cases hne : s.ne with
    | true =>
      rw [if_pos rfl]
      exact right_iff_of_smallest hok ha hfull h hmax hne
    | false =>
      rw [if_neg Bool.false_ne_true]
      exact right_iff_of_free hok ha hfull h hmax hne
  · rw [if_neg hmax]
    exact right_iff_of_le hok ha hfull hpsize hmax

/-- No archive has room, and that of the last digit is not full. -/
theorem right_iff_of_not_last (hlast : 0 < last)
    (h : Searched last maxArc psize (arcmailCycle dir last) 0 s) (hfm : s.fm = true)
    (hok : ∀ j ≤ last, ¬ ArcOk maxArc psize (dir j)) (hfull : ¬ ArcFull maxArc psize (dir last)) :
    ArcmailRight dir last maxArc psize s.dir (arcmailChoice last maxArc s) ↔
      ArcmailFits dir last maxArc psize := by
  have hlastnone : arcmailCycle dir last last = none := by
    rw [arcmailCycle_last, Option.eq_none_iff_forall_ne_some]
    intro x hx
    obtain ⟨hx, hp⟩ := filter_some_iff.mp hx
    exact hfull (full_of_not_ok hx hp (hok last (Nat.le_refl _)))
  have hcleared : ∀ c ≤ last, ¬ ArcTaken (arcmailCycle dir last c) → s.dir c = none := by
    intro c hc hno
    rw [h.cleared c (Nat.zero_le c) hc, Option.eq_none_iff_forall_ne_some]
    intro x hx
    obtain ⟨hx, hp⟩ := filter_some_iff.mp hx
    exact hno ⟨x, hx, fun h0 => by omega⟩
  have hnotfull : ∀ c ≤ last, ¬ ArcTaken (arcmailCycle dir last c) →
      ¬ ArcFull maxArc psize (dir c) := by
    rintro c hc hno ⟨x, hx, hp, -⟩
    exact hno ⟨x, (arcmailCycle_some hp).mpr hx, fun h0 => by omega⟩
  have hchoice : arcmailChoice last maxArc s = some s.cc := by
    have hnone : s.dir last = none := hcleared last (Nat.le_refl _) fun ⟨x, hx, _⟩ => by
      rw [hlastnone] at hx
      cases hx
    rw [arcmailChoice, hfm, hnone]
    simp
  -- the digit behind the last one that is taken
  obtain ⟨hle, hfree, hend⟩ : s.cc ≤ last ∧ ¬ ArcTaken (arcmailCycle dir last s.cc) ∧
      (s.cc = last ↔ ArcTaken (dir (last - 1))) := by
    have hbefore : arcmailCycle dir last (last - 1) = dir (last - 1) :=
      arcmailCycle_of_ne (by omega)
    rcases h.cc hfm with ⟨h0, hno⟩ | ⟨i, -, hi, htaken, hno, hcc⟩
    · rw [h0]
      refine ⟨Nat.zero_le _, hno 0 (Nat.le_refl _) (Nat.zero_le _), by omega, fun ht => ?_⟩
      rw [← hbefore] at ht
      exact absurd ht (hno _ (Nat.zero_le _) (Nat.sub_le _ _))
    · have hlt : i < last := by
        rcases Nat.eq_or_lt_of_le hi with rfl | hlt
        · obtain ⟨x, hx, -⟩ := htaken
          rw [hlastnone] at hx
          cases hx
        · exact hlt
      rw [hcc, nextDigit, if_pos hlt]
      refine ⟨hlt, hno _ (Nat.lt_succ_self i) hlt, fun he => ?_, fun ht => ?_⟩
      · rw [← hbefore, show last - 1 = i by omega]
        exact htaken
      · by_contra hne
        rw [← hbefore] at ht
        exact hno _ (by omega) (Nat.sub_le _ _) ht
  rw [hchoice, right_iff_of_none hle hok (hcleared _ hle hfree) (hnotfull _ hle hfree)]
  have htrunc : ArcTruncated (dir s.cc) ↔ ArcTruncated (dir last) ∧ ArcTaken (dir (last - 1)) := by
    constructor
    · rintro ⟨x, hx, h0, hold⟩
      have he : s.cc = last := by
        by_contra hne
        rw [arcmailCycle_of_ne hne] at hfree
        exact hfree ⟨x, hx, fun _ => hold⟩
      rw [he] at hx
      exact ⟨⟨x, hx, h0, hold⟩, hend.mp he⟩
    · rintro ⟨ht, htaken⟩
      rw [hend.mpr htaken]
      exact ht
  rw [htrunc]
  constructor
  · exact fun hno => .inr (.inr (.inr ⟨hfull, fun ⟨ht, htaken, hex⟩ => hno hex ⟨ht, htaken⟩⟩))
  · rintro (⟨j, hj, hj'⟩ | ⟨hall, -⟩ | ⟨hf, -⟩ | ⟨-, hno⟩)
    · exact absurd hj' (hok j hj)
    · exact absurd (hall last (Nat.le_refl _)) hfull
    · exact absurd hf hfull
    · exact fun hex ⟨ht, htaken⟩ => hno ⟨ht, htaken, hex⟩

end

theorem lastArcmailChars_pos (n : Int) : 0 < lastArcmailChars n := by
  unfold lastArcmailChars
  split
  · omega
  · split
    · omega
    · split
      · omega
      · split <;> omega

/-- The archive that is chosen is the right one exactly for the archives that fit. -/
theorem arcmailRight_iff (dir : ArcDir) (n maxArc psize : Int) (hpsize : -1 ≤ psize) :
    ArcmailRight dir (lastArcmailChars n) maxArc psize
        (arcmailSearch dir (lastArcmailChars n) maxArc psize).1
        (arcmailSearch dir (lastArcmailChars n) maxArc psize).2 ↔
      ArcmailFits dir (lastArcmailChars n) maxArc psize := by
  have hlast := lastArcmailChars_pos n
  generalize lastArcmailChars n = last at hlast ⊢
  have h := (searched_init last maxArc psize (arcmailCycle dir last)).loop hlast (Nat.le_refl _)
  rw [show arcmailSearch dir last maxArc psize = (_, arcmailChoice last maxArc _) from rfl]
  revert h
  generalize arcmailLoop last maxArc psize (last + 1) _ = s
  intro h
  cases hfm : s.fm with
  | false =>
    obtain ⟨hright, hok⟩ := right_of_found h hfm
    exact iff_of_true hright (.inl hok)
  | true =>
    have hok : ∀ j ≤ last, ¬ ArcOk maxArc psize (dir j) := fun j hj hj' =>
      h.fm hfm j (Nat.zero_le j) hj (arcOk_cycle.mpr hj')
    by_cases hfull : ArcFull maxArc psize (dir last)
    · obtain ⟨a, ha, hpos, hx⟩ := hfull
      exact right_iff_of_last hpsize h hfm hok ha hpos hx
    · exact right_iff_of_not_last hlast h hfm hok hfull

/-- A name that another archive has room in. -/
theorem arcmailRight_room :
    -1 ≤ (-1 : Int) ∧
      ArcmailRight (fun j => if j = 1 then some ⟨300, 0⟩ else none) (lastArcmailChars 0) 500 (-1)
        (arcmailSearch (fun j => if j = 1 then some ⟨300, 0⟩ else none) (lastArcmailChars 0) 500
          (-1)).1
        (arcmailSearch (fun j => if j = 1 then some ⟨300, 0⟩ else none) (lastArcmailChars 0) 500
          (-1)).2 :=
  ⟨by decide, (arcmailRight_iff _ 0 500 (-1) (by decide)).mpr
    (.inl ⟨1, by decide, ⟨300, 0⟩, rfl, by decide, by decide⟩)⟩

/-- The last archive is full, and that of the digit 0 was truncated an hour ago: of all the
digits the search takes 0. -/
theorem arcmailRight_truncated :
    ¬ ArcmailRight
      (fun j => if j = 9 then some ⟨800, 0⟩ else if j = 0 then some ⟨0, 3600⟩ else none)
      (lastArcmailChars 0) 500 (-1)
      (arcmailSearch
        (fun j => if j = 9 then some ⟨800, 0⟩ else if j = 0 then some ⟨0, 3600⟩ else none)
        (lastArcmailChars 0) 500 (-1)).1
      (arcmailSearch
        (fun j => if j = 9 then some ⟨800, 0⟩ else if j = 0 then some ⟨0, 3600⟩ else none)
        (lastArcmailChars 0) 500 (-1)).2 := by
  rintro ⟨i, -, hi, -, hfree, -⟩
  rw [show (arcmailSearch _ (lastArcmailChars 0) 500 (-1)).2 = some 0 by decide] at hi
  obtain rfl := Option.some.inj hi
  refine (hfree ?_ ⟨5, by decide, rfl⟩).2 ⟨⟨0, 3600⟩, rfl, rfl, by decide⟩
  rintro j - ⟨x, hx, hpos, hroom⟩
  dsimp only at hx
  split at hx
  · rw [← Option.some.inj hx] at hroom
    exact hroom (by decide)
  · split at hx
    · rw [← Option.some.inj hx] at hpos
      exact absurd hpos (by decide)
    · cases hx

end Fidogate

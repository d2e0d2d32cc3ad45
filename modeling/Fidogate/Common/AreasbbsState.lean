/-
# `Fidogate.Common.AreasbbsState` — areasbbs.c: the new state in its buffer

`areasbbs_chstate` over the bytes it allocates.  Where no old letters are given
it copies the state with the size of a pointer for a bound, and that is not the
size of the new buffer: of a longer state the first letters remain, and for a
shorter one the NUL in the last place falls behind the buffer.
-/
import Fidogate.Common.Areasbbs
import Fidogate.Lib.Buffer

namespace Fidogate

open Bytes Buffer

/-! ## Into a buffer -/

/-- `sizeof(char *)` -/
def SIZEOF_PTR : Nat := 8

/-- `str_copy` -/
def strCopy (d : Str) (n : Nat) (s : Str) : Option Str :=
  (writes d 0 ((s ++ [nul]).take n)).bind fun d => write d (n - 1) nul

/-- The filtering loop of `areasbbs_chstate`: the buffer and `j`. -/
def chstateLoop (stold : Str) : Str → Str → Nat → Option (Str × Nat)
  | [], p, j => some (p, j)
  | c :: s, p, j =>
      if stold.contains c then chstateLoop stold s p j
      else (write p j c).bind fun p => chstateLoop stold s p (j + 1)

/-- `areasbbs_chstate` for a state that has none of the new letter. -/
def chstateNew (s : Str) (stold : Option Str) (stnew : UInt8) : Option Str :=
  let len := s.length + 2
  if INT_MAX < len then none
  else
    let p := List.replicate len nul
    let kept :=
      match stold.getD [] with
      | [] => (strCopy p SIZEOF_PTR s).map fun p => (p, len - 2)
      | st => chstateLoop st s p 0
    kept.bind fun (p, j) => (write p j stnew).map cstr

/-- `areasbbs_chstate`: the state and whether it was changed; `state` itself is
never NULL. -/
def areasbbsChstateBuf (state stold : Option Str) (stnew : UInt8) : Option (Option Str × Bool) :=
  match state.getD [] with
  | [] => some (some (cstr [stnew, nul]), true)
  | s => if (s ++ [nul]).contains stnew then some (state, false)
      else (chstateNew s stold stnew).map fun s => (some s, true)

/-! ## The letters kept -/

theorem chstateLoop_eq (stold : Str) : ∀ (s done old : Str), s.length ≤ old.length →
    chstateLoop stold s (done ++ old) done.length =
      some (done ++ s.filter (! stold.contains ·) ++
        old.drop (s.filter (! stold.contains ·)).length,
        done.length + (s.filter (! stold.contains ·)).length)
  | [], done, old, _ => by simp [chstateLoop]
  | c :: s, done, [], h => absurd h (by simp)
  | c :: s, done, o :: old, h => by
      rw [List.length_cons, List.length_cons, Nat.succ_le_succ_iff] at h
      rw [chstateLoop]
      by_cases hc : stold.contains c = true
      · rw [if_pos hc, chstateLoop_eq stold s done (o :: old) (by simp; omega),
          List.filter_cons_of_neg (by simpa using hc)]
      · have ih := chstateLoop_eq stold s (done ++ [c]) old h
        rw [if_neg hc, write_append, Option.bind_some,
          List.filter_cons_of_pos (by simpa using hc)]
        rw [List.append_assoc, List.singleton_append, List.length_append,
          List.length_singleton] at ih
        rw [ih]
        simp [Nat.add_assoc, Nat.add_comm 1]

/-- The new letter behind what was kept, in front of a NUL. -/
theorem write_letter {kept : Str} {stnew : UInt8} (hkept : nul ∉ kept) (hnew : stnew ≠ nul)
    (o : UInt8) (old : Str) :
    (write (kept ++ o :: nul :: old) kept.length stnew).map cstr = some (kept ++ [stnew]) := by
  have hnul : nul ∉ kept ++ [stnew] := fun h => (List.mem_append.mp h).elim hkept fun h =>
    hnew (List.mem_singleton.mp h).symm
  rw [write_append, Option.map_some, ← cstr_append_nul hnul old, List.append_assoc]
  rfl

/-- Old letters are taken out whatever the length. -/
theorem chstateNew_filter {s : Str} {stold : Option Str} {stnew : UInt8} (hs : nul ∉ s)
    (hnew : stnew ≠ nul) (hst : stold.getD [] ≠ []) (hlen : s.length + 2 ≤ INT_MAX) :
    chstateNew s stold stnew = some (s.filter (! (stold.getD []).contains ·) ++ [stnew]) := by
  rw [chstateNew, if_neg (by omega)]
  obtain ⟨c, cs, hc⟩ := List.exists_cons_of_ne_nil hst
  rw [hc]
  have hloop := chstateLoop_eq (c :: cs) s [] (List.replicate (s.length + 2) nul) (by simp)
  simp only [List.nil_append, List.length_nil, Nat.zero_add] at hloop
  dsimp only
  rw [hloop, Option.bind_some]
  have hkept : nul ∉ s.filter (! (c :: cs).contains ·) := fun h => hs (List.mem_of_mem_filter h)
  have hle : (s.filter (! (c :: cs).contains ·)).length ≤ s.length := List.length_filter_le _ _
  revert hkept hle
  generalize s.filter (! (c :: cs).contains ·) = kept
  intro hkept hle
  have hrest : s.length + 2 - kept.length = s.length - kept.length + 2 := by omega
  rw [List.drop_replicate, hrest]
  exact write_letter hkept hnew nul (List.replicate (s.length - kept.length) nul)

/-! ## The copy with the size of a pointer -/

/-- The NUL in the last place is written behind a shorter buffer. -/
theorem strCopy_none {d s : Str} {n : Nat} (h : d.length < n) : strCopy d n s = none := by
  rw [strCopy]
  cases hw : writes d 0 ((s ++ [nul]).take n) with
  | none => rfl
  | some d' =>
      have hlen := length_writes hw
      exact write_none (by omega) nul

/-- A longer string is cut. -/
theorem strCopy_cut {d s : Str} {m : Nat} (hs : m ≤ s.length) (hd : m < d.length) :
    strCopy d (m + 1) s = some (s.take m ++ nul :: d.drop (m + 1)) := by
  have hm : m < (s ++ [nul]).length := by
    rw [List.length_append, List.length_singleton]
    omega
  have htake : (s ++ [nul]).take (m + 1) = s.take m ++ [(s ++ [nul])[m]] := by
    rw [List.take_succ_eq_append_getElem hm, List.take_append_of_le_length hs]
  have hlen : (s.take m).length = m := List.length_take_of_le hs
  have hover : (d.take (m + 1)).length = (s.take m ++ [(s ++ [nul])[m]]).length := by
    rw [List.length_append, List.length_take, hlen, List.length_singleton]
    omega
  have hput := writes_append [] (s.take m ++ [(s ++ [nul])[m]]) _ (d.drop (m + 1)) hover
  have hlast := write_append (s.take m) (d.drop (m + 1)) (s ++ [nul])[m] nul
  rw [List.nil_append, List.take_append_drop, List.nil_append, List.length_nil] at hput
  rw [hlen] at hlast
  rw [strCopy, htake, hput, Option.bind_some, List.append_assoc, List.singleton_append,
    Nat.add_sub_cancel, hlast]

/-- A string whose NUL is next to the last place. -/
theorem strCopy_fits {d s : Str} (hd : d.length = s.length + 2) :
    strCopy d (s.length + 2) s = some (s ++ [nul, nul]) := by
  have hover : (d.take (s.length + 1)).length = (s ++ [nul]).length := by
    rw [List.length_take, List.length_append, List.length_singleton]
    omega
  have hrest : (d.drop (s.length + 1)).length = 1 := by
    rw [List.length_drop]
    omega
  obtain ⟨o, ho⟩ := List.length_eq_one_iff.mp hrest
  have hput := writes_append [] (s ++ [nul]) _ (d.drop (s.length + 1)) hover
  have hlast := write_append (s ++ [nul]) [] o nul
  rw [List.nil_append, List.take_append_drop, List.nil_append, List.length_nil, ho] at hput
  rw [List.length_append, List.length_singleton] at hlast
  rw [strCopy, List.take_of_length_le (by simp), hput, Option.bind_some]
  exact hlast.trans (congrArg some (List.append_assoc ..))

/-- What becomes of a state where no old letters are given. -/
theorem chstateNew_copy {s : Str} {stold : Option Str} {stnew : UInt8} (hs : nul ∉ s)
    (hnew : stnew ≠ nul) (hst : stold.getD [] = []) (hlen : s.length + 2 ≤ INT_MAX) :
    chstateNew s stold stnew =
      if s.length < 6 then none else if s.length < 8 then some (s ++ [stnew])
      else some (s.take 7) := by
  have hp : (List.replicate (s.length + 2) nul).length = s.length + 2 := List.length_replicate
  rw [chstateNew, if_neg (by omega), hst]
  dsimp only
  rcases Nat.lt_trichotomy s.length 6 with hlt | heq | hgt
  · have hshort : (List.replicate (s.length + 2) nul).length < SIZEOF_PTR := by
      rw [hp]
      exact Nat.add_lt_add_right hlt 2
    rw [if_pos hlt, strCopy_none hshort]
    rfl
  · have hcopy := strCopy_fits hp
    rw [if_neg (by omega), if_pos (by omega), show SIZEOF_PTR = s.length + 2 from heq ▸ rfl, hcopy,
      Option.map_some, Option.bind_some]
    exact write_letter hs hnew nul []
  · have hcopy := @strCopy_cut (List.replicate (s.length + 2) nul) s 7 hgt (by omega)
    rw [if_neg (by omega), show SIZEOF_PTR = 7 + 1 from rfl, hcopy, Option.map_some,
      Option.bind_some, List.drop_replicate]
    dsimp only
    by_cases hseven : s.length < 8
    · have h7 : s.length = 7 := by omega
      have hletter := write_letter hs hnew nul []
      rw [h7] at hletter
      rw [if_pos hseven, List.take_of_length_le (by omega), h7]
      exact hletter
    · rw [if_neg hseven]
      have hcut : nul ∉ s.take 7 := fun h => hs (List.mem_of_mem_take h)
      cases hw : write (s.take 7 ++ nul :: List.replicate (s.length + 2 - (7 + 1)) nul)
          (s.length + 2 - 2) stnew with
      | none =>
          rw [write, if_pos (by simp; omega)] at hw
          cases hw
      | some b =>
          rw [Option.map_some, cstr_write_behind hcut (by simp; omega) hw]

/-! ## The new state -/

theorem chstateNew_iff {s : Str} {stold : Option Str} {stnew : UInt8} (hs : nul ∉ s)
    (hnew : stnew ≠ nul) :
    chstateNew s stold stnew = some (s.filter (! (stold.getD []).contains ·) ++ [stnew]) ↔
      s.length + 2 ≤ INT_MAX ∧ (stold.getD [] ≠ [] ∨ s.length = 6 ∨ s.length = 7) := by
  by_cases hlen : s.length + 2 ≤ INT_MAX
  · rw [and_iff_right hlen]
    by_cases hst : stold.getD [] = []
    · have hall : s.filter (! (stold.getD []).contains ·) = s := by
        rw [hst]
        exact List.filter_eq_self.mpr fun _ _ => rfl
      rw [chstateNew_copy hs hnew hst hlen, hall, or_iff_right (not_not.mpr hst)]
      by_cases hlt : s.length < 6
      · rw [if_pos hlt]
        exact iff_of_false (by simp) (by omega)
      · rw [if_neg hlt]
        by_cases hcut : s.length < 8
        · rw [if_pos hcut]
          exact iff_of_true rfl (by omega)
        · rw [if_neg hcut]
          refine iff_of_false (fun h => ?_) (by omega)
          have hl := congrArg List.length (Option.some.inj h)
          rw [List.length_take, List.length_append, List.length_singleton] at hl
          omega
    · exact iff_of_true (chstateNew_filter hs hnew hst hlen) (Or.inl hst)
  · rw [chstateNew, if_pos (by omega)]
    exact iff_of_false (by simp) (fun h => hlen h.1)

/-- The letters that are not old ones, then the new letter; a state that has
the new letter stays. -/
def ChstateRight (state stold : Option Str) (stnew : UInt8) : Prop :=
  areasbbsChstateBuf state stold stnew = some (
    if (state.getD []).contains stnew then (state, false)
    else (some ((state.getD []).filter (! (stold.getD []).contains ·) ++ [stnew]), true))

/-- A state is changed right if it is empty or has the new letter.  Otherwise
its length has to fit an `int`, and old letters have to be given unless the size
of a pointer falls to the end of the new buffer. -/
theorem chstateRight_iff {state stold : Option Str} {stnew : UInt8} (hs : nul ∉ state.getD [])
    (hnew : stnew ≠ nul) : ChstateRight state stold stnew ↔
      state.getD [] = [] ∨ stnew ∈ state.getD [] ∨
        (state.getD []).length + 2 ≤ INT_MAX ∧
          (stold.getD [] ≠ [] ∨ (state.getD []).length = 6 ∨ (state.getD []).length = 7) := by
  rw [ChstateRight, areasbbsChstateBuf]
  revert hs
  generalize state.getD [] = s
  intro hs
  cases s with
  | nil =>
      refine iff_of_true ?_ (Or.inl rfl)
      have hletter : nul ∉ [stnew] := fun h => hnew (List.mem_singleton.mp h).symm
      have hcstr : cstr [stnew, nul] = [stnew] := cstr_append_nul hletter []
      dsimp only
      rw [hcstr]
      rfl
  | cons c cs =>
      have hfound : (c :: cs ++ [nul]).contains stnew = (c :: cs).contains stnew := by
        simp [hnew]
      dsimp only
      rw [hfound]
      by_cases hmem : stnew ∈ c :: cs
      · rw [List.contains_iff_mem.mpr hmem, if_pos rfl, if_pos rfl]
        exact iff_of_true rfl (Or.inr (Or.inl hmem))
      · have hno : ¬ (c :: cs).contains stnew = true := fun h => hmem (List.contains_iff_mem.mp h)
        rw [if_neg hno, if_neg hno, or_iff_right (List.cons_ne_nil c cs), or_iff_right hmem,
          ← chstateNew_iff hs hnew]
        cases chstateNew (c :: cs) stold stnew <;> simp

theorem chstateRight_forward : ChstateRight (some (lit "SF")) (some (lit "S")) 85 :=
  (chstateRight_iff (by decide) (by decide)).mpr
    (Or.inr (Or.inr ⟨by decide, Or.inl (by decide)⟩))

/-- Of eight letters seven remain, without the new one. -/
theorem chstateRight_eight : ¬ ChstateRight (some (lit "ABCDEFGH")) none 85 := by
  rw [ChstateRight]
  decide

/-- A state that is changed right with old letters is changed as `areasbbsChstate` says. -/
theorem areasbbsChstate_of_right {state : Option Str} {stold : Str} {stnew : UInt8}
    (h : ChstateRight state (some stold) stnew) :
    (areasbbsChstateBuf state (some stold) stnew).map Prod.fst =
      some (areasbbsChstate state stold stnew) := by
  rw [h, areasbbsChstate, Option.getD_some]
  cases state.getD [] with
  | nil => rfl
  | cons c cs =>
      dsimp only
      split <;> rfl

end Fidogate

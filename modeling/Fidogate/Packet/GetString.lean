/-
# `Fidogate.Packet.GetString` — packet.c: the buffer of a string

`pkt_get_string` over the bytes of its buffer: what was in the buffer before
matters, since a string of exactly `nbytes - 1` bytes fills all but the last
place and nothing is written there.  The counter is an `int`, and where it
cannot be moved on the outcome is undefined.
-/
import Fidogate.Common.Packet
import Fidogate.Lib.Buffer
import Mathlib.Data.List.TakeDrop
import Mathlib.Data.List.TakeWhile

namespace Fidogate

open Bytes Buffer

/-! ## Into a buffer -/

/-- Where the loop of `pkt_get_string` stops. -/
structure StringEnd where
  buf : Str
  i : Nat
  fp : Str
  eof : Bool
deriving DecidableEq

/-- The `for` loop of `pkt_get_string`; `none` if the counter overflows. -/
def pktGetStringLoop (nbytes : Nat) : Str → Str → Nat → Option StringEnd
  | [], buf, i => some ⟨buf, i, [], true⟩
  | c :: fp, buf, i =>
      if c = nul then some ⟨buf, i, fp, false⟩
      else if i = INT_MAX then none
      else if i < nbytes - 1 then pktGetStringLoop nbytes fp (buf.set i c) (i + 1)
      else if i = nbytes - 1 then pktGetStringLoop nbytes fp (buf.set i nul) (i + 1)
      else pktGetStringLoop nbytes fp buf (i + 1)

/-- `pkt_get_string`: the buffer, the number of bytes read and the rest of the file. -/
def pktGetStringBuf (fp buf : Str) (nbytes : Nat) : Option (Str × Nat × Str) :=
  match pktGetStringLoop nbytes fp buf 0 with
  | none => none
  | some r =>
      let buf := if r.i < nbytes - 1 then r.buf.set r.i nul else r.buf
      if r.eof then some (buf, r.i, r.fp)
      else if r.i = INT_MAX then none
      else some (buf, r.i + 1, r.fp)

/-! ## Where the loop stops -/

theorem drop_length_cstr (fp : Str) : fp.drop (cstr fp).length = fp.dropWhile (· != nul) := by
  have h : cstr fp ++ fp.dropWhile (· != nul) = fp := List.takeWhile_append_dropWhile
  calc fp.drop (cstr fp).length
      = (cstr fp ++ fp.dropWhile (· != nul)).drop (cstr fp).length := by rw [h]
    _ = fp.dropWhile (· != nul) := List.drop_left

/-- Behind the string that comes next, with `buf` in the buffer. -/
def stringEnd (fp buf : Str) (i : Nat) : StringEnd :=
  ⟨buf, i + (cstr fp).length, fp.drop ((cstr fp).length + 1), ! fp.contains nul⟩

theorem stringEnd_cons {c : UInt8} (h : c ≠ nul) (fp buf : Str) (i : Nat) :
    stringEnd (c :: fp) buf i = stringEnd fp buf (i + 1) := by
  simp only [stringEnd, cstr_cons h, List.length_cons, List.drop_succ_cons, List.contains_cons,
    beq_eq_false_iff_ne.mpr h.symm, Bool.false_or, Nat.add_right_comm i, ← Nat.add_assoc i]

/-- A string whose bytes cannot be counted. -/
theorem pktGetStringLoop_none {nbytes : Nat} : ∀ (fp buf : Str) {i : Nat}, i ≤ INT_MAX →
    INT_MAX < i + (cstr fp).length → pktGetStringLoop nbytes fp buf i = none
  | [], _, _, hi, hmax => absurd hmax (Nat.not_lt.mpr hi)
  | c :: fp, buf, i, hi, hmax => by
      by_cases hc : c = nul
      · subst hc
        exact absurd hmax (Nat.not_lt.mpr hi)
      · rw [cstr_cons hc, List.length_cons] at hmax
        rw [pktGetStringLoop, if_neg hc]
        by_cases hlast : i = INT_MAX
        · exact if_pos hlast
        · have hnext : i + 1 ≤ INT_MAX := by omega
          have hmax' : INT_MAX < i + 1 + (cstr fp).length := by omega
          rw [if_neg hlast, pktGetStringLoop_none fp _ hnext hmax',
            pktGetStringLoop_none fp _ hnext hmax', pktGetStringLoop_none fp _ hnext hmax',
            ite_self, ite_self]

/-- Behind the buffer nothing is written. -/
theorem pktGetStringLoop_behind {nbytes : Nat} : ∀ (fp buf : Str) {i : Nat}, nbytes - 1 < i →
    i + (cstr fp).length ≤ INT_MAX → pktGetStringLoop nbytes fp buf i = some (stringEnd fp buf i)
  | [], _, _, _, _ => rfl
  | c :: fp, buf, i, hi, hmax => by
      by_cases hc : c = nul
      · subst hc
        rfl
      · rw [cstr_cons hc, List.length_cons] at hmax
        rw [pktGetStringLoop, if_neg hc, if_neg (by omega), if_neg (by omega), if_neg (by omega),
          pktGetStringLoop_behind fp buf (by omega) (by omega), stringEnd_cons hc]

/-! ## What the buffer holds -/

/-- What the bytes of a string leave in the places `old`. -/
def stringLeft (s old : Str) : Str :=
  if s.length < old.length then s ++ old.drop s.length else s.take (old.length - 1) ++ [nul]

theorem stringLeft_nil {old : Str} (h : old ≠ []) : stringLeft [] old = old :=
  if_pos (List.length_pos_iff.mpr h)

theorem stringLeft_cons (c o : UInt8) (s : Str) {old : Str} (h : old ≠ []) :
    stringLeft (c :: s) (o :: old) = c :: stringLeft s old := by
  obtain ⟨o', old, rfl⟩ := List.exists_cons_of_ne_nil h
  simp only [stringLeft, List.length_cons, Nat.succ_lt_succ_iff, Nat.add_sub_cancel,
    List.take_succ_cons, List.drop_succ_cons, List.cons_append]
  split <;> rfl

/-- The loop from where `done` has been read. -/
theorem pktGetStringLoop_eq {nbytes : Nat} : ∀ (fp done : Str) {old : Str}, old ≠ [] →
    nbytes = done.length + old.length → done.length + (cstr fp).length ≤ INT_MAX →
    pktGetStringLoop nbytes fp (done ++ old) done.length =
      some (stringEnd fp (done ++ stringLeft (cstr fp) old) done.length)
  | [], done, old, hold, _, _ => by
      rw [cstr_nil, stringLeft_nil hold]
      rfl
  | c :: fp, done, o :: old, hold, hn, hmax => by
      by_cases hc : c = nul
      · subst hc
        rw [cstr_nul_cons, stringLeft_nil hold]
        rfl
      · rw [cstr_cons hc, List.length_cons] at hmax
        rw [List.length_cons] at hn
        rw [pktGetStringLoop, if_neg hc, if_neg (by omega), stringEnd_cons hc, cstr_cons hc]
        rcases List.eq_nil_or_concat' old with rfl | ⟨_, _, hold⟩
        · -- the last place takes the terminator
          rw [List.length_nil] at hn
          rw [if_neg (by omega), if_pos (by omega), List.set_append_right _ _ (Nat.le_refl _),
            Nat.sub_self, pktGetStringLoop_behind _ _ (by omega) (by omega)]
          simp [stringLeft]
        · have hne : old ≠ [] := by simp [hold]
          have hpos := List.length_pos_iff.mpr hne
          have hlen : (done ++ [c]).length = done.length + 1 := List.length_append
          have ih := @pktGetStringLoop_eq nbytes fp (done ++ [c]) old hne (by omega) (by omega)
          rw [hlen, List.append_assoc, List.append_assoc] at ih
          rw [if_pos (by omega), List.set_append_right _ _ (Nat.le_refl _), Nat.sub_self,
            stringLeft_cons _ _ _ hne]
          exact ih

/-- How many bytes the string takes in the file, with its NUL if there is one. -/
def stringBytes (fp : Str) : Nat := (cstr fp).length + if nul ∈ fp then 1 else 0

/-- The buffer behind the last assignment. -/
def stringBuf (s buf : Str) : Str :=
  if s.length < buf.length - 1 then (stringLeft s buf).set s.length nul else stringLeft s buf

theorem pktGetStringBuf_eq {fp buf : Str} (hbuf : buf ≠ []) (h : stringBytes fp ≤ INT_MAX) :
    pktGetStringBuf fp buf buf.length =
      some (stringBuf (cstr fp) buf, stringBytes fp, fp.drop ((cstr fp).length + 1)) := by
  have hlen : (cstr fp).length ≤ INT_MAX := Nat.le_trans (Nat.le_add_right _ _) h
  have hloop := @pktGetStringLoop_eq buf.length fp [] buf hbuf (by simp) (by simpa using hlen)
  rw [List.nil_append, List.length_nil, List.nil_append] at hloop
  rw [pktGetStringBuf, hloop]
  simp only [stringEnd, Nat.zero_add]
  by_cases hnul : nul ∈ fp
  · rw [stringBytes, if_pos hnul] at h ⊢
    rw [List.contains_iff_mem.mpr hnul, if_neg (by decide), if_neg (by omega), stringBuf]
  · have hcont : fp.contains nul = false := by simpa using hnul
    rw [stringBytes, if_neg hnul, hcont, stringBuf]
    rfl

theorem pktGetStringBuf_none {fp buf : Str} (hbuf : buf ≠ []) (h : INT_MAX < stringBytes fp) :
    pktGetStringBuf fp buf buf.length = none := by
  rw [pktGetStringBuf]
  by_cases hlen : (cstr fp).length ≤ INT_MAX
  · have hloop := @pktGetStringLoop_eq buf.length fp [] buf hbuf (by simp) (by simpa using hlen)
    rw [List.nil_append, List.length_nil, List.nil_append] at hloop
    have hnul : nul ∈ fp := by
      by_contra hnul
      rw [stringBytes, if_neg hnul] at h
      omega
    rw [stringBytes, if_pos hnul] at h
    rw [hloop]
    simp only [stringEnd, Nat.zero_add]
    rw [List.contains_iff_mem.mpr hnul, if_neg (by decide), if_pos (by omega)]
  · rw [pktGetStringLoop_none fp buf (Nat.zero_le _) (by omega)]

/-- The buffer holds the string, cut to fit, unless it misses its NUL: where it
fills all but the last place, and that is not NUL already. -/
theorem stringBuf_iff {s buf : Str} (hs : nul ∉ s) (hbuf : buf ≠ []) :
    (nul ∈ stringBuf s buf ∧ cstr (stringBuf s buf) = s.take (buf.length - 1)) ↔
      s.length ≠ buf.length - 1 ∨ buf.getLast hbuf = nul := by
  have hpos := List.length_pos_iff.mpr hbuf
  have hheld : ∀ t rest : Str, nul ∉ t →
      nul ∈ t ++ nul :: rest ∧ cstr (t ++ nul :: rest) = t := fun t rest ht =>
    ⟨List.mem_append_right _ List.mem_cons_self, cstr_append_nul ht rest⟩
  rcases Nat.lt_trichotomy s.length (buf.length - 1) with hlt | heq | hgt
  · refine iff_of_true ?_ (Or.inl (Nat.ne_of_lt hlt))
    have hdrop : buf.drop s.length ≠ [] := by simpa using (by omega : s.length < buf.length)
    obtain ⟨o, rest, hrest⟩ := List.exists_cons_of_ne_nil hdrop
    rw [stringBuf, if_pos hlt, stringLeft, if_pos (by omega), hrest,
      List.set_append_right _ _ (Nat.le_refl _), Nat.sub_self, List.set_cons_zero,
      List.take_of_length_le (by omega)]
    exact hheld s rest hs
  · have hlast : buf.drop s.length = [buf.getLast hbuf] := by
      rw [heq, List.drop_length_sub_one hbuf]
    rw [stringBuf, if_neg (by omega), stringLeft, if_pos (by omega), hlast,
      List.take_of_length_le (by omega)]
    constructor
    · rintro ⟨hmem, -⟩
      rcases List.mem_append.mp hmem with h | h
      · exact absurd h hs
      · exact Or.inr (List.mem_singleton.mp h).symm
    · rintro (hne | hnul)
      · exact absurd heq hne
      · rw [hnul]
        exact hheld s [] hs
  · refine iff_of_true ?_ (Or.inl (Nat.ne_of_gt hgt))
    rw [stringBuf, if_neg (by omega), stringLeft, if_neg (by omega)]
    exact hheld _ [] fun h => hs (List.mem_of_mem_take h)

/-! ## What the caller gets -/

/-- The string that comes next, as far as it fits, is in the buffer with a NUL
behind it, and the file stands behind that string. -/
def ReadsString (fp buf : Str) (nbytes : Nat) : Prop :=
  ∃ buf' num fp', pktGetStringBuf fp buf nbytes = some (buf', num, fp') ∧
    (nul ∈ buf' ∧ cstr buf' = (cstr fp).take (nbytes - 1)) ∧ fp' = fp.drop ((cstr fp).length + 1)

/-- A string is read right if its bytes can be counted, and it does not fill
all but the last place in front of something else than a NUL. -/
theorem readsString_iff {fp buf : Str} (hbuf : buf ≠ []) : ReadsString fp buf buf.length ↔
    stringBytes fp ≤ INT_MAX ∧
      ((cstr fp).length ≠ buf.length - 1 ∨ buf.getLast hbuf = nul) := by
  by_cases hmax : stringBytes fp ≤ INT_MAX
  · rw [ReadsString, pktGetStringBuf_eq hbuf hmax, and_iff_right hmax,
      ← stringBuf_iff (nul_notMem_cstr fp) hbuf]
    constructor
    · rintro ⟨_, _, _, h, hheld, -⟩
      cases h
      exact hheld
    · exact fun hheld => ⟨_, _, _, rfl, hheld, rfl⟩
  · rw [ReadsString, pktGetStringBuf_none hbuf (by omega)]
    refine iff_of_false ?_ (fun h => hmax h.1)
    rintro ⟨_, _, _, h, -⟩
    cases h

theorem readsString_short : ReadsString [65, 0] [88, 88, 88] 3 :=
  (readsString_iff (List.cons_ne_nil _ _)).mpr ⟨by decide, Or.inl (by decide)⟩

/-- A string of exactly `nbytes - 1` bytes leaves a buffer without a NUL. -/
theorem readsString_full : ¬ ReadsString [65, 66, 0] [88, 88, 88] 3 := by
  rintro ⟨_, _, _, h, ⟨hnul, -⟩, -⟩
  cases h
  exact absurd hnul (by decide)

/-! ## The strings of the header -/

theorem pktGetString_eq (fp : Str) (nbytes : Nat) : pktGetString fp nbytes =
    ((cstr fp).take (nbytes - 1), stringBytes fp, fp.drop ((cstr fp).length + 1)) := by
  have hrest : fp.drop (cstr fp).length = [] ↔ nul ∉ fp := by
    rw [drop_length_cstr, List.dropWhile_eq_nil_iff]
    constructor
    · exact fun h hnul => absurd (h nul hnul) (by decide)
    · exact fun h c hc => by simpa using ne_of_mem_of_not_mem hc h
  rw [pktGetString, ← cstr, stringBytes, ← List.drop_drop]
  simp only [hrest, ite_not]

/-- Where a string is read right, it is read as `pktGetString` says. -/
theorem pktGetString_of_readsString {fp buf : Str} (hbuf : buf ≠ [])
    (h : ReadsString fp buf buf.length) : ∃ buf' num fp',
    pktGetStringBuf fp buf buf.length = some (buf', num, fp') ∧
      pktGetString fp buf.length = (cstr buf', num, fp') := by
  obtain ⟨hmax, -⟩ := (readsString_iff hbuf).mp h
  have hbuf' := pktGetStringBuf_eq hbuf hmax
  obtain ⟨_, _, _, hget, ⟨-, hheld⟩, rfl⟩ := h
  cases hbuf'.symm.trans hget
  exact ⟨_, _, _, hget, by rw [pktGetString_eq, hheld]⟩

end Fidogate

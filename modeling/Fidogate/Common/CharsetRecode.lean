/-
# `Fidogate.Common.CharsetRecode` — charset.c: recoding through iconv

iconv is not part of the source: its descriptors, and what a call answers, are
parameters, and `Contract` is what its manual promises.  What the allocated
bytes hold before they are written does not matter.
-/
import Fidogate.Lib.Buffer
import Fidogate.Lib.Loop
import Mathlib.Data.Prod.Lex

namespace Fidogate

open Bytes Buffer Loop

/-! ## iconv -/

/-- What a call of `iconv` comes to; the last three are -1 with their `errno`. -/
inductive IconvRc
  | done
  | e2big
  | eilseq
  | einval
  deriving DecidableEq

/-- An answer: the descriptor after it, how much input is used, what is written. -/
structure IconvCall (σ : Type) where
  desc : σ
  used : Nat
  out : Str
  rc : IconvRc

/-- `iconv_open` to and from a charset, `iconv` for an input and the room for
its output, and `iconv` without an input. -/
structure Iconv (σ : Type) where
  iopen : Str → Str → Option σ
  call : σ → Str → Nat → IconvCall σ
  reset : σ → Nat → Str

variable {σ : Type}

/-- What iconv promises; `need` bounds what it has yet to write for an input. -/
structure Iconv.Contract (ic : Iconv σ) (need : σ → Str → Nat) : Prop where
  used_le : ∀ d s room, (ic.call d s room).used ≤ s.length
  out_le : ∀ d s room, (ic.call d s room).out.length ≤ room
  /-- Success is the conversion of all the input. -/
  done : ∀ d s room, (ic.call d s room).rc = .done → (ic.call d s room).used = s.length
  /-- A bad sequence is left in the input. -/
  bad : ∀ d s room, (ic.call d s room).rc = .eilseq ∨ (ic.call d s room).rc = .einval →
    (ic.call d s room).used < s.length
  /-- Where there is no room, more is to be written than there is room for. -/
  full : ∀ d s room, (ic.call d s room).rc = .e2big →
    room - (ic.call d s room).out.length <
        need (ic.call d s room).desc (s.drop (ic.call d s room).used) ∧
      need (ic.call d s room).desc (s.drop (ic.call d s room).used) +
        (ic.call d s room).out.length ≤ need d s
  reset_le : ∀ d room, (ic.reset d room).length ≤ room

/-! ## The loop -/

/-- The variables of `_charset_recode_iconv`: `src` is what is left of the
input, `dst` the allocated bytes. -/
structure Recode (σ : Type) where
  desc : σ
  src : Str
  dst : Str
  dstSize : Nat
  cur : Nat
  curSize : Nat

/-- A round of the loop. -/
def recodeBody (ic : Iconv σ) (inc : Nat) (t : Recode σ) : Option (Round (Recode σ)) :=
  if t.src = [] then some (.leave t)
  else
    let r := ic.call t.desc t.src t.curSize
    (writes t.dst t.cur r.out).bind fun dst =>
      let src := t.src.drop r.used
      let cur := t.cur + r.out.length
      let curSize := t.curSize - r.out.length
      match r.rc with
      | .done => some (.leave ⟨r.desc, src, dst, t.dstSize, cur, curSize⟩)
      | .e2big =>
          let dstLen := t.dstSize - curSize
          some (.again ⟨r.desc, src, dst ++ List.replicate inc nul, t.dstSize + inc, dstLen,
            curSize + inc⟩)
      | .eilseq | .einval =>
          (write dst cur 63).map fun dst =>
            .again ⟨r.desc, src.drop 1, dst, t.dstSize, cur + 1, curSize - 1⟩

/-- Before the loop. -/
def recodeStart (desc : σ) (src : Str) : Recode σ :=
  ⟨desc, src, List.replicate src.length nul, src.length, 0, src.length⟩

/-- The charset that `iconv_open` is asked for. -/
def iconvTo (to_ : Str) : Str := if to_ = lit "LATIN-1" then to_ else to_ ++ lit "//TRANSLIT"

/-- `_charset_recode_iconv`: `none` if the rounds do not suffice, `some none` if
a byte is written behind the buffer, then its error or the result. -/
def charsetRecodeIconvOnce (ic : Iconv σ) (n : Nat) (src from_ to_ : Str) :
    Option (Option (Option (Str × Nat))) :=
  match ic.iopen (iconvTo to_) from_ with
  | none => some (some none)
  | some desc =>
      (loop (recodeBody ic src.length) n (recodeStart desc src)).map fun r => r.bind fun t =>
        let out := ic.reset t.desc t.curSize
        (writes t.dst t.cur out).map fun dst => some (dst, t.dstSize - (t.curSize - out.length))

/-- `charset_recode_iconv`: the name of a charset is tried without its first
dash too. -/
def charsetRecodeIconv (ic : Iconv σ) (n : Nat) (src from_ to_ : Str) :
    Option (Option (Option (Str × Nat))) :=
  match charsetRecodeIconvOnce ic n src from_ to_ with
  | some (some none) =>
      if from_.contains 45 then charsetRecodeIconvOnce ic n src (from_.erase 45) to_
      else some (some none)
  | r => r

/-- `charset_recode_buf`; its arguments are never NULL. -/
def charsetRecodeBuf (ic : Iconv σ) (n : Nat) (src from_ to_ : Str) :
    Option (Option (Option (Str × Nat))) :=
  if src = [] then some (some none)
  else
    let rc :=
      if ! strieq from_ to_ then charsetRecodeIconv ic n src from_ to_ else some (some none)
    match rc with
    | some (some none) => some (some (some (src, src.length)))
    | r => r

/-! ## In the buffer -/

/-- The place and the room make up the size of the buffer. -/
structure Recode.Fits (inc : Nat) (t : Recode σ) : Prop where
  size : t.dstSize = t.dst.length
  room : t.cur + t.curSize = t.dstSize
  src : t.src.length ≤ inc

/-- A bad character with no room for its replacement. -/
def BadAtEnd (ic : Iconv σ) (t : Recode σ) : Prop :=
  t.src ≠ [] ∧
    ((ic.call t.desc t.src t.curSize).rc = .eilseq ∨
      (ic.call t.desc t.src t.curSize).rc = .einval) ∧
    (ic.call t.desc t.src t.curSize).out.length = t.curSize

/-- What a round can do in a buffer that fits. -/
inductive RecodeRound (ic : Iconv σ) (inc : Nat) (t : Recode σ) :
    Option (Round (Recode σ)) → Prop
  | finished : t.src = [] → RecodeRound ic inc t (some (.leave t))
  | done {r : IconvCall σ} {dst : Str} : t.src ≠ [] → ic.call t.desc t.src t.curSize = r →
      r.rc = .done → dst.length = t.dst.length →
      RecodeRound ic inc t (some (.leave ⟨r.desc, t.src.drop r.used, dst, t.dstSize,
        t.cur + r.out.length, t.curSize - r.out.length⟩))
  | full {r : IconvCall σ} {dst : Str} : t.src ≠ [] → ic.call t.desc t.src t.curSize = r →
      r.rc = .e2big → dst.length = t.dst.length →
      RecodeRound ic inc t (some (.again ⟨r.desc, t.src.drop r.used,
        dst ++ List.replicate inc nul, t.dstSize + inc, t.dstSize - (t.curSize - r.out.length),
        t.curSize - r.out.length + inc⟩))
  | bad {r : IconvCall σ} {dst : Str} : t.src ≠ [] → ic.call t.desc t.src t.curSize = r →
      r.rc = .eilseq ∨ r.rc = .einval → r.out.length < t.curSize → dst.length = t.dst.length →
      RecodeRound ic inc t (some (.again ⟨r.desc, (t.src.drop r.used).drop 1, dst, t.dstSize,
        t.cur + r.out.length + 1, t.curSize - r.out.length - 1⟩))
  | atEnd : BadAtEnd ic t → RecodeRound ic inc t none

section

variable {ic : Iconv σ} {need : σ → Str → Nat} {inc : Nat} {t u : Recode σ}

theorem recodeBody_round (hc : ic.Contract need) (ht : t.Fits inc) :
    RecodeRound ic inc t (recodeBody ic inc t) := by
  have hsize := ht.size
  have hroom := ht.room
  rw [recodeBody]
  by_cases hsrc : t.src = []
  · rw [if_pos hsrc]
    exact .finished hsrc
  · rw [if_neg hsrc]
    have hout := hc.out_le t.desc t.src t.curSize
    have hend : BadAtEnd ic t ↔ t.src ≠ [] ∧ _ ∧ _ := Iff.rfl
    generalize hr : ic.call t.desc t.src t.curSize = r at hout hend
    obtain ⟨dst, hdst, hlen⟩ := exists_writes (b := t.dst) (i := t.cur) (s := r.out) (by omega)
    dsimp only
    rw [hdst, Option.bind_some]
    have hreplace (hrc : r.rc = .eilseq ∨ r.rc = .einval) : RecodeRound ic inc t
        ((write dst (t.cur + r.out.length) 63).map fun dst => .again ⟨r.desc,
          (t.src.drop r.used).drop 1, dst, t.dstSize, t.cur + r.out.length + 1,
          t.curSize - r.out.length - 1⟩) := by
      rcases Nat.eq_or_lt_of_le hout with heq | hlt
      · rw [write_none (by omega)]
        exact .atEnd (hend.mpr ⟨hsrc, hrc, heq⟩)
      · obtain ⟨dst', hdst', hlen'⟩ := exists_write (b := dst) (i := t.cur + r.out.length)
          (by omega) 63
        rw [hdst']
        exact .bad hsrc hr hrc hlt (hlen'.trans hlen)
    cases hrc : r.rc with
    | done => exact .done hsrc hr hrc hlen
    | e2big => exact .full hsrc hr hrc hlen
    | eilseq => exact hreplace (Or.inl hrc)
    | einval => exact hreplace (Or.inr hrc)

theorem fits_start (desc : σ) (src : Str) : (recodeStart desc src).Fits src.length :=
  ⟨List.length_replicate.symm, Nat.zero_add _, Nat.le_refl _⟩

theorem fits_again (hc : ic.Contract need) (ht : t.Fits inc)
    (h : recodeBody ic inc t = some (.again u)) : u.Fits inc := by
  have hround := recodeBody_round hc ht
  have hsize := ht.size
  have hroom := ht.room
  have hsrc := ht.src
  have hout := hc.out_le t.desc t.src t.curSize
  rw [h] at hround
  cases hround with
  | full _ hr _ hlen =>
      rw [hr] at hout
      refine ⟨?_, ?_, ?_⟩
      · rw [List.length_append, List.length_replicate, hlen, hsize]
      · dsimp only
        omega
      · rw [List.length_drop]
        omega
  | bad _ hr _ hlt hlen =>
      refine ⟨hsize.trans hlen.symm, ?_, ?_⟩
      · dsimp only
        omega
      · rw [List.length_drop, List.length_drop]
        omega

theorem fits_leave (hc : ic.Contract need) (ht : t.Fits inc)
    (h : recodeBody ic inc t = some (.leave u)) : u.Fits inc ∧ u.src = [] := by
  have hround := recodeBody_round hc ht
  have hsize := ht.size
  have hroom := ht.room
  have hsrc := ht.src
  have hout := hc.out_le t.desc t.src t.curSize
  have hdone := hc.done t.desc t.src t.curSize
  rw [h] at hround
  cases hround with
  | finished hnil => exact ⟨ht, hnil⟩
  | done _ hr hrc hlen =>
      rw [hr] at hout hdone
      have hall := hdone hrc
      refine ⟨⟨hsize.trans hlen.symm, ?_, ?_⟩, ?_⟩
      · dsimp only
        omega
      · rw [List.length_drop]
        omega
      · exact List.drop_eq_nil_of_le (Nat.le_of_eq hall.symm)

theorem recodeBody_none_iff (hc : ic.Contract need) (ht : t.Fits inc) :
    recodeBody ic inc t = none ↔ BadAtEnd ic t := by
  have hround := recodeBody_round hc ht
  constructor
  · intro h
    rw [h] at hround
    cases hround with
    | atEnd hend => exact hend
  · rintro ⟨hne, hbad, hfull⟩
    generalize recodeBody ic inc t = o at hround
    cases hround with
    | finished hnil => exact absurd hnil hne
    | done _ hr hrc _ =>
        rw [hr, hrc] at hbad
        rcases hbad with h | h <;> cases h
    | full _ hr hrc _ =>
        rw [hr, hrc] at hbad
        rcases hbad with h | h <;> cases h
    | bad _ hr _ hlt _ =>
        rw [hr] at hfull
        omega
    | atEnd _ => rfl

/-- Input is used, or replaced, or the room grows towards what is needed. -/
def RecodeDown (need : σ → Str → Nat) : Recode σ → Recode σ → Prop :=
  InvImage (Prod.Lex (· < ·) (· < ·)) fun t => (t.src.length, need t.desc t.src - t.curSize)

theorem wellFounded_recodeDown (need : σ → Str → Nat) : WellFounded (RecodeDown need) :=
  InvImage.wf _ (WellFounded.prod_lex wellFounded_lt wellFounded_lt)

theorem recodeDown_iff {t u : Recode σ} : RecodeDown need u t ↔
    u.src.length < t.src.length ∨
      u.src.length = t.src.length ∧
        need u.desc u.src - u.curSize < need t.desc t.src - t.curSize :=
  Prod.lex_def

theorem down_again (hc : ic.Contract need) (ht : t.Fits inc)
    (h : recodeBody ic inc t = some (.again u)) : RecodeDown need u t := by
  have hround := recodeBody_round hc ht
  have hsrc := ht.src
  have hout := hc.out_le t.desc t.src t.curSize
  have hused := hc.used_le t.desc t.src t.curSize
  have hbad := hc.bad t.desc t.src t.curSize
  have hfull := hc.full t.desc t.src t.curSize
  rw [h] at hround
  cases hround with
  | @full r _ hne hr hrc _ =>
      rw [hr] at hout hused hfull
      obtain ⟨hlack, hrest⟩ := hfull hrc
      have hpos := List.length_pos_iff.mpr hne
      rw [recodeDown_iff]
      dsimp only
      rw [List.length_drop]
      by_cases hzero : r.used = 0
      · rw [hzero, List.drop_zero] at hlack hrest ⊢
        exact Or.inr ⟨rfl, by omega⟩
      · exact Or.inl (by omega)
  | @bad r _ _ hr hrc hlt _ =>
      rw [hr] at hbad
      have hless := hbad hrc
      refine recodeDown_iff.mpr (Or.inl ?_)
      rw [List.length_drop, List.length_drop]
      omega

end

/-! ## The whole of it -/

/-- The loop ends, and with it the function; in every round the place and the
room make up the size of the buffer, and in the end all input is used or replaced. -/
def RecodeSafe (ic : Iconv σ) (src from_ to_ : Str) : Prop :=
  (∃ n r, charsetRecodeIconvOnce ic n src from_ to_ = some (some r)) ∧
    ∀ desc, ic.iopen (iconvTo to_) from_ = some desc →
      (∀ t, Reach (recodeBody ic src.length) (recodeStart desc src) t → t.Fits src.length) ∧
      ∀ n t, loop (recodeBody ic src.length) n (recodeStart desc src) = some (some t) →
        t.Fits src.length ∧ t.src = []

/-- The loop stays in its buffer just where no bad character is met with no
room left for its replacement. -/
theorem recodeSafe_iff {ic : Iconv σ} {need : σ → Str → Nat} (hc : ic.Contract need)
    (src from_ to_ : Str) : RecodeSafe ic src from_ to_ ↔
      ∀ desc, ic.iopen (iconvTo to_) from_ = some desc →
        ∀ t, Reach (recodeBody ic src.length) (recodeStart desc src) t → ¬ BadAtEnd ic t := by
  have hreach : ∀ desc t, Reach (recodeBody ic src.length) (recodeStart desc src) t →
      t.Fits src.length := fun desc t hr =>
    hr.invariant (I := fun t => t.Fits src.length) (fun _ _ => fits_again hc) (fits_start desc src)
  have hlast : ∀ desc n t, loop (recodeBody ic src.length) n (recodeStart desc src) =
      some (some t) → t.Fits src.length ∧ t.src = [] := by
    intro desc n t hloop
    obtain ⟨u, hu, hleave⟩ := last_of_loop hloop
    exact fits_leave hc (hreach desc u hu) hleave
  have houtcome : ∀ desc, (∀ t, Reach (recodeBody ic src.length) (recodeStart desc src) t →
      recodeBody ic src.length t ≠ none) ↔
        ∀ t, Reach (recodeBody ic src.length) (recodeStart desc src) t → ¬ BadAtEnd ic t :=
    fun desc => forall_congr' fun t => imp_congr_right fun hr =>
      not_congr (recodeBody_none_iff hc (hreach desc t hr))
  constructor
  · rintro ⟨⟨n, r, h⟩, -⟩ desc hopen
    rw [charsetRecodeIconvOnce, hopen] at h
    dsimp only at h
    cases hloop : loop (recodeBody ic src.length) n (recodeStart desc src) with
    | none =>
        rw [hloop] at h
        cases h
    | some o =>
        rw [← houtcome, ← left_iff hloop]
        rintro rfl
        rw [hloop] at h
        cases h
  · intro hbad
    refine ⟨?_, fun desc _ => ⟨hreach desc, hlast desc⟩⟩
    cases hopen : ic.iopen (iconvTo to_) from_ with
    | none => exact ⟨0, none, by rw [charsetRecodeIconvOnce, hopen]⟩
    | some desc =>
        obtain ⟨n, o, hloop⟩ := exists_loop (wellFounded_recodeDown need)
          (I := fun t => t.Fits src.length) (fun _ _ => fits_again hc) (fun _ _ => down_again hc)
          (recodeStart desc src) (fits_start desc src)
        obtain ⟨t, rfl⟩ := Option.ne_none_iff_exists'.mp
          ((left_iff hloop).mpr ((houtcome desc).mpr (hbad desc hopen)))
        obtain ⟨ht, -⟩ := hlast desc n t hloop
        have hsize := ht.size
        have hroom := ht.room
        have hreset := hc.reset_le t.desc t.curSize
        obtain ⟨dst, hdst, -⟩ := exists_writes (b := t.dst) (i := t.cur)
          (s := ic.reset t.desc t.curSize) (by omega)
        refine ⟨n, some (dst, t.dstSize - (t.curSize - (ic.reset t.desc t.curSize).length)), ?_⟩
        rw [charsetRecodeIconvOnce, hopen]
        dsimp only
        rw [hloop, Option.map_some, Option.bind_some, hdst]
        rfl

/-- What a run without such a character returns lies in its buffer; whether it
is the error does not depend on the rounds. -/
theorem recodeSafe_result {ic : Iconv σ} {need : σ → Str → Nat} (hc : ic.Contract need)
    {src from_ to_ : Str} (h : RecodeSafe ic src from_ to_) :
    (∀ n, charsetRecodeIconvOnce ic n src from_ to_ = some (some none)) ∨
      ∃ n dst len, charsetRecodeIconvOnce ic n src from_ to_ = some (some (some (dst, len))) ∧
        len ≤ dst.length := by
  obtain ⟨⟨n, r, hr⟩, hfits⟩ := h
  cases hopen : ic.iopen (iconvTo to_) from_ with
  | none => exact Or.inl fun n => by rw [charsetRecodeIconvOnce, hopen]
  | some desc =>
      refine Or.inr ⟨n, ?_⟩
      have honce := hr
      rw [charsetRecodeIconvOnce, hopen] at hr
      dsimp only at hr
      cases hloop : loop (recodeBody ic src.length) n (recodeStart desc src) with
      | none =>
          rw [hloop] at hr
          cases hr
      | some o =>
          cases o with
          | none =>
              rw [hloop] at hr
              cases hr
          | some t =>
              obtain ⟨ht, -⟩ := (hfits desc hopen).2 n t hloop
              have hsize := ht.size
              have hroom := ht.room
              have hreset := hc.reset_le t.desc t.curSize
              obtain ⟨dst, hdst, hlen⟩ := exists_writes (b := t.dst) (i := t.cur)
                (s := ic.reset t.desc t.curSize) (by omega)
              rw [hloop, Option.map_some, Option.bind_some, hdst] at hr
              cases hr
              exact ⟨_, _, honce, by omega⟩

/-- A caller gets a text in its buffer, if need be the one it gave. -/
theorem charsetRecodeBuf_result {ic : Iconv σ} {need : σ → Str → Nat} (hc : ic.Contract need)
    {src from_ to_ : Str} (hsrc : src ≠ []) (h : RecodeSafe ic src from_ to_)
    (hdash : RecodeSafe ic src (from_.erase 45) to_) : ∃ n dst len,
    charsetRecodeBuf ic n src from_ to_ = some (some (some (dst, len))) ∧ len ≤ dst.length := by
  have hcopy : src.length ≤ src.length := Nat.le_refl _
  have htry : (∀ n, charsetRecodeIconv ic n src from_ to_ = some (some none)) ∨
      ∃ n dst len, charsetRecodeIconv ic n src from_ to_ = some (some (some (dst, len))) ∧
        len ≤ dst.length := by
    rcases recodeSafe_result hc h with herr | ⟨n, dst, len, hok, hle⟩
    · by_cases hd : from_.contains 45 = true
      · rcases recodeSafe_result hc hdash with herr' | ⟨n, dst, len, hok, hle⟩
        · refine Or.inl fun n => ?_
          rw [charsetRecodeIconv, herr n]
          dsimp only
          rw [if_pos hd, herr']
        · refine Or.inr ⟨n, dst, len, ?_, hle⟩
          rw [charsetRecodeIconv, herr n]
          dsimp only
          rw [if_pos hd, hok]
      · refine Or.inl fun n => ?_
        rw [charsetRecodeIconv, herr n]
        dsimp only
        rw [if_neg hd]
    · exact Or.inr ⟨n, dst, len, by rw [charsetRecodeIconv, hok], hle⟩
  by_cases heq : strieq from_ to_ = true
  · exact ⟨0, src, src.length, by rw [charsetRecodeBuf, if_neg hsrc, heq]; rfl, hcopy⟩
  · rw [Bool.not_eq_true] at heq
    rcases htry with herr | ⟨n, dst, len, hok, hle⟩
    · refine ⟨0, src, src.length, ?_, hcopy⟩
      rw [charsetRecodeBuf, if_neg hsrc, heq, Bool.not_false, if_pos rfl, herr 0]
    · refine ⟨n, dst, len, ?_, hle⟩
      rw [charsetRecodeBuf, if_neg hsrc, heq, Bool.not_false, if_pos rfl, hok]

/-! ## From CP1252 to UTF-8 -/

/-- A character of CP1252 in UTF-8, without its bytes from 0x80 to 0x9f. -/
def cp1252Char (c : UInt8) : Option Str :=
  if c < 0x80 then some [c]
  else if c < 0xa0 then none
  else some [(0xc0 : UInt8) ||| c >>> 6, (0x80 : UInt8) ||| c &&& 0x3f]

def cp1252Call : Str → Nat → IconvCall Unit
  | [], _ => ⟨(), 0, [], .done⟩
  | c :: s, room =>
      match cp1252Char c with
      | none => ⟨(), 0, [], .eilseq⟩
      | some o =>
          if room < o.length then ⟨(), 0, [], .e2big⟩
          else
            let r := cp1252Call s (room - o.length)
            ⟨(), r.used + 1, o ++ r.out, r.rc⟩

def cp1252Iconv : Iconv Unit := ⟨fun _ _ => some (), fun _ => cp1252Call, fun _ _ => []⟩

theorem length_cp1252Char {c : UInt8} {o : Str} (h : cp1252Char c = some o) :
    1 ≤ o.length ∧ o.length ≤ 2 := by
  rw [cp1252Char] at h
  split at h
  · cases h
    exact ⟨Nat.le_refl 1, Nat.le_succ 1⟩
  · split at h
    · cases h
    · cases h
      exact ⟨Nat.le_succ 1, Nat.le_refl 2⟩

theorem cp1252Call_spec : ∀ (s : Str) (room : Nat), (cp1252Call s room).used ≤ s.length ∧
    (cp1252Call s room).out.length ≤ room ∧
    ((cp1252Call s room).rc = .done → (cp1252Call s room).used = s.length) ∧
    ((cp1252Call s room).rc ≠ .done → (cp1252Call s room).used < s.length) ∧
    ((cp1252Call s room).rc = .e2big →
      room - (cp1252Call s room).out.length < 2 * (s.length - (cp1252Call s room).used)) ∧
    (cp1252Call s room).out.length ≤ 2 * (cp1252Call s room).used
  | [], room => by simp [cp1252Call]
  | c :: s, room => by
      rw [cp1252Call]
      cases hc : cp1252Char c with
      | none => simp
      | some o =>
          obtain ⟨hpos, hle⟩ := length_cp1252Char hc
          dsimp only
          by_cases hroom : room < o.length
          · rw [if_pos hroom]
            simp
            omega
          · obtain ⟨h1, h2, h3, h4, h5, h6⟩ := cp1252Call_spec s (room - o.length)
            rw [if_neg hroom]
            simp only [List.length_append, List.length_cons]
            refine ⟨by omega, by omega, fun h => ?_, fun h => ?_, fun h => ?_, by omega⟩
            · have := h3 h
              omega
            · have := h4 h
              omega
            · have := h5 h
              omega

theorem cp1252_contract : cp1252Iconv.Contract fun _ s => 2 * s.length where
  used_le _ s room := (cp1252Call_spec s room).1
  out_le _ s room := (cp1252Call_spec s room).2.1
  done _ s room := (cp1252Call_spec s room).2.2.1
  bad _ s room h := by
    refine (cp1252Call_spec s room).2.2.2.1 fun hdone => ?_
    rcases h with h | h <;> exact absurd (hdone.symm.trans h) (by decide)
  full _ s room h := by
    obtain ⟨h1, -, -, -, h5, h6⟩ := cp1252Call_spec s room
    have hlack := h5 h
    rw [List.length_drop]
    change room - (cp1252Call s room).out.length < 2 * (s.length - (cp1252Call s room).used) ∧
      2 * (s.length - (cp1252Call s room).used) + (cp1252Call s room).out.length ≤ 2 * s.length
    omega
  reset_le _ room := Nat.zero_le room

/-- "café" is recoded. -/
theorem recodeSafe_cafe : RecodeSafe cp1252Iconv [99, 97, 102, 0xe9] (lit "CP1252") (lit "UTF-8") :=
  (recodeSafe_iff cp1252_contract _ _ _).mpr (by
    rintro _ - t hr ⟨-, hbad, -⟩
    cases hr with
    | start => rcases hbad with h | h <;> cases h
    | again hstep hr =>
        cases hstep
        cases hr with
        | start => rcases hbad with h | h <;> cases h
        | again hstep _ => cases hstep)

/-- An accented letter fills the buffer, and the byte behind it is no character. -/
theorem recodeSafe_badEnd : ¬ RecodeSafe cp1252Iconv [0xe9, 0x81] (lit "CP1252") (lit "UTF-8") := by
  rintro ⟨⟨n, r, h⟩, -⟩
  cases n with
  | zero => cases h
  | succ n => cases h

end Fidogate

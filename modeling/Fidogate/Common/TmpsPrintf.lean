/-
# `Fidogate.Common.TmpsPrintf` — tmps.c: temporary strings from a format

`tmps_printf` and `s_printf` print into a buffer of TMPS_PRINTF_BUFSIZE bytes,
and are meant to let it grow until the text fits.  They wait for `vsnprintf` to
return ERROR, which it does for a text whose length is no `int` only.
-/
import Fidogate.Common.Packet
import Fidogate.Common.Rfcaddr
import Fidogate.Common.Tmps
import Fidogate.Lib.Buffer

namespace Fidogate

open Bytes Chain

namespace Tmps

/-- `vsnprintf` of a text into `p->s`: as much as fits, and a NUL.  The length
of the text is returned, if it is an `int`. -/
def vsnprintf (t : Tmps) (p : Nat) (text : Str) : Except TmpsStop (Int × Tmps) := do
  let c ← deref (cell t.cells p)
  let b ← deref t.strings[c.val.s]?.join
  let b ← deref (if c.val.len = 0 then some b
    else Buffer.writes b 0 (text.take (c.val.len - 1) ++ [nul]))
  .ok (if text.length ≤ Buffer.INT_MAX then (text.length : Int) else ERROR,
    { t with strings := t.strings.set c.val.s (some b) })

/-- The loop of `tmps_printf` and `s_printf`.  The size of a block doubles in
every turn but the last, and is an `int`: there are at most 24 of them. -/
def printfLoop : Nat → Tmps → Nat → Str → Except TmpsStop Tmps
  | 0, _, _, _ => .error .fault
  | fuel + 1, t, p, text => do
      let (n, t) ← t.vsnprintf p text
      if n = ERROR then
        let c ← deref (cell t.cells p)
        printfLoop fuel (← t.tmpsRealloc p (c.val.len * 2)) p text
      else .ok t

/-- `strlen(p->s)` -/
def strlen (t : Tmps) (p : Nat) : Except TmpsStop Nat := do
  let c ← deref (cell t.cells p)
  let b ← deref t.strings[c.val.s]?.join
  if nul ∈ b then .ok (cstr b).length else .error .fault

/-- `tmps_printf`, where `text` is what the format gives. -/
def tmpsPrintf (t : Tmps) (text : Str) : Except TmpsStop (Nat × Tmps) := do
  let (p, t) ← t.tmpsAlloc TMPS_PRINTF_BUFSIZE
  let t ← printfLoop 24 t p text
  let t ← t.tmpsRealloc p ((← t.strlen p) + 1)
  .ok (p, t)

/-- `s_printf`: the string of the element is returned. -/
def sPrintf (t : Tmps) (text : Str) : Except TmpsStop (Nat × Tmps) := do
  let (p, t) ← t.tmpsAlloc TMPS_PRINTF_BUFSIZE
  let t ← printfLoop 24 t p text
  let t ← t.tmpsRealloc p ((← t.strlen p) + 1)
  let c ← deref (cell t.cells p)
  .ok (c.val.s, t)

/-- What a reader of the string at `s` gets. -/
def read (t : Tmps) (s : Nat) : Option Str := t.strings[s]?.join.map cstr

/-! ## What is printed -/

/-- The element is there, and its string is in this block. -/
structure Element (t : Tmps) (p : Nat) (x : TmpS) (b : Str) : Prop where
  there : ∃ c, cell t.cells p = some c ∧ c.val = x
  block : t.strings[x.s]?.join = some b

section Printf

variable {t : Tmps} {p : Nat} {x : TmpS} {b text : Str}

theorem lt_of_block {l : List (Option Str)} {s : Nat} (hb : l[s]?.join = some b) :
    s < l.length := by
  by_contra hn
  rw [List.getElem?_eq_none (Nat.le_of_not_lt hn)] at hb
  exact absurd hb (by simp)

theorem Element.vsnprintf (he : Element t p x b) (hlen : b.length = x.len) (hpos : 0 < x.len)
    (text : Str) : ∃ t' b', t.vsnprintf p text =
        .ok (if text.length ≤ Buffer.INT_MAX then (text.length : Int) else ERROR, t') ∧
      Element t' p x b' ∧ b'.length = x.len ∧ nul ∈ b' ∧
      cstr b' = cstr (text.take (x.len - 1)) := by
  obtain ⟨⟨c, hc, rfl⟩, hb⟩ := he
  have hfits : 0 + (text.take (c.val.len - 1) ++ [nul]).length ≤ b.length := by
    rw [List.length_append, List.length_take, List.length_singleton]
    omega
  obtain ⟨b', hw, hlen'⟩ := Buffer.exists_writes hfits
  have hb' : b' = text.take (c.val.len - 1) ++
      nul :: b.drop (text.take (c.val.len - 1) ++ [nul]).length := by
    rw [Buffer.writes, if_pos hfits, Nat.zero_add] at hw
    rw [← Option.some.inj hw, List.take_zero, List.nil_append, List.append_assoc,
      List.singleton_append]
  refine ⟨{ t with strings := t.strings.set c.val.s (some b') }, b', ?_, ⟨⟨c, hc, rfl⟩, ?_⟩,
    hlen'.trans hlen, ?_, ?_⟩
  · rw [Tmps.vsnprintf, hc, deref_some]
    change (do let b ← deref t.strings[c.val.s]?.join; _) = _
    rw [hb, deref_some]
    change (do let b ← deref (if c.val.len = 0 then _ else _); _) = _
    rw [if_neg (Nat.ne_of_gt hpos), hw]
    rfl
  · simp [List.getElem?_set_self (lt_of_block hb)]
  · rw [hb']
    exact List.mem_append_right _ List.mem_cons_self
  · rw [hb', Buffer.cstr_append_nul_eq]

theorem xrealloc_refused {l : List (Option Str)} {s size : Nat} (hb : l[s]?.join = some b)
    (hneg : Negative size) : xrealloc l s size = .error exhausted := by
  rw [xrealloc, hb, deref_some]
  exact if_pos (.inl hneg)

theorem xrealloc_fits {l : List (Option Str)} {s size : Nat} (hb : l[s]?.join = some b)
    (hneg : ¬ Negative size) (hpos : 0 < size) (hlt : size < 2 ^ 32) :
    xrealloc l s size = .ok (l.length,
      l.set s none ++ [some (b.take size ++ List.replicate (size - b.length) nul)]) := by
  rw [xrealloc, hb, deref_some, Nat.mod_eq_of_lt hlt]
  exact if_neg (not_or.mpr ⟨hneg, Nat.ne_of_gt hpos⟩)

theorem Element.tmpsRealloc_refused (he : Element t p x b) {len : Nat} (hneg : Negative len) :
    t.tmpsRealloc p len = .error exhausted := by
  obtain ⟨⟨c, hc, rfl⟩, hb⟩ := he
  rw [tmpsRealloc, hc, deref_some]
  change (do let r ← xrealloc t.strings c.val.s len; _) = _
  rw [xrealloc_refused hb hneg]
  rfl

theorem Element.tmpsRealloc_fits (he : Element t p x b) {len : Nat} (hneg : ¬ Negative len)
    (hpos : 0 < len) (hlt : len < 2 ^ 32) : ∃ t' s, t.tmpsRealloc p len = .ok t' ∧
      Element t' p ⟨s, len⟩ (b.take len ++ List.replicate (len - b.length) nul) := by
  obtain ⟨⟨c, hc, rfl⟩, hb⟩ := he
  refine ⟨⟨write t.cells p (some { c with val := ⟨t.strings.length, len⟩ }),
      t.strings.set c.val.s none ++ [some (b.take len ++ List.replicate (len - b.length) nul)],
      t.list, t.last⟩,
    t.strings.length, ?_, ⟨⟨_, cell_write_self (lt_of_cell hc) _, rfl⟩, ?_⟩⟩
  · rw [tmpsRealloc, hc, deref_some]
    change (do let r ← xrealloc t.strings c.val.s len; _) = _
    rw [xrealloc_fits hb hneg hpos hlt]
    rfl
  · simp

/-- What `strlen` counts, if a NUL is there. -/
theorem Element.strlen (he : Element t p x b) (hb : nul ∈ b) :
    t.strlen p = .ok (cstr b).length := by
  obtain ⟨⟨c, hc, rfl⟩, hblock⟩ := he
  rw [Tmps.strlen, hc, deref_some]
  change (do let b ← deref t.strings[c.val.s]?.join; _) = _
  rw [hblock, deref_some]
  exact if_pos hb

theorem printfLoop_turn {n : Int} {t1 : Tmps} (heq : t.vsnprintf p text = .ok (n, t1))
    (fuel : Nat) : printfLoop (fuel + 1) t p text =
      if n = ERROR then do
        let c ← deref (cell t1.cells p)
        printfLoop fuel (← t1.tmpsRealloc p (c.val.len * 2)) p text
      else .ok t1 := by
  rw [printfLoop, heq]
  rfl

/-- A text whose length is no `int` makes the buffer grow until there is no
more memory. -/
theorem printfLoop_exhausted (htext : Buffer.INT_MAX < text.length) :
    ∀ {fuel : Nat} {t : Tmps} {x : TmpS} {b : Str}, Element t p x b → b.length = x.len →
      0 < x.len → x.len < 2 ^ 31 → 2 ^ 31 ≤ x.len * 2 ^ fuel →
      printfLoop fuel t p text = .error exhausted := by
  intro fuel
  induction fuel with
  | zero =>
      intro t x b _ _ _ hlt hle
      omega
  | succ fuel ih =>
      intro t x b he hlen hpos hlt hle
      obtain ⟨t1, b1, heq, he1, hlen1, -, -⟩ := he.vsnprintf hlen hpos text
      obtain ⟨c, hc, hcx⟩ := he1.there
      rw [if_neg (Nat.not_le.mpr htext)] at heq
      rw [printfLoop_turn heq, if_pos rfl, hc, deref_some]
      change (do let t ← t1.tmpsRealloc p (c.val.len * 2); _) = _
      rw [hcx]
      by_cases hneg : Negative (x.len * 2)
      · rw [he1.tmpsRealloc_refused hneg]
        rfl
      · have hlt2 : x.len * 2 < 2 ^ 31 := by
          rw [Negative, Nat.mod_eq_of_lt (by omega)] at hneg
          exact Nat.lt_of_not_le hneg
        obtain ⟨t2, s, heq2, he2⟩ := he1.tmpsRealloc_fits hneg (by omega) (by omega)
        rw [heq2]
        refine ih he2 ?_ (by simpa using hpos) hlt2 ?_
        · rw [List.length_append, List.length_take, List.length_replicate, hlen1]
          change min (x.len * 2) x.len + (x.len * 2 - x.len) = x.len * 2
          omega
        · calc 2 ^ 31 ≤ x.len * 2 ^ (fuel + 1) := hle
            _ = x.len * 2 * 2 ^ fuel := by rw [Nat.pow_succ' (n := fuel), Nat.mul_assoc]

/-- What the loop and the last `tmps_realloc` leave: the text as far as it fits
into the first buffer, up to a NUL in it. -/
theorem Element.printf (he : Element t p x b) (hlen : b.length = x.len) (hpos : 0 < x.len)
    (hlt : x.len < 2 ^ 31) (htext : text.length ≤ Buffer.INT_MAX) (fuel : Nat) :
    ∃ t1 n t' x' b', printfLoop (fuel + 1) t p text = .ok t1 ∧ t1.strlen p = .ok n ∧
      t1.tmpsRealloc p (n + 1) = .ok t' ∧ Element t' p x' b' ∧
      cstr b' = cstr (text.take (x.len - 1)) := by
  obtain ⟨t1, b1, heq, he1, hlen1, hnul, hstr⟩ := he.vsnprintf hlen hpos text
  have hne : (text.length : Int) ≠ ERROR := by
    rw [ERROR]
    omega
  have hshort : (cstr b1).length + 1 ≤ x.len := by
    rw [hstr]
    have := (List.takeWhile_prefix (· != nul) (l := text.take (x.len - 1))).length_le
    rw [List.length_take] at this
    change (List.takeWhile _ _).length + 1 ≤ _
    omega
  have hneg : ¬ Negative ((cstr b1).length + 1) := by
    rw [Negative, Nat.mod_eq_of_lt (by omega)]
    omega
  obtain ⟨t', s, heq', he'⟩ := he1.tmpsRealloc_fits hneg (Nat.succ_pos _) (by omega)
  refine ⟨t1, _, t', _, _, ?_, he1.strlen hnul, heq', he', ?_⟩
  · rw [if_pos htext] at heq
    rw [printfLoop_turn heq, if_neg hne]
  · rw [hlen1, Nat.sub_eq_zero_of_le hshort, List.replicate_zero, List.append_nil,
      Buffer.cstr_take hnul, hstr]

/-- A list that can take one more gives the first buffer. -/
theorem Usable.tmpsAlloc (hu : t.Usable) {len : Nat} (hneg : ¬ Negative len)
    (hlen : len < 2 ^ 32) : ∃ t', t.tmpsAlloc len = .ok (t.cells.length, t') ∧
      Element t' t.cells.length ⟨t.strings.length, len⟩ (List.replicate len nul) := by
  have hblock : (t.newStrings len)[t.strings.length]?.join = some (List.replicate len nul) := by
    rw [newStrings, List.getElem?_concat_length]
    rfl
  have hnew : cell (t.newCells len) t.cells.length = some ⟨⟨t.strings.length, len⟩, none, none⟩ :=
    cell_alloc_self _ _
  cases hl : t.list with
  | none => exact ⟨_, tmpsAlloc_first hneg hlen hl, ⟨_, hnew, rfl⟩, hblock⟩
  | some f =>
      obtain ⟨z, hz, hc⟩ := hu.resolve_left (by rw [hl]; exact Option.some_ne_none f)
      obtain ⟨c, hc⟩ := Option.isSome_iff_exists.mp hc
      have hnew := (cell_write_ne (Nat.ne_of_gt (lt_of_cell hc))
        (some { c with next := some t.cells.length })).trans hnew
      exact ⟨_, tmpsAlloc_more hneg hlen hl hz hc, ⟨_, hnew, rfl⟩, hblock⟩

theorem tmpsAlloc_unusable (hu : ¬ t.Usable) {len : Nat} (hneg : ¬ Negative len)
    (hlen : len < 2 ^ 32) : t.tmpsAlloc len = .error .fault := by
  have hmod : len % 2 ^ 32 = len := Nat.mod_eq_of_lt hlen
  obtain ⟨hlist, hlast⟩ := not_or.mp hu
  obtain ⟨f, hf⟩ := Option.ne_none_iff_exists'.mp hlist
  rw [tmpsAlloc, xmalloc, if_neg hneg, hmod]
  change (if len < len then _ else _) = _
  rw [if_neg (Nat.lt_irrefl len), hf]
  change (do let z ← deref t.last; _) = _
  cases hz : t.last with
  | none => rfl
  | some z =>
      have hcz : cell t.cells z = none :=
        Option.not_isSome_iff_eq_none.mp fun h => hlast ⟨z, hz, h⟩
      change (do let cells ← deref (setNext t.cells z _); _) = _
      rw [setNext, hcz]
      rfl

/-- What a reader of the string of an element gets. -/
def readTmps (t : Tmps) (p : Nat) : Option Str := (cell t.cells p).bind fun c => t.read c.val.s

theorem Element.readTmps (he : Element t p x b) :
    t.readTmps p = some (cstr b) ∧ t.read x.s = some (cstr b) := by
  obtain ⟨⟨c, hc, rfl⟩, hb⟩ := he
  have hread : t.read c.val.s = some (cstr b) := by
    rw [read, hb, Option.map_some]
  refine ⟨?_, hread⟩
  rw [Tmps.readTmps, hc, Option.bind_some, hread]

theorem printf_bufsize : ¬ Negative TMPS_PRINTF_BUFSIZE ∧ 0 < TMPS_PRINTF_BUFSIZE ∧
    TMPS_PRINTF_BUFSIZE < 2 ^ 31 ∧ TMPS_PRINTF_BUFSIZE < 2 ^ 32 := by decide

/-- `s_printf` does what `tmps_printf` does, and returns the string. -/
theorem sPrintf_eq (t : Tmps) (text : Str) :
    t.sPrintf text = (t.tmpsPrintf text).bind fun r =>
      (deref (cell r.2.cells r.1)).bind fun c => .ok (c.val.s, r.2) := by
  change _ = t.tmpsPrintf text >>= fun r => deref (cell r.2.cells r.1) >>= fun c =>
    .ok (c.val.s, r.2)
  rw [sPrintf, tmpsPrintf, bind_assoc]
  refine bind_congr fun r => ?_
  rw [bind_assoc]
  refine bind_congr fun t1 => ?_
  rw [bind_assoc]
  refine bind_congr fun n => ?_
  rw [bind_assoc]
  rfl

/-- What `tmps_printf` and `s_printf` return, if the text has a length. -/
theorem Usable.printf (hu : t.Usable) (htext : text.length ≤ Buffer.INT_MAX) :
    (∃ p t', t.tmpsPrintf text = .ok (p, t') ∧
      t'.readTmps p = some (cstr (Fidogate.sPrintf text))) ∧
    ∃ s t', t.sPrintf text = .ok (s, t') ∧ t'.read s = some (cstr (Fidogate.sPrintf text)) := by
  obtain ⟨hneg, hpos, hint, hlen⟩ := printf_bufsize
  obtain ⟨t0, halloc, he⟩ := hu.tmpsAlloc hneg hlen
  obtain ⟨t1, n, t', x', b', hloop, hstrlen, hreal, he', hstr⟩ :=
    he.printf (List.length_replicate ..) hpos hint htext 23
  obtain ⟨hp, hs⟩ := he'.readTmps
  obtain ⟨c, hc, rfl⟩ := he'.there
  have hcut : cstr b' = cstr (Fidogate.sPrintf text) := hstr
  rw [hcut] at hp hs
  have heq : t.tmpsPrintf text = .ok (t.cells.length, t') := by
    rw [tmpsPrintf, halloc]
    change (do let t ← printfLoop 24 t0 t.cells.length text; _) = _
    rw [hloop]
    change (do let n ← t1.strlen t.cells.length; _) = _
    rw [hstrlen]
    change (do let t' ← t1.tmpsRealloc t.cells.length (n + 1); _) = _
    rw [hreal]
    rfl
  refine ⟨⟨_, t', heq, hp⟩, ⟨_, t', ?_, hs⟩⟩
  rw [sPrintf_eq, heq]
  change (deref (cell t'.cells t.cells.length)).bind _ = _
  rw [hc]
  rfl

/-- Where the first buffer cannot be had, or the text has no length, the
program ends. -/
theorem printf_error (h : ¬ (t.Usable ∧ text.length ≤ Buffer.INT_MAX)) :
    ∃ e, t.tmpsPrintf text = .error e ∧ t.sPrintf text = .error e := by
  obtain ⟨hneg, hpos, hint, hlen⟩ := printf_bufsize
  obtain ⟨e, heq⟩ : ∃ e, t.tmpsPrintf text = .error e := by
    by_cases hu : t.Usable
    · obtain ⟨t0, halloc, he⟩ := hu.tmpsAlloc hneg hlen
      have htext : Buffer.INT_MAX < text.length := Nat.lt_of_not_le fun hle => h ⟨hu, hle⟩
      have hgrow : 2 ^ 31 ≤ TMPS_PRINTF_BUFSIZE * 2 ^ 24 := by decide
      have hloop : printfLoop 24 t0 t.cells.length text = .error exhausted :=
        printfLoop_exhausted htext he (List.length_replicate ..) hpos hint hgrow
      refine ⟨exhausted, ?_⟩
      rw [tmpsPrintf, halloc]
      change (do let t ← printfLoop 24 t0 t.cells.length text; _) = _
      rw [hloop]
      rfl
    · refine ⟨.fault, ?_⟩
      rw [tmpsPrintf, tmpsAlloc_unusable hu hneg hlen]
      rfl
  refine ⟨e, heq, ?_⟩
  rw [sPrintf_eq, heq]
  rfl

theorem cstr_sPrintf_iff : cstr (Fidogate.sPrintf text) = text ↔
    text.length < TMPS_PRINTF_BUFSIZE ∧ nul ∉ text := by
  constructor
  · intro h
    have hle : text.length ≤ (Fidogate.sPrintf text).length :=
      (congrArg List.length h.symm).le.trans (List.takeWhile_prefix _).length_le
    obtain ⟨hlt, heq⟩ := sPrintf_of_le hle
    rw [heq] at h
    exact ⟨hlt, Buffer.cstr_eq_self_iff.mp h⟩
  · rintro ⟨hlt, hnul⟩
    rw [Fidogate.sPrintf, bufCopy_of_lt hlt, Buffer.cstr_eq_self_iff.mpr hnul]

/-- The whole text is returned exactly when it fits into the first buffer and
has no NUL in it, and the list of strings can take one more. -/
theorem printf_whole_iff (t : Tmps) (text : Str) :
    ((∃ p t', t.tmpsPrintf text = .ok (p, t') ∧ t'.readTmps p = some text) ↔
      t.Usable ∧ text.length < TMPS_PRINTF_BUFSIZE ∧ nul ∉ text) ∧
    ((∃ s t', t.sPrintf text = .ok (s, t') ∧ t'.read s = some text) ↔
      t.Usable ∧ text.length < TMPS_PRINTF_BUFSIZE ∧ nul ∉ text) := by
  by_cases h : t.Usable ∧ text.length ≤ Buffer.INT_MAX
  · obtain ⟨⟨p, t1, hp, hp'⟩, ⟨s, t2, hs, hs'⟩⟩ := h.1.printf h.2
    rw [← cstr_sPrintf_iff, hp, hs]
    refine ⟨⟨?_, ?_⟩, ⟨?_, ?_⟩⟩
    · rintro ⟨p', t', heq, hread⟩
      cases heq
      exact ⟨h.1, Option.some.inj (hp'.symm.trans hread)⟩
    · rintro ⟨-, heq⟩
      exact ⟨p, t1, rfl, hp'.trans (congrArg some heq)⟩
    · rintro ⟨s', t', heq, hread⟩
      cases heq
      exact ⟨h.1, Option.some.inj (hs'.symm.trans hread)⟩
    · rintro ⟨-, heq⟩
      exact ⟨s, t2, rfl, hs'.trans (congrArg some heq)⟩
  · obtain ⟨e, hp, hs⟩ := printf_error h
    have hno : ¬ (t.Usable ∧ text.length < TMPS_PRINTF_BUFSIZE ∧ nul ∉ text) := by
      rintro ⟨hu, hlt, -⟩
      exact h ⟨hu, Nat.le_trans (Nat.le_of_lt hlt) (by decide)⟩
    rw [hp, hs]
    exact ⟨iff_of_false (fun ⟨_, _, heq, _⟩ => nomatch heq) hno,
      iff_of_false (fun ⟨_, _, heq, _⟩ => nomatch heq) hno⟩

/-- One byte too many, in a program that has no temporary string yet. -/
theorem printf_cut :
    ¬ ∀ (t : Tmps) (as : List (Nat × TmpS)) (text : Str), t.Holds as → nul ∉ text →
      (∃ p t', t.tmpsPrintf text = .ok (p, t') ∧ t'.readTmps p = some text) ∧
        ∃ s t', t.sPrintf text = .ok (s, t') ∧ t'.read s = some text := by
  intro h
  have hlen : (List.replicate 128 (97 : UInt8)).length = 128 := List.length_replicate
  have hnul : nul ∉ List.replicate 128 (97 : UInt8) := fun hm =>
    absurd (List.eq_of_mem_replicate hm) (by decide)
  obtain ⟨-, s, t', heq, hread⟩ := h _ [] _ holds_nil hnul
  obtain ⟨-, s', t'', heq', hread'⟩ := holds_nil.usable.printf (hlen.trans_le (by decide))
  rw [heq] at heq'
  cases heq'
  have hcut := Option.some.inj (hread.symm.trans hread')
  exact absurd (hlen.symm.trans_lt (cstr_sPrintf_iff.mp hcut.symm).1) (by decide)

end Printf

end Tmps

end Fidogate

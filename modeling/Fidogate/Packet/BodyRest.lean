/-
# `Fidogate.Packet.BodyRest` — the rest of a body, line by line

The stage of `pkt_get_body_parse` behind the RFC header lines sorts text,
tear and origin lines, SEEN-BY, PATH and Via.  A tear or an origin line waits
until it is known not to be text.  `BodyStep` lists what one line can do;
every property of the whole rest is an induction over it (`bodyRun_induct`).
-/
import Mathlib.Data.List.Induction
import Fidogate.Common.Message

namespace Fidogate

open Bytes
open scoped List

/-! ## The classes of lines -/

theorem head_of_hasPrefix {c : UInt8} {p l : Str} (h : hasPrefix (c :: p) l = true) :
    l.head? = some c := by
  obtain ⟨t, rfl⟩ := hasPrefix_iff.mp h
  rfl

theorem head_isTearLine {l : Str} (h : isTearLine l = true) : l.head? = some 45 := by
  rw [isTearLine, Bool.and_eq_true] at h
  exact head_of_hasPrefix h.1

theorem head_isOriginLine {l : Str} (h : isOriginLine l = true) : l.head? = some 32 :=
  head_of_hasPrefix h

theorem head_isPathLine {l : Str} (h : isPathLine l = true) : l.head? = some 1 :=
  head_of_hasPrefix h

theorem head_isSeenbyLine {l : Str} (h : isSeenbyLine l = true) : l.head? = some 83 :=
  head_of_hasPrefix h

theorem head_isViaLine {l : Str} (h : isViaLine l = true) : l.head? = some 1 := by
  rw [isViaLine, Bool.or_eq_true] at h
  rcases h with h | h
  · exact head_of_hasPrefix h
  · exact head_of_hasPrefix h

theorem head_isAreaLine {l : Str} (h : isAreaLine l = true) : l.head? = some 65 :=
  head_of_hasPrefix h

/-- A class is told from another by its first byte. -/
theorem not_of_head {f : Str → Bool} {c d : UInt8} (hf : ∀ {l}, f l = true → l.head? = some d)
    (hcd : c ≠ d) {l : Str} (hl : l.head? = some c) : f l = false := by
  rw [Bool.eq_false_iff]
  intro h
  rw [hf h] at hl
  exact hcd (Option.some.inj hl).symm

/-- The first bytes of the RFC header lines, whatever their case. -/
def rfcInitials : List UInt8 := (rfcHeaders.filterMap List.head?).map toLower

theorem head_rfcMatches {l : Str} (h : rfcMatches l ≠ []) :
    ∃ c, l.head? = some c ∧ toLower c ∈ rfcInitials := by
  obtain ⟨hd, hmem⟩ : ∃ hd, hd ∈ rfcHeaders.filter (hasPrefixI · l) := by
    apply List.exists_mem_of_ne_nil
    intro e
    exact h (by rw [rfcMatches, e, List.map_nil])
  obtain ⟨hin, hpre⟩ := List.mem_filter.mp hmem
  have hne : hd ≠ [] := by
    intro e
    rw [e] at hin
    exact absurd hin (by decide)
  obtain ⟨d, ds, rfl⟩ := List.exists_cons_of_ne_nil hne
  cases l with
  | nil => simp [hasPrefixI] at hpre
  | cons c cs =>
      refine ⟨c, rfl, ?_⟩
      simp only [hasPrefixI, List.map_cons, List.isPrefixOf_cons_cons, Bool.and_eq_true,
        beq_iff_eq] at hpre
      rw [← hpre.1]
      exact List.mem_map_of_mem (List.mem_filterMap.mpr ⟨_, hin, rfl⟩)

theorem rfcMatches_of_head {l : Str} {c : UInt8} (hl : l.head? = some c)
    (hc : toLower c ∉ rfcInitials) : rfcMatches l = [] := by
  by_contra h
  obtain ⟨d, hd, hin⟩ := head_rfcMatches h
  rw [hl] at hd
  exact hc (Option.some.inj hd ▸ hin)

/-! ## One line of the rest -/

/-- The control lines that a body state sets aside whatever came before. -/
def isControlLine (echo : Bool) (l : Str) : Bool :=
  (echo && (isPathLine l || isSeenbyLine l)) || (!echo && isViaLine l)

/-- The line is taken for text. -/
structure FallsThrough (echo : Bool) (st : ParseState) (l : Str) : Prop where
  tear : isTearLine l = true → st.msg.tear ≠ none
  origin : isOriginLine l = true → st.msg.origin ≠ none
  control : isControlLine echo l = false

/-- What a line of the rest can do. -/
inductive BodyStep (echo : Bool) (st : ParseState) (l : Str) : ParseState → Prop
  | tear : isTearLine l = true → st.msg.tear = none →
      BodyStep echo st l
        { st with msg := { st.msg with tear := some l }, foundTear := true }
  | origin : isOriginLine l = true → st.msg.origin = none →
      BodyStep echo st l
        { st with msg := { st.msg with origin := some l }, foundOrigin := true }
  | path : echo = true → isPathLine l = true →
      BodyStep echo st l
        { st with msg := { st.msg with path := st.msg.path ++ [l] }, foundKludge := true }
  | seenby : echo = true → isSeenbyLine l = true →
      BodyStep echo st l
        { st with msg := { st.msg with seenby := st.msg.seenby ++ [l] }, foundKludge := true }
  | via : echo = false → isViaLine l = true →
      BodyStep echo st l
        { st with msg := { st.msg with via := st.msg.via ++ [l] }, foundKludge := true }
  | text : FallsThrough echo st l →
      st.foundKludge = false → st.foundOrigin = false → st.foundTear = false →
      BodyStep echo st l { st with msg := { st.msg with body := st.msg.body ++ [l] } }
  | afterTear : FallsThrough echo st l → st.foundTear = true →
      BodyStep echo st l
        { st with
          msg := { st.msg with body := st.msg.body ++ st.msg.tear.toList ++ [l], tear := none }
          foundTear := false }
  | afterOrigin : FallsThrough echo st l → st.foundTear = false → st.foundOrigin = true →
      BodyStep echo st l
        { st with
          msg := { st.msg with body := st.msg.body ++ st.msg.origin.toList ++ [l], origin := none }
          foundOrigin := false }
  | lost : FallsThrough echo st l →
      st.foundKludge = true → st.foundOrigin = false → st.foundTear = false →
      BodyStep echo st l st

theorem bodyText_step {echo : Bool} {st : ParseState} {l : Str} (hf : FallsThrough echo st l) :
    BodyStep echo st l (bodyText st l) := by
  unfold bodyText
  split
  · rename_i h
    simp only [Bool.and_eq_true, Bool.not_eq_true'] at h
    exact .text hf h.1.1 h.1.2 h.2
  rename_i h
  split
  · rename_i ht
    exact .afterTear hf ht
  rename_i ht
  split
  · rename_i ho
    exact .afterOrigin hf (Bool.not_eq_true _ ▸ ht) ho
  · rename_i ho
    rw [Bool.not_eq_true] at ht ho
    exact .lost hf (by simpa [ht, ho] using h) ho ht

theorem bodyLine_step (echo : Bool) (st : ParseState) (l : Str) :
    BodyStep echo st l (bodyLine echo st l) := by
  unfold bodyLine
  split
  · rename_i h
    simp only [Bool.and_eq_true, Option.isNone_iff_eq_none] at h
    exact .tear h.1 h.2
  rename_i h1
  split
  · rename_i h
    simp only [Bool.and_eq_true, Option.isNone_iff_eq_none] at h
    exact .origin h.1 h.2
  rename_i h2
  split
  · rename_i h
    exact .path (Bool.and_eq_true _ _ ▸ h).1 (Bool.and_eq_true _ _ ▸ h).2
  rename_i h3
  split
  · rename_i h
    exact .seenby (Bool.and_eq_true _ _ ▸ h).1 (Bool.and_eq_true _ _ ▸ h).2
  rename_i h4
  split
  · rename_i h
    simp only [Bool.and_eq_true, Bool.not_eq_true'] at h
    exact .via h.1 h.2
  · rename_i h5
    refine bodyText_step ⟨?_, ?_, ?_⟩
    · intro ht hn
      exact h1 (by simp [ht, hn])
    · intro ho hn
      exact h2 (by simp [ho, hn])
    · cases echo <;> simp_all [isControlLine]

/-! ## The rest as a whole -/

def bodyRun (echo : Bool) (st : ParseState) (ls : List Str) : ParseState :=
  ls.foldl (bodyLine echo) st

/-- What holds of the state in front of the rest and is kept by every line
holds behind it. -/
theorem bodyRun_induct {echo : Bool} {c : ParseState} {P : ParseState → List Str → Prop}
    (h0 : P c [])
    (step : ∀ seen l st', P (bodyRun echo c seen) seen →
      BodyStep echo (bodyRun echo c seen) l st' → P st' (seen ++ [l]))
    (ls : List Str) : P (bodyRun echo c ls) ls := by
  induction ls using List.reverseRecOn with
  | nil => exact h0
  | append_singleton ls l ih =>
      have h := step ls l _ ih (bodyLine_step echo _ l)
      rwa [bodyRun, List.foldl_append]

/-- Text that is dropped: behind a control line, with no tear or origin line
waiting. -/
def loses (echo : Bool) (st : ParseState) (l : Str) : Bool :=
  st.foundKludge && !st.foundOrigin && !st.foundTear && !isTearLine l && !isOriginLine l &&
    !isControlLine echo l

def lostLines (echo : Bool) : ParseState → List Str → List Str
  | _, [] => []
  | st, l :: ls =>
      (if loses echo st l then [l] else []) ++ lostLines echo (bodyLine echo st l) ls

theorem lostLines_append (echo : Bool) (l : Str) : ∀ (ls : List Str) (st : ParseState),
    lostLines echo st (ls ++ [l]) =
      lostLines echo st ls ++ (if loses echo (bodyRun echo st ls) l then [l] else [])
  | [], st => by
      rw [List.nil_append, lostLines, lostLines, lostLines, List.append_nil, List.nil_append]
      rfl
  | l' :: ls, st => by
      have ih := lostLines_append echo l ls (bodyLine echo st l')
      rw [List.cons_append, lostLines, ih, lostLines, List.append_assoc]
      rfl

/-- A state in front of the rest. -/
structure Clean (c : ParseState) : Prop where
  body : c.msg.body = []
  tear : c.msg.tear = none
  origin : c.msg.origin = none
  seenby : c.msg.seenby = []
  path : c.msg.path = []
  via : c.msg.via = []
  foundKludge : c.foundKludge = false
  foundOrigin : c.foundOrigin = false
  foundTear : c.foundTear = false

/-- The lines of a `MsgBody` that come from the rest. -/
def MsgBody.rest (m : MsgBody) : List Str :=
  m.body ++ m.tear.toList ++ m.origin.toList ++ m.seenby ++ m.path ++ m.via

section Rest

variable {echo : Bool} {c : ParseState}

/-- The two flags say which of the two lines waits. -/
structure Flags (st : ParseState) : Prop where
  tear : st.foundTear = st.msg.tear.isSome
  origin : st.foundOrigin = st.msg.origin.isSome

theorem flags_step {st st' : ParseState} {l : Str} (h : Flags st) (hs : BodyStep echo st l st') :
    Flags st' := by
  cases hs with
  | tear => exact ⟨rfl, h.origin⟩
  | origin => exact ⟨h.tear, rfl⟩
  | path => exact ⟨h.tear, h.origin⟩
  | seenby => exact ⟨h.tear, h.origin⟩
  | via => exact ⟨h.tear, h.origin⟩
  | text => exact ⟨h.tear, h.origin⟩
  | afterTear => exact ⟨rfl, h.origin⟩
  | afterOrigin => exact ⟨h.tear, rfl⟩
  | lost => exact h

theorem Clean.flags (h : Clean c) : Flags c :=
  ⟨by rw [h.foundTear, h.tear]; rfl, by rw [h.foundOrigin, h.origin]; rfl⟩

theorem Clean.rest (h : Clean c) : c.msg.rest = [] := by
  simp [MsgBody.rest, h.body, h.tear, h.origin, h.seenby, h.path, h.via]

theorem bodyRun_flags (hc : Clean c) (ls : List Str) : Flags (bodyRun echo c ls) :=
  bodyRun_induct (P := fun st _ => Flags st) hc.flags (fun _ _ _ h hs => flags_step h hs) ls

/-- A line is kept once, or it is dropped. -/
theorem rest_step {st st' : ParseState} {l : Str} (h : Flags st) (hs : BodyStep echo st l st') :
    (st'.msg.rest ++ if loses echo st l then [l] else []).Perm (st.msg.rest ++ [l]) := by
  have move : ∀ (xs ys : List Str), (xs ++ [l] ++ ys).Perm (xs ++ ys ++ [l]) := by
    intro xs ys
    rw [List.append_assoc, List.append_assoc]
    exact List.Perm.append_left xs List.perm_append_comm
  cases hs with
  | tear ht hn =>
      have hl : loses echo st l = false := by simp [loses, ht]
      simpa [MsgBody.rest, hn, hl] using
        move st.msg.body (st.msg.origin.toList ++ st.msg.seenby ++ st.msg.path ++ st.msg.via)
  | origin ho hn =>
      have hl : loses echo st l = false := by simp [loses, ho]
      simpa [MsgBody.rest, hn, hl] using
        move (st.msg.body ++ st.msg.tear.toList) (st.msg.seenby ++ st.msg.path ++ st.msg.via)
  | path he hp =>
      have hl : loses echo st l = false := by simp [loses, isControlLine, he, hp]
      simpa [MsgBody.rest, hl] using
        move (st.msg.body ++ st.msg.tear.toList ++ st.msg.origin.toList ++ st.msg.seenby ++
          st.msg.path) st.msg.via
  | seenby he hp =>
      have hl : loses echo st l = false := by simp [loses, isControlLine, he, hp]
      simpa [MsgBody.rest, hl] using
        move (st.msg.body ++ st.msg.tear.toList ++ st.msg.origin.toList ++ st.msg.seenby)
          (st.msg.path ++ st.msg.via)
  | via he hp =>
      have hl : loses echo st l = false := by simp [loses, isControlLine, he, hp]
      simp [MsgBody.rest, hl]
  | text _ hk _ _ =>
      have hl : loses echo st l = false := by simp [loses, hk]
      simpa [MsgBody.rest, hl] using
        move st.msg.body (st.msg.tear.toList ++ st.msg.origin.toList ++ st.msg.seenby ++
          st.msg.path ++ st.msg.via)
  | afterTear _ ht =>
      have hl : loses echo st l = false := by simp [loses, ht]
      simpa [MsgBody.rest, hl] using
        move (st.msg.body ++ st.msg.tear.toList) (st.msg.origin.toList ++ st.msg.seenby ++
          st.msg.path ++ st.msg.via)
  | afterOrigin _ ht ho =>
      have hl : loses echo st l = false := by simp [loses, ho]
      have hn : st.msg.tear = none := by simpa [ht] using h.tear.symm
      simpa [MsgBody.rest, hl, hn] using
        move (st.msg.body ++ st.msg.origin.toList) (st.msg.seenby ++ st.msg.path ++ st.msg.via)
  | lost hf hk ho ht =>
      have hnt : st.msg.tear = none := by simpa [ht] using h.tear.symm
      have hno : st.msg.origin = none := by simpa [ho] using h.origin.symm
      have h1 : isTearLine l = false := Bool.eq_false_iff.mpr fun e => hf.tear e hnt
      have h2 : isOriginLine l = false := Bool.eq_false_iff.mpr fun e => hf.origin e hno
      have hl : loses echo st l = true := by simp [loses, hk, ho, ht, h1, h2, hf.control]
      simp [hl]

/-- Every line of the rest is in the result once, or it is dropped. -/
theorem bodyRun_perm (hc : Clean c) (ls : List Str) :
    ((bodyRun echo c ls).msg.rest ++ lostLines echo c ls).Perm ls := by
  refine bodyRun_induct
    (P := fun st seen => (st.msg.rest ++ lostLines echo c seen).Perm seen) ?_ ?_ ls
  · simp [hc.rest, lostLines]
  · intro seen l st' hp hs
    have h1 := rest_step (bodyRun_flags hc seen) hs
    rw [lostLines_append]
    calc
      st'.msg.rest ++ (lostLines echo c seen ++
            if loses echo (bodyRun echo c seen) l = true then [l] else [])
        ~ (st'.msg.rest ++ if loses echo (bodyRun echo c seen) l = true then [l] else []) ++
            lostLines echo c seen := by
          rw [List.append_assoc]
          exact List.Perm.append_left _ List.perm_append_comm
      _ ~ ((bodyRun echo c seen).msg.rest ++ [l]) ++ lostLines echo c seen := h1.append_right _
      _ ~ ((bodyRun echo c seen).msg.rest ++ lostLines echo c seen) ++ [l] := by
          rw [List.append_assoc, List.append_assoc]
          exact List.Perm.append_left _ List.perm_append_comm
      _ ~ seen ++ [l] := hp.append_right _

/-- What the pending lines and the control lists hold. -/
structure Kinds (echo : Bool) (m : MsgBody) : Prop where
  tear : ∀ l ∈ m.tear, isTearLine l = true
  origin : ∀ l ∈ m.origin, isOriginLine l = true
  seenby : ∀ l ∈ m.seenby, isSeenbyLine l = true
  path : ∀ l ∈ m.path, isPathLine l = true
  via : ∀ l ∈ m.via, isViaLine l = true
  echo_via : echo = true → m.via = []
  net_path : echo = false → m.seenby = [] ∧ m.path = []

theorem forall_mem_snoc {f : Str → Bool} {ls : List Str} {l : Str} (h : ∀ x ∈ ls, f x = true)
    (hl : f l = true) : ∀ x ∈ ls ++ [l], f x = true := by
  intro x hx
  rcases List.mem_append.mp hx with hx | hx
  · exact h x hx
  · exact List.mem_singleton.mp hx ▸ hl

theorem kinds_step {st st' : ParseState} {l : Str} (h : Kinds echo st.msg)
    (hs : BodyStep echo st l st') : Kinds echo st'.msg := by
  cases hs with
  | tear ht =>
      exact ⟨fun x hx => Option.some.inj hx ▸ ht, h.origin, h.seenby, h.path, h.via, h.echo_via,
        h.net_path⟩
  | origin ho =>
      exact ⟨h.tear, fun x hx => Option.some.inj hx ▸ ho, h.seenby, h.path, h.via, h.echo_via,
        h.net_path⟩
  | path he hp =>
      exact ⟨h.tear, h.origin, h.seenby, forall_mem_snoc h.path hp, h.via, h.echo_via,
        fun hn => absurd (he.symm.trans hn) (by decide)⟩
  | seenby he hp =>
      exact ⟨h.tear, h.origin, forall_mem_snoc h.seenby hp, h.path, h.via, h.echo_via,
        fun hn => absurd (he.symm.trans hn) (by decide)⟩
  | via he hp =>
      exact ⟨h.tear, h.origin, h.seenby, h.path, forall_mem_snoc h.via hp,
        fun hn => absurd (he.symm.trans hn) (by decide), h.net_path⟩
  | text => exact ⟨h.tear, h.origin, h.seenby, h.path, h.via, h.echo_via, h.net_path⟩
  | afterTear =>
      exact ⟨fun x hx => (by cases hx), h.origin, h.seenby, h.path, h.via, h.echo_via, h.net_path⟩
  | afterOrigin =>
      exact ⟨h.tear, fun x hx => (by cases hx), h.seenby, h.path, h.via, h.echo_via, h.net_path⟩
  | lost => exact h

theorem bodyRun_kinds (hc : Clean c) (ls : List Str) : Kinds echo (bodyRun echo c ls).msg := by
  refine bodyRun_induct (P := fun st _ => Kinds echo st.msg) ?_ (fun _ _ _ h hs => kinds_step h hs) ls
  constructor <;> simp [hc.tear, hc.origin, hc.seenby, hc.path, hc.via]

/-- No control line is found among the text. -/
theorem bodyRun_body (hc : Clean c) (ls : List Str) :
    ∀ x ∈ (bodyRun echo c ls).msg.body, isControlLine echo x = false := by
  have hcontrol : ∀ {d : UInt8} {x : Str}, x.head? = some d → d ≠ 1 → d ≠ 83 →
      isControlLine echo x = false := by
    intro d x hx h1 h83
    rw [isControlLine, not_of_head head_isPathLine h1 hx, not_of_head head_isSeenbyLine h83 hx,
      not_of_head head_isViaLine h1 hx]
    simp
  refine bodyRun_induct (P := fun st _ => ∀ x ∈ st.msg.body, isControlLine echo x = false) ?_ ?_ ls
  · intro x hx
    rw [hc.body] at hx
    cases hx
  intro seen l st' ih hs
  have hkinds : Kinds echo (bodyRun echo c seen).msg := bodyRun_kinds hc seen
  cases hs with
  | tear => exact ih
  | origin => exact ih
  | path => exact ih
  | seenby => exact ih
  | via => exact ih
  | lost => exact ih
  | text hf =>
      intro x hx
      rcases List.mem_append.mp hx with hx | hx
      · exact ih x hx
      · exact List.mem_singleton.mp hx ▸ hf.control
  | afterTear hf =>
      intro x hx
      rcases List.mem_append.mp hx with hx | hx
      · rcases List.mem_append.mp hx with hx | hx
        · exact ih x hx
        · have ht := head_isTearLine (hkinds.tear x (Option.mem_toList.mp hx))
          exact hcontrol ht (by decide) (by decide)
      · exact List.mem_singleton.mp hx ▸ hf.control
  | afterOrigin hf =>
      intro x hx
      rcases List.mem_append.mp hx with hx | hx
      · rcases List.mem_append.mp hx with hx | hx
        · exact ih x hx
        · have ho := head_isOriginLine (hkinds.origin x (Option.mem_toList.mp hx))
          exact hcontrol ho (by decide) (by decide)
      · exact List.mem_singleton.mp hx ▸ hf.control

/-- The parser state apart from the lists of the rest. -/
structure SameFront (c st : ParseState) : Prop where
  area : st.msg.area = c.msg.area
  kludge : st.msg.kludge = c.msg.kludge
  rfc : st.msg.rfc = c.msg.rfc
  doFlag : st.doFlag = c.doFlag
  ret : st.ret = c.ret

theorem front_step {st st' : ParseState} {l : Str} (h : SameFront c st)
    (hs : BodyStep echo st l st') : SameFront c st' := by
  cases hs <;> exact ⟨h.area, h.kludge, h.rfc, h.doFlag, h.ret⟩

theorem bodyRun_front (ls : List Str) : SameFront c (bodyRun echo c ls) :=
  bodyRun_induct (P := fun st _ => SameFront c st) ⟨rfl, rfl, rfl, rfl, rfl⟩
    (fun _ _ _ h hs => front_step h hs) ls

/-- Text lines and each kind of control line keep their order; only an origin
line can be overtaken, by the text that made it text. -/
structure InOrder (m : MsgBody) (seen : List Str) : Prop where
  body : (m.body ++ m.tear.toList).filter (! isOriginLine ·) <+ seen
  seenby : m.seenby <+ seen
  path : m.path <+ seen
  via : m.via <+ seen

theorem bodyRun_inOrder (hc : Clean c) (ls : List Str) :
    InOrder (bodyRun echo c ls).msg ls := by
  refine bodyRun_induct (P := fun st seen => InOrder st.msg seen) ?_ ?_ ls
  · constructor <;> simp [hc.body, hc.tear, hc.seenby, hc.path, hc.via]
  intro seen l st' h hs
  have hflags : Flags (bodyRun echo c seen) := bodyRun_flags hc seen
  have hkinds : Kinds echo (bodyRun echo c seen).msg := bodyRun_kinds hc seen
  have later : ∀ {xs : List Str}, xs <+ seen → xs <+ seen ++ [l] :=
    fun hx => hx.trans (List.sublist_append_left _ _)
  have snoc : ∀ {xs : List Str}, xs <+ seen → xs ++ [l] <+ seen ++ [l] := fun hx => hx.append_right _
  have snocf : ∀ {xs : List Str}, xs.filter (! isOriginLine ·) <+ seen →
      (xs ++ [l]).filter (! isOriginLine ·) <+ seen ++ [l] := by
    intro xs hx
    rw [List.filter_append]
    exact hx.append (List.filter_sublist)
  cases hs with
  | tear _ hn =>
      refine ⟨?_, later h.seenby, later h.path, later h.via⟩
      have hb := h.body
      rw [hn, Option.toList_none, List.append_nil] at hb
      exact snocf hb
  | origin => exact ⟨later h.body, later h.seenby, later h.path, later h.via⟩
  | path => exact ⟨later h.body, later h.seenby, snoc h.path, later h.via⟩
  | seenby => exact ⟨later h.body, snoc h.seenby, later h.path, later h.via⟩
  | via => exact ⟨later h.body, later h.seenby, later h.path, snoc h.via⟩
  | text _ _ _ ht =>
      refine ⟨?_, later h.seenby, later h.path, later h.via⟩
      have hn : (bodyRun echo c seen).msg.tear = none := by simpa [ht] using hflags.tear.symm
      have hb := h.body
      simp only [hn, Option.toList_none, List.append_nil] at hb ⊢
      exact snocf hb
  | afterTear =>
      refine ⟨?_, later h.seenby, later h.path, later h.via⟩
      simp only [Option.toList_none, List.append_nil]
      exact snocf h.body
  | afterOrigin _ ht ho =>
      refine ⟨?_, later h.seenby, later h.path, later h.via⟩
      have hn : (bodyRun echo c seen).msg.tear = none := by simpa [ht] using hflags.tear.symm
      have hb := h.body
      have ho' : (bodyRun echo c seen).msg.origin.toList.filter (! isOriginLine ·) = [] := by
        rw [List.filter_eq_nil_iff]
        intro x hx
        simp [hkinds.origin x (Option.mem_toList.mp hx)]
      simp only [hn, Option.toList_none, List.append_nil] at hb ⊢
      refine snocf ?_
      rw [List.filter_append, ho', List.append_nil]
      exact hb
  | lost => exact ⟨later h.body, later h.seenby, later h.path, later h.via⟩

end Rest

/-! ## The rest, read again -/

theorem bodyLine_falls {echo : Bool} {st : ParseState} {l : Str} (h : FallsThrough echo st l) :
    bodyLine echo st l = bodyText st l := by
  have ht : (isTearLine l && st.msg.tear.isNone) = false := by
    rw [Bool.eq_false_iff]
    intro e
    simp only [Bool.and_eq_true, Option.isNone_iff_eq_none] at e
    exact h.tear e.1 e.2
  have ho : (isOriginLine l && st.msg.origin.isNone) = false := by
    rw [Bool.eq_false_iff]
    intro e
    simp only [Bool.and_eq_true, Option.isNone_iff_eq_none] at e
    exact h.origin e.1 e.2
  have hc := h.control
  unfold bodyLine
  rw [ht, ho]
  cases echo with
  | true =>
      simp only [isControlLine, Bool.true_and, Bool.not_true, Bool.false_and, Bool.or_false,
        Bool.or_eq_false_iff] at hc
      simp [hc.1, hc.2]
  | false =>
      simp only [isControlLine, Bool.false_and, Bool.not_false, Bool.true_and,
        Bool.false_or] at hc
      simp [hc]

/-- An origin line that comes while a tear and an origin line wait becomes
text in front of the origin line that came first. -/
def overtakes (st : ParseState) (l : Str) : Bool :=
  st.foundTear && st.foundOrigin && isOriginLine l

def overtakesAny (echo : Bool) : ParseState → List Str → Bool
  | _, [] => false
  | st, l :: ls => overtakes st l || overtakesAny echo (bodyLine echo st l) ls

theorem overtakesAny_append (echo : Bool) (l : Str) : ∀ (ls : List Str) (st : ParseState),
    overtakesAny echo st (ls ++ [l]) =
      (overtakesAny echo st ls || overtakes (bodyRun echo st ls) l)
  | [], st => by
      rw [List.nil_append, overtakesAny, overtakesAny, overtakesAny, Bool.or_false, Bool.false_or]
      rfl
  | l' :: ls, st => by
      have ih := overtakesAny_append echo l ls (bodyLine echo st l')
      rw [List.cons_append, overtakesAny, ih, overtakesAny, Bool.or_assoc]
      rfl

/-- The state in front of the rest with a text that is already there. -/
def withBody (c : ParseState) (body : List Str) : ParseState :=
  { c with msg := { c.msg with body := body } }

section Replay

variable {echo : Bool} {c : ParseState}

/-- Text lines are text again. -/
theorem replay_text (hc : Clean c) {body : List Str} {l : Str} (ht : isTearLine l = false)
    (ho : isOriginLine l = false) (hl : isControlLine echo l = false) :
    bodyLine echo (withBody c body) l = withBody c (body ++ [l]) := by
  rw [bodyLine_falls ⟨by simp [ht], by simp [ho], hl⟩, bodyText]
  simp [withBody, hc.foundKludge, hc.foundOrigin, hc.foundTear]

/-- So are a tear line and the text that follows it. -/
theorem replay_tear (hc : Clean c) {body : List Str} {t l : Str} (ht : isTearLine t = true)
    (ho : isOriginLine l = false) (hl : isControlLine echo l = false) :
    bodyRun echo (withBody c body) [t, l] = withBody c (body ++ [t] ++ [l]) := by
  have h1 : bodyLine echo (withBody c body) t =
      { withBody c body with
        msg := { (withBody c body).msg with tear := some t }, foundTear := true } := by
    simp [bodyLine, ht, withBody, hc.tear]
  show bodyLine echo (bodyLine echo (withBody c body) t) l = _
  rw [h1, bodyLine_falls ⟨by simp, by simp [ho], hl⟩, bodyText]
  simp [withBody, hc.foundTear, hc.tear]

theorem replay_origin (hc : Clean c) {body : List Str} {o l : Str} (ho : isOriginLine o = true)
    (ht : isTearLine l = false) (hl : isControlLine echo l = false) :
    bodyRun echo (withBody c body) [o, l] = withBody c (body ++ [o] ++ [l]) := by
  have hto : isTearLine o = false := not_of_head head_isTearLine (by decide) (head_isOriginLine ho)
  have h1 : bodyLine echo (withBody c body) o =
      { withBody c body with
        msg := { (withBody c body).msg with origin := some o }, foundOrigin := true } := by
    simp [bodyLine, ho, hto, withBody, hc.origin]
  show bodyLine echo (bodyLine echo (withBody c body) o) l = _
  rw [h1, bodyLine_falls ⟨by simp [ht], by simp, hl⟩, bodyText]
  simp [withBody, hc.foundTear, hc.foundOrigin, hc.origin]

theorem bodyRun_append (st : ParseState) (xs ys : List Str) :
    bodyRun echo st (xs ++ ys) = bodyRun echo (bodyRun echo st xs) ys := by
  rw [bodyRun, List.foldl_append]
  rfl

/-- The text that was found is found again, whatever stood in front of it. -/
theorem bodyRun_replay {d : ParseState} (hc : Clean c) (hd : Clean d) (ls : List Str)
    (hn : overtakesAny echo c ls = false) :
    bodyRun echo d (bodyRun echo c ls).msg.body = withBody d (bodyRun echo c ls).msg.body := by
  revert hn
  refine bodyRun_induct (P := fun st seen => overtakesAny echo c seen = false →
    bodyRun echo d st.msg.body = withBody d st.msg.body) ?_ ?_ ls
  · intro _
    have hw : withBody d d.msg.body = d := rfl
    rw [hc.body]
    rw [hd.body] at hw
    exact hw.symm
  intro seen l st' ih hs hn
  rw [overtakesAny_append, Bool.or_eq_false_iff] at hn
  have ih := ih hn.1
  have hflags : Flags (bodyRun echo c seen) := bodyRun_flags hc seen
  have hkinds : Kinds echo (bodyRun echo c seen).msg := bodyRun_kinds hc seen
  cases hs with
  | tear => exact ih
  | origin => exact ih
  | path => exact ih
  | seenby => exact ih
  | via => exact ih
  | lost => exact ih
  | text hf _ ho ht =>
      have hnt : (bodyRun echo c seen).msg.tear = none := by simpa [ht] using hflags.tear.symm
      have hno : (bodyRun echo c seen).msg.origin = none := by
        simpa [ho] using hflags.origin.symm
      have h1 : isTearLine l = false := Bool.eq_false_iff.mpr fun e => hf.tear e hnt
      have h2 : isOriginLine l = false := Bool.eq_false_iff.mpr fun e => hf.origin e hno
      simp only
      rw [bodyRun_append, ih]
      exact replay_text hd h1 h2 hf.control
  | afterTear hf ht =>
      obtain ⟨t, htear⟩ := Option.isSome_iff_exists.mp (hflags.tear ▸ ht)
      have h2 : isOriginLine l = false := by
        rw [Bool.eq_false_iff]
        intro e
        have hov := hn.2
        rw [overtakes, ht, e, Bool.true_and, Bool.and_true, hflags.origin] at hov
        exact hf.origin e (by simpa using hov)
      simp only [htear, Option.toList_some]
      rw [List.append_assoc, bodyRun_append, ih, List.singleton_append,
        replay_tear hd (hkinds.tear t htear) h2 hf.control, List.append_assoc,
        List.singleton_append]
  | afterOrigin hf ht ho =>
      have hnt : (bodyRun echo c seen).msg.tear = none := by simpa [ht] using hflags.tear.symm
      obtain ⟨o, horigin⟩ := Option.isSome_iff_exists.mp (hflags.origin ▸ ho)
      have h1 : isTearLine l = false := Bool.eq_false_iff.mpr fun e => hf.tear e hnt
      simp only [horigin, Option.toList_some]
      rw [List.append_assoc, bodyRun_append, ih, List.singleton_append,
        replay_origin hd (hkinds.origin o horigin) h1 hf.control, List.append_assoc,
        List.singleton_append]

/-- A tear and an origin line at the end of the text wait again. -/
theorem bodyRun_trailer {st : ParseState} {t o : Option Str} (ht : ∀ l ∈ t, isTearLine l = true)
    (ho : ∀ l ∈ o, isOriginLine l = true) (hnt : st.msg.tear = none) (hno : st.msg.origin = none) :
    (bodyRun echo st (t.toList ++ o.toList)).msg =
      { st.msg with tear := t, origin := o } := by
  have hor : ∀ (st : ParseState), st.msg.origin = none →
      (bodyRun echo st o.toList).msg = { st.msg with origin := o } := by
    intro st hno
    cases o with
    | none =>
        show st.msg = { st.msg with origin := none }
        rw [← hno]
    | some o =>
        have h1 : isTearLine o = false :=
          not_of_head head_isTearLine (by decide) (head_isOriginLine (ho o rfl))
        simp [bodyRun, bodyLine, h1, ho o rfl, hno]
  rw [bodyRun_append]
  cases t with
  | none =>
      have h := hor st hno
      rw [Option.toList_none]
      show (bodyRun echo st o.toList).msg = _
      rw [h, ← hnt]
  | some t =>
      have h1 : bodyLine echo st t =
          { st with msg := { st.msg with tear := some t }, foundTear := true } := by
        simp [bodyLine, ht t rfl, hnt]
      rw [Option.toList_some]
      show (bodyRun echo (bodyLine echo st t) o.toList).msg = _
      rw [h1]
      exact hor _ hno

theorem bodyRun_seenby : ∀ {ls : List Str} (st : ParseState), (∀ l ∈ ls, isSeenbyLine l = true) →
    (bodyRun true st ls).msg = { st.msg with seenby := st.msg.seenby ++ ls }
  | [], st, _ => by simp [bodyRun]
  | l :: ls, st, h => by
      have hl := h l List.mem_cons_self
      have h1 : isTearLine l = false :=
        not_of_head head_isTearLine (by decide) (head_isSeenbyLine hl)
      have h2 : isOriginLine l = false :=
        not_of_head head_isOriginLine (by decide) (head_isSeenbyLine hl)
      have h3 : isPathLine l = false :=
        not_of_head head_isPathLine (by decide) (head_isSeenbyLine hl)
      have hs : bodyLine true st l =
          { st with msg := { st.msg with seenby := st.msg.seenby ++ [l] }, foundKludge := true } := by
        simp [bodyLine, h1, h2, h3, hl]
      show (bodyRun true (bodyLine true st l) ls).msg = _
      rw [hs, bodyRun_seenby _ (fun x hx => h x (List.mem_cons_of_mem _ hx))]
      simp

theorem bodyRun_path : ∀ {ls : List Str} (st : ParseState), (∀ l ∈ ls, isPathLine l = true) →
    (bodyRun true st ls).msg = { st.msg with path := st.msg.path ++ ls }
  | [], st, _ => by simp [bodyRun]
  | l :: ls, st, h => by
      have hl := h l List.mem_cons_self
      have h1 : isTearLine l = false :=
        not_of_head head_isTearLine (by decide) (head_isPathLine hl)
      have h2 : isOriginLine l = false :=
        not_of_head head_isOriginLine (by decide) (head_isPathLine hl)
      have hs : bodyLine true st l =
          { st with msg := { st.msg with path := st.msg.path ++ [l] }, foundKludge := true } := by
        simp [bodyLine, h1, h2, hl]
      show (bodyRun true (bodyLine true st l) ls).msg = _
      rw [hs, bodyRun_path _ (fun x hx => h x (List.mem_cons_of_mem _ hx))]
      simp

theorem bodyRun_via : ∀ {ls : List Str} (st : ParseState), (∀ l ∈ ls, isViaLine l = true) →
    (bodyRun false st ls).msg = { st.msg with via := st.msg.via ++ ls }
  | [], st, _ => by simp [bodyRun]
  | l :: ls, st, h => by
      have hl := h l List.mem_cons_self
      have h1 : isTearLine l = false :=
        not_of_head head_isTearLine (by decide) (head_isViaLine hl)
      have h2 : isOriginLine l = false :=
        not_of_head head_isOriginLine (by decide) (head_isViaLine hl)
      have hs : bodyLine false st l =
          { st with msg := { st.msg with via := st.msg.via ++ [l] }, foundKludge := true } := by
        simp [bodyLine, h1, h2, hl]
      show (bodyRun false (bodyLine false st l) ls).msg = _
      rw [hs, bodyRun_via _ (fun x hx => h x (List.mem_cons_of_mem _ hx))]
      simp

/-- The rest as `msg_put_msgbody` writes it is taken apart into the same
parts. -/
theorem bodyRun_rest (hc : Clean c) {m : MsgBody} (hk : Kinds echo m)
    (hb : bodyRun echo c m.body = withBody c m.body) :
    (bodyRun echo c m.rest).msg =
      { c.msg with body := m.body, tear := m.tear, origin := m.origin, seenby := m.seenby,
                   path := m.path, via := m.via } := by
  have htr : (bodyRun echo (withBody c m.body) (m.tear.toList ++ m.origin.toList)).msg =
      { (withBody c m.body).msg with tear := m.tear, origin := m.origin } :=
    bodyRun_trailer hk.tear hk.origin hc.tear hc.origin
  rw [MsgBody.rest, List.append_assoc m.body, bodyRun_append, bodyRun_append, bodyRun_append,
    bodyRun_append, hb]
  cases echo with
  | true =>
      rw [hk.echo_via rfl]
      show (bodyRun true _ m.path).msg = _
      rw [bodyRun_path _ hk.path, bodyRun_seenby _ hk.seenby, htr]
      simp [withBody, hc.seenby, hc.path, hc.via]
  | false =>
      obtain ⟨h1, h2⟩ := hk.net_path rfl
      rw [h1, h2]
      show (bodyRun false _ m.via).msg = _
      rw [bodyRun_via _ hk.via]
      show { (bodyRun false (withBody c m.body) (m.tear.toList ++ m.origin.toList)).msg with
        via := (bodyRun false (withBody c m.body) (m.tear.toList ++ m.origin.toList)).msg.via ++
          m.via } = _
      rw [htr]
      simp [withBody, hc.seenby, hc.path, hc.via]

/-- The first line of the text that was found does not look like a RFC header
line if the first line of the rest does not. -/
theorem bodyRun_head (hc : Clean c) (ls : List Str)
    (hh : ∀ x ∈ ls.head?, rfcMatches x = []) :
    ∀ x ∈ (bodyRun echo c ls).msg.body.head?, rfcMatches x = [] := by
  have hmain : (∀ x ∈ ls.head?, rfcMatches x = []) →
      (∀ x ∈ (bodyRun echo c ls).msg.body.head?, rfcMatches x = []) ∧
      ((bodyRun echo c ls).msg.body = [] → ls ≠ [] →
        (bodyRun echo c ls).foundKludge = true ∨ (bodyRun echo c ls).foundOrigin = true ∨
          (bodyRun echo c ls).foundTear = true) := by
    refine bodyRun_induct (P := fun st seen => (∀ x ∈ seen.head?, rfcMatches x = []) →
      (∀ x ∈ st.msg.body.head?, rfcMatches x = []) ∧
      (st.msg.body = [] → seen ≠ [] →
        st.foundKludge = true ∨ st.foundOrigin = true ∨ st.foundTear = true)) ?_ ?_ ls
    · intro _
      exact ⟨by simp [hc.body], fun _ h => absurd rfl h⟩
    intro seen l st' ih hs hh
    have hkinds : Kinds echo (bodyRun echo c seen).msg := bodyRun_kinds hc seen
    have hflags : Flags (bodyRun echo c seen) := bodyRun_flags hc seen
    have hh' : ∀ x ∈ seen.head?, rfcMatches x = [] := by
      intro x hx
      cases seen with
      | nil => cases hx
      | cons y ys => exact hh x hx
    obtain ⟨h1, h2⟩ := ih hh'
    have keep : ∀ {xs ys : List Str}, xs ≠ [] → (∀ x ∈ xs.head?, rfcMatches x = []) →
        ∀ x ∈ (xs ++ ys).head?, rfcMatches x = [] := by
      intro xs ys hne hx
      cases xs with
      | nil => exact absurd rfl hne
      | cons y ys => exact hx
    cases hs with
    | tear => exact ⟨h1, fun _ _ => .inr (.inr rfl)⟩
    | origin => exact ⟨h1, fun _ _ => .inr (.inl rfl)⟩
    | path => exact ⟨h1, fun _ _ => .inl rfl⟩
    | seenby => exact ⟨h1, fun _ _ => .inl rfl⟩
    | via => exact ⟨h1, fun _ _ => .inl rfl⟩
    | lost _ hk => exact ⟨h1, fun _ _ => .inl hk⟩
    | text _ hk ho ht =>
        refine ⟨?_, fun e => by simp at e⟩
        by_cases hb : (bodyRun echo c seen).msg.body = []
        · -- the first line of all
          have hseen : seen = [] := by
            by_contra hne
            rcases h2 hb hne with h | h | h
            · rw [hk] at h; cases h
            · rw [ho] at h; cases h
            · rw [ht] at h; cases h
          rw [hseen] at hh
          rw [hb]
          exact hh
        · exact keep hb h1
    | afterTear _ ht =>
        refine ⟨?_, fun e => by simp at e⟩
        obtain ⟨t, htear⟩ := Option.isSome_iff_exists.mp (hflags.tear ▸ ht)
        simp only [htear, Option.toList_some]
        by_cases hb : (bodyRun echo c seen).msg.body = []
        · intro x hx
          simp only [hb, List.nil_append, List.cons_append, List.head?_cons,
            Option.mem_some_iff] at hx
          exact hx ▸ rfcMatches_of_head (head_isTearLine (hkinds.tear t htear)) (by decide)
        · rw [List.append_assoc]
          exact keep hb h1
    | afterOrigin _ ht ho =>
        refine ⟨?_, fun e => by simp at e⟩
        obtain ⟨o, horigin⟩ := Option.isSome_iff_exists.mp (hflags.origin ▸ ho)
        simp only [horigin, Option.toList_some]
        by_cases hb : (bodyRun echo c seen).msg.body = []
        · intro x hx
          simp only [hb, List.nil_append, List.cons_append, List.head?_cons,
            Option.mem_some_iff] at hx
          exact hx ▸ rfcMatches_of_head (head_isOriginLine (hkinds.origin o horigin)) (by decide)
        · rw [List.append_assoc]
          exact keep hb h1
  exact (hmain hh).1

end Replay

end Fidogate

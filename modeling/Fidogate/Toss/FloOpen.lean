/-
# `Fidogate.Toss.FloOpen` — flo.c: opening a FLO file with its BSY file

`flo_openx` makes the directory and the BSY file of a node, opens and locks the
FLO file, and begins again where the file is gone by then.  The outcome of each
file operation is given beforehand, a round for each time it begins.
`floOpened_iff` says which outcomes leave neither a BSY file nor a closed stream
behind.
-/
import Fidogate.Toss.BsyFiles

namespace Fidogate

open Bytes Marks

/-! ## Opening -/

/-- `flo_fp`: NULL, a stream that is open, open and locked, or closed. -/
inductive FloStream
  | null
  | halfOpen
  | locked
  | closed
  deriving DecidableEq, Repr

/-- The static variables of flo.c, and the BSY files. -/
structure FloModule where
  name : Str
  fp : FloStream
  offCur : Int
  offNext : Int
  bsys : Bsys

/-- The outcomes of a round: `fopen`, `lock_file`, `access`, and the `unlink` of the BSY file
where there is one. -/
structure FloRound where
  opened : Bool
  locked : Bool
  there : Bool
  removed : Bool
  deriving DecidableEq, Repr

/-- The outcomes of `bink_mkdir` and of what `bink_bsy_create` does, and the rounds. -/
structure FloOutcomes where
  mkdir : Bool
  made : Bool
  rounds : List FloRound

/-- `bink_bsy_create (node, WAIT)`, when it returns: the lock file of another program is gone,
or `made` is false. -/
def bsyCreateWait (ob : Outbound) (made : Bool) (n : Node) (s : Bsys) : Option Bsys := do
  let b ← binkBsyName ob n
  if made then some (s.create b) else none

/-- `if (bsy) bink_bsy_delete (node)`. -/
def FloModule.unbusy (ob : Outbound) (n : Node) (bsy ok : Bool) (s : FloModule) : FloModule :=
  if bsy then { s with bsys := bsyRemove ob ok n s.bsys } else s

/-- `flo_openx` from `again` on; `none` while it is still at it. -/
def floOpenRounds (ob : Outbound) (n : Node) (bsy apmode : Bool) :
    List FloRound → FloModule → Option (Int × FloModule)
  | [], _ => none
  | r :: rs, s =>
      if ! r.opened then some (-1, { s.unbusy ob n bsy r.removed with fp := .null })
      else if ! r.locked then some (-1, { s.unbusy ob n bsy r.removed with fp := .closed })
      else if ! r.there then
        if apmode then
          floOpenRounds ob n bsy apmode rs { s.unbusy ob n bsy r.removed with fp := .closed }
        else some (-1, { s with fp := .closed })
      else some (0, { s with fp := .locked, offCur := -1, offNext := 0 })

/-- `flo_openx`. -/
def floOpenx (ob : Outbound) (d : Files.Dir Str Str) (n : Node) (bsy : Bool) (flav : Option Str)
    (apmode : Bool) (o : FloOutcomes) (s : FloModule) : Option (Int × FloModule) :=
  match binkFindFlo ob d n flav with
  | none => some (-1, s)
  | some flo =>
      let s := { s with name := flo }
      if ! o.mkdir then some (-1, s)
      else if bsy then
        match bsyCreateWait ob o.made n s.bsys with
        | none => some (-1, s)
        | some bsys => floOpenRounds ob n bsy apmode o.rounds { s with bsys := bsys }
      else floOpenRounds ob n bsy apmode o.rounds s

/-! ## What is right -/

/-- The BSY file of the node is there, and our own. -/
def FloModule.Held (ob : Outbound) (n : Node) (s : FloModule) : Prop :=
  ∃ b, binkBsyName ob n = some b ∧ s.bsys.marks b = some .own

/-- After OK the stream is open and locked and the BSY file there, if it was asked for; after
ERROR there is none, and no stream that is closed or not locked. -/
def FloOpened (ob : Outbound) (n : Node) (bsy : Bool) (r : Int × FloModule) : Prop :=
  (r.1 = 0 → r.2.fp = .locked ∧ (bsy = true → r.2.Held ob n)) ∧
    (r.1 = -1 → (bsy = true → ¬ r.2.Held ob n) ∧ r.2.fp ≠ .halfOpen ∧ r.2.fp ≠ .closed)

/-- The file is gone behind its lock, and `flo_openx` begins again. -/
def FloRound.again (apmode : Bool) (r : FloRound) : Bool :=
  apmode && r.opened && r.locked && ! r.there

/-- The rounds end with a file that is not opened, the BSY file being removed in one of them, or
with one that is opened, locked and there, the BSY file having been removed in none. -/
def FloFits (bsy apmode : Bool) (rs : List FloRound) : Prop :=
  ∃ pre r post, rs = pre ++ r :: post ∧ (∀ q ∈ pre, q.again apmode = true) ∧
    (r.opened = false ∧ (bsy = true → ∃ q ∈ pre ++ [r], q.removed = true) ∨
      r.opened = true ∧ r.locked = true ∧ r.there = true ∧
        (bsy = true → ∀ q ∈ pre, q.removed = false))

/-- The rounds are reached. -/
def FloReaches (ob : Outbound) (d : Files.Dir Str Str) (n : Node) (bsy : Bool) (flav : Option Str)
    (o : FloOutcomes) : Prop :=
  (binkFindFlo ob d n flav).isSome = true ∧ o.mkdir = true ∧ (bsy = true → o.made = true)

/-! ## The BSY file -/

section

variable {ob : Outbound} {n : Node} {bsy apmode : Bool} {s : FloModule}

theorem held_remove (ok : Bool) (fp : FloStream) :
    ({ s.unbusy ob n true ok with fp := fp } : FloModule).Held ob n ↔
      s.Held ob n ∧ ok = false := by
  unfold FloModule.Held FloModule.unbusy bsyRemove
  cases hb : binkBsyName ob n with
  | none => exact iff_of_false (fun ⟨b, h, _⟩ => nomatch h) (fun ⟨⟨b, h, _⟩, _⟩ => nomatch h)
  | some b =>
    cases ok with
    | true =>
      refine iff_of_false ?_ (fun h => nomatch h.2)
      rintro ⟨c, hc, hown⟩
      rw [← Option.some.inj hc] at hown
      rw [if_pos rfl] at hown
      dsimp only at hown
      rw [marks_delete_self] at hown
      cases hown
    | false =>
      rw [if_pos rfl]
      exact (and_iff_left rfl).symm

theorem held_create {made : Bool} {bsys : Bsys} (h : bsyCreateWait ob made n s.bsys = some bsys) :
    ({ s with bsys := bsys } : FloModule).Held ob n := by
  simp only [bsyCreateWait, Option.bind_eq_bind, Option.bind_eq_some_iff] at h
  obtain ⟨b, hb, h⟩ := h
  split at h
  next =>
    rw [← Option.some.inj h]
    exact ⟨b, hb, marks_create _ _⟩
  next => cases h

theorem bsyCreateWait_none (h : (binkBsyName ob n).isSome = true) (made : Bool) (s : Bsys) :
    bsyCreateWait ob made n s = none ↔ made = false := by
  obtain ⟨b, hb⟩ := Option.isSome_iff_exists.mp h
  rw [bsyCreateWait, hb]
  cases made with
  | true => exact iff_of_false (Option.some_ne_none _) (fun h => nomatch h)
  | false => exact iff_of_true rfl rfl

/-! ## The rounds -/

/-- What the rounds are to do, beginning with the BSY file or without it. -/
def RoundsFit (bsy apmode held : Bool) (rs : List FloRound) : Prop :=
  ∃ pre r post, rs = pre ++ r :: post ∧ (∀ q ∈ pre, q.again apmode = true) ∧
    (r.opened = false ∧ (bsy = true → held = false ∨ ∃ q ∈ pre ++ [r], q.removed = true) ∨
      r.opened = true ∧ r.locked = true ∧ r.there = true ∧
        (bsy = true → held = true ∧ ∀ q ∈ pre, q.removed = false))

theorem floFits_iff {rs : List FloRound} :
    FloFits bsy apmode rs ↔ RoundsFit bsy apmode true rs := by
  simp [FloFits, RoundsFit]

/-- A round that is not begun again decides. -/
theorem roundsFit_last {held : Bool} {r : FloRound} {rs : List FloRound}
    (h : r.again apmode = false) : RoundsFit bsy apmode held (r :: rs) ↔
      (r.opened = false ∧ (bsy = true → held = false ∨ r.removed = true) ∨
        r.opened = true ∧ r.locked = true ∧ r.there = true ∧ (bsy = true → held = true)) := by
  constructor
  · rintro ⟨pre, q, post, he, hpre, hq⟩
    cases pre with
    | nil =>
      obtain ⟨rfl, rfl⟩ := List.cons.inj he
      simpa using hq
    | cons p pre =>
      obtain ⟨rfl, -⟩ := List.cons.inj he
      rw [hpre r List.mem_cons_self] at h
      cases h
  · exact fun hr => ⟨[], r, rs, rfl, List.forall_mem_nil _, by simpa using hr⟩

theorem again_eq_true {r : FloRound} (h : r.again apmode = true) :
    apmode = true ∧ r.opened = true ∧ r.locked = true ∧ r.there = false := by
  simpa [FloRound.again, and_assoc] using h

/-- A round that is begun again leaves its BSY file to the others. -/
theorem roundsFit_again {held : Bool} {r : FloRound} {rs : List FloRound}
    (h : r.again apmode = true) : RoundsFit bsy apmode held (r :: rs) ↔
      RoundsFit bsy apmode (held && ! r.removed) rs := by
  obtain ⟨-, hopened, -, hthere⟩ := again_eq_true h
  have hremoved : ∀ l : List FloRound, (held = false ∨ ∃ q ∈ r :: l, q.removed = true) ↔
      ((held && ! r.removed) = false ∨ ∃ q ∈ l, q.removed = true) := by
    intro l
    rw [List.exists_mem_cons_iff, ← or_assoc, Bool.and_eq_false_iff, Bool.not_eq_false']
  have hkept : ∀ l : List FloRound, (held = true ∧ ∀ q ∈ r :: l, q.removed = false) ↔
      ((held && ! r.removed) = true ∧ ∀ q ∈ l, q.removed = false) := by
    intro l
    rw [List.forall_mem_cons, ← and_assoc, Bool.and_eq_true, Bool.not_eq_true']
  constructor
  · rintro ⟨pre, q, post, he, hpre, hq⟩
    cases pre with
    | nil =>
      obtain ⟨rfl, rfl⟩ := List.cons.inj he
      rcases hq with ⟨hno, -⟩ | ⟨-, -, hno, -⟩
      · rw [hopened] at hno
        cases hno
      · rw [hthere] at hno
        cases hno
    | cons p pre =>
      obtain ⟨rfl, rfl⟩ := List.cons.inj he
      refine ⟨pre, q, post, rfl, fun x hx => hpre x (List.mem_cons_of_mem _ hx), ?_⟩
      rwa [List.cons_append, hremoved, hkept] at hq
  · rintro ⟨pre, q, post, rfl, hpre, hq⟩
    refine ⟨r :: pre, q, post, rfl, List.forall_mem_cons.mpr ⟨h, hpre⟩, ?_⟩
    rwa [List.cons_append, hremoved, hkept]

/-- What a call leaves behind, round by round; `held` is whether it begins with the BSY file. -/
theorem floOpened_rounds {rs : List FloRound} : ∀ {held : Bool} {s : FloModule}
    {r : Int × FloModule}, (bsy = true → (s.Held ob n ↔ held = true)) →
    floOpenRounds ob n bsy apmode rs s = some r →
      (FloOpened ob n bsy r ↔ RoundsFit bsy apmode held rs) := by
  induction rs with
  | nil => exact fun _ h => nomatch h
  | cons q rs ih =>
    intro held s r hheld h
    have hremove : ∀ fp, bsy = true →
        (({ s.unbusy ob n bsy q.removed with fp := fp } : FloModule).Held ob n ↔
          held = true ∧ q.removed = false) := by
      intro fp hb
      subst hb
      rw [held_remove, hheld rfl]
    rw [floOpenRounds] at h
    cases hopened : q.opened with
    | false =>
      rw [hopened] at h
      obtain rfl := Option.some.inj h
      rw [roundsFit_last (by simp [FloRound.again, hopened]), FloOpened, hopened]
      constructor
      · rintro ⟨-, h⟩
        refine .inl ⟨rfl, fun hb => ?_⟩
        have hno := (h rfl).1 hb
        rwa [hremove _ hb, not_and_or, Bool.not_eq_true, Bool.not_eq_false] at hno
      · rintro (⟨-, h⟩ | ⟨h, -⟩)
        · refine ⟨fun h0 => absurd h0 (show ¬ (-1 : Int) = 0 by decide), fun _ =>
            ⟨fun hb => ?_, FloStream.noConfusion, FloStream.noConfusion⟩⟩
          rw [hremove _ hb, not_and_or, Bool.not_eq_true, Bool.not_eq_false]
          exact h hb
        · cases h
    | true =>
      rw [hopened] at h
      cases hlocked : q.locked with
      | false =>
        rw [hlocked] at h
        obtain rfl := Option.some.inj h
        rw [roundsFit_last (by simp [FloRound.again, hlocked]), FloOpened, hopened, hlocked]
        refine iff_of_false (fun h => (h.2 rfl).2.2 rfl) ?_
        rintro (⟨h, -⟩ | ⟨-, h, -⟩)
        · cases h
        · cases h
      | true =>
        rw [hlocked] at h
        cases hthere : q.there with
        | true =>
          rw [hthere] at h
          obtain rfl := Option.some.inj h
          rw [roundsFit_last (by simp [FloRound.again, hthere]), FloOpened, hopened, hlocked,
            hthere]
          constructor
          · exact fun h => .inr ⟨rfl, rfl, rfl, fun hb => (hheld hb).mp ((h.1 rfl).2 hb)⟩
          · rintro (⟨h, -⟩ | ⟨-, -, -, h⟩)
            · cases h
            · exact ⟨fun _ => ⟨rfl, fun hb => (hheld hb).mpr (h hb)⟩, fun h0 => nomatch h0⟩
        | false =>
          rw [hthere] at h
          cases apmode with
          | false =>
            obtain rfl := Option.some.inj h
            rw [roundsFit_last rfl, FloOpened, hopened, hlocked, hthere]
            refine iff_of_false (fun h => (h.2 rfl).2.2 rfl) ?_
            rintro (⟨h, -⟩ | ⟨-, -, h, -⟩)
            · cases h
            · cases h
          | true =>
            have hagain : q.again true = true := by simp [FloRound.again, hopened, hlocked, hthere]
            rw [roundsFit_again hagain]
            refine ih (fun hb => ?_) h
            rw [hremove _ hb, Bool.and_eq_true, Bool.not_eq_true']

/-- The BSY file has a name where there is a FLO file. -/
theorem binkBsyName_isSome {d : Files.Dir Str Str} {flav : Option Str}
    (h : (binkFindFlo ob d n flav).isSome = true) : (binkBsyName ob n).isSome = true := by
  obtain ⟨flo, hflo⟩ := Option.isSome_iff_exists.mp h
  simp only [binkFindFlo, Option.bind_eq_bind, Option.bind_eq_some_iff] at hflo
  obtain ⟨outb, hout, -⟩ := hflo
  rw [binkBsyName, hout]
  rfl

/-- A call that returns, from a module without a stray stream and without the BSY file it is to
make, leaves what is right behind exactly if it does not reach the rounds or they fit. -/
theorem floOpened_iff {d : Files.Dir Str Str} {flav : Option Str} {o : FloOutcomes}
    {r : Int × FloModule} (hbusy : bsy = true → ¬ s.Held ob n)
    (hfp : s.fp = .null ∨ s.fp = .locked)
    (h : floOpenx ob d n bsy flav apmode o s = some r) :
    FloOpened ob n bsy r ↔ (FloReaches ob d n bsy flav o → FloFits bsy apmode o.rounds) := by
  -- an error before the rounds leaves the module as it was
  have hearly : ∀ {s' : FloModule}, s'.fp = s.fp → s'.bsys = s.bsys →
      FloOpened ob n bsy (-1, s') := by
    intro s' hf hb
    refine ⟨fun h0 => absurd h0 (show ¬ (-1 : Int) = 0 by decide), fun _ => ⟨fun hy => ?_, ?_⟩⟩
    · rw [FloModule.Held, hb]
      exact hbusy hy
    · rw [hf]
      rcases hfp with hnull | hlocked
      · rw [hnull]
        decide
      · rw [hlocked]
        decide
  unfold floOpenx at h
  cases hflo : binkFindFlo ob d n flav with
  | none =>
    rw [hflo] at h
    obtain rfl := Option.some.inj h
    refine iff_of_true (hearly rfl rfl) fun ⟨hno, _⟩ => ?_
    rw [hflo] at hno
    cases hno
  | some flo =>
    have hsome : (binkFindFlo ob d n flav).isSome = true := by rw [hflo]; rfl
    rw [hflo] at h
    dsimp only at h
    cases hmkdir : o.mkdir with
    | false =>
      rw [hmkdir] at h
      obtain rfl := Option.some.inj h
      refine iff_of_true (hearly rfl rfl) fun ⟨_, hno, _⟩ => ?_
      rw [hmkdir] at hno
      cases hno
    | true =>
      rw [hmkdir] at h
      cases bsy with
      | false =>
        have hreach : FloReaches ob d n false flav o := ⟨hsome, hmkdir, fun hb => nomatch hb⟩
        rw [if_neg (by decide), if_neg (by decide)] at h
        rw [floFits_iff, @floOpened_rounds ob n false apmode o.rounds true _ _
          (fun hb => absurd hb (by decide)) h]
        exact ⟨fun hr _ => hr, fun hr => hr hreach⟩
      | true =>
        rw [if_neg (by decide), if_pos rfl] at h
        cases hcreate : bsyCreateWait ob o.made n s.bsys with
        | none =>
          rw [hcreate] at h
          obtain rfl := Option.some.inj h
          refine iff_of_true (hearly rfl rfl) fun ⟨_, _, hmade⟩ => ?_
          rw [bsyCreateWait_none (binkBsyName_isSome hsome)] at hcreate
          rw [hcreate] at hmade
          exact absurd (hmade rfl) Bool.false_ne_true
        | some bsys =>
          rw [hcreate] at h
          have hmade : o.made = true := by
            by_contra hno
            rw [Bool.not_eq_true, ← bsyCreateWait_none (binkBsyName_isSome hsome), hcreate] at hno
            cases hno
          have hreach : FloReaches ob d n true flav o := ⟨hsome, hmkdir, fun _ => hmade⟩
          have hheld := @held_create ob n { s with name := flo } o.made bsys hcreate
          rw [floFits_iff, @floOpened_rounds ob n true apmode o.rounds true _ _
            (fun _ => iff_of_true hheld rfl) h]
          exact ⟨fun hr _ => hr, fun hr => hr hreach⟩

end

section

/-- The FLO file of 2:5020/2. -/
def dirFlo : Files.Dir Str Str := fun f =>
  if f = lit "/bt/out/139c0002.flo" then some (lit "/spool/a\n") else none

/-- A program that holds no BSY file and has no FLO file open. -/
def floIdle : FloModule :=
  { name := [], fp := .null, offCur := -1, offNext := -1, bsys := ⟨fun _ => none, []⟩ }

theorem not_held_floIdle (ob : Outbound) (n : Node) : ¬ floIdle.Held ob n :=
  fun ⟨_, _, h⟩ => nomatch h

/-- The file is opened, locked and there. -/
theorem floOpened_once :
    FloOpened oneOutbound ⟨2, 5020, 2, 0, []⟩ true
      (0, { floIdle with
        name := lit "/bt/out/139c0002.flo", fp := .locked, offCur := -1, offNext := 0
        bsys := floIdle.bsys.create (lit "/bt/out/139c0002.bsy") }) := by
  have hname : binkBsyName oneOutbound ⟨2, 5020, 2, 0, []⟩ = some (lit "/bt/out/139c0002.bsy") := by
    decide +kernel
  have hflo : binkFindFlo oneOutbound dirFlo ⟨2, 5020, 2, 0, []⟩ none =
      some (lit "/bt/out/139c0002.flo") := by decide +kernel
  refine (@floOpened_iff oneOutbound ⟨2, 5020, 2, 0, []⟩ true false floIdle dirFlo none
    ⟨true, true, [⟨true, true, true, true⟩]⟩ _ (fun _ => not_held_floIdle _ _) (.inl rfl) ?_).mpr
    fun _ =>
      ⟨[], ⟨true, true, true, true⟩, [], rfl, List.forall_mem_nil _,
        .inr ⟨rfl, rfl, rfl, fun _ => List.forall_mem_nil _⟩⟩
  rw [floOpenx, hflo]
  simp only [bsyCreateWait, hname]
  rfl

/-- The file is deleted once behind its lock, and the call was not to append: an ERROR leaves its
BSY file and a closed stream. -/
theorem floOpened_deleted :
    ∃ r, floOpenx oneOutbound dirFlo ⟨2, 5020, 2, 0, []⟩ true none false
        ⟨true, true, [⟨true, true, false, true⟩]⟩ floIdle = some r ∧
      ¬ FloOpened oneOutbound ⟨2, 5020, 2, 0, []⟩ true r := by
  have hname : binkBsyName oneOutbound ⟨2, 5020, 2, 0, []⟩ = some (lit "/bt/out/139c0002.bsy") := by
    decide +kernel
  have hflo : binkFindFlo oneOutbound dirFlo ⟨2, 5020, 2, 0, []⟩ none =
      some (lit "/bt/out/139c0002.flo") := by decide +kernel
  refine ⟨(-1, { floIdle with
    name := lit "/bt/out/139c0002.flo", fp := .closed
    bsys := floIdle.bsys.create (lit "/bt/out/139c0002.bsy") }), ?_, fun h =>
      (h.2 rfl).1 rfl ⟨lit "/bt/out/139c0002.bsy", hname, marks_create _ _⟩⟩
  rw [floOpenx, hflo]
  simp only [bsyCreateWait, hname]
  rfl

end

end Fidogate

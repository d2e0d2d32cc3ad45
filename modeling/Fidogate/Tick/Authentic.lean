/-
# `Fidogate.Tick.Authentic` — whose TIC files have an effect

`check_pass` stands in front of the creation of an area only.  A TIC for a
known area is taken from every linked node, and one for an unknown area from
anybody where a place for those is configured.
-/
import Fidogate.Tick.Process

namespace Fidogate

open Bytes

/-- The sender has an entry in PASSWD, and the password of the TIC is the one
there. -/
def Authentic (t : Tables) (tic : Tick) : Prop :=
  passwdOk tic.pw (passwdLookup t.passwds t.context tic.src) = true

/-- A new directory alone is no change. -/
def Effect.counts : Effect → Bool
  | .mkdir _ => false
  | _ => true

/-- Areas were created or changed, commands run, or something was done. -/
def Changes (st st' : Ftntick) : Prop :=
  st'.af.areas ≠ st.af.areas ∨ st'.af.commands ≠ st.af.commands ∨
    (st'.done.drop st.done.length).any Effect.counts = true

/-- The file of a TIC is not moved to an area: it has no directory, or the file
cannot be copied there. -/
def storeRefused (o : TickOptions) (w : TickWorld) (tic : Tick) (bbs : AreasBBS) : Bool :=
  bbs.passthru || ! w.isDir bbs.dir && ! w.mkdirR bbs.dir ||
    w.copy (pathOf o.inDir tic.file) (pathOf bbs.dir tic.file) == .refused

/-- Nothing is done with a TIC, whoever sent it: it has no area, the sender is
not linked to it, or the area is unknown and there is no place for its file. -/
def Ignored (o : TickOptions) (w : TickWorld) (tic : Tick) (st : Ftntick) : Prop :=
  ∀ area, tic.area = some area →
    match areasbbsLookup st.af.areas area with
    | some bbs => lonSearch bbs.nodes tic.src = false
    | none => ∀ bbs, o.unknownTickArea.bind (areasbbsLookup st.af.areas) = some bbs →
        storeRefused o w tic bbs = true

section

variable {o : TickOptions} {t : Tables} {w : TickWorld} {tic : Tick} {st : Ftntick}

/-! ## What is done is logged -/

theorem changes_of_done {st' : Ftntick} (es : List Effect) (h : st'.done = st.done ++ es)
    (he : es.any Effect.counts = true) : Changes st st' := by
  refine Or.inr (Or.inr ?_)
  rw [h, List.drop_left]
  exact he

/-- Where areas and commands stay, what was done is what counts. -/
theorem changes_iff {st' : Ftntick} (es : List Effect) (ha : st'.af.areas = st.af.areas)
    (hc : st'.af.commands = st.af.commands) (h : st'.done = st.done ++ es) :
    Changes st st' ↔ es.any Effect.counts = true := by
  refine ⟨?_, changes_of_done es h⟩
  rintro (h' | h' | h')
  · exact absurd ha h'
  · exact absurd hc h'
  · rw [h, List.drop_left] at h'
    exact h'

theorem not_changes {st' : Ftntick} (ha : st'.af.areas = st.af.areas)
    (hc : st'.af.commands = st.af.commands) (h : st'.done = st.done) : ¬ Changes st st' := by
  rw [changes_iff [] ha hc (by rw [h, List.append_nil])]
  decide

theorem prefix_did (st : Ftntick) (es : List Effect) : st.done <+: (st.did es).done :=
  List.prefix_append _ _

theorem prefix_ticWithdraw (w : World) (area old : Str) :
    st.done <+: (ticWithdraw t w tic area old st).2.done := by
  unfold ticWithdraw
  dsimp only
  generalize (if st.af.auth.new then st.af.auth
    else areafixAuthCheck t w.stale tic.src tic.pw true) = auth
  split
  · exact List.prefix_refl _
  · exact List.prefix_append _ _

theorem prefix_ticSendOn (area old : Str) (passthru : Bool) (nodes : List Node) :
    st.done <+: (ticSendOn o t w tic area old passthru nodes st).2.done := by
  unfold ticSendOn
  dsimp only
  split
  · exact List.prefix_refl _
  · split
    · exact prefix_did _ _
    · split
      · exact prefix_did _ _
      · exact prefix_did _ _

theorem prefix_ticDistribute (area : Str) (bbs : AreasBBS) (created : Bool) :
    st.done <+: (ticDistribute o t w tic area bbs created st).2.done := by
  unfold ticDistribute
  dsimp only
  split
  · exact prefix_ticWithdraw _ _ _
  · exact prefix_ticSendOn _ _ _ _

theorem prefix_ticAccept (area : Str) (bbs : AreasBBS) (created : Bool) :
    st.done <+: (ticAccept o t w tic area bbs created st).2.done := by
  unfold ticAccept
  dsimp only
  split
  · exact prefix_did _ _
  · split
    · exact prefix_did _ _
    · exact (prefix_did _ _).trans (prefix_ticDistribute _ _ _)

/-- A TIC from a linked node changes the entry of the area at least. -/
theorem changes_ticKnown {area : Str} {bbs : AreasBBS} {created : Bool}
    (h : lonSearch bbs.nodes tic.src = true) :
    Changes st (ticKnown o t w tic area bbs created st).2 := by
  unfold ticKnown
  dsimp only
  rw [h, if_neg (by decide)]
  obtain ⟨es, hes⟩ := @prefix_ticAccept o t w
    { tic with dst := (st.zoned bbs).af.cf.curAddr } ((st.zoned bbs).arrived w.toWorld area)
    area bbs created
  refine changes_of_done (Effect.area area :: es) ?_ rfl
  rw [← hes]
  exact List.append_assoc _ _ _

theorem not_changes_ticKnown {area : Str} {bbs : AreasBBS} {created : Bool}
    (h : lonSearch bbs.nodes tic.src = false) :
    ¬ Changes st (ticKnown o t w tic area bbs created st).2 := by
  unfold ticKnown
  dsimp only
  rw [h, if_pos (by decide)]
  exact not_changes rfl rfl rfl

/-! ## An unknown area -/

theorem copyFile_counts (old new : Str) :
    (copyFile w old new).2.any Effect.counts = (w.copy old new != .refused) := by
  unfold copyFile
  cases w.copy old new <;> rfl

theorem copyFile_ok {old new : Str} (h : (copyFile w old new).1 = true) :
    w.copy old new = .done := by
  unfold copyFile at h
  cases hc : w.copy old new with
  | done => rfl
  | refused =>
      rw [hc] at h
      cases h
  | broken =>
      rw [hc] at h
      cases h

theorem moveFile_counts (cf : Config) (old new : Str) :
    (moveFile w cf tic old new).2.any Effect.counts = (w.copy old new != .refused) := by
  rw [← copyFile_counts]
  unfold moveFile
  dsimp only
  split
  · rfl
  · split
    · rfl
    · next h _ =>
        have hdone := copyFile_ok (by simpa using h)
        simp [copyFile, hdone, Effect.counts]

theorem moveFile_ok {cf : Config} {old new : Str} (h : (moveFile w cf tic old new).1 = true) :
    w.copy old new = .done := by
  unfold moveFile at h
  dsimp only at h
  split at h
  · exact copyFile_ok h
  · next hc => exact copyFile_ok (by simpa using hc)

/-- A file that cannot be moved leaves at most a new directory. -/
theorem ticStore_counts (cf : Config) (bbs : AreasBBS) :
    (ticStore o w cf tic bbs).2.any Effect.counts = ! storeRefused o w tic bbs := by
  have hmove := @moveFile_counts w tic cf (pathOf o.inDir tic.file)
    (pathOf bbs.dir tic.file)
  have hmade : (if w.isDir bbs.dir then [] else [Effect.mkdir bbs.dir]).any Effect.counts =
      false := by
    split <;> rfl
  unfold ticStore storeRefused
  cases bbs.passthru with
  | true => rfl
  | false =>
      cases hd : ! w.isDir bbs.dir && ! w.mkdirR bbs.dir with
      | true => simp
      | false =>
          rw [if_neg (by decide), if_neg (by decide)]
          dsimp only
          split
          · rw [List.any_append, hmade, hmove]
            simp [bne]
          · next h =>
              have hdone := moveFile_ok (by simpa using h)
              rw [List.any_append, List.any_append, List.any_append, hmade, hmove, hdone]
              rfl

/-- Without the password nothing is created, whether it is compared in front
or not: NEW wants it, too. -/
theorem ticCreate_not_authentic {area : Str} {af : Areafix} (h : ¬ Authentic t tic)
    (hl : areasbbsLookup af.areas area = none) :
    (ticCreate o t w.toWorld tic area af).1 = none ∧
      (ticCreate o t w.toWorld tic area af).2.areas = af.areas ∧
      (ticCreate o t w.toWorld tic area af).2.commands = af.commands := by
  have hauth : (areafixAuthCheck t w.stale tic.src tic.pw true).authorized = false := by
    rw [areafixAuthCheck_authorized]
    exact Bool.eq_false_iff.mpr h
  have hnew : ∀ line, cmdNewInt t w.toWorld tic.src line true
      { af with auth := areafixAuthCheck t w.stale tic.src tic.pw true } =
      (OK, { af with auth := areafixAuthCheck t w.stale tic.src tic.pw true }) := by
    intro line
    unfold cmdNewInt cmdNew
    rw [hauth]
    simp
  unfold ticCreate
  split
  · exact ⟨rfl, rfl, rfl⟩
  · split
    · exact ⟨rfl, rfl, rfl⟩
    · dsimp only
      split
      · exact ⟨rfl, rfl, rfl⟩
      · rw [hnew]
        exact ⟨hl, rfl, rfl⟩

/-- Without `-t`, a TIC has an effect only if it is authentic, or else exactly
if it is not one of those that are ignored anyway. -/
theorem processTic_authentic_iff :
    (Changes st (processTic o t w tic st).2 → Authentic t tic) ↔
      Authentic t tic ∨ Ignored o w tic st := by
  have hcase : ¬ Authentic t tic →
      (Changes st (processTic o t w tic st).2 ↔ ¬ Ignored o w tic st) := by
    intro hauth
    unfold processTic Ignored
    cases ha : tic.area with
    | none =>
        refine iff_of_false (not_changes rfl rfl rfl) ?_
        exact fun h => h fun _ h' => by cases h'
    | some area =>
        simp only [Option.some.injEq, forall_eq']
        cases hl : areasbbsLookup st.af.areas area with
        | some bbs =>
            dsimp only
            cases hs : lonSearch bbs.nodes tic.src with
            | false => simp [not_changes_ticKnown hs]
            | true => simp [changes_ticKnown hs]
        | none =>
            dsimp only
            cases hu : o.unknownTickArea.bind (areasbbsLookup st.af.areas) with
            | some bbs =>
                have hchanges : Changes st (ticUnknown o w tic bbs st).2 ↔
                    storeRefused o w tic bbs = false := by
                  have h := @changes_iff st (ticUnknown o w tic bbs st).2 _ rfl rfl rfl
                  rw [ticStore_counts, Bool.not_eq_true'] at h
                  exact h
                simp [hchanges]
            | none =>
                obtain ⟨h1, h2, h3⟩ := @ticCreate_not_authentic o t w tic _ _ hauth hl
                revert h1 h2 h3
                cases ticCreate o t w.toWorld tic area st.af with
                | mk r af =>
                    intro h1 h2 h3
                    cases h1
                    simp [@not_changes st { st with af := af } h2 h3 rfl]
  by_cases hauth : Authentic t tic
  · simp [hauth]
  · rw [hcase hauth]
    simp [hauth]

end

/-! ## A TIC without a password -/

/-- A file system in which everything can be written and nothing is there but
directories. -/
def tickWorld : TickWorld :=
  { files := fun _ => none, isDir := fun _ => true, mkdir := fun _ => true, now := 0, stale := none
    clock := ⟨0, 0, gmtime, fun _ => []⟩, isFile := fun _ => false, mkdirR := fun _ => true
    copy := fun _ _ => .done, unlink := fun _ => true, link := fun _ _ => .done
    relink := fun _ _ => true, put := fun _ => true, seq := fun _ => lit "tk000001.tic"
    expand := id, fareaDir := [] }

def tickOptions : TickOptions :=
  { tFlag := false, unknownTickArea := none, autocreateCheckPass := true, autocreateLine := []
    inDir := lit "/in", passPath := lit "/pass", filesChangeMode := false, routing := [] }

/-- A TIC of 2:5020/9 with one file for an area. -/
def tickOf (area file : String) : Tick :=
  { origin := ⟨2, 5020, 9, 0, []⟩, src := ⟨2, 5020, 9, 0, []⟩, dst := nodeInvalid
    area := some (lit area), file := lit file, replaces := none, desc := [], ldesc := [], crc := 1
    created := none, size := 1, path := [], seenby := [], pw := none, release := -1, date := -1
    app := [] }

/-- The file area FILES of 2:5020/100, with 2:5020/9 as its uplink. -/
def tickAreas : Ftntick :=
  { af :=
      { auth := areafixAuthInit, node := nodeInvalid, changed := false, limG := 0, upl := []
        areas := [{ areasbbsNew with
          area := lit "FILES", dir := lit "/files", zone := 2, nodes := [⟨2, 5020, 9, 0, []⟩] }]
        cf := Config.read ⟨2, ⟨2, 5020, 100, 0, []⟩, ⟨2, 5020, 9, 0, []⟩⟩ [] []
        commands := [] }
    done := [] }

/-- The node is linked, so PASSWD is not asked. -/
theorem processTic_linked :
    ¬ ∀ (o : TickOptions) (t : Tables) (w : TickWorld) (tic : Tick) (st : Ftntick),
      o.tFlag = false → Changes st (processTic o t w tic st).2 → Authentic t tic := by
  intro h
  have h := h tickOptions ⟨false, lit "ff", [], []⟩ tickWorld (tickOf "FILES" "a.zip") tickAreas
    rfl (Or.inr (Or.inr (by decide +kernel)))
  cases h

end Fidogate

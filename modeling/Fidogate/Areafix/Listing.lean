/-
# `Fidogate.Areafix.Listing` — areafix.c: what LIST, AVAIL and UNLINKED show

LIST, AVAIL and UNLINKED print the areas a node may subscribe to, and SUBSCRIBE
asks again.  The two listings want every character of an area's key among the
keys of the node (`permitted`), SUBSCRIBE is content with one (`subDenied`).
-/
import Fidogate.Areafix.Commands
import Fidogate.Common.Message

namespace Fidogate

open Bytes

/-! ## The commands that print -/

/-- A line of the reply: `areafix_tlprintf`. -/
def areafixTlprintf (s : Str) : Str := s.take 4095

/-- The level and the key, as LIST and UNLINKED check them. -/
def permitted (a : Auth) (p : AreasBBS) : Bool :=
  ! decide (p.lvl > a.lvl) && p.key.all fun k => k.all a.key.contains

/-- The other reasons for which LIST (`flag`) and AVAIL leave an area out. -/
def listHides (cf : Config) (node : Node) (flag : Bool) (p : AreasBBS) : Bool :=
  p.zone != node.zone && (decide (p.zone > 6) || decide (node.zone > 6)) ||
  p.state.isNone || areasbbsIsstate p.state 85 ||
  if flag then
    areasbbsIsstate p.state 87 ||
      areasbbsIsstate p.state 70 && (cfGetString cf (lit "FStatusAreaFixList")).isNone
  else
    (cfGetString cf (lit "AreafixAvailPrintsAllAreas")).isNone &&
      (areasbbsIsstate p.state 87 || areasbbsIsstate p.state 70)

/-- Whether AVAIL prints files instead of areas. -/
def listsFiles (cf : Config) (flag : Bool) : Bool :=
  ! flag && (cfGetString cf (lit "AvailFile")).isSome

/-- The areas `cmd_list` prints. -/
def listAreas (st : Areafix) (flag : Bool) : List AreasBBS :=
  if ! st.auth.authorized || listsFiles st.cf flag then []
  else st.areas.filter fun p =>
    lonSearch p.nodes st.node || permitted st.auth p && ! listHides st.cf st.node flag p

/-- The line of an area. -/
def listLine (node : Node) (p : AreasBBS) : Str :=
  let mark :=
    if lonSearch p.nodes node then if lonSearch p.passive node then lit "P" else lit "*"
    else lit " "
  let name := match p.desc with
    | some desc => p.area ++ List.replicate (39 - p.area.length) sp ++ lit ": " ++ desc
    | none => p.area
  bufCopy BUFFERSIZE (mark ++ lit " " ++ name)

/-- `cmd_list`: LIST with `flag`, AVAIL without; the files of AvailFile are
those of the line as it was read. -/
def cmdList (w : World) (st : Areafix) (flag : Bool) : List Str :=
  if ! st.auth.authorized then [lit "Command LIST: not authorized."]
  else
    let head := [[], lit "Areas available to " ++ znf1 st.node ++ lit ":"] ++
      (if flag then [lit "(currently subscribed from uplinks)"]
        else if (cfGetString st.cf (lit "AreafixAvailPrintsAllAreas")).isSome then []
        else [lit "(currently not subscribed from uplinks)"]) ++ [[]]
    let files := if listsFiles st.cf flag then
        (xstrtok (lit ",") ((cfGetString st.cf (lit "AvailFile")).getD [])).flatMap fun n =>
          ((w.files n).map cfLines).getD []
      else []
    (head ++ (listAreas st flag).map (listLine st.node) ++ files ++
      [[], lit "* = linked to this area", lit "P = passive mode (write only)", []]).map
      areafixTlprintf

/-- Whether UNLINKED leaves an area out for its zone. -/
def unlinkedHides (t : Tables) (node : Node) (p : AreasBBS) : Bool :=
  t.areafix && p.zone != node.zone

/-- The areas `cmd_unlinked` prints. -/
def unlinkedAreas (t : Tables) (st : Areafix) : List AreasBBS :=
  if ! st.auth.authorized then []
  else st.areas.filter fun p =>
    permitted st.auth p && ! unlinkedHides t st.node p && ! lonSearch p.nodes st.node

/-- `cmd_unlinked`. -/
def cmdUnlinked (t : Tables) (st : Areafix) : List Str :=
  if ! st.auth.authorized then [lit "Command UNLINKED: not authorized."]
  else
    ([[], znf1 st.node ++ lit " is not linked to the following available areas:", []] ++
      (unlinkedAreas t st).map (fun p : AreasBBS => lit "  " ++ p.area) ++ [[], []]).map
        areafixTlprintf

/-! ## SUBSCRIBE -/

/-- SUBSCRIBE refuses an area for its level or its key. -/
def subDenied (a : Auth) (p : AreasBBS) : Bool :=
  ! a.cmdline && (decide (p.lvl > a.lvl) || p.key.any fun k => ! k.any a.key.contains)

/-- An area passes the two checks of SUBSCRIBE. -/
def subPasses (a : Auth) (p : AreasBBS) : Bool := a.authorized && ! subDenied a p

/-- Refused, the area is left alone; else it is as if it had no level and no
key. -/
theorem subCheck_subDenied (t : Tables) (st : Areafix) (areas : List AreasBBS) (limG : Int)
    (p : AreasBBS) : subCheck t st areas limG p =
      if subDenied st.auth p then .deny
      else subCheck t st areas limG { p with lvl := st.auth.lvl, key := none } := by
  unfold subDenied
  cases hc : st.auth.cmdline with
  | true =>
      unfold subCheck
      simp [hc]
  | false =>
      unfold subCheck
      dsimp only
      rw [hc, if_neg Bool.false_ne_true, if_neg Bool.false_ne_true]
      by_cases hl : p.lvl > st.auth.lvl
      · rw [if_pos hl, if_pos (by simp [hl])]
      · rw [if_neg hl, if_neg (Int.lt_irrefl st.auth.lvl)]
        by_cases hk : p.key.any (fun k => ! k.any st.auth.key.contains) = true
        · rw [if_pos hk, if_pos (by simp [hk])]
        · have hpass : ¬ (! false && (decide (p.lvl > st.auth.lvl) ||
              p.key.any fun k => ! k.any st.auth.key.contains)) = true := by
            simp [hl, Bool.not_eq_true _ ▸ hk]
          rw [if_neg hk, if_neg hpass]
          rfl

/-! ## The two compared -/

/-- Each area that is not linked to the node is shown just if SUBSCRIBE lets it
pass, by LIST, AVAIL and UNLINKED, unless they hide it. -/
def ListsWhatItGrants (t : Tables) (st : Areafix) : Prop :=
  ∀ p ∈ st.areas, lonSearch p.nodes st.node = false →
    (∀ flag, listsFiles st.cf flag = false → listHides st.cf st.node flag p = false →
      (p ∈ listAreas st flag ↔ subPasses st.auth p = true)) ∧
    (unlinkedHides t st.node p = false →
      (p ∈ unlinkedAreas t st ↔ subPasses st.auth p = true))

/-- An area for which the three tests say the same.  On the command line it
has to be one that LIST shows; else the level is too high, or there is no key,
or the node has all of its characters or none. -/
def KeysAgree (a : Auth) (p : AreasBBS) : Prop :=
  a.authorized = true →
    if a.cmdline then p.lvl ≤ a.lvl ∧ ∀ k ∈ p.key, ∀ c ∈ k, c ∈ a.key
    else p.lvl ≤ a.lvl → ∀ k ∈ p.key, k ≠ [] ∧ ((∀ c ∈ k, c ∈ a.key) ∨ ∀ c ∈ k, c ∉ a.key)

/-- One of the listings does not hide an area. -/
def Showable (t : Tables) (st : Areafix) (p : AreasBBS) : Prop :=
  (∃ flag, listsFiles st.cf flag = false ∧ listHides st.cf st.node flag p = false) ∨
    unlinkedHides t st.node p = false

theorem permitted_iff {a : Auth} {p : AreasBBS} :
    permitted a p = true ↔ p.lvl ≤ a.lvl ∧ ∀ k ∈ p.key, ∀ c ∈ k, c ∈ a.key := by
  unfold permitted
  cases p.key <;> simp

theorem subDenied_iff {a : Auth} {p : AreasBBS} (hc : a.cmdline = false) :
    subDenied a p = false ↔ p.lvl ≤ a.lvl ∧ ∀ k ∈ p.key, ∃ c ∈ k, c ∈ a.key := by
  unfold subDenied
  rw [hc]
  cases p.key <;> simp

/-- All and some of the characters are the same where all or none are held. -/
theorem all_iff_some_iff {k : Str} {held : UInt8 → Prop} :
    ((∀ c ∈ k, held c) ↔ ∃ c ∈ k, held c) ↔
      k ≠ [] ∧ ((∀ c ∈ k, held c) ∨ ∀ c ∈ k, ¬ held c) := by
  constructor
  · intro h
    refine ⟨?_, ?_⟩
    · rintro rfl
      obtain ⟨c, hc, -⟩ := h.mp (fun c hc => absurd hc List.not_mem_nil)
      exact absurd hc List.not_mem_nil
    · by_cases hall : ∀ c ∈ k, held c
      · exact Or.inl hall
      · exact Or.inr fun c hc hheld => hall (h.mpr ⟨c, hc, hheld⟩)
  · rintro ⟨hne, hall | hnone⟩
    · obtain ⟨c, hc⟩ := List.exists_mem_of_ne_nil k hne
      exact ⟨fun _ => ⟨c, hc, hall c hc⟩, fun _ => hall⟩
    · obtain ⟨c, hc⟩ := List.exists_mem_of_ne_nil k hne
      exact ⟨fun h => absurd (h c hc) (hnone c hc), fun ⟨c, hc, h⟩ => absurd h (hnone c hc)⟩

theorem keysAgree_iff {a : Auth} {p : AreasBBS} :
    KeysAgree a p ↔ ((a.authorized && permitted a p) = true ↔ subPasses a p = true) := by
  unfold KeysAgree subPasses
  cases ha : a.authorized with
  | false => simp
  | true =>
      rw [Bool.true_and, Bool.true_and, permitted_iff, Bool.not_eq_true']
      cases hc : a.cmdline with
      | true =>
          have hpass : subDenied a p = false := by
            unfold subDenied
            rw [hc]
            rfl
          rw [if_pos rfl]
          exact ⟨fun h => ⟨fun _ => hpass, fun _ => h rfl⟩, fun h _ => h.2 hpass⟩
      | false =>
          rw [if_neg Bool.false_ne_true, subDenied_iff hc]
          cases p.key with
          | none => simp
          | some k =>
              simp only [Option.mem_def, Option.some.injEq, forall_eq']
              rw [← all_iff_some_iff, and_congr_right_iff]
              exact true_imp_iff

/-- The listings show what SUBSCRIBE grants just where the tests agree on every
area that they do not hide. -/
theorem listsWhatItGrants_iff (t : Tables) (st : Areafix) : ListsWhatItGrants t st ↔
    ∀ p ∈ st.areas, lonSearch p.nodes st.node = false → Showable t st p →
      KeysAgree st.auth p := by
  refine forall₃_congr fun p hp hnode => ?_
  have hlist : ∀ flag, listsFiles st.cf flag = false → listHides st.cf st.node flag p = false →
      (p ∈ listAreas st flag ↔ (st.auth.authorized && permitted st.auth p) = true) := by
    intro flag hfiles hhides
    unfold listAreas
    rw [hfiles, Bool.or_false]
    cases st.auth.authorized <;> simp [hp, hnode, hhides]
  have hunlinked : unlinkedHides t st.node p = false →
      (p ∈ unlinkedAreas t st ↔ (st.auth.authorized && permitted st.auth p) = true) := by
    intro hhides
    unfold unlinkedAreas
    cases st.auth.authorized <;> simp [hp, hnode, hhides]
  rw [keysAgree_iff]
  constructor
  · rintro ⟨hl, hu⟩ (⟨flag, hfiles, hhides⟩ | hhides)
    · exact (hlist flag hfiles hhides).symm.trans (hl flag hfiles hhides)
    · exact (hunlinked hhides).symm.trans (hu hhides)
  · intro h
    refine ⟨fun flag hfiles hhides => ?_, fun hhides => ?_⟩
    · exact (hlist flag hfiles hhides).trans (h (Or.inl ⟨flag, hfiles, hhides⟩))
    · exact (hunlinked hhides).trans (h (Or.inr hhides))

/-- A node at level 5 with the key A. -/
def keyTables : Tables :=
  ⟨true, lit "af", [⟨lit "af", ⟨2, 5020, 9, 0, []⟩, lit "secret", some (lit "5 A")⟩], []⟩

/-- It has sent its password, and the area TEST wants the keys A and B. -/
def twoKeys : Areafix :=
  { auth := areafixAuthCheck keyTables none ⟨2, 5020, 9, 0, []⟩ (some (lit "secret")) true
    node := ⟨2, 5020, 9, 0, []⟩, changed := false, limG := 0, upl := []
    areas := [{ areasbbsNew with
      area := lit "TEST", zone := 2, lvl := 5, key := some (lit "AB"), state := some (lit "S")
      nodes := [⟨2, 5020, 1, 0, []⟩] }]
    cf := Config.read ⟨2, ⟨2, 5020, 100, 0, []⟩, ⟨2, 5020, 9, 0, []⟩⟩ [] []
    commands := [] }

/-- The area is not listed, and the node may subscribe to it. -/
theorem listsWhatItGrants_twoKeys :
    ¬ ∀ (t : Tables) (st : Areafix), ListsWhatItGrants t st := by
  intro h
  have hl := (h keyTables twoKeys _ (List.mem_singleton_self _) (by decide +kernel)).1 true
    (by decide +kernel) (by decide +kernel)
  revert hl
  decide +kernel

end Fidogate

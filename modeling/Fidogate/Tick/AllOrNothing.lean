/-
# `Fidogate.Tick.AllOrNothing` — ftntick.c: what has happened when process_tic returns

The file is stored, linked to the directory for the downlinks and from there
sent to one after the other; each of these may fail and ends the processing.
Nothing that was done is undone.
-/
import Fidogate.Areafix.Entries
import Fidogate.Common.NodePrint
import Fidogate.Tick.Authentic

namespace Fidogate

open Bytes

/-! ## What is done for a node -/

/-- The file in the box of a node. -/
def boxFile (o : TickOptions) (cf : Config) (file : Str) (n : Node) : Str :=
  makeDirName o cf n ++ lit "/" ++ file

/-- A file is put there. -/
def Effect.puts (name : Str) : Effect → Bool
  | .link _ new => new == name
  | .copy _ new => new == name
  | _ => false

/-- A TIC file is put in the directory. -/
def Effect.ticIn (dir : Str) : Effect → Bool
  | .tic name _ => hasPrefix (dir ++ lit "/") name
  | _ => false

/-- The file of this name is removed or written over. -/
def Effect.loses (name : Str) : Effect → Bool
  | .unlink old => old == name
  | .copy _ new => new == name
  | .tic new _ => new == name
  | _ => false

/-- A node of the area after its uplinks, neither passive nor in the SEEN-BY,
the sender and ourselves included. -/
structure IsDownlink (cf : Config) (tic : Tick) (bbs : AreasBBS) (n : Node) : Prop where
  linked : n ∈ bbs.nodes.drop bbs.uplinks.toNat
  active : lonSearch bbs.passive n = false
  unseen : lonSearch (tic.seenby ++ [tic.src, cf.curAddr]) n = false

/-- The file and a TIC went to each downlink once and to nobody else, and the
SEEN-BY in the TICs has them all. -/
structure SentOnce (o : TickOptions) (cf : Config) (tic : Tick) (bbs : AreasBBS)
    (es : List Effect) : Prop where
  once : ∀ n, IsDownlink cf tic bbs n →
    es.countP (Effect.puts (boxFile o cf tic.file n)) = 1 ∧
      es.countP (Effect.ticIn (makeDirName o cf n)) = 1
  only : ∀ n, (∀ m, IsDownlink cf tic bbs m → nodeEq m n = false) →
    es.countP (Effect.puts (boxFile o cf tic.file n)) = 0 ∧
      es.countP (Effect.ticIn (makeDirName o cf n)) = 0
  seenby : ∀ name lines, .tic name lines ∈ es → ∃ sent : Tick, lines = tickLines sent ∧
    ∀ n, IsDownlink cf tic bbs n ∨ n ∈ tic.seenby ++ [tic.src, cf.curAddr] →
      lonSearch sent.seenby n = true

/-- The received file is as it was, and nobody was sent anything. -/
structure Untouched (o : TickOptions) (cf : Config) (file : Str) (es : List Effect) : Prop where
  kept : ∀ e ∈ es, e.loses (pathOf o.inDir file) = false
  unsent : ∀ n, es.countP (Effect.puts (boxFile o cf file n)) = 0 ∧
    es.countP (Effect.ticIn (makeDirName o cf n)) = 0

def AllOrNothing (o : TickOptions) (cf : Config) (tic : Tick) (bbs : AreasBBS)
    (r : Bool × Ftntick) : Prop :=
  if r.1 then SentOnce o cf tic bbs r.2.done else Untouched o cf tic.file r.2.done

/-- Where the file of an accepted TIC is stored: the entry, and whether it was
created for it, or takes the files of unknown areas. -/
structure TicPlace where
  bbs : AreasBBS
  created : Bool
  unknown : Bool
  af : Areafix

/-- The address is that for the entry. -/
def TicPlace.cf (p : TicPlace) : Config := cfSetZone p.af.cf p.bbs.zone

/-- The area of the TIC. An unknown one has no nodes. -/
def TicPlace.area (p : TicPlace) : AreasBBS :=
  if p.unknown then { p.bbs with nodes := [] } else p.bbs

/-- A TIC is accepted from a node of the area, also of one created for it, and
for an unknown area where there is a place for these. -/
def ticAccepted (o : TickOptions) (t : Tables) (w : World) (tic : Tick) (af : Areafix) :
    Option TicPlace :=
  match tic.area with
  | none => none
  | some area =>
      match areasbbsLookup af.areas area with
      | some bbs => if lonSearch bbs.nodes tic.src then some ⟨bbs, false, false, af⟩ else none
      | none =>
          match o.unknownTickArea.bind (areasbbsLookup af.areas) with
          | some bbs => some ⟨bbs, false, true, af⟩
          | none =>
              match ticCreate o t w tic area af with
              | (none, _) => none
              | (some bbs, af) =>
                  if lonSearch bbs.nodes tic.src then some ⟨bbs, true, false, af⟩ else none

/-- The other files the processing works on have names of their own. -/
structure TicApart (o : TickOptions) (w : TickWorld) (cf : Config) (tic : Tick) (bbs : AreasBBS)
    (created : Bool) : Prop where
  stored : bbs.passthru = false → pathOf bbs.dir tic.file ≠ pathOf o.inDir tic.file ∧
    ∀ n, pathOf bbs.dir tic.file ≠ boxFile o cf tic.file n
  pass : pathOf o.passPath tic.file ≠ pathOf o.inDir tic.file
  box : ∀ n, boxFile o cf tic.file n ≠ pathOf o.inDir tic.file
  replaced : ∀ old ∈ tic.replaces,
    pathOf (if created then w.fareaDir else bbs.dir) old ≠ pathOf o.inDir tic.file ∧
      ∀ dir ∈ cfGetString cf (lit "TickReplacedDir"),
        pathOf (w.expand dir) old ≠ pathOf o.inDir tic.file ∧
          ∀ n, pathOf (w.expand dir) old ≠ boxFile o cf tic.file n

/-! ## When it is all or nothing -/

/-- The file comes into the box. -/
def ticComes (w : TickWorld) (name box : Str) : Bool :=
  match w.link name box with
  | .done => true
  | .otherDevice => w.copy name box == .done
  | .exists => w.relink name box
  | .failed => false

/-- The file comes to the node. -/
def ticArrives (o : TickOptions) (w : TickWorld) (cf : Config) (file name : Str) (n : Node) :
    Bool :=
  w.mkdirR (makeDirName o cf n) && ticComes w name (boxFile o cf file n)

/-- `tick_send` returns OK: it does not look at the copy to another device. -/
def ticSends (o : TickOptions) (w : TickWorld) (cf : Config) (file name : Str) (n : Node) : Bool :=
  w.mkdirR (makeDirName o cf n) && (ticLink w name (boxFile o cf file n)).1 &&
    w.put (makeDirName o cf n ++ lit "/" ++ w.seq n)

/-- The nodes the file goes to. -/
def ticNodes (w : TickWorld) (cf : Config) (tic : Tick) (bbs : AreasBBS) : List Node :=
  (ticRoute w cf tic bbs).2

/-- Where the file is sent to all nodes, it arrives at all; else the area is a
passthru area, and if the file was to be sent already, the first node has
failed and not got it. -/
def TicSentInTime (o : TickOptions) (w : TickWorld) (cf : Config) (tic : Tick) (bbs : AreasBBS) :
    Prop :=
  let name := pathOf o.passPath tic.file
  if o.passPath.isEmpty || ! (ticPass w (ticFile o tic bbs) name).1 then bbs.passthru = true
  else if (ticNodes w cf tic bbs).all (ticSends o w cf tic.file name) then
    ∀ n ∈ ticNodes w cf tic bbs, ticArrives o w cf tic.file name n = true
  else
    bbs.passthru = true ∧ ∀ n ∈ (ticNodes w cf tic bbs).head?,
      ticSends o w cf tic.file name n = false ∧ ticArrives o w cf tic.file name n = false

/-- Once the replaced file is out of the way and the file in its place, and
unless the area is withdrawn, the sending is all or nothing. -/
def TicInTime (o : TickOptions) (w : TickWorld) (cf : Config) (tic : Tick) (bbs : AreasBBS)
    (created : Bool) : Prop :=
  (ticReplaces w cf tic bbs created).1 = true → (ticStore o w cf tic bbs).1 = true →
    ((ticNodes w cf tic bbs).isEmpty && created && bbs.passthru) = false →
    TicSentInTime o w cf tic bbs

/-! ## Boxes -/

section

variable {o : TickOptions} {t : Tables} {w : TickWorld} {cf : Config} {tic : Tick}
  {bbs : AreasBBS} {created : Bool}

theorem putInt_append_inj {a b : Int} {c d : UInt8} {x y : Str} (hc : c ≠ 45 ∧ isDigit c = false)
    (hd : d ≠ 45 ∧ isDigit d = false) (h : putInt a ++ c :: x = putInt b ++ d :: y) :
    a = b ∧ c :: x = d :: y := by
  have key : ∀ (n : Int) {c : UInt8} (x : Str), c ≠ 45 ∧ isDigit c = false →
      (putInt n ++ c :: x).takeWhile (fun c => c == 45 || isDigit c) = putInt n := by
    intro n c x hc
    have hall : ∀ d ∈ putInt n, (d == 45 || isDigit d) = true := by
      intro d hd
      obtain rfl | hd := putInt_bytes n hd
      · rfl
      · rw [hd, Bool.or_true]
    rw [List.takeWhile_append_of_pos hall, List.takeWhile_cons_of_neg (by simp [hc]),
      List.append_nil]
  have hab : putInt a = putInt b := by rw [← key a x hc, h, key b y hd]
  refine ⟨by rw [← atoi_putInt a, hab, atoi_putInt], ?_⟩
  rw [hab] at h
  exact List.append_cancel_left h

/-- Each node has a directory of its own. -/
theorem makeDirName_inj {n m : Node} {s u : Str}
    (h : makeDirName o cf n ++ lit "/" ++ s = makeDirName o cf m ++ lit "/" ++ u) :
    nodeEq n m = true := by
  have hdot : (46 : UInt8) ≠ 45 ∧ isDigit 46 = false := by decide
  have hflav : ∀ (n : Node) (v : Str), ∃ c x, c ≠ 45 ∧ isDigit c = false ∧
      (if ticFlav o cf n == lit "Hold" &&
          (cfGetString cf (lit "PassthroughtBoxesFlavours")).isSome then lit ".H" else []) ++
        (lit "/" ++ v) = c :: x := by
    intro n v
    split
    · exact ⟨46, 72 :: lit "/" ++ v, by decide, by decide, rfl⟩
    · exact ⟨47, v, by decide, by decide, rfl⟩
  unfold makeDirName at h
  simp only [List.append_assoc] at h
  have h := List.append_cancel_left (List.append_cancel_left h)
  obtain ⟨hzone, h⟩ := putInt_append_inj hdot hdot h
  obtain ⟨hnet, h⟩ := putInt_append_inj hdot hdot (List.cons.inj h).2
  obtain ⟨hnode, h⟩ := putInt_append_inj hdot hdot (List.cons.inj h).2
  have h := (List.cons.inj h).2
  obtain ⟨c, x, hc, hc', hn⟩ := hflav n s
  obtain ⟨d, y, hd, hd', hm⟩ := hflav m u
  change putInt n.point ++ _ = putInt m.point ++ _ at h
  rw [hn, hm] at h
  obtain ⟨hpoint, -⟩ := putInt_append_inj ⟨hc, hc'⟩ ⟨hd, hd'⟩ h
  simp only [nodeEq, hzone, hnet, hnode, hpoint, BEq.rfl, Bool.and_self]

theorem makeDirName_congr {n m : Node} (h : nodeEq n m = true) :
    makeDirName o cf n = makeDirName o cf m := by
  simp only [nodeEq, Bool.and_eq_true, beq_iff_eq] at h
  obtain ⟨⟨⟨hz, hnet⟩, hnode⟩, hp⟩ := h
  have hmatch : nodeMatch n = nodeMatch m := by
    funext pat
    simp only [nodeMatch, hz, hnet, hnode, hp]
  have hflav : ticFlav o cf n = ticFlav o cf m := by simp only [ticFlav, hmatch]
  unfold makeDirName
  rw [hflav, hz, hnet, hnode, hp]

theorem boxFile_eq_iff {file : Str} {n m : Node} :
    (boxFile o cf file n == boxFile o cf file m) = nodeEq n m := by
  cases h : nodeEq n m with
  | true => rw [boxFile, boxFile, makeDirName_congr h, BEq.rfl]
  | false =>
      rw [beq_eq_false_iff_ne]
      intro heq
      rw [makeDirName_inj heq] at h
      cases h

theorem hasPrefix_dir {n m : Node} (s : Str) :
    hasPrefix (makeDirName o cf m ++ lit "/") (makeDirName o cf n ++ lit "/" ++ s) =
      nodeEq n m := by
  cases h : nodeEq n m with
  | true =>
      rw [makeDirName_congr h]
      exact hasPrefix_iff.mpr ⟨s, rfl⟩
  | false =>
      rw [Bool.eq_false_iff]
      intro hpre
      obtain ⟨u, hu⟩ := hasPrefix_iff.mp hpre
      rw [makeDirName_inj hu.symm] at h
      cases h

/-- The file for the downlinks is in nobody's box. -/
theorem pathOf_ne_box (file : Str) (n : Node) : pathOf o.passPath file ≠ boxFile o cf file n := by
  intro h
  have hlen := congrArg List.length h
  have hle : (pathOf o.passPath file).length ≤ o.passPath.length + 1 + file.length := by
    rw [pathOf, bufCopy, List.length_take, List.length_append, List.length_append]
    exact Nat.min_le_right _ _
  have hpos : 0 < (putInt n.zone).length := List.length_pos_iff.mpr (putInt_ne_nil _)
  have hslash : (lit "/").length = 1 := rfl
  simp only [boxFile, makeDirName, List.length_append, hslash] at hlen
  omega

/-! ## Steps that send nothing -/

/-- A TIC file is written. -/
def Effect.isTic : Effect → Bool
  | .tic _ _ => true
  | _ => false

/-- Nothing comes to a box, and no TIC to anybody. -/
def Effect.Unsent (o : TickOptions) (cf : Config) (file : Str) (e : Effect) : Prop :=
  (∀ n, e.puts (boxFile o cf file n) = false) ∧ e.isTic = false

/-- And the received file is as it was. -/
def Effect.Aside (o : TickOptions) (cf : Config) (file : Str) (e : Effect) : Prop :=
  e.loses (pathOf o.inDir file) = false ∧ e.Unsent o cf file

theorem countP_unsent {file : Str} {es : List Effect} (h : ∀ e ∈ es, e.Unsent o cf file)
    (n : Node) : es.countP (Effect.puts (boxFile o cf file n)) = 0 ∧
      es.countP (Effect.ticIn (makeDirName o cf n)) = 0 := by
  rw [List.countP_eq_zero, List.countP_eq_zero]
  refine ⟨fun e he => by rw [(h e he).1 n]; exact Bool.false_ne_true, fun e he hin => ?_⟩
  have htic := (h e he).2
  cases e with
  | tic => cases htic
  | _ => cases hin

theorem tic_not_mem_unsent {file : Str} {es : List Effect} (h : ∀ e ∈ es, e.Unsent o cf file)
    (name : Str) (lines : List Str) : .tic name lines ∉ es := fun he => nomatch (h _ he).2

/-- `copy_file` to a name that is neither that of the received file nor of one
in a box. -/
theorem copyFile_aside {file old new : Str} (hnew : new ≠ pathOf o.inDir file)
    (hbox : ∀ n, new ≠ boxFile o cf file n) :
    ∀ e ∈ (copyFile w old new).2, e.Aside o cf file := by
  unfold copyFile
  split
  · intro e he
    obtain rfl := List.mem_singleton.mp he
    exact ⟨beq_false_of_ne hnew, ⟨fun n => beq_false_of_ne (hbox n), rfl⟩⟩
  · exact fun e he => (nomatch he)
  · intro e he
    obtain rfl := List.mem_singleton.mp he
    exact ⟨beq_false_of_ne hnew, ⟨fun _ => rfl, rfl⟩⟩

theorem unlink_aside {file name : Str} (h : name ≠ pathOf o.inDir file) :
    (Effect.unlink name).Aside o cf file := ⟨beq_false_of_ne h, ⟨fun _ => rfl, rfl⟩⟩

theorem ticReplaces_aside (h : TicApart o w cf tic bbs created) :
    ∀ e ∈ (ticReplaces w cf tic bbs created).2, e.Aside o cf tic.file := by
  unfold ticReplaces
  split
  · exact fun e he => absurd he List.not_mem_nil
  · next old hold =>
      obtain ⟨hname, hdir⟩ := h.replaced old hold
      generalize pathOf (if created then w.fareaDir else bbs.dir) old = oldName at hname ⊢
      dsimp only
      split
      · exact fun e he => absurd he List.not_mem_nil
      · split
        · intro e he
          obtain rfl := List.mem_singleton.mp he
          exact unlink_aside hname
        · next dir hdir' =>
            obtain ⟨hnew, hbox⟩ := hdir dir hdir'
            intro e he
            obtain he | he := List.mem_append.mp he
            · exact copyFile_aside hnew hbox e he
            · split at he
              · obtain rfl := List.mem_singleton.mp he
                exact unlink_aside hname
              · cases he

theorem ticStore_passthru (h : bbs.passthru = true) : ticStore o w cf tic bbs = (true, []) := by
  rw [ticStore, if_pos h]

/-- The file does not leave the inbound unless it is stored. -/
theorem moveFile_spec {old new : Str} (hnew : new ≠ pathOf o.inDir tic.file)
    (hbox : ∀ n, new ≠ boxFile o cf tic.file n) :
    (∀ e ∈ (moveFile w cf tic old new).2, e.Unsent o cf tic.file) ∧
      ((moveFile w cf tic old new).1 = false →
        ∀ e ∈ (moveFile w cf tic old new).2, e.Aside o cf tic.file) ∧
      ((moveFile w cf tic old new).1 = true → .unlink old ∈ (moveFile w cf tic old new).2) := by
  have hcopy := @copyFile_aside o w cf tic.file old new hnew hbox
  unfold moveFile
  dsimp only
  split
  · next hfail =>
      refine ⟨fun e he => (hcopy e he).2, fun _ => hcopy, fun hok => ?_⟩
      rw [hok] at hfail
      cases hfail
  · split
    · exact ⟨fun e he => (hcopy e he).2, fun _ => hcopy, fun hok => (nomatch hok)⟩
    · refine ⟨fun e he => ?_, fun hok => (nomatch hok), fun _ => ?_⟩
      · obtain he | he := List.mem_append.mp he
        · obtain he | he := List.mem_append.mp he
          · exact (hcopy e he).2
          · rw [List.mem_singleton.mp he]
            exact ⟨fun _ => rfl, rfl⟩
        · split at he
          · rw [List.mem_singleton.mp he]
            exact ⟨fun _ => rfl, rfl⟩
          · cases he
      · exact List.mem_append_left _ (List.mem_append_right _ (List.mem_singleton_self _))

theorem addFilesBbs_unsent (dir : Str) :
    ∀ e ∈ addFilesBbs o w tic dir, e.Unsent o cf tic.file := by
  unfold addFilesBbs
  dsimp only
  intro e he
  split at he
  · obtain he | he := List.mem_append.mp he
    · obtain rfl | he := List.mem_cons.mp he
      · exact ⟨fun _ => rfl, rfl⟩
      · rw [List.mem_singleton.mp he]
        exact ⟨fun _ => rfl, rfl⟩
    · split at he
      · rw [List.mem_singleton.mp he]
        exact ⟨fun _ => rfl, rfl⟩
      · cases he
  · cases he

theorem ticStore_spec (h : TicApart o w cf tic bbs created) (hpass : bbs.passthru = false) :
    (∀ e ∈ (ticStore o w cf tic bbs).2, e.Unsent o cf tic.file) ∧
      ((ticStore o w cf tic bbs).1 = false →
        ∀ e ∈ (ticStore o w cf tic bbs).2, e.Aside o cf tic.file) ∧
      ((ticStore o w cf tic bbs).1 = true →
        .unlink (pathOf o.inDir tic.file) ∈ (ticStore o w cf tic bbs).2) := by
  obtain ⟨hnew, hbox⟩ := h.stored hpass
  obtain ⟨hunsent, haside, hmoved⟩ :=
    @moveFile_spec o w cf tic (pathOf o.inDir tic.file) _ hnew hbox
  have hmade : ∀ e ∈ if w.isDir bbs.dir then [] else [Effect.mkdir bbs.dir],
      e.Aside o cf tic.file := by
    intro e he
    split at he
    · cases he
    · rw [List.mem_singleton.mp he]
      exact ⟨rfl, ⟨fun _ => rfl, rfl⟩⟩
  unfold ticStore
  rw [if_neg (by rw [hpass]; exact Bool.false_ne_true)]
  split
  · exact ⟨fun e he => (nomatch he), fun _ e he => (nomatch he), fun hok => (nomatch hok)⟩
  · dsimp only
    split
    · next hfail =>
        have hfail' := (Bool.not_eq_true' _).mp hfail
        have hall : ∀ e ∈ (if w.isDir bbs.dir then [] else [Effect.mkdir bbs.dir]) ++
            (moveFile w cf tic (pathOf o.inDir tic.file) (pathOf bbs.dir tic.file)).2,
            e.Aside o cf tic.file := fun e he =>
          (List.mem_append.mp he).elim (hmade e) (haside hfail' e)
        exact ⟨fun e he => (hall e he).2, fun _ => hall, fun hok => (nomatch hok)⟩
    · next hdone =>
        have hdone' : (moveFile w cf tic (pathOf o.inDir tic.file)
            (pathOf bbs.dir tic.file)).1 = true := by simpa using hdone
        refine ⟨fun e he => ?_, fun hok => (nomatch hok), fun _ => ?_⟩
        · obtain he | he := List.mem_append.mp he
          · obtain he | he := List.mem_append.mp he
            · exact (List.mem_append.mp he).elim (fun he => (hmade e he).2) (hunsent e)
            · split at he
              · rw [List.mem_singleton.mp he]
                exact ⟨fun _ => rfl, rfl⟩
              · cases he
          · exact addFilesBbs_unsent bbs.dir e he
        · exact List.mem_append_left _ (List.mem_append_left _
            (List.mem_append_right _ (hmoved hdone')))

theorem ticStore_unsent (h : TicApart o w cf tic bbs created) :
    ∀ e ∈ (ticStore o w cf tic bbs).2, e.Unsent o cf tic.file := by
  cases hpass : bbs.passthru with
  | true =>
      rw [ticStore_passthru hpass]
      exact fun e he => (nomatch he)
  | false => exact (ticStore_spec h hpass).1

theorem ticStore_aside (h : TicApart o w cf tic bbs created)
    (hs : bbs.passthru = true ∨ (ticStore o w cf tic bbs).1 = false) :
    ∀ e ∈ (ticStore o w cf tic bbs).2, e.Aside o cf tic.file := by
  cases hpass : bbs.passthru with
  | true =>
      rw [ticStore_passthru hpass]
      exact fun e he => (nomatch he)
  | false => exact (ticStore_spec h hpass).2.1 (hs.resolve_left (by simp [hpass]))

theorem ticPass_aside {old : Str} (h : TicApart o w cf tic bbs created) :
    ∀ e ∈ (ticPass w old (pathOf o.passPath tic.file)).2, e.Aside o cf tic.file := by
  unfold ticPass
  split
  · intro e he
    rw [List.mem_singleton.mp he]
    exact ⟨rfl, ⟨fun n => beq_false_of_ne (pathOf_ne_box tic.file n), rfl⟩⟩
  · exact copyFile_aside h.pass (pathOf_ne_box tic.file)

theorem ticFinish_unsent {area file old new : Str} {passthru : Bool} :
    ∀ e ∈ ticFinish cf area file old new passthru, e.Unsent o cf tic.file := by
  unfold ticFinish
  intro e he
  obtain he | he := List.mem_append.mp he
  · obtain he | he := List.mem_append.mp he
    · obtain he | he := List.mem_append.mp he
      · rw [List.mem_singleton.mp he]
        exact ⟨fun _ => rfl, rfl⟩
      · split at he
        · rw [List.mem_singleton.mp he]
          exact ⟨fun _ => rfl, rfl⟩
        · cases he
    · obtain ⟨cmd, -, rfl⟩ := List.mem_map.mp (Option.toList_map .. ▸ he)
      exact ⟨fun _ => rfl, rfl⟩
  · split at he
    · rw [List.mem_singleton.mp he]
      exact ⟨fun _ => rfl, rfl⟩
    · cases he

/-! ## Sending -/

/-- What is linked or copied for a node. -/
theorem ticLink_counts (name : Str) (n m : Node) :
    (ticLink w name (boxFile o cf tic.file n)).2.countP (Effect.puts (boxFile o cf tic.file m)) =
        (if ticComes w name (boxFile o cf tic.file n) && nodeEq n m then 1 else 0) ∧
      (ticLink w name (boxFile o cf tic.file n)).2.countP (Effect.ticIn (makeDirName o cf m)) =
        0 := by
  have hlink : (Effect.link name (boxFile o cf tic.file n)).puts (boxFile o cf tic.file m) =
      nodeEq n m := boxFile_eq_iff
  have hcopy : (Effect.copy name (boxFile o cf tic.file n)).puts (boxFile o cf tic.file m) =
      nodeEq n m := boxFile_eq_iff
  unfold ticLink ticComes copyFile
  cases w.link name (boxFile o cf tic.file n) with
  | done =>
      dsimp only
      rw [List.countP_singleton, hlink, Bool.true_and]
      exact ⟨rfl, rfl⟩
  | otherDevice =>
      cases w.copy name (boxFile o cf tic.file n) with
      | done =>
          dsimp only
          rw [List.countP_singleton, hcopy]
          exact ⟨rfl, rfl⟩
      | refused => exact ⟨rfl, rfl⟩
      | broken => exact ⟨rfl, rfl⟩
  | «exists» =>
      dsimp only
      cases w.relink name (boxFile o cf tic.file n) with
      | true =>
          rw [if_pos rfl, List.countP_cons, List.countP_singleton, hlink, Bool.true_and]
          exact ⟨rfl, rfl⟩
      | false => exact ⟨rfl, rfl⟩
  | failed => exact ⟨rfl, rfl⟩

/-- Nothing but the file in the box is written or removed. -/
theorem ticLink_loses {name box other : Str} (h : box ≠ other) :
    ∀ e ∈ (ticLink w name box).2, e.loses other = false := by
  have hne : (box == other) = false := beq_false_of_ne h
  unfold ticLink copyFile
  intro e he
  split at he
  · rw [List.mem_singleton.mp he]
    rfl
  · split at he
    · rw [List.mem_singleton.mp he]
      exact hne
    · cases he
    · rw [List.mem_singleton.mp he]
      exact hne
  · split at he
    · obtain rfl | he := List.mem_cons.mp he
      · exact hne
      · rw [List.mem_singleton.mp he]
        rfl
    · rw [List.mem_singleton.mp he]
      exact hne
  · cases he

theorem ticLink_no_tic {name box : Str} (file : Str) (lines : List Str) :
    Effect.tic file lines ∉ (ticLink w name box).2 := by
  unfold ticLink copyFile
  intro he
  split at he
  · cases List.mem_singleton.mp he
  · split at he
    · cases List.mem_singleton.mp he
    · cases he
    · cases List.mem_singleton.mp he
  · split at he
    · obtain he | he := List.mem_cons.mp he
      · cases he
      · cases List.mem_singleton.mp he
    · cases List.mem_singleton.mp he
  · cases he

/-- `tick_send`, with what comes of each of its steps. -/
theorem tickSend_cases (name : Str) (n : Node) :
    (w.mkdirR (makeDirName o cf n) = false ∧ tickSend o t w cf tic n name = (false, [])) ∨
    (w.mkdirR (makeDirName o cf n) = true ∧ ticSends o w cf tic.file name n = false ∧
      tickSend o t w cf tic n name = (false, .mkdir (makeDirName o cf n) ::
        (ticLink w name (boxFile o cf tic.file n)).2)) ∨
    (w.mkdirR (makeDirName o cf n) = true ∧ ticSends o w cf tic.file name n = true ∧
      ∃ sent : Tick, sent.seenby = tic.seenby ∧
        tickSend o t w cf tic n name = (true, .mkdir (makeDirName o cf n) ::
          (ticLink w name (boxFile o cf tic.file n)).2 ++
            [.tic (makeDirName o cf n ++ lit "/" ++ w.seq n) (tickLines sent)])) := by
  unfold tickSend ticSends boxFile
  dsimp only
  cases hdir : w.mkdirR (makeDirName o cf n) with
  | false => exact .inl ⟨rfl, rfl⟩
  | true =>
      refine .inr ?_
      rw [Bool.not_true, if_neg Bool.false_ne_true]
      cases hlink : (ticLink w name (makeDirName o cf n ++ lit "/" ++ tic.file)).1 with
      | false => exact .inl ⟨rfl, rfl, rfl⟩
      | true =>
          rw [Bool.not_true, if_neg Bool.false_ne_true]
          cases hput : w.put (makeDirName o cf n ++ lit "/" ++ w.seq n) with
          | false => exact .inl ⟨rfl, rfl, rfl⟩
          | true =>
              refine .inr ⟨rfl, rfl, _, ?_, rfl⟩
              rfl

theorem tickSend_fst (name : Str) (n : Node) :
    (tickSend o t w cf tic n name).1 = ticSends o w cf tic.file name n := by
  obtain ⟨hdir, h⟩ | ⟨-, hs, h⟩ | ⟨-, hs, sent, -, h⟩ := @tickSend_cases o t w cf tic name n
  · rw [h, ticSends, hdir]
    rfl
  · rw [h, hs]
  · rw [h, hs]

/-- What a node gets, and another one. -/
theorem tickSend_counts (name : Str) (n m : Node) :
    (tickSend o t w cf tic n name).2.countP (Effect.puts (boxFile o cf tic.file m)) =
        (if ticArrives o w cf tic.file name n && nodeEq n m then 1 else 0) ∧
      (tickSend o t w cf tic n name).2.countP (Effect.ticIn (makeDirName o cf m)) =
        if ticSends o w cf tic.file name n && nodeEq n m then 1 else 0 := by
  obtain ⟨hput, hin⟩ := @ticLink_counts o w cf tic name n m
  have hmk : (Effect.mkdir (makeDirName o cf n)).puts (boxFile o cf tic.file m) = false := rfl
  have hmk' : (Effect.mkdir (makeDirName o cf n)).ticIn (makeDirName o cf m) = false := rfl
  obtain ⟨hdir, h⟩ | ⟨hdir, hs, h⟩ | ⟨hdir, hs, sent, -, h⟩ := @tickSend_cases o t w cf tic name n
  · rw [h, ticArrives, ticSends, hdir]
    exact ⟨rfl, rfl⟩
  · rw [h, ticArrives, hdir, hs, Bool.true_and, Bool.false_and]
    rw [List.countP_cons_of_neg (by rw [hmk]; exact Bool.false_ne_true),
      List.countP_cons_of_neg (by rw [hmk']; exact Bool.false_ne_true), hput, hin]
    exact ⟨rfl, rfl⟩
  · have htic : (Effect.tic (makeDirName o cf n ++ lit "/" ++ w.seq n) (tickLines sent)).ticIn
        (makeDirName o cf m) = nodeEq n m := hasPrefix_dir _
    rw [h, ticArrives, hdir, hs, Bool.true_and, Bool.true_and]
    rw [List.countP_append, List.countP_append, List.countP_singleton, List.countP_singleton, htic,
      List.countP_cons_of_neg (by rw [hmk]; exact Bool.false_ne_true),
      List.countP_cons_of_neg (by rw [hmk']; exact Bool.false_ne_true), hput, hin, Nat.zero_add]
    exact ⟨rfl, rfl⟩

theorem tickSend_loses {name other : Str} {n : Node} (h : boxFile o cf tic.file n ≠ other)
    (hs : ticSends o w cf tic.file name n = false) :
    ∀ e ∈ (tickSend o t w cf tic n name).2, e.loses other = false := by
  obtain ⟨-, heq⟩ | ⟨-, -, heq⟩ | ⟨-, hs', -⟩ := @tickSend_cases o t w cf tic name n
  · rw [heq]
    exact fun e he => (nomatch he)
  · rw [heq]
    intro e he
    obtain rfl | he := List.mem_cons.mp he
    · rfl
    · exact ticLink_loses h e he
  · rw [hs'] at hs
    cases hs

theorem tickSend_tics {name file : Str} {lines : List Str} {n : Node}
    (h : .tic file lines ∈ (tickSend o t w cf tic n name).2) :
    ∃ sent : Tick, sent.seenby = tic.seenby ∧ lines = tickLines sent := by
  obtain ⟨-, heq⟩ | ⟨-, -, heq⟩ | ⟨-, -, sent, hseen, heq⟩ := @tickSend_cases o t w cf tic name n
  · rw [heq] at h
    cases h
  · rw [heq] at h
    obtain h | h := List.mem_cons.mp h
    · cases h
    · exact absurd h (ticLink_no_tic file lines)
  · rw [heq] at h
    obtain h | h := List.mem_append.mp h
    · obtain h | h := List.mem_cons.mp h
      · cases h
      · exact absurd h (ticLink_no_tic file lines)
    · injection List.mem_singleton.mp h with _ hlines
      exact ⟨sent, hseen, hlines⟩

/-! ## The downlinks one after the other -/

theorem ticSendAll_fst (name : Str) : ∀ ns : List Node,
    (ticSendAll o t w cf tic name ns).1 = ns.all (ticSends o w cf tic.file name)
  | [] => rfl
  | n :: ns => by
      rw [ticSendAll, List.all_cons, ← ticSendAll_fst name ns, ← @tickSend_fst o t]
      cases h : (tickSend o t w cf tic n name).1 with
      | false => exact h
      | true => rfl

/-- Each node for which all goes well gets the file and the TIC. -/
theorem ticSendAll_counts (name : Str) (m : Node) : ∀ ns : List Node,
    (∀ n ∈ ns, ticSends o w cf tic.file name n = true) →
    (ticSendAll o t w cf tic name ns).2.countP (Effect.puts (boxFile o cf tic.file m)) =
        ns.countP (fun n => ticArrives o w cf tic.file name n && nodeEq n m) ∧
      (ticSendAll o t w cf tic name ns).2.countP (Effect.ticIn (makeDirName o cf m)) =
        ns.countP (nodeEq · m)
  | [], _ => ⟨rfl, rfl⟩
  | n :: ns, hall => by
      obtain ⟨hput, hin⟩ :=
        ticSendAll_counts name m ns fun n hn => hall n (List.mem_cons_of_mem _ hn)
      obtain ⟨hput', hin'⟩ := @tickSend_counts o t w cf tic name n m
      have hs := hall n List.mem_cons_self
      rw [ticSendAll, tickSend_fst, hs]
      dsimp only
      rw [Bool.not_true, if_neg Bool.false_ne_true]
      dsimp only
      rw [List.countP_append, List.countP_append, hput, hput', hin, hin', hs, Bool.true_and,
        List.countP_cons, List.countP_cons, Nat.add_comm, Nat.add_comm (ns.countP (nodeEq · m))]
      exact ⟨rfl, rfl⟩

theorem ticSendAll_tics {name file : Str} {lines : List Str} : ∀ {ns : List Node},
    .tic file lines ∈ (ticSendAll o t w cf tic name ns).2 →
    ∃ sent : Tick, sent.seenby = tic.seenby ∧ lines = tickLines sent
  | [], h => by cases h
  | n :: ns, h => by
      rw [ticSendAll] at h
      dsimp only at h
      split at h
      · exact tickSend_tics h
      · obtain h | h := List.mem_append.mp h
        · exact tickSend_tics h
        · exact ticSendAll_tics h

/-- A failure leaves all as it was just where it is that of the first node, and
comes before the file is in its box. -/
theorem ticSendAll_untouched_iff (hbox : ∀ n, boxFile o cf tic.file n ≠ pathOf o.inDir tic.file)
    {name : Str} {ns : List Node} (hfail : ns.all (ticSends o w cf tic.file name) = false) :
    Untouched o cf tic.file (ticSendAll o t w cf tic name ns).2 ↔ ∀ n ∈ ns.head?,
      ticSends o w cf tic.file name n = false ∧ ticArrives o w cf tic.file name n = false := by
  cases ns with
  | nil => cases hfail
  | cons n ns =>
      obtain ⟨hput, hin⟩ := @tickSend_counts o t w cf tic name n n
      have hself : nodeEq n n = true := by simp [nodeEq]
      rw [hself, Bool.and_true] at hput hin
      simp only [List.head?_cons, Option.mem_some_iff, forall_eq']
      rw [ticSendAll, tickSend_fst]
      dsimp only
      constructor
      · intro h
        have hs : ticSends o w cf tic.file name n = false := by
          by_contra hne
          have hs := Bool.eq_true_of_not_eq_false hne
          have hzero := (h.unsent n).2
          rw [hs, Bool.not_true, if_neg Bool.false_ne_true] at hzero
          dsimp only at hzero
          rw [List.countP_append, hin, hs, if_pos rfl] at hzero
          omega
        have hzero := (h.unsent n).1
        rw [hs, Bool.not_false, if_pos rfl, hput] at hzero
        refine ⟨hs, ?_⟩
        by_contra hne
        rw [if_pos (Bool.eq_true_of_not_eq_false hne)] at hzero
        cases hzero
      · rintro ⟨hs, harr⟩
        rw [hs, Bool.not_false, if_pos rfl]
        refine ⟨tickSend_loses (hbox n) hs, fun m => ?_⟩
        obtain ⟨hput, hin⟩ := @tickSend_counts o t w cf tic name n m
        rw [hput, hin, hs, harr, Bool.false_and]
        exact ⟨rfl, rfl⟩

/-! ## The nodes the file goes to -/

theorem lonSearch_congr {a b : Node} (h : nodeEq a b = true) (l : List Node) :
    lonSearch l a = lonSearch l b := by
  have hiff : ∀ c, nodeEq c a = nodeEq c b := fun c => Bool.eq_iff_iff.mpr
    ⟨fun hc => nodeEq_trans hc h, fun hc => nodeEq_trans hc (nodeEq_comm a b ▸ h)⟩
  simp only [lonSearch, hiff]

theorem lonSearch_concat (l : List Node) (n m : Node) :
    lonSearch (l ++ [n]) m = (lonSearch l m || nodeEq n m) := by
  rw [lonSearch_append]
  exact congrArg _ (Bool.or_false _)

/-- A list to which a node is added where it is not in it. -/
theorem lonSearch_add (l : List Node) (n m : Node) :
    lonSearch (if lonSearch l n then l else l ++ [n]) m = lonSearch (l ++ [n]) m := by
  split
  · next hn =>
      rw [lonSearch_concat]
      cases hm : nodeEq n m with
      | true => rw [← lonSearch_congr hm l, hn, Bool.true_or]
      | false => rw [Bool.or_false]
  · rfl

theorem ticSeenby_fst (passive : List Node) : ∀ ps seenby : List Node,
    (ticSeenby passive ps seenby).1 = seenby ++ (ticSeenby passive ps seenby).2
  | [], seenby => (List.append_nil seenby).symm
  | p :: ps, seenby => by
      rw [ticSeenby]
      split
      · dsimp only
        rw [ticSeenby_fst passive ps (seenby ++ [p]), List.append_assoc]
        rfl
      · exact ticSeenby_fst passive ps seenby

theorem mem_ticSeenby {passive : List Node} {n : Node} : ∀ {ps seenby : List Node},
    n ∈ (ticSeenby passive ps seenby).2 →
    n ∈ ps ∧ lonSearch passive n = false ∧ lonSearch seenby n = false
  | [], _, h => by cases h
  | p :: ps, seenby, h => by
      rw [ticSeenby] at h
      split at h
      · next hp =>
          simp only [Bool.and_eq_true, Bool.not_eq_true'] at hp
          obtain rfl | h := List.mem_cons.mp h
          · exact ⟨List.mem_cons_self, hp⟩
          · obtain ⟨hmem, hact, hseen⟩ := mem_ticSeenby h
            rw [lonSearch_append, Bool.or_eq_false_iff] at hseen
            exact ⟨List.mem_cons_of_mem _ hmem, hact, hseen.1⟩
      · obtain ⟨hmem, hact, hseen⟩ := mem_ticSeenby h
        exact ⟨List.mem_cons_of_mem _ hmem, hact, hseen⟩

/-- A node that is new comes once, however often it is in the list. -/
theorem countP_ticSeenby (passive : List Node) (m : Node) : ∀ ps seenby : List Node,
    (ticSeenby passive ps seenby).2.countP (nodeEq · m) =
      if (ps.any fun p => ! lonSearch passive p && nodeEq p m) && ! lonSearch seenby m then 1 else 0
  | [], seenby => rfl
  | p :: ps, seenby => by
      have hseen := lonSearch_concat seenby p m
      have hcongr : nodeEq p m = true → lonSearch seenby p = lonSearch seenby m :=
        fun h => lonSearch_congr h seenby
      rw [ticSeenby, List.any_cons]
      split
      · next hp =>
          rw [List.countP_cons, countP_ticSeenby passive m ps (seenby ++ [p]), hseen]
          rw [Bool.and_eq_true, Bool.not_eq_true', Bool.not_eq_true'] at hp
          rw [hp.1]
          cases hm : nodeEq p m with
          | true => rw [← hcongr hm, hp.2]; simp
          | false => simp
      · next hp =>
          rw [countP_ticSeenby passive m ps seenby]
          cases hm : nodeEq p m with
          | true =>
              rw [← hcongr hm]
              cases hact : lonSearch passive p with
              | true => simp
              | false =>
                  rw [hact] at hp
                  have hin : lonSearch seenby p = true := by simpa using hp
                  simp [hin]
          | false => simp

/-- SEEN-BY with the sender and ourselves is what the nodes are looked up in. -/
theorem ticRoute_eq : ∃ start, (∀ n, lonSearch start n =
      lonSearch (tic.seenby ++ [tic.src, cf.curAddr]) n) ∧
    ticNodes w cf tic bbs = (ticSeenby bbs.passive (bbs.nodes.drop bbs.uplinks.toNat) start).2 ∧
    (ticRoute w cf tic bbs).1.seenby = start ++ ticNodes w cf tic bbs := by
  refine ⟨_, fun n => ?_, rfl, ?_⟩
  rotate_left
  · exact ticSeenby_fst _ _ _
  · rw [lonSearch_add, lonSearch_append, lonSearch_add, ← lonSearch_append, List.append_assoc]
    rfl

theorem IsDownlink.countP {n : Node} (h : IsDownlink cf tic bbs n) :
    (ticNodes w cf tic bbs).countP (nodeEq · n) = 1 := by
  obtain ⟨start, hstart, hnodes, -⟩ := @ticRoute_eq w cf tic bbs
  rw [hnodes, countP_ticSeenby, hstart, h.unseen, if_pos]
  rw [Bool.not_false, Bool.and_true, List.any_eq_true]
  refine ⟨n, h.linked, ?_⟩
  rw [h.active]
  simp [nodeEq]

theorem countP_ticNodes_eq_zero {n : Node}
    (h : ∀ m, IsDownlink cf tic bbs m → nodeEq m n = false) :
    (ticNodes w cf tic bbs).countP (nodeEq · n) = 0 := by
  obtain ⟨start, hstart, hnodes, -⟩ := @ticRoute_eq w cf tic bbs
  rw [List.countP_eq_zero]
  intro m hm hmn
  rw [hnodes] at hm
  obtain ⟨hlinked, hact, hseen⟩ := mem_ticSeenby hm
  rw [hstart] at hseen
  rw [h m ⟨hlinked, hact, hseen⟩] at hmn
  cases hmn

theorem mem_ticNodes {n : Node} (h : n ∈ ticNodes w cf tic bbs) : IsDownlink cf tic bbs n := by
  obtain ⟨start, hstart, hnodes, -⟩ := @ticRoute_eq w cf tic bbs
  rw [hnodes] at h
  obtain ⟨hlinked, hact, hseen⟩ := mem_ticSeenby h
  rw [hstart] at hseen
  exact ⟨hlinked, hact, hseen⟩

theorem lonSearch_ticRoute {n : Node}
    (h : IsDownlink cf tic bbs n ∨ n ∈ tic.seenby ++ [tic.src, cf.curAddr]) :
    lonSearch (ticRoute w cf tic bbs).1.seenby n = true := by
  obtain ⟨start, hstart, -, hseen⟩ := @ticRoute_eq w cf tic bbs
  rw [hseen, lonSearch_append]
  obtain h | h := h
  · have hpos : 0 < (ticNodes w cf tic bbs).countP (nodeEq · n) := by
      rw [h.countP]
      exact Nat.one_pos
    obtain ⟨m, hm, hmn⟩ := List.countP_pos_iff.mp hpos
    rw [Bool.or_eq_true]
    exact .inr (List.any_eq_true.mpr ⟨m, hm, hmn⟩)
  · rw [hstart, Bool.or_eq_true]
    exact .inl (List.any_eq_true.mpr ⟨n, h, by simp [nodeEq]⟩)

/-! ## What has happened -/

theorem forall_of_countP_le {α : Type*} {p q : α → Bool} : ∀ {l : List α},
    l.countP q ≤ l.countP (fun a => p a && q a) → ∀ a ∈ l, q a = true → p a = true
  | [], _, a, ha, _ => by cases ha
  | b :: l, h, a, ha, hq => by
      have hmono : l.countP (fun a => p a && q a) ≤ l.countP q :=
        List.countP_mono_left fun a _ h => (Bool.and_eq_true _ _ ▸ h).2
      rw [List.countP_cons, List.countP_cons] at h
      obtain rfl | ha := List.mem_cons.mp ha
      · by_contra hp
        rw [hq, Bool.eq_false_iff.mpr hp, Bool.false_and, if_pos rfl,
          if_neg Bool.false_ne_true] at h
        omega
      · refine forall_of_countP_le ?_ a ha hq
        split at h <;> split at h
        · omega
        · omega
        · next hb hpq => exact absurd (Bool.and_eq_true _ _ ▸ hpq).2 hb
        · omega

theorem untouched_of_aside {file : Str} {es : List Effect} (h : ∀ e ∈ es, e.Aside o cf file) :
    Untouched o cf file es :=
  ⟨fun e he => (h e he).1, countP_unsent fun e he => (h e he).2⟩

theorem untouched_append_iff {file : Str} {es es' : List Effect}
    (h : ∀ e ∈ es, e.Aside o cf file) :
    Untouched o cf file (es ++ es') ↔ Untouched o cf file es' := by
  have hzero := countP_unsent fun e he => (h e he).2
  constructor
  · intro hall
    refine ⟨fun e he => hall.kept e (List.mem_append_right _ he), fun n => ?_⟩
    obtain ⟨hput, hin⟩ := hall.unsent n
    rw [List.countP_append, (hzero n).1, Nat.zero_add] at hput
    rw [List.countP_append, (hzero n).2, Nat.zero_add] at hin
    exact ⟨hput, hin⟩
  · intro hall
    refine ⟨fun e he => ?_, fun n => ?_⟩
    · exact (List.mem_append.mp he).elim (fun he => (h e he).1) (hall.kept e)
    · rw [List.countP_append, List.countP_append, (hzero n).1, (hzero n).2, (hall.unsent n).1,
        (hall.unsent n).2]
      exact ⟨rfl, rfl⟩

theorem not_untouched {file : Str} {es : List Effect} (h : .unlink (pathOf o.inDir file) ∈ es) :
    ¬ Untouched o cf file es := by
  intro hall
  have hkept := hall.kept _ h
  rw [Effect.loses, BEq.rfl] at hkept
  cases hkept

/-- Where nothing is sent, all was sent just where there is nobody to send to. -/
theorem sentOnce_of_nobody {es : List Effect} (hnodes : ticNodes w cf tic bbs = [])
    (h : ∀ e ∈ es, e.Unsent o cf tic.file) (htic : ∀ name lines, .tic name lines ∉ es) :
    SentOnce o cf tic bbs es where
  once n hn := by
    have hcount := @IsDownlink.countP w cf tic bbs n hn
    rw [hnodes] at hcount
    cases hcount
  only n _ := countP_unsent h n
  seenby name lines hmem := absurd hmem (htic name lines)

/-- The file was sent to all nodes. -/
theorem sentOnce_iff {pre post : List Effect} {name : Str}
    (hpre : ∀ e ∈ pre, e.Unsent o cf tic.file)
    (hpost : ∀ e ∈ post, e.Unsent o cf tic.file)
    (htic : ∀ file lines, .tic file lines ∉ pre ++ post)
    (hall : (ticNodes w cf tic bbs).all (ticSends o w cf tic.file name) = true) :
    SentOnce o cf tic bbs (pre ++ (ticSendAll o t w cf (ticRoute w cf tic bbs).1 name
        (ticNodes w cf tic bbs)).2 ++ post) ↔
      ∀ n ∈ ticNodes w cf tic bbs, ticArrives o w cf tic.file name n = true := by
  have hcounts := fun m => @ticSendAll_counts o t w cf (ticRoute w cf tic bbs).1 name m
    (ticNodes w cf tic bbs) (List.all_eq_true.mp hall)
  have hput : ∀ m, (pre ++ (ticSendAll o t w cf (ticRoute w cf tic bbs).1 name
      (ticNodes w cf tic bbs)).2 ++ post).countP (Effect.puts (boxFile o cf tic.file m)) =
      (ticNodes w cf tic bbs).countP
        (fun n => ticArrives o w cf tic.file name n && nodeEq n m) := by
    intro m
    rw [List.countP_append, List.countP_append, (countP_unsent hpre m).1, (countP_unsent hpost m).1,
      Nat.zero_add, Nat.add_zero]
    exact (hcounts m).1
  have hin : ∀ m, (pre ++ (ticSendAll o t w cf (ticRoute w cf tic bbs).1 name
      (ticNodes w cf tic bbs)).2 ++ post).countP (Effect.ticIn (makeDirName o cf m)) =
      (ticNodes w cf tic bbs).countP (nodeEq · m) := by
    intro m
    rw [List.countP_append, List.countP_append, (countP_unsent hpre m).2, (countP_unsent hpost m).2,
      Nat.zero_add, Nat.add_zero]
    exact (hcounts m).2
  constructor
  · intro h n hn
    have hdown := mem_ticNodes hn
    have hone := (h.once n hdown).1
    rw [hput] at hone
    exact forall_of_countP_le (p := ticArrives o w cf tic.file name) (q := (nodeEq · n))
      (by rw [hone, hdown.countP]) n hn (by simp [nodeEq])
  · intro harr
    have hsame : ∀ m, (ticNodes w cf tic bbs).countP
        (fun n => ticArrives o w cf tic.file name n && nodeEq n m) =
        (ticNodes w cf tic bbs).countP (nodeEq · m) := fun m =>
      List.countP_congr fun n hn => by rw [harr n hn, Bool.true_and]
    refine ⟨fun n hn => ?_, fun n hn => ?_, fun file lines hmem => ?_⟩
    · rw [hput, hin, hsame, hn.countP]
      exact ⟨rfl, rfl⟩
    · rw [hput, hin, hsame, countP_ticNodes_eq_zero hn]
      exact ⟨rfl, rfl⟩
    · obtain hmem | hmem := List.mem_append.mp hmem
      · obtain hmem | hmem := List.mem_append.mp hmem
        · exact absurd (List.mem_append_left _ hmem) (htic file lines)
        · obtain ⟨sent, hsent, hlines⟩ := ticSendAll_tics hmem
          refine ⟨sent, hlines, fun n hn => ?_⟩
          rw [hsent]
          exact lonSearch_ticRoute hn
      · exact absurd (List.mem_append_right _ hmem) (htic file lines)

/-! ## process_tic -/

theorem untouched_iff_passthru {pre es : List Effect}
    (hkept : bbs.passthru = true → ∀ e ∈ pre, e.Aside o cf tic.file)
    (hgone : bbs.passthru = false → .unlink (pathOf o.inDir tic.file) ∈ pre) :
    Untouched o cf tic.file (pre ++ es) ↔ bbs.passthru = true ∧ Untouched o cf tic.file es := by
  cases hpass : bbs.passthru with
  | true =>
      rw [untouched_append_iff (hkept hpass), eq_self, true_and]
  | false =>
      refine iff_of_false (not_untouched (List.mem_append_left _ (hgone hpass))) ?_
      exact fun h => nomatch h.1

/-- What is left once the file is in its place. -/
theorem ticSendOn_iff {st : Ftntick} {area : Str} (h : TicApart o w cf tic bbs created)
    (hcf : st.af.cf = cf) (hunsent : ∀ e ∈ st.done, e.Unsent o cf tic.file)
    (hkept : bbs.passthru = true → ∀ e ∈ st.done, e.Aside o cf tic.file)
    (hgone : bbs.passthru = false → .unlink (pathOf o.inDir tic.file) ∈ st.done) :
    AllOrNothing o cf tic bbs (ticSendOn o t w (ticRoute w cf tic bbs).1 area (ticFile o tic bbs)
        bbs.passthru (ticNodes w cf tic bbs) st) ↔ TicSentInTime o w cf tic bbs := by
  have hpassed := @ticPass_aside o w cf tic bbs created (ticFile o tic bbs) h
  have hnone : Untouched o cf tic.file [] := ⟨fun e he => (nomatch he), fun n => ⟨rfl, rfl⟩⟩
  have hfile : (ticRoute w cf tic bbs).1.file = tic.file := rfl
  rw [ticSendOn, TicSentInTime]
  dsimp only
  rw [hfile, hcf]
  cases hempty : o.passPath.isEmpty with
  | true =>
      rw [if_pos rfl, Bool.true_or, if_pos rfl]
      change Untouched o cf tic.file st.done ↔ _
      rw [← List.append_nil st.done, untouched_iff_passthru hkept hgone]
      exact and_iff_left hnone
  | false =>
      rw [if_neg Bool.false_ne_true, Bool.false_or]
      cases hpass : (ticPass w (ticFile o tic bbs) (pathOf o.passPath tic.file)).1 with
      | false =>
          rw [Bool.not_false, if_pos rfl, if_pos rfl]
          change Untouched o cf tic.file (st.done ++ _) ↔ _
          rw [untouched_iff_passthru hkept hgone]
          exact and_iff_left (untouched_of_aside hpassed)
      | true =>
          rw [Bool.not_true, if_neg Bool.false_ne_true, if_neg Bool.false_ne_true, ticSendAll_fst,
            hfile]
          cases hall : (ticNodes w cf tic bbs).all
              (ticSends o w cf tic.file (pathOf o.passPath tic.file)) with
          | false =>
              rw [Bool.not_false, if_pos rfl, if_neg Bool.false_ne_true]
              change Untouched o cf tic.file (st.done ++ _) ↔ _
              rw [untouched_iff_passthru hkept hgone, untouched_append_iff hpassed]
              exact and_congr_right fun _ =>
                @ticSendAll_untouched_iff o t w cf (ticRoute w cf tic bbs).1 h.box _ _ hall
          | true =>
              rw [Bool.not_true, if_neg Bool.false_ne_true, if_pos rfl]
              change SentOnce o cf tic bbs (st.done ++ (_ ++ _ ++ _)) ↔ _
              rw [← List.append_assoc, ← List.append_assoc]
              have hpre : ∀ e ∈ st.done ++ (ticPass w (ticFile o tic bbs)
                  (pathOf o.passPath tic.file)).2, e.Unsent o cf tic.file := fun e he =>
                (List.mem_append.mp he).elim (hunsent e) fun he => (hpassed e he).2
              refine sentOnce_iff hpre ticFinish_unsent ?_ hall
              exact tic_not_mem_unsent fun e he =>
                (List.mem_append.mp he).elim (hpre e) (ticFinish_unsent e)

theorem ticWithdraw_cases {st : Ftntick} {area old file : Str} :
    ((ticWithdraw t w.toWorld tic area old st).1 = false ∧
      (ticWithdraw t w.toWorld tic area old st).2.done = st.done) ∨
    ((ticWithdraw t w.toWorld tic area old st).1 = true ∧
      ∃ es, (∀ e ∈ es, e.Unsent o cf file) ∧
        (ticWithdraw t w.toWorld tic area old st).2.done = st.done ++ es) := by
  rw [ticWithdraw]
  generalize (if st.af.auth.new then st.af.auth
    else areafixAuthCheck t w.stale tic.src tic.pw true) = auth
  dsimp only
  split
  · exact .inl ⟨rfl, rfl⟩
  · refine .inr ⟨rfl, _, fun e he => ?_, rfl⟩
    obtain he | he := List.mem_append.mp he
    · obtain ⟨a, -, rfl⟩ := List.mem_map.mp (Option.toList_map .. ▸ he)
      exact ⟨fun _ => rfl, rfl⟩
    · rw [List.mem_singleton.mp he]
      exact ⟨fun _ => rfl, rfl⟩

theorem ticDistribute_iff {st : Ftntick} {area : Str} (h : TicApart o w cf tic bbs created)
    (hcf : st.af.cf = cf) (hunsent : ∀ e ∈ st.done, e.Unsent o cf tic.file)
    (hkept : bbs.passthru = true → ∀ e ∈ st.done, e.Aside o cf tic.file)
    (hgone : bbs.passthru = false → .unlink (pathOf o.inDir tic.file) ∈ st.done) :
    AllOrNothing o cf tic bbs (ticDistribute o t w tic area bbs created st) ↔
      (((ticNodes w cf tic bbs).isEmpty && created && bbs.passthru) = false →
        TicSentInTime o w cf tic bbs) := by
  rw [ticDistribute, hcf]
  change AllOrNothing o cf tic bbs (if (ticNodes w cf tic bbs).isEmpty && created && bbs.passthru
    then _ else _) ↔ _
  cases hnone : (ticNodes w cf tic bbs).isEmpty && created && bbs.passthru with
  | false =>
      rw [if_neg Bool.false_ne_true]
      exact (ticSendOn_iff h hcf hunsent hkept hgone).trans ⟨fun h _ => h, fun h => h rfl⟩
  | true =>
      rw [if_pos rfl]
      refine iff_of_true ?_ fun hne => nomatch hne
      simp only [Bool.and_eq_true] at hnone
      have hnodes := List.isEmpty_iff.mp hnone.1.1
      obtain ⟨hr, hdone⟩ | ⟨hr, es, hes, hdone⟩ :=
        @ticWithdraw_cases o t w cf tic st area (ticFile o tic bbs) tic.file
      · rw [AllOrNothing, hr, if_neg Bool.false_ne_true, hdone]
        exact untouched_of_aside (hkept hnone.2)
      · have hall : ∀ e ∈ st.done ++ es, e.Unsent o cf tic.file := fun e he =>
          (List.mem_append.mp he).elim (hunsent e) (hes e)
        rw [AllOrNothing, hr, if_pos rfl, hdone]
        exact sentOnce_of_nobody hnodes hall (tic_not_mem_unsent hall)

theorem ticAccept_iff {st : Ftntick} {area : Str} (h : TicApart o w cf tic bbs created)
    (hcf : st.af.cf = cf) (hdone : ∀ e ∈ st.done, e.Aside o cf tic.file) :
    AllOrNothing o cf tic bbs (ticAccept o t w tic area bbs created st) ↔
      TicInTime o w cf tic bbs created := by
  have hold := ticReplaces_aside h
  rw [ticAccept, TicInTime, hcf]
  dsimp only
  cases hr : (ticReplaces w cf tic bbs created).1 with
  | false =>
      rw [Bool.not_false, if_pos rfl]
      refine iff_of_true (untouched_of_aside fun e he => ?_) fun hne => nomatch hne
      exact (List.mem_append.mp he).elim (hdone e) (hold e)
  | true =>
      rw [Bool.not_true, if_neg Bool.false_ne_true]
      cases hs : (ticStore o w cf tic bbs).1 with
      | false =>
          rw [Bool.not_false, if_pos rfl]
          refine iff_of_true (untouched_of_aside fun e he => ?_) fun _ hne => nomatch hne
          obtain he | he := List.mem_append.mp he
          · exact hdone e he
          · exact (List.mem_append.mp he).elim (hold e) (ticStore_aside h (.inr hs) e)
      | true =>
          rw [Bool.not_true, if_neg Bool.false_ne_true]
          rw [forall_prop_of_true rfl, forall_prop_of_true rfl]
          refine ticDistribute_iff h hcf ?_ ?_ ?_
          · intro e he
            obtain he | he := List.mem_append.mp he
            · exact (hdone e he).2
            · exact (List.mem_append.mp he).elim (fun he => (hold e he).2) (ticStore_unsent h e)
          · intro hpass e he
            obtain he | he := List.mem_append.mp he
            · exact hdone e he
            · exact (List.mem_append.mp he).elim (hold e) (ticStore_aside h (.inl hpass) e)
          · intro hpass
            exact List.mem_append_right _
              (List.mem_append_right _ ((ticStore_spec h hpass).2.2 hs))

/-- Whom a TIC is addressed to does not matter. -/
theorem allOrNothing_dst {dst : Node} {r : Bool × Ftntick} :
    AllOrNothing o cf { tic with dst := dst } bbs r ↔ AllOrNothing o cf tic bbs r := by
  have hdown : ∀ n, IsDownlink cf { tic with dst := dst } bbs n ↔ IsDownlink cf tic bbs n :=
    fun n => ⟨fun h => ⟨h.linked, h.active, h.unseen⟩, fun h => ⟨h.linked, h.active, h.unseen⟩⟩
  unfold AllOrNothing
  split
  · constructor
    · intro h
      refine ⟨fun n hn => h.once n ((hdown n).mpr hn),
        fun n hn => h.only n fun m hm => hn m ((hdown m).mp hm), fun name lines he => ?_⟩
      obtain ⟨sent, hlines, hseen⟩ := h.seenby name lines he
      exact ⟨sent, hlines, fun n hn => hseen n (hn.imp_left (hdown n).mpr)⟩
    · intro h
      refine ⟨fun n hn => h.once n ((hdown n).mp hn),
        fun n hn => h.only n fun m hm => hn m ((hdown m).mpr hm), fun name lines he => ?_⟩
      obtain ⟨sent, hlines, hseen⟩ := h.seenby name lines he
      exact ⟨sent, hlines, fun n hn => hseen n (hn.imp_left (hdown n).mp)⟩
  · exact Iff.rfl

theorem ticKnown_iff {st : Ftntick} {area : Str} (hsrc : lonSearch bbs.nodes tic.src = true)
    (h : TicApart o w (cfSetZone st.af.cf bbs.zone) tic bbs created)
    (hdone : st.done = []) :
    AllOrNothing o (cfSetZone st.af.cf bbs.zone) tic bbs (ticKnown o t w tic area bbs created st) ↔
      TicInTime o w (cfSetZone st.af.cf bbs.zone) tic bbs created := by
  rw [ticKnown, hsrc, Bool.not_true, if_neg Bool.false_ne_true]
  generalize (st.zoned bbs).af.cf.curAddr = dst
  rw [← @allOrNothing_dst _ _ tic _ dst]
  refine @ticAccept_iff o t w _ { tic with dst := dst } bbs created
    ((st.zoned bbs).arrived w.toWorld area) area ⟨h.stored, h.pass, h.box, h.replaced⟩ rfl ?_
  intro e he
  change e ∈ st.done ++ [Effect.area area] at he
  rw [hdone] at he
  rw [List.mem_singleton.mp he]
  exact ⟨rfl, fun _ => rfl, rfl⟩

theorem ticUnknown_allOrNothing {st : Ftntick}
    (h : TicApart o w (cfSetZone st.af.cf bbs.zone) tic bbs created)
    (hdone : st.done = []) :
    AllOrNothing o (cfSetZone st.af.cf bbs.zone) tic { bbs with nodes := [] }
      (ticUnknown o w tic bbs st) := by
  have hunsent := ticStore_unsent h
  have hst : (ticUnknown o w tic bbs st).2.done =
      (ticStore o w (cfSetZone st.af.cf bbs.zone) tic bbs).2 := by
    change st.done ++ _ = _
    rw [hdone]
    rfl
  rw [AllOrNothing, hst]
  change if (ticStore o w (cfSetZone st.af.cf bbs.zone) tic bbs).1 then _ else _
  split
  · refine ⟨fun n hn => ?_, fun n _ => countP_unsent hunsent n, fun name lines he => ?_⟩
    · exact absurd hn.linked (by simp)
    · exact absurd he (tic_not_mem_unsent hunsent name lines)
  · next hfail =>
      exact untouched_of_aside (ticStore_aside h (.inr (Bool.eq_false_iff.mpr hfail)))

theorem ne_boxFile {name file : Str} (h : hasPrefix o.passPath name = false) (n : Node) :
    name ≠ boxFile o cf file n := by
  intro heq
  rw [Bool.eq_false_iff] at h
  refine h (hasPrefix_iff.mpr ?_)
  rw [heq, boxFile, makeDirName]
  simp only [List.append_assoc]
  exact ⟨_, rfl⟩

end

/-- An area with two nodes after its uplink. -/
def twoDownlinks : AreasBBS :=
  { areasbbsNew with
    area := lit "FILES", dir := lit "/files", zone := 2, uplinks := 1
    nodes := [⟨2, 5020, 9, 0, []⟩, ⟨2, 5020, 11, 0, []⟩, ⟨2, 5020, 12, 0, []⟩] }

def twoPlace : TicPlace :=
  ⟨twoDownlinks, false, false, { tickAreas.af with areas := [twoDownlinks] }⟩

theorem ticApart_two (w : TickWorld) :
    TicApart tickOptions w twoPlace.cf (tickOf "FILES" "a.zip") twoDownlinks false where
  stored _ := ⟨by decide +kernel, ne_boxFile (by decide +kernel)⟩
  pass := by decide +kernel
  box n h := ne_boxFile (by decide +kernel) n h.symm
  replaced _ h := nomatch h

end Fidogate

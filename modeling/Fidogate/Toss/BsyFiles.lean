/-
# `Fidogate.Toss.BsyFiles` — ftnpack.c, ftnin.c: BSY files

Three nodes may be involved in packing a packet: the one it is for, the one
whose archive it goes to, and the one whose FLO file names the archive.  Each
function here gives the nodes whose outbound files it writes, in order; the
callers make and remove the BSY files around them.  The outcomes of the file
operations are given beforehand.

A BSY file of a dead process counts as none: `check_stale_lock` removes it.
-/
import Fidogate.Common.Outbound
import Fidogate.Lib.Marks

namespace Fidogate

open Bytes Marks

/-! ## BSY files -/

/-- The BSY files, by name. -/
abbrev Bsys := State Str

/-- `bink_bsy_create (node, NOWAIT)`: `made` tells whether the directory and the
file can be made. -/
def bsyCreateNowait (ob : Outbound) (made : Bool) (n : Node) (s : Bsys) : Option Bsys := do
  let b ← binkBsyName ob n
  if s.marks b = none ∧ made = true then some (s.create b) else none

/-- `bink_bsy_delete`. -/
def bsyRemove (ob : Outbound) (ok : Bool) (n : Node) (s : Bsys) : Bsys :=
  match binkBsyName ob n with
  | none => s
  | some b => s.delete b ok

/-- Writing to files of these nodes; a node without a BSY name has none. -/
def outboundWrites (ob : Outbound) (ns : List Node) (s : Bsys) : Bsys :=
  s.writes (ns.filterMap (binkBsyName ob))

/-! ## Packing -/

/-- The rules of a packing file. -/
inductive PackCmd
  | normal
  | route
  | flo
  | dir
  | move
  deriving DecidableEq, Repr

/-- An archiver, or a program that gets the packet. -/
inductive ArcKind
  | arc
  | prog
  | progn
  deriving DecidableEq, Repr

/-- `ArcProg`; the archiver `noarc` has no program. -/
structure ArcProg where
  pack : ArcKind
  name : Str
  prog : Option Str

/-- `PktDesc`: the node a packet is for, whether it is echomail, and whether its
flavour is crash. -/
structure PktDesc where
  dst : Node
  echomail : Bool
  crash : Bool

/-- What happens in `do_noarc`: whether the OUT file is opened, how many file
attaches are put into the FLO file, and the result. -/
structure NoarcOutcomes where
  touched : Bool
  attached : Nat
  ok : Bool

/-- What happens in `do_arcmail`: the empty archives that are removed, the
directory, the renaming of an echomail packet, the copying of a netmail packet,
the archiver, and whether the FLO file can be opened. -/
structure ArcOutcomes where
  removed : Nat
  mkdir : Bool
  moved : Bool
  copy : NoarcOutcomes
  run : Bool
  attach : Bool

/-- `do_noarc`: with a name the packet is not written to the outbound. -/
def doNoarcNodes (dst flonode : Node) (named : Bool) (o : NoarcOutcomes) : List Node × Bool :=
  ((if ! named && o.touched then [dst] else []) ++ List.replicate o.attached flonode, o.ok)

/-- `do_arcmail`: an archive in another directory is not in the outbound. -/
def doArcmail (ob : Outbound) (arcnode flonode : Node) (desc : PktDesc) (dir : Option Str)
    (o : ArcOutcomes) : List Node × Bool :=
  let arc := fun k => if dir.isNone then List.replicate k arcnode else []
  if dir.isNone && (cfZonesOut ob (if ob.aso then 0 else arcnode.zone)).isNone then ([], false)
  else if ! o.mkdir then (arc o.removed, false)
  else
    let moved :=
      if desc.echomail then ([], o.moved) else doNoarcNodes desc.dst flonode true o.copy
    if ! moved.2 then (arc o.removed ++ moved.1, false)
    else if ! o.run then (arc o.removed ++ moved.1 ++ arc 1, false)
    else if dir.isNone then
      (arc o.removed ++ moved.1 ++ arc 1 ++ (if o.attach then [flonode] else []), o.attach)
    else (arc o.removed ++ moved.1 ++ arc 1, true)

/-- `set_zero`. -/
def setZero (n : Node) : Node :=
  { n with
    zone := if n.zone == -1 then 0 else n.zone
    net := if n.net == -1 then 0 else n.net
    node := if n.node == -1 then 0 else n.node
    point := if n.point == -1 then 0 else n.point }

/-- The outcomes of a call: of making the BSY file, of removing those of the two
nodes, and of what is called in between. -/
structure PackOutcomes where
  made : Bool
  unlinkArc : Bool
  unlinkFlo : Bool
  arc : ArcOutcomes
  noarc : NoarcOutcomes
  prog : Bool

/-- The node of the archive. -/
def arcNode (cmd : PackCmd) (first dst : Node) : Node :=
  setZero (if cmd = .route then first else dst)

/-- The node of the FLO file. -/
def floNode (cmd : PackCmd) (first dst : Node) : Node :=
  setZero (if cmd = .route ∨ cmd = .flo then first else dst)

/-- What `do_pack` calls between its BSY files. -/
def packNodes (ob : Outbound) (cmd : PackCmd) (first : Node) (arc : ArcProg) (desc : PktDesc)
    (o : PackOutcomes) : List Node × Bool :=
  if arc.pack = .arc then
    if ! desc.crash && arc.prog.isSome then
      doArcmail ob (arcNode cmd first desc.dst) (floNode cmd first desc.dst) desc none o.arc
    else doNoarcNodes desc.dst desc.dst false o.noarc
  else ([], o.prog)

/-- `do_pack`; `first` is the first of the nodes of the rule, which has an
archiver. -/
def doPack (ob : Outbound) (cmd : PackCmd) (first : Node) (arc : ArcProg) (desc : PktDesc)
    (o : PackOutcomes) (s : Bsys) : Bsys × Bool :=
  let arcnode := arcNode cmd first desc.dst
  let flonode := floNode cmd first desc.dst
  match if nodeEq arcnode flonode then bsyCreateNowait ob o.made flonode s else some s with
  | none => (s, true)
  | some s =>
      let r := packNodes ob cmd first arc desc o
      let s := outboundWrites ob r.1 s
      let s := bsyRemove ob o.unlinkArc arcnode s
      (if ! nodeEq arcnode flonode then bsyRemove ob o.unlinkFlo flonode s else s, r.2)

/-- What `do_dirpack` calls under its BSY file. -/
def dirpackNodes (ob : Outbound) (cmd : PackCmd) (arc : Option ArcProg) (desc : PktDesc)
    (dir : Str) (o : PackOutcomes) : List Node × Bool :=
  let flonode := setZero desc.dst
  let packed :=
    match arc with
    | some a =>
        if cmd = .dir ∧ a.pack = .arc ∧ a.prog.isSome then
          doArcmail ob flonode flonode desc (some dir) o.arc
        else ([], true)
    | none => ([], true)
  if cmd = .move then
    let moved := doNoarcNodes desc.dst flonode true o.noarc
    (packed.1 ++ moved.1, moved.2)
  else packed

/-- `do_dirpack`. -/
def doDirpack (ob : Outbound) (cmd : PackCmd) (arc : Option ArcProg) (desc : PktDesc) (dir : Str)
    (o : PackOutcomes) (s : Bsys) : Bsys × Bool :=
  let arcnode := setZero desc.dst
  match bsyCreateNowait ob o.made arcnode s with
  | none => (s, true)
  | some s =>
      let r := dirpackNodes ob cmd arc desc dir o
      (bsyRemove ob o.unlinkArc arcnode (outboundWrites ob r.1 s), r.2)

/-! ## Unpacking -/

/-- What `do_packets` finds for an address: whether the BSY file can be made,
whether there is an OUT file and a FLO file, whether that can be opened, and
whether the BSY file can be removed. -/
structure InOutcomes where
  made : Bool
  outFound : Bool
  floFound : Bool
  floOpen : Bool
  unlink : Bool

/-- An address. -/
def doPacketsNode (ob : Outbound) (s : Bsys) (a : Node × InOutcomes) : Bsys :=
  match bsyCreateNowait ob a.2.made a.1 s with
  | none => s
  | some s =>
      let s := outboundWrites ob (if a.2.outFound then [a.1] else []) s
      -- the loop goes on with the next address
      if a.2.floFound && ! a.2.floOpen then s
      else
        let s := outboundWrites ob (if a.2.floFound then [a.1] else []) s
        bsyRemove ob a.2.unlink a.1 s

/-- `do_packets` without `-n`. -/
def doPackets (ob : Outbound) (addrs : List (Node × InOutcomes)) (s : Bsys) : Bsys :=
  addrs.foldl (doPacketsNode ob) s

/-! ## When BSY files are respected -/

/-- The calls. -/
inductive OutCall
  | pack (cmd : PackCmd) (first : Node) (arc : ArcProg) (desc : PktDesc) (o : PackOutcomes)
  | dirpack (cmd : PackCmd) (arc : Option ArcProg) (desc : PktDesc) (dir : Str) (o : PackOutcomes)
  | packets (addrs : List (Node × InOutcomes))

/-- What a call leaves of the BSY files. -/
def OutCall.run (ob : Outbound) : OutCall → Bsys → Bsys
  | .pack cmd first arc desc o, s => (doPack ob cmd first arc desc o s).1
  | .dirpack cmd arc desc dir o, s => (doDirpack ob cmd arc desc dir o s).1
  | .packets addrs, s => doPackets ob addrs s

/-- Making the BSY file of a node succeeds, and it is this file. -/
def Makes (ob : Outbound) (s : Bsys) (n : Node) (made : Bool) (b : Str) : Prop :=
  binkBsyName ob n = some b ∧ s.marks b = none ∧ made = true

/-- Removing the BSY file of a node removes none that was there. -/
def RemovesNone (ob : Outbound) (s : Bsys) (n : Node) (ok : Bool) : Prop :=
  ∀ b, binkBsyName ob n = some b → s.marks b = none ∨ ok = false

/-- The condition on a call.  With one node for archive and FLO file, all files
written are those of this node, unless its BSY file cannot be made; with two,
nothing is written and no BSY file is held for them.  A FLO file that is found
can be opened.  BSY files that were made can be removed. -/
def OutCall.Safe (ob : Outbound) (s : Bsys) : OutCall → Prop
  | .pack cmd first arc desc o =>
      if nodeEq (arcNode cmd first desc.dst) (floNode cmd first desc.dst) then
        ∀ b, Makes ob s (floNode cmd first desc.dst) o.made b → o.unlinkArc = true ∧
          ∀ c ∈ (packNodes ob cmd first arc desc o).1.filterMap (binkBsyName ob), c = b
      else
        (packNodes ob cmd first arc desc o).1.filterMap (binkBsyName ob) = [] ∧
        RemovesNone ob s (arcNode cmd first desc.dst) o.unlinkArc ∧
        RemovesNone ob s (floNode cmd first desc.dst) o.unlinkFlo
  | .dirpack _ _ desc _ o => ∀ b, Makes ob s (setZero desc.dst) o.made b → o.unlinkArc = true
  | .packets addrs => ∀ a ∈ addrs, ∀ b, Makes ob s a.1 a.2.made b →
      a.2.unlink = true ∧ (a.2.floFound = true → a.2.floOpen = true)

theorem binkBsyName_congr (ob : Outbound) {a b : Node} (h : nodeEq a b = true) :
    binkBsyName ob a = binkBsyName ob b := by
  simp only [nodeEq, Bool.and_eq_true, beq_iff_eq] at h
  obtain ⟨⟨⟨h1, h2⟩, h3⟩, h4⟩ := h
  unfold binkBsyName binkOutName
  rw [h1, h2, h3, h4]

section

variable {ob : Outbound} {s : Bsys} {n : Node}

theorem bsyCreateNowait_eq (ob : Outbound) (s : Bsys) (n : Node) (made : Bool) :
    (∃ b, Makes ob s n made b ∧ bsyCreateNowait ob made n s = some (s.create b)) ∨
    (∀ b, ¬ Makes ob s n made b) ∧ bsyCreateNowait ob made n s = none := by
  unfold bsyCreateNowait
  cases hname : binkBsyName ob n with
  | none => exact Or.inr ⟨fun b hb => (by rw [Makes, hname] at hb; cases hb.1), rfl⟩
  | some b =>
      by_cases h : s.marks b = none ∧ made = true
      · exact Or.inl ⟨b, ⟨hname, h⟩, by simp [h]⟩
      · refine Or.inr ⟨fun b' hb' => ?_, by simpa using h⟩
        obtain rfl := Option.some.inj (hname.symm.trans hb'.1)
        exact h hb'.2

theorem Makes.unique {made : Bool} {b c : Str} (hb : Makes ob s n made b)
    (hc : Makes ob s n made c) : c = b :=
  Option.some.inj (hc.1.symm.trans hb.1)

theorem bsyRemove_of_name {b : Str} (h : binkBsyName ob n = some b) (ok : Bool) (s : Bsys) :
    bsyRemove ob ok n s = s.delete b ok := by
  rw [bsyRemove, h]

theorem bsyRemove_removesNone {ok : Bool} (h : RemovesNone ob s n ok) :
    bsyRemove ob ok n s = s := by
  unfold bsyRemove
  split
  · rfl
  · next b hb =>
      rcases h b hb with hm | rfl
      · exact delete_none hm ok
      · rfl

end

/-- With a name, `do_noarc` writes to the FLO file alone. -/
theorem mem_doNoarcNodes_named {dst flonode n : Node} {o : NoarcOutcomes}
    (h : n ∈ (doNoarcNodes dst flonode true o).1) : n = flonode := by
  have h : n ∈ List.replicate o.attached flonode := h
  exact List.eq_of_mem_replicate h

/-- What `do_arcmail` writes is the archive or the FLO file. -/
theorem mem_doArcmail {ob : Outbound} {arcnode flonode n : Node} {desc : PktDesc}
    {dir : Option Str} {o : ArcOutcomes}
    (h : n ∈ (doArcmail ob arcnode flonode desc dir o).1) : n = arcnode ∨ n = flonode := by
  have harc : ∀ k, n ∈ (if dir.isNone then List.replicate k arcnode else []) →
      n = arcnode ∨ n = flonode := by
    intro k hk
    split at hk
    · exact Or.inl (List.eq_of_mem_replicate hk)
    · cases hk
  have hmoved : n ∈ (if desc.echomail = true then (([], o.moved) : List Node × Bool)
      else doNoarcNodes desc.dst flonode true o.copy).1 → n = arcnode ∨ n = flonode := by
    intro hk
    split at hk
    · cases hk
    · exact Or.inr (mem_doNoarcNodes_named hk)
  have hflo : n ∈ (if o.attach = true then [flonode] else []) → n = arcnode ∨ n = flonode := by
    intro hk
    split at hk
    · exact Or.inr (List.mem_singleton.mp hk)
    · cases hk
  unfold doArcmail at h
  dsimp only at h
  generalize (dir.isNone && (cfZonesOut ob (if ob.aso = true then 0 else arcnode.zone)).isNone) =
    nozone at h
  generalize (if desc.echomail = true then (([], o.moved) : List Node × Bool)
    else doNoarcNodes desc.dst flonode true o.copy) = moved at h hmoved
  generalize hremoved : (if dir.isNone then List.replicate o.removed arcnode else []) = removed at h
  generalize hone : (if dir.isNone then List.replicate 1 arcnode else []) = one at h
  have hcopied : n ∈ removed ++ moved.1 → n = arcnode ∨ n = flonode := by
    intro hk
    exact (List.mem_append.mp hk).elim (fun hk => harc _ (hremoved ▸ hk)) hmoved
  have hpacked : n ∈ removed ++ moved.1 ++ one → n = arcnode ∨ n = flonode := by
    intro hk
    exact (List.mem_append.mp hk).elim hcopied fun hk => harc _ (hone ▸ hk)
  split at h
  · cases h
  · split at h
    · exact harc _ (hremoved ▸ h)
    · split at h
      · exact hcopied h
      · split at h
        · exact hpacked h
        · split at h
          · exact (List.mem_append.mp h).elim hpacked hflo
          · exact hpacked h

/-- All that `do_dirpack` writes to is the node of its BSY file. -/
theorem mem_dirpackNodes {ob : Outbound} {cmd : PackCmd} {arc : Option ArcProg} {desc : PktDesc}
    {dir : Str} {o : PackOutcomes} {n : Node}
    (h : n ∈ (dirpackNodes ob cmd arc desc dir o).1) : n = setZero desc.dst := by
  have hpacked : n ∈ (match arc with
      | some a => if cmd = PackCmd.dir ∧ a.pack = ArcKind.arc ∧ a.prog.isSome = true then
          doArcmail ob (setZero desc.dst) (setZero desc.dst) desc (some dir) o.arc
        else ([], true)
      | none => (([], true) : List Node × Bool)).1 → n = setZero desc.dst := by
    intro hk
    split at hk
    · split at hk
      · exact (mem_doArcmail hk).elim id id
      · cases hk
    · cases hk
  unfold dirpackNodes at h
  dsimp only at h
  by_cases hmove : cmd = .move
  · rw [if_pos hmove] at h
    exact (List.mem_append.mp h).elim hpacked mem_doNoarcNodes_named
  · rw [if_neg hmove] at h
    exact hpacked h

section

variable {ob : Outbound} {s : Bsys}

theorem doDirpack_iff (h : s.Idle) (cmd : PackCmd) (arc : Option ArcProg) (desc : PktDesc)
    (dir : Str) (o : PackOutcomes) : Disciplined s (doDirpack ob cmd arc desc dir o s).1 ↔
      ∀ b, Makes ob s (setZero desc.dst) o.made b → o.unlinkArc = true := by
  unfold doDirpack
  dsimp only
  rcases bsyCreateNowait_eq ob s (setZero desc.dst) o.made with ⟨b, hb, hs⟩ | ⟨hnone, hs⟩
  · have hcover : ∀ c ∈ (dirpackNodes ob cmd arc desc dir o).1.filterMap (binkBsyName ob),
        c = b := by
      intro c hc
      obtain ⟨n, hn, hname⟩ := List.mem_filterMap.mp hc
      rw [mem_dirpackNodes hn, hb.1] at hname
      exact (Option.some.inj hname).symm
    rw [hs]
    dsimp only
    rw [bsyRemove_of_name hb.1, outboundWrites, disciplined_section_iff h hb.2.1]
    exact ⟨fun hd _ _ => hd.1, fun hd => ⟨hd b hb, hcover⟩⟩
  · rw [hs]
    exact ⟨fun _ b hb => absurd hb (hnone b), fun _ => disciplined_refl h⟩

theorem strays_bsyRemove (ob : Outbound) (ok : Bool) (n : Node) (s : Bsys) :
    (bsyRemove ob ok n s).strays = s.strays := by
  unfold bsyRemove
  split
  · rfl
  · exact strays_delete _ _ _

theorem marks_bsyRemove_of_none {b : Str} (hb : s.marks b = none) (ok : Bool) (n : Node) :
    (bsyRemove ob ok n s).marks b = none := by
  unfold bsyRemove
  split
  · exact hb
  · exact marks_delete_of_none hb _ _

theorem marks_bsyRemove_self {n : Node} {b : Str} (hb : binkBsyName ob n = some b) (s : Bsys) :
    (bsyRemove ob true n s).marks b = none := by
  rw [bsyRemove_of_name hb]
  exact marks_delete_self s b

/-- A BSY file of another program that is gone was not to be removed. -/
theorem removesNone_of_others (h : s.Idle) {n : Node} {ok : Bool}
    (hgone : ∀ b, binkBsyName ob n = some b → ok = true → s.marks b ≠ some .other) :
    RemovesNone ob s n ok := by
  intro b hb
  cases hok : ok with
  | false => exact Or.inr rfl
  | true =>
      left
      cases hm : s.marks b with
      | none => rfl
      | some w =>
          cases w with
          | own => exact absurd hm (h b)
          | other => exact absurd hm (hgone b hb hok)

/-- Writing and removing without an own BSY file. -/
theorem removes_iff (h : s.Idle) (ns : List Node) (a f : Node) (okA okF : Bool) :
    Disciplined s (bsyRemove ob okF f (bsyRemove ob okA a (outboundWrites ob ns s))) ↔
      ns.filterMap (binkBsyName ob) = [] ∧ RemovesNone ob s a okA ∧ RemovesNone ob s f okF := by
  refine ⟨fun hd => ?_, fun ⟨hns, ha, hf⟩ => ?_⟩
  · have hns : ns.filterMap (binkBsyName ob) = [] := by
      have hstrays := hd.strays
      rw [strays_bsyRemove, strays_bsyRemove] at hstrays
      exact strays_writes_idle h hstrays
    have hsame : outboundWrites ob ns s = s := by
      rw [outboundWrites, hns]
      rfl
    rw [hsame] at hd
    refine ⟨hns, removesNone_of_others h fun b hb hok hm => ?_,
      removesNone_of_others h fun b hb hok hm => ?_⟩
    · have hleft := hd.others b hm
      rw [hok, marks_bsyRemove_of_none (marks_bsyRemove_self hb s)] at hleft
      cases hleft
    · have hleft := hd.others b hm
      rw [hok, marks_bsyRemove_self hb] at hleft
      cases hleft
  · rw [outboundWrites, hns, writes_nil, bsyRemove_removesNone ha, bsyRemove_removesNone hf]
    exact disciplined_refl h

theorem doPack_iff (h : s.Idle) (cmd : PackCmd) (first : Node) (arc : ArcProg) (desc : PktDesc)
    (o : PackOutcomes) : Disciplined s (doPack ob cmd first arc desc o s).1 ↔
      (OutCall.pack cmd first arc desc o).Safe ob s := by
  unfold doPack OutCall.Safe
  dsimp only
  cases heq : nodeEq (arcNode cmd first desc.dst) (floNode cmd first desc.dst) with
  | true =>
      rw [if_pos rfl, if_pos rfl]
      rcases bsyCreateNowait_eq ob s (floNode cmd first desc.dst) o.made with
        ⟨b, hb, hs⟩ | ⟨hnone, hs⟩
      · have hname : binkBsyName ob (arcNode cmd first desc.dst) = some b :=
          (binkBsyName_congr ob heq).trans hb.1
        rw [hs]
        dsimp only
        rw [if_neg (by decide), bsyRemove_of_name hname, outboundWrites,
          disciplined_section_iff h hb.2.1]
        refine ⟨fun hd c hc => ?_, fun hd => hd b hb⟩
        rw [hb.unique hc]
        exact hd
      · rw [hs]
        exact ⟨fun _ b hb => absurd hb (hnone b), fun _ => disciplined_refl h⟩
  | false =>
      rw [if_neg Bool.false_ne_true, if_neg Bool.false_ne_true]
      exact removes_iff h _ _ _ _ _

/-- An address that is unpacked and left. -/
theorem doPacketsNode_eq {a : Node × InOutcomes} {b : Str} (hb : Makes ob s a.1 a.2.made b) :
    doPacketsNode ob s a =
      if a.2.floFound && ! a.2.floOpen then s.create b else (s.create b).delete b a.2.unlink := by
  have hwrites : ∀ found : Bool,
      outboundWrites ob (if found then [a.1] else []) (s.create b) = s.create b := by
    intro found
    refine writes_own fun c hc => ?_
    obtain ⟨n, hn, hname⟩ := List.mem_filterMap.mp hc
    have hn : n = a.1 := by
      split at hn
      · exact List.mem_singleton.mp hn
      · cases hn
    rw [hn, hb.1] at hname
    obtain rfl := Option.some.inj hname
    exact marks_create s b
  have hs : bsyCreateNowait ob a.2.made a.1 s = some (s.create b) := by
    rcases bsyCreateNowait_eq ob s a.1 a.2.made with ⟨c, hc, hs⟩ | ⟨hnone, -⟩
    · rw [hs, hb.unique hc]
    · exact absurd hb (hnone b)
  unfold doPacketsNode
  rw [hs]
  dsimp only
  rw [hwrites, hwrites, bsyRemove_of_name hb.1]

theorem doPacketsNode_skips {a : Node × InOutcomes} (h : ∀ b, ¬ Makes ob s a.1 a.2.made b) :
    doPacketsNode ob s a = s := by
  rcases bsyCreateNowait_eq ob s a.1 a.2.made with ⟨b, hb, -⟩ | ⟨-, hs⟩
  · exact absurd hb (h b)
  · rw [doPacketsNode, hs]

/-- An own BSY file stays: the address is busy from then on. -/
theorem marks_doPacketsNode {b : Str} (hb : s.marks b = some .own) (a : Node × InOutcomes) :
    (doPacketsNode ob s a).marks b = some .own := by
  by_cases h : ∃ c, Makes ob s a.1 a.2.made c
  · obtain ⟨c, hc⟩ := h
    have hne : b ≠ c := by
      rintro rfl
      rw [hc.2.1] at hb
      cases hb
    have hcreate : (s.create c).marks b = some .own := (Function.update_of_ne hne _ _).trans hb
    rw [doPacketsNode_eq hc]
    split
    · exact hcreate
    · unfold State.delete
      split
      · exact (Function.update_of_ne hne _ _).trans hcreate
      · exact hcreate
  · rw [doPacketsNode_skips (not_exists.mp h), hb]

theorem marks_doPackets {b : Str} : ∀ (addrs : List (Node × InOutcomes)) {s : Bsys},
    s.marks b = some .own → (doPackets ob addrs s).marks b = some .own
  | [], _, h => h
  | a :: addrs, _, h => marks_doPackets addrs (marks_doPacketsNode h a)

theorem doPackets_iff (h : s.Idle) : ∀ addrs : List (Node × InOutcomes),
    Disciplined s (doPackets ob addrs s) ↔ (OutCall.packets addrs).Safe ob s
  | [] => ⟨fun _ => List.forall_mem_nil _, fun _ => disciplined_refl h⟩
  | a :: addrs => by
      have ih := doPackets_iff h addrs
      show Disciplined s (doPackets ob addrs (doPacketsNode ob s a)) ↔ ∀ a' ∈ a :: addrs, _
      rw [List.forall_mem_cons]
      by_cases hmakes : ∃ b, Makes ob s a.1 a.2.made b
      · obtain ⟨b, hb⟩ := hmakes
        by_cases hsafe : a.2.unlink = true ∧ (a.2.floFound = true → a.2.floOpen = true)
        · have hopen : (a.2.floFound && ! a.2.floOpen) = false := by
            cases hf : a.2.floFound with
            | false => rfl
            | true =>
                rw [hsafe.2 hf]
                rfl
          rw [doPacketsNode_eq hb, hopen, if_neg Bool.false_ne_true, hsafe.1,
            delete_create hb.2.1, ih]
          exact ⟨fun hd => ⟨fun _ _ => ⟨rfl, hsafe.2⟩, hd⟩, fun hd => hd.2⟩
        · -- the BSY file stays for good
          have hown : (doPacketsNode ob s a).marks b = some .own := by
            rw [doPacketsNode_eq hb]
            split
            · exact marks_create s b
            · next hopen =>
                have hunlink : a.2.unlink = false := by
                  by_contra hu
                  refine hsafe ⟨Bool.not_eq_false _ ▸ hu, fun hf => ?_⟩
                  rw [hf, Bool.true_and, Bool.not_eq_true', Bool.not_eq_false] at hopen
                  exact hopen
                rw [hunlink]
                exact marks_create s b
          exact ⟨fun hd => absurd (marks_doPackets addrs hown) (hd.idle b),
            fun hd => absurd (hd.1 b hb) hsafe⟩
      · rw [doPacketsNode_skips (not_exists.mp hmakes), ih]
        exact ⟨fun hd => ⟨fun b hb => absurd ⟨b, hb⟩ hmakes, hd⟩, fun hd => hd.2⟩

end

/-- BSY files are respected just where the call is safe. -/
theorem bsy_iff (ob : Outbound) (s : Bsys) (h : s.Idle) (c : OutCall) :
    Disciplined s (c.run ob s) ↔ c.Safe ob s := by
  cases c with
  | pack cmd first arc desc o => exact doPack_iff h cmd first arc desc o
  | dirpack cmd arc desc dir o => exact doDirpack_iff h cmd arc desc dir o
  | packets addrs => exact doPackets_iff h addrs

section

/-- The outbound of zone 2. -/
def oneOutbound : Outbound := ⟨false, [(2, lit "out")], some (lit "/bt")⟩

/-- A program holds the BSY file of 2:5020/1. -/
def busyOne : Bsys :=
  { marks := fun b => if b = lit "/bt/out/139c0001.bsy" then some .other else none, strays := [] }

theorem idle_busyOne : busyOne.Idle := by
  intro b
  unfold busyOne
  dsimp only
  split <;> simp

/-- All goes well. -/
def packsOne : PackOutcomes :=
  { made := true, unlinkArc := true, unlinkFlo := true
    arc := ⟨0, true, true, ⟨true, 0, true⟩, true, true⟩
    noarc := ⟨true, 0, true⟩, prog := true }

/-- Echomail for 2:5020/2 is packed while 2:5020/1 is busy. -/
theorem bsy_pack : Disciplined busyOne ((OutCall.pack .normal ⟨2, 5020, 2, 0, []⟩
    ⟨.arc, lit "zip", some (lit "zip %s %s")⟩ ⟨⟨2, 5020, 2, 0, []⟩, true, false⟩ packsOne).run
      oneOutbound busyOne) := by
  refine (bsy_iff oneOutbound busyOne idle_busyOne _).mpr ?_
  have hname : binkBsyName oneOutbound ⟨2, 5020, 2, 0, []⟩ = some (lit "/bt/out/139c0002.bsy") := by
    decide +kernel
  have hwritten : (packNodes oneOutbound .normal ⟨2, 5020, 2, 0, []⟩
      ⟨.arc, lit "zip", some (lit "zip %s %s")⟩ ⟨⟨2, 5020, 2, 0, []⟩, true, false⟩ packsOne).1 =
      [⟨2, 5020, 2, 0, []⟩, ⟨2, 5020, 2, 0, []⟩] := by
    decide +kernel
  show ∀ b, Makes oneOutbound busyOne ⟨2, 5020, 2, 0, []⟩ true b → true = true ∧ _
  intro b hb
  have he : lit "/bt/out/139c0002.bsy" = b := Option.some.inj (hname.symm.trans hb.1)
  refine ⟨rfl, ?_⟩
  show ∀ c ∈ (packNodes oneOutbound .normal ⟨2, 5020, 2, 0, []⟩
      ⟨.arc, lit "zip", some (lit "zip %s %s")⟩ ⟨⟨2, 5020, 2, 0, []⟩, true, false⟩
      packsOne).1.filterMap (binkBsyName oneOutbound), c = b
  intro c hc
  rw [hwritten] at hc
  simp only [List.filterMap_cons, hname, List.filterMap_nil, List.mem_cons, List.not_mem_nil,
    or_false, or_self] at hc
  exact hc.trans he

/-- The archive of 2:5020/2 goes to the FLO file of 2:5020/1, which is busy: both
are written without a BSY file, and that of the other program is removed. -/
theorem flo_not_disciplined : ¬ Disciplined busyOne ((OutCall.pack .flo ⟨2, 5020, 1, 0, []⟩
    ⟨.arc, lit "zip", some (lit "zip %s %s")⟩ ⟨⟨2, 5020, 2, 0, []⟩, true, false⟩ packsOne).run
      oneOutbound busyOne) := by
  intro hd
  have hstrays := hd.strays
  revert hstrays
  decide +kernel

end

end Fidogate

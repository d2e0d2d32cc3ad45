/-
# `Fidogate.Toss.Rewrite` — ftntoss.c: what REWRITE and REMAP rules do

The first rule that fits decides.  A rule is meant to change one address of
the message (`rewriteMeant`, `remapMeant`), part by part: a number of its target
replaces a part, a part the target leaves out or has as a wildcard stays.
`change_addr` takes a wildcard for a number, and a rule that fits for the
addressee changes the sender.
-/
import Fidogate.Toss.Ftnpack
import Fidogate.Toss.Netmail

namespace Fidogate

open Bytes

/-! ## Reading the rules -/

/-- The two patterns of a rule, which stand behind its command. -/
def rulePatterns (zone : Int) : List Str → Option (Node × Node × List Str)
  | src :: dst :: words => do
      let src ← znfpParseDiff src (nodeOld zone)
      let dst ← znfpParseDiff dst (nodeOld zone)
      some (src, dst, words)
  | _ => none

/-- `routing_rewrite` on the words behind its command. -/
def routingRewrite (zone : Int) (type : RewriteType) (args : List Str) : Option Rewrite := do
  let (src, dst, words) ← rulePatterns zone args
  match type, words with
  | .rewrite, _ => some ⟨type, src, dst, lit "*"⟩
  | _, name :: _ => some ⟨type, src, dst, name⟩
  | _, [] => none

/-- `routing_remap`. -/
def routingRemap (zone : Int) (remapTo : Bool) (args : List Str) : Option Remap := do
  let (src, dst, words) ← rulePatterns zone args
  let name ← words.head?
  some ⟨remapTo, src, dst, name⟩

/-- The parts of a pattern: numbers, `EMPTY` or `WILDCARD`. -/
structure Node.Pattern (n : Node) : Prop where
  zone : -2 ≤ n.zone
  net : -2 ≤ n.net
  node : -2 ≤ n.node
  point : -2 ≤ n.point

theorem pattern_nodeOld {zone : Int} (h : 0 ≤ zone) : (nodeOld zone).Pattern := by
  refine ⟨?_, ?_, ?_, ?_⟩ <;> simp only [nodeOld] <;> omega

theorem znfpGetNumber_ge {s t : Str} {v : Int} (h : znfpGetNumber s = some (v, t)) : -2 ≤ v := by
  unfold znfpGetNumber at h
  split at h
  · cases h
    decide
  · split at h
    · cases h
      decide
    · split at h
      · cases h
        omega
      · cases h

theorem znfpPart_ge {c : UInt8} {s t : Str} {o : Option Int} (h : znfpPart c s = some (o, t)) :
    ∀ v ∈ o, -2 ≤ v := by
  unfold znfpPart at h
  split at h
  · split at h
    · obtain ⟨r, hr, he⟩ := Option.map_eq_some_iff.mp h
      cases he
      intro v hv
      cases hv
      exact znfpGetNumber_ge hr
    · cases h
      exact fun v hv => (nomatch hv)
  · cases h
    exact fun v hv => (nomatch hv)

theorem getD_ge {o : Option Int} (h : ∀ v ∈ o, -2 ≤ v) : -2 ≤ o.getD EMPTY := by
  cases o with
  | none => decide
  | some v => exact h v rfl

theorem znfpParseParts_pattern {val1 : Int} {s : Str} {n : Node} (hv : -2 ≤ val1)
    (h : znfpParseParts val1 s = some n) : n.Pattern := by
  simp only [znfpParseParts, Option.bind_eq_bind, Option.bind_eq_some_iff] at h
  obtain ⟨⟨net, s1⟩, h1, ⟨node, s2⟩, h2, ⟨point, s3⟩, h3, h⟩ := h
  have hpoint := getD_ge (znfpPart_ge h3)
  have hnet := znfpPart_ge h1
  have hnode := znfpPart_ge h2
  have hmin : ∀ {c : Prop} [Decidable c] {a b : Int}, -2 ≤ a → -2 ≤ b →
      -2 ≤ if c then a else b := by
    intro c _ a b ha hb
    split
    · exact ha
    · exact hb
  have hopt : ∀ {c : Prop} [Decidable c] {a b : Option Int}, (∀ v ∈ a, -2 ≤ v) →
      (∀ v ∈ b, -2 ≤ v) → ∀ v ∈ if c then a else b, -2 ≤ v := by
    intro c _ a b ha hb
    split
    · exact ha
    · exact hb
  have hone : ∀ {v : Int}, -2 ≤ v → ∀ v' ∈ some v, -2 ≤ v' := fun hv v' hv' => by
    cases hv'
    exact hv
  have hempty : (-2 : Int) ≤ EMPTY := by decide
  have hv1 := hmin (c := net.isSome = true) hempty hv
  have hv2 := hmin (c := node.isSome = true) hempty hv1
  split at h
  · cases h
    exact ⟨hmin hv hempty, getD_ge (hopt (hone hv1) hnet),
      getD_ge (hopt (hone (hmin hempty hv2)) (hopt (hone hv2) hnode)), hpoint⟩
  · split at h
    · cases h
      exact ⟨hmin hv hempty, getD_ge (hopt (hone hv1) hnet),
        getD_ge (hopt (hone (hmin hempty hv2)) (hopt (hone hv2) hnode)), hpoint⟩
    · cases h

theorem znfpParseDiff_pattern {asc : Str} {old n : Node} (hold : old.Pattern)
    (h : znfpParseDiff asc old = some n) : n.Pattern := by
  have hpartial : ∀ {m : Node}, znfpParsePartial asc = some m → m.Pattern := by
    intro m hm
    unfold znfpParsePartial at hm
    split at hm
    · cases hm
      exact ⟨by decide, by decide, by decide, by decide⟩
    · split at hm
      · cases hm
      · split at hm
        · exact znfpParseParts_pattern (by decide) hm
        · obtain ⟨⟨v, s⟩, hv, hm⟩ := Option.bind_eq_some_iff.mp hm
          exact znfpParseParts_pattern (znfpGetNumber_ge hv) hm
  simp only [znfpParseDiff, Option.bind_eq_bind, Option.bind_eq_some_iff] at h
  obtain ⟨m, hm, h⟩ := h
  obtain ⟨h1, h2, h3, h4⟩ := hpartial hm
  split at h
  · cases h
    exact ⟨h1, h2, h3, h4⟩
  · split at h
    · cases h
      exact ⟨hold.zone, h2, h3, h4⟩
    · split at h
      · cases h
        exact ⟨hold.zone, hold.net, h3, h4⟩
      · cases h
        exact ⟨hold.zone, hold.net, hold.node, h4⟩

/-- The patterns of a rule that was read. -/
theorem pattern_rulePatterns {zone : Int} (hzone : 0 ≤ zone) {args words : List Str}
    {src dst : Node} (h : rulePatterns zone args = some (src, dst, words)) :
    src.Pattern ∧ dst.Pattern := by
  unfold rulePatterns at h
  split at h
  · simp only [Option.bind_eq_bind, Option.bind_eq_some_iff] at h
    obtain ⟨src', hsrc, dst', hdst, he⟩ := h
    cases he
    exact ⟨znfpParseDiff_pattern (pattern_nodeOld hzone) hsrc,
      znfpParseDiff_pattern (pattern_nodeOld hzone) hdst⟩
  · cases h

theorem pattern_routingRewrite {zone : Int} (hzone : 0 ≤ zone) {type : RewriteType}
    {args : List Str} {r : Rewrite} (h : routingRewrite zone type args = some r) :
    r.src.Pattern ∧ r.dst.Pattern := by
  simp only [routingRewrite, Option.bind_eq_bind, Option.bind_eq_some_iff] at h
  obtain ⟨⟨src, dst, words⟩, hp, h⟩ := h
  have hpat := pattern_rulePatterns hzone hp
  split at h <;> cases h <;> exact hpat

theorem pattern_routingRemap {zone : Int} (hzone : 0 ≤ zone) {remapTo : Bool} {args : List Str}
    {r : Remap} (h : routingRemap zone remapTo args = some r) : r.src.Pattern ∧ r.dst.Pattern := by
  simp only [routingRemap, Option.bind_eq_bind, Option.bind_eq_some_iff] at h
  obtain ⟨⟨src, dst, words⟩, hp, name, -, h⟩ := h
  cases h
  exact pattern_rulePatterns hzone hp

/-! ## What the rules are for -/

/-- The two addresses of a message. -/
inductive Side
  | sender
  | addressee
  deriving DecidableEq, Repr

/-- The address a rule fits for, the sender's before the addressee's. -/
def Rewrite.side (r : Rewrite) (msg : Message) : Option Side :=
  if nodeMatch msg.nodeFrom r.src && (r.type == .rewrite ||
      r.type == .rewriteFrom && wildmatch msg.nameFrom r.name true) then some .sender
  else if nodeMatch msg.nodeTo r.src && (r.type == .rewrite ||
      r.type == .rewriteTo && wildmatch msg.nameTo r.name true) then some .addressee
  else none

/-- A part of an address, and that part of the target. -/
def partBy (v p : Int) : Int := if 0 ≤ p then p else v

/-- The address with the numbers of the target. -/
def Node.retarget (n target : Node) : Node :=
  { n with
    zone := partBy n.zone target.zone
    net := partBy n.net target.net
    node := partBy n.node target.node
    point := partBy n.point target.point }

/-- The message where one address is changed. -/
def Side.change (f : Node → Node) (msg : Message) : Side → Message
  | .sender => { msg with nodeFrom := f msg.nodeFrom }
  | .addressee => { msg with nodeTo := f msg.nodeTo }

/-- What REWRITE rules make of a message: the first that fits changes the
address it fits for. -/
def rewriteMeant (rules : List Rewrite) (msg : Message) : Message :=
  match rules.findSome? fun r => (r.side msg).map (·, r.dst) with
  | none => msg
  | some (side, target) => side.change (·.retarget target) msg

/-- What REMAP rules make of it: the first that fits changes the addressee, and
kills the message where that becomes 0:0/0.0. -/
def remapMeant (rules : List Remap) (msg : Message) : Option Message :=
  match rules.find? (·.fits msg) with
  | none => some msg
  | some r =>
      let n := msg.nodeTo.retarget r.dst
      if nodeEq n nodeClear then none else some { msg with nodeTo := n }

/-- No part of the address is negative. -/
def Node.Numbers (n : Node) : Prop := 0 ≤ n.zone ∧ 0 ≤ n.net ∧ 0 ≤ n.node ∧ 0 ≤ n.point

/-- The rules do what they are for, and make numbers of numbers. -/
structure RulesObeyed (rewrites : List Rewrite) (remaps : List Remap) (msg : Message) : Prop where
  rewrite : doRewrite rewrites msg = rewriteMeant rewrites msg
  remap : doRemap remaps msg = remapMeant remaps msg
  rewritten : msg.nodeFrom.Numbers → msg.nodeTo.Numbers →
    (doRewrite rewrites msg).nodeFrom.Numbers ∧ (doRewrite rewrites msg).nodeTo.Numbers
  remapped : msg.nodeFrom.Numbers → msg.nodeTo.Numbers →
    ∀ msg' ∈ doRemap remaps msg, msg'.nodeFrom.Numbers ∧ msg'.nodeTo.Numbers

/-! ## Part by part -/

/-- Each part of the address stands to that of the pattern like this. -/
def Node.Parts (R : Int → Int → Prop) (n pat : Node) : Prop :=
  R n.zone pat.zone ∧ R n.net pat.net ∧ R n.node pat.node ∧ R n.point pat.point

instance (R : Int → Int → Prop) [∀ v p, Decidable (R v p)] (n pat : Node) :
    Decidable (n.Parts R pat) := inferInstanceAs (Decidable (_ ∧ _ ∧ _ ∧ _))

/-- The part of the target is a number, or left out, or what is there. -/
def PlainPart (v p : Int) : Prop := 0 ≤ p ∨ p = -1 ∨ p = v

/-- The part of the target is left out, or what is there. -/
def LeavesOut (v p : Int) : Prop := p = -1 ∨ p = v

/-- The part of the target is no number, or what is there. -/
def GivesNothing (v p : Int) : Prop := p < 0 ∨ p = v

/-- What the rule that decides must have for its target: no wildcard; and where
it fits for the addressee, no part that the sender does not have, and no number
that the addressee does not have. -/
def TargetOk (side : Side) (target : Node) (msg : Message) : Prop :=
  match side with
  | .sender => msg.nodeFrom.Parts PlainPart target
  | .addressee => msg.nodeFrom.Parts LeavesOut target ∧ msg.nodeTo.Parts GivesNothing target

/-- The condition on the rules that decide. -/
structure RulesOk (rewrites : List Rewrite) (remaps : List Remap) (msg : Message) : Prop where
  rewrite : ∀ r ∈ rewrites.findSome? fun r => (r.side msg).map (·, r.dst), TargetOk r.1 r.2 msg
  remap : ∀ r ∈ remaps.find? (·.fits msg), msg.nodeTo.Parts PlainPart r.dst

/-- A message that was read and a rule that was read: the target has no
wildcard. -/
theorem parts_plainPart_iff {n pat : Node} (hn : n.Numbers) (hp : pat.Pattern) :
    n.Parts PlainPart pat ↔ pat.wild = false := by
  have part : ∀ {v p : Int}, 0 ≤ v → -2 ≤ p → (PlainPart v p ↔ (p == WILDCARD) = false) := by
    intro v p hv hp
    unfold PlainPart WILDCARD
    rw [beq_eq_false_iff_ne]
    omega
  obtain ⟨h1, h2, h3, h4⟩ := hn
  simp only [Node.Parts, Node.wild, Bool.or_eq_false_iff, part h1 hp.zone, part h2 hp.net,
    part h3 hp.node, part h4 hp.point, and_assoc]

theorem changeAddr_eq_retarget_iff {n target : Node} :
    changeAddr n target = n.retarget target ↔ n.Parts PlainPart target := by
  have part : ∀ v p : Int, (if p != -1 then p else v) = partBy v p ↔ PlainPart v p := by
    intro v p
    unfold partBy PlainPart
    by_cases h : p = -1
    · simp [h]
    · by_cases h0 : 0 ≤ p <;> simp [h, h0]
  simp only [changeAddr, Node.retarget, Node.Parts, Node.mk.injEq, part, and_true]

theorem changeAddr_eq_self_iff {n target : Node} :
    changeAddr n target = n ↔ n.Parts LeavesOut target := by
  have part : ∀ v p : Int, (if p != -1 then p else v) = v ↔ LeavesOut v p := by
    intro v p
    unfold LeavesOut
    by_cases h : p = -1 <;> simp [h]
  cases n
  simp only [changeAddr, Node.Parts, Node.mk.injEq, part, and_true]

theorem retarget_eq_self_iff {n target : Node} :
    n.retarget target = n ↔ n.Parts GivesNothing target := by
  have part : ∀ v p : Int, partBy v p = v ↔ GivesNothing v p := by
    intro v p
    unfold partBy GivesNothing
    by_cases h : 0 ≤ p
    · simp [h, Int.not_lt.mpr h]
    · simp [h, Int.not_le.mp h]
  cases n
  simp only [Node.retarget, Node.Parts, Node.mk.injEq, part, and_true]

theorem Node.Numbers.retarget {n : Node} (h : n.Numbers) (target : Node) :
    (n.retarget target).Numbers := by
  have part : ∀ {v p : Int}, 0 ≤ v → 0 ≤ partBy v p := by
    intro v p hv
    unfold partBy
    split
    · assumption
    · exact hv
  obtain ⟨h1, h2, h3, h4⟩ := h
  exact ⟨part h1, part h2, part h3, part h4⟩

/-! ## The rules as they are applied -/

theorem Rewrite.fits_eq (r : Rewrite) (msg : Message) : r.fits msg = (r.side msg).isSome := by
  unfold Rewrite.fits Rewrite.side
  split
  · next h => rw [h, Bool.true_or, Option.isSome_some]
  · next h =>
      rw [Bool.eq_false_iff.mpr h, Bool.false_or]
      split
      · next h => rw [h, Option.isSome_some]
      · next h => rw [Bool.eq_false_iff.mpr h, Option.isSome_none]

/-- The rule that fits first is the one that decides. -/
theorem find?_fits (msg : Message) : ∀ rules : List Rewrite,
    (rules.find? (·.fits msg)).map (·.dst) =
      (rules.findSome? fun r => (r.side msg).map (·, r.dst)).map (·.2)
  | [] => rfl
  | r :: rules => by
      rw [List.find?_cons, List.findSome?_cons, r.fits_eq]
      cases r.side msg with
      | none => exact find?_fits msg rules
      | some side => rfl

theorem doRewrite_eq (rules : List Rewrite) (msg : Message) : doRewrite rules msg =
    match rules.findSome? fun r => (r.side msg).map (·, r.dst) with
    | none => msg
    | some (_, target) => { msg with nodeFrom := changeAddr msg.nodeFrom target } := by
  have h := find?_fits msg rules
  unfold doRewrite
  cases hs : rules.findSome? fun r => (r.side msg).map (·, r.dst) with
  | none =>
      rw [hs, Option.map_none, Option.map_eq_none_iff] at h
      rw [h]
  | some r =>
      rw [hs, Option.map_some] at h
      obtain ⟨r', hr', hdst⟩ := Option.map_eq_some_iff.mp h
      rw [hr']
      dsimp only
      rw [hdst]

theorem doRewrite_meant_iff (rules : List Rewrite) (msg : Message) :
    doRewrite rules msg = rewriteMeant rules msg ↔
      ∀ r ∈ rules.findSome? fun r => (r.side msg).map (·, r.dst), TargetOk r.1 r.2 msg := by
  rw [doRewrite_eq, rewriteMeant]
  cases rules.findSome? fun r => (r.side msg).map (·, r.dst) with
  | none => exact ⟨fun _ r hr => (nomatch hr), fun _ => rfl⟩
  | some r =>
      obtain ⟨side, target⟩ := r
      have hsome : (∀ r ∈ some (side, target), TargetOk r.1 r.2 msg) ↔ TargetOk side target msg :=
        ⟨fun h => h _ rfl, fun h r hr => by cases hr; exact h⟩
      rw [hsome]
      cases side with
      | sender =>
          refine Iff.trans ?_ changeAddr_eq_retarget_iff
          exact ⟨fun h => congrArg Message.nodeFrom h,
            fun h => congrArg (fun n => { msg with nodeFrom := n }) h⟩
      | addressee =>
          -- the sender must stay as it is, and so must the addressee
          have hmsg : ({ msg with nodeFrom := changeAddr msg.nodeFrom target } : Message) =
              Side.change (·.retarget target) msg .addressee ↔
              changeAddr msg.nodeFrom target = msg.nodeFrom ∧
                msg.nodeTo.retarget target = msg.nodeTo := by
            refine ⟨fun h => ?_, fun ⟨h1, h2⟩ => ?_⟩
            · exact ⟨congrArg Message.nodeFrom h, (congrArg Message.nodeTo h).symm⟩
            · rw [h1, Side.change, h2]
          rw [hmsg, changeAddr_eq_self_iff, retarget_eq_self_iff]
          rfl

/-- A node that is killed has only zeros. -/
theorem nodeEq_nodeClear (n : Node) : nodeEq n nodeClear =
    (n.zone == 0 && n.net == 0 && n.node == 0 && n.point == 0) := rfl

theorem doRemap_meant_iff (rules : List Remap) (msg : Message) :
    doRemap rules msg = remapMeant rules msg ↔
      ∀ r ∈ rules.find? (·.fits msg), msg.nodeTo.Parts PlainPart r.dst := by
  unfold doRemap remapMeant
  cases rules.find? (·.fits msg) with
  | none => exact ⟨fun _ r hr => (nomatch hr), fun _ => rfl⟩
  | some r =>
      have hsome : (∀ r' ∈ some r, msg.nodeTo.Parts PlainPart r'.dst) ↔
          msg.nodeTo.Parts PlainPart r.dst :=
        ⟨fun h => h _ rfl, fun h r' hr => by cases hr; exact h⟩
      rw [hsome, ← changeAddr_eq_retarget_iff]
      dsimp only
      rw [← nodeEq_nodeClear]
      refine ⟨fun h => ?_, fun h => by rw [h]⟩
      -- both are killed, and then both are 0:0/0.0, or neither is
      split at h <;> split at h
      · next h1 h2 =>
          simp only [nodeEq, nodeClear, Bool.and_eq_true, beq_iff_eq, and_assoc] at h1 h2
          obtain ⟨a1, a2, a3, a4⟩ := h1
          obtain ⟨b1, b2, b3, b4⟩ := h2
          unfold changeAddr Node.retarget at *
          dsimp only at *
          rw [a1, a2, a3, a4, b1, b2, b3, b4]
      · cases h
      · cases h
      · exact congrArg Message.nodeTo (Option.some.inj h)

theorem numbers_rewriteMeant {rules : List Rewrite} {msg : Message} (hs : msg.nodeFrom.Numbers)
    (ht : msg.nodeTo.Numbers) : (rewriteMeant rules msg).nodeFrom.Numbers ∧
      (rewriteMeant rules msg).nodeTo.Numbers := by
  unfold rewriteMeant
  split
  · exact ⟨hs, ht⟩
  · next side target _ =>
      cases side with
      | sender => exact ⟨hs.retarget target, ht⟩
      | addressee => exact ⟨hs, ht.retarget target⟩

theorem numbers_remapMeant {rules : List Remap} {msg msg' : Message} (hs : msg.nodeFrom.Numbers)
    (ht : msg.nodeTo.Numbers) (h : msg' ∈ remapMeant rules msg) :
    msg'.nodeFrom.Numbers ∧ msg'.nodeTo.Numbers := by
  unfold remapMeant at h
  split at h
  · cases h
    exact ⟨hs, ht⟩
  · next r _ =>
      dsimp only at h
      split at h
      · cases h
      · cases h
        exact ⟨hs, ht.retarget r.dst⟩

/-- A message from 2:5020/9 to 2:5020/1. -/
def toNodeOne : Message :=
  { Message.clear with nodeFrom := ⟨2, 5020, 9, 0, []⟩, nodeTo := ⟨2, 5020, 1, 0, []⟩
                       nameTo := lit "Areafix" }

/-- A rule with a wildcard in its target, as it is read and applied. -/
example : (routingRewrite 2 .rewrite [lit "2:5020/9", lit "2:5030/*"]).map
    (fun r => (doRewrite [r] toNodeOne).nodeFrom) = some ⟨2, 5030, -2, 0, []⟩ := by decide +kernel

end Fidogate

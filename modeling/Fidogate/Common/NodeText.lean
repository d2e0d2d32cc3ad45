/-
# `Fidogate.Common.NodeText` — a printed address is read back

`node_to_asc_diff` leaves out what an address has in common with the one
before it on the line; `asc_to_node_diff` fills it in again.
-/
import Fidogate.Common.Node

namespace Fidogate

open Bytes

/-- The parts of an address are numbers an `int` holds, and not negative. -/
structure Node.IsAddr (n : Node) : Prop where
  net : 0 ≤ n.net
  node : 0 ≤ n.node
  point : 0 ≤ n.point
  net_int : n.net < 2 ^ 31
  node_int : n.node < 2 ^ 31
  point_int : n.point < 2 ^ 31

instance (n : Node) : Decidable n.IsAddr :=
  decidable_of_iff (0 ≤ n.net ∧ 0 ≤ n.node ∧ 0 ≤ n.point ∧ n.net < 2 ^ 31 ∧ n.node < 2 ^ 31 ∧
      n.point < 2 ^ 31)
    ⟨fun ⟨h1, h2, h3, h4, h5, h6⟩ => ⟨h1, h2, h3, h4, h5, h6⟩,
      fun ⟨h1, h2, h3, h4, h5, h6⟩ => ⟨h1, h2, h3, h4, h5, h6⟩⟩

/-! ## Numbers -/

/-- The next byte, if any, is no digit. -/
def NoDigit (s : Str) : Prop := ∀ c ∈ s.head?, isDigit c = false

theorem takeWhile_putDec (n : Nat) {s : Str} (hs : NoDigit s) :
    (putDec n ++ s).takeWhile isDigit = putDec n := by
  rw [List.takeWhile_append_of_pos fun c hc => isDigit_of_mem_putDec hc]
  cases s with
  | nil => rw [List.takeWhile_nil, List.append_nil]
  | cons c s =>
      rw [List.takeWhile_cons_of_neg (by rw [hs c rfl]; decide), List.append_nil]

theorem dropWhile_putDec (n : Nat) {s : Str} (hs : NoDigit s) :
    (putDec n ++ s).dropWhile isDigit = s := by
  rw [List.dropWhile_append_of_pos fun c hc => isDigit_of_mem_putDec hc]
  cases s with
  | nil => rfl
  | cons c s => rw [List.dropWhile_cons_of_neg (by rw [hs c rfl]; decide)]

theorem putDec_eq_cons (n : Nat) : ∃ c s, putDec n = c :: s ∧ isDigit c = true := by
  cases h : putDec n with
  | nil => exact absurd h (putDec_ne_nil n)
  | cons c s => exact ⟨c, s, rfl, isDigit_of_mem_putDec (n := n) (by rw [h]; exact List.mem_cons_self)⟩

theorem isDigit_plain (c : UInt8) (h : isDigit c = true) : c ≠ 42 ∧ c ≠ 46 ∧ toLower c ≠ 97 ∧
    toLower c ≠ 119 ∧ isSpace c = false :=
  forall_byte (P := fun c => isDigit c = true → c ≠ 42 ∧ c ≠ 46 ∧ toLower c ≠ 97 ∧
    toLower c ≠ 119 ∧ isSpace c = false) (by decide +kernel) c h

theorem znfpGetNumber_putDec (n : Nat) {s : Str} (hs : NoDigit s) :
    znfpGetNumber (putDec n ++ s) = some ((n : Int), s) := by
  obtain ⟨c, t, hc, hd⟩ := putDec_eq_cons n
  obtain ⟨h1, -, h3, -⟩ := isDigit_plain c hd
  have hstar : hasPrefix (lit "*") (putDec n ++ s) = false := by
    rw [hc]
    show (42 == c && _) = false
    rw [beq_eq_false_iff_ne.mpr (Ne.symm h1), Bool.false_and]
  have hall : hasPrefixI (lit "all") (putDec n ++ s) = false := by
    rw [hc]
    show (97 == toLower c && _) = false
    rw [beq_eq_false_iff_ne.mpr (Ne.symm h3), Bool.false_and]
  unfold znfpGetNumber
  rw [hstar, hall, takeWhile_putDec n hs, dropWhile_putDec n hs, getDec_putDec]
  rw [hc]
  simp [hd]

theorem znfpPart_of_ne {c : UInt8} {s : Str} (h : s.head? ≠ some c) :
    znfpPart c s = some (none, s) := by
  cases s with
  | nil => rfl
  | cons d s =>
      have hd : d ≠ c := fun e => h (by rw [e]; rfl)
      simp [znfpPart, hd]

theorem znfpPart_putDec (c : UInt8) (n : Nat) {s : Str} (hs : NoDigit s) :
    znfpPart c (c :: (putDec n ++ s)) = some (some (n : Int), s) := by
  simp [znfpPart, znfpGetNumber_putDec n hs]

/-! ## Words of a line -/

/-- The part behind the dot. -/
def pointText (point : Int) : Str := if point == 0 then [] else lit "." ++ putInt point

theorem putInt_of_nonneg {n : Int} (h : 0 ≤ n) : putInt n = putDec n.toNat := by
  unfold putInt
  rw [if_neg (by omega), show n.natAbs = n.toNat by omega]

theorem noDigit_pointText (point : Int) : NoDigit (pointText point) := by
  intro c hc
  unfold pointText at hc
  split at hc
  · cases hc
  · cases hc
    rfl

theorem znfpPart_pointText {point : Int} (h : 0 ≤ point) : znfpPart 46 (pointText point) =
    some (if point = 0 then none else some point, []) := by
  unfold pointText
  by_cases h0 : point = 0
  · rw [if_pos (by simpa using h0), if_pos h0]
    rfl
  · rw [if_neg (by simpa using h0), if_neg h0, putInt_of_nonneg h]
    have hn := znfpPart_putDec 46 point.toNat (s := []) (fun _ h => by cases h)
    rw [List.append_nil] at hn
    rw [show (point.toNat : Int) = point by omega] at hn
    exact hn

theorem pointText_head {point : Int} {c : UInt8} (hc : c ≠ 46) :
    (pointText point).head? ≠ some c := by
  unfold pointText
  split
  · intro h
    cases h
  · intro h
    exact hc (Option.some.inj h).symm

/-- The first byte shows that a text is none of the words for everything. -/
theorem not_world {c : UInt8} (h1 : c ≠ 42) (h2 : toLower c ≠ 97) (h3 : toLower c ≠ 119)
    (s : Str) : (c :: s == lit "*" || strieq (c :: s) (lit "all") ||
      strieq (c :: s) (lit "world")) = false := by
  have e1 : (c :: s == lit "*") = false := by
    rw [beq_eq_false_iff_ne]
    intro h
    exact h1 (List.cons.inj h).1
  have e2 : strieq (c :: s) (lit "all") = false := by
    unfold strieq
    rw [beq_eq_false_iff_ne]
    intro h
    exact h2 (List.cons.inj h).1
  have e3 : strieq (c :: s) (lit "world") = false := by
    unfold strieq
    rw [beq_eq_false_iff_ne]
    intro h
    exact h3 (List.cons.inj h).1
  rw [e1, e2, e3]
  rfl

theorem znfpParsePartial_putDec (n : Nat) {s : Str} (hs : NoDigit s) :
    znfpParsePartial (putDec n ++ s) = znfpParseParts n s := by
  obtain ⟨c, t, hc, hd⟩ := putDec_eq_cons n
  obtain ⟨h1, h2, h3, h4, -⟩ := isDigit_plain c hd
  have h := znfpGetNumber_putDec n hs
  unfold znfpParsePartial
  rw [hc, List.cons_append] at h ⊢
  rw [not_world h1 h3 h4, if_neg (by decide)]
  dsimp only
  rw [beq_eq_false_iff_ne.mpr h2, if_neg (by decide), h]
  rfl

/-- The point as `znfp_parse_partial` reads it. -/
def partialPoint (point : Int) : Int := if point = 0 then EMPTY else point

theorem znfpParseParts_point {val1 point : Int} (hv : val1 ≠ EMPTY) (hp : 0 ≤ point) :
    znfpParseParts val1 (pointText point) = some ⟨EMPTY, EMPTY, val1, partialPoint point, []⟩ := by
  unfold znfpParseParts partialPoint
  rw [znfpPart_of_ne (pointText_head (by decide : (58 : UInt8) ≠ 46))]
  simp only [Option.bind_eq_bind, Option.bind_some,
    znfpPart_of_ne (pointText_head (by decide : (47 : UInt8) ≠ 46)), znfpPart_pointText hp]
  by_cases h0 : point = 0 <;> simp [h0, hv]

theorem znfpParseParts_net {val1 node point : Int} (hv : val1 ≠ EMPTY) (hn : 0 ≤ node)
    (hp : 0 ≤ point) :
    znfpParseParts val1 (47 :: (putDec node.toNat ++ pointText point)) =
      some ⟨EMPTY, val1, node, partialPoint point, []⟩ := by
  have h47 := znfpPart_putDec 47 node.toNat (noDigit_pointText point)
  unfold znfpParseParts partialPoint
  rw [znfpPart_of_ne (by intro h; cases h)]
  simp only [Option.bind_eq_bind, Option.bind_some, h47, znfpPart_pointText hp]
  rw [show (node.toNat : Int) = node by omega]
  by_cases h0 : point = 0 <;> simp [h0, hv]

theorem ne_empty_of_nonneg {n : Int} (h : 0 ≤ n) : n ≠ EMPTY := by
  rw [EMPTY]
  omega

theorem znfpParsePartial_node {node point : Int} (hn : 0 ≤ node) (hp : 0 ≤ point) :
    znfpParsePartial (putInt node ++ pointText point) =
      some ⟨EMPTY, EMPTY, node, partialPoint point, []⟩ := by
  rw [putInt_of_nonneg hn, znfpParsePartial_putDec _ (noDigit_pointText point),
    show (node.toNat : Int) = node by omega, znfpParseParts_point (ne_empty_of_nonneg hn) hp]

theorem znfpParsePartial_net {net node point : Int} (ht : 0 ≤ net) (hn : 0 ≤ node)
    (hp : 0 ≤ point) :
    znfpParsePartial (putInt net ++ lit "/" ++ putInt node ++ pointText point) =
      some ⟨EMPTY, net, node, partialPoint point, []⟩ := by
  rw [putInt_of_nonneg ht, putInt_of_nonneg hn, List.append_assoc, List.append_assoc,
    znfpParsePartial_putDec _ (s := lit "/" ++ (putDec node.toNat ++ pointText point))
      (fun c hc => by cases hc; rfl), show (net.toNat : Int) = net by omega]
  exact znfpParseParts_net (ne_empty_of_nonneg ht) hn hp

theorem znfpParsePartial_point {point : Int} (hp : 0 < point) :
    znfpParsePartial (pointText point) = some ⟨EMPTY, EMPTY, EMPTY, point, []⟩ := by
  have h46 := @znfpPart_pointText point (by omega)
  have h58 := znfpPart_of_ne (@pointText_head point 58 (by decide))
  have h47 := znfpPart_of_ne (@pointText_head point 47 (by decide))
  have htext : pointText point = 46 :: putInt point := if_neg (by simpa using (by omega))
  unfold znfpParsePartial
  rw [htext] at h46 h47 h58 ⊢
  rw [not_world (by decide) (by decide) (by decide), if_neg (by decide)]
  dsimp only
  unfold znfpParseParts
  simp only [beq_self_eq_true, if_true, Option.bind_eq_bind, Option.bind_some, h58, h47, h46]
  simp [show point ≠ 0 by omega]

/-! ## What is printed is read back -/

/-- A node as a line gives it back: the zone is the current one, and there is
no domain. -/
def Node.plain (zone : Int) (n : Node) : Node := { n with zone := zone, domain := [] }

/-- `node_to_asc_diff` leaves out a node that differs from the one before in
nothing but its zone, and a boss behind one of its points. -/
theorem nodeToAscDiff_eq_nil {n old : Node} (hz : n.zone = old.zone) :
    nodeToAscDiff n old = [] → n.net = old.net ∧ n.node = old.node ∧ n.point = 0 := by
  unfold nodeToAscDiff
  rw [hz, bne_self_eq_false, if_neg (by decide)]
  split
  · intro h
    simp [lit] at h
  · next h1 =>
      split
      · intro h
        have h := (List.append_eq_nil_iff.mp h).1
        unfold putInt at h
        split at h
        · cases h
        · exact absurd h (putDec_ne_nil _)
      · next h2 =>
          split
          · next h3 => exact fun _ => ⟨by simpa using h1, by simpa using h2, by simpa using h3⟩
          · intro h
            cases h

/-- A full address comes out as it is, a missing point as 0. -/
theorem ascToNodeDiff_of_parse {asc : Str} {old n : Node} (h : znfpParseDiff asc old =
    some { n with point := partialPoint n.point }) (hz : 0 ≤ n.zone) (hn : n.IsAddr) :
    ascToNodeDiff asc old = some n := by
  obtain ⟨zone, net, node, point, domain⟩ := n
  obtain ⟨h1, h2, h3, -⟩ := hn
  dsimp only at h hz h1 h2 h3
  have e1 : (zone == EMPTY) = false := beq_eq_false_iff_ne.mpr (ne_empty_of_nonneg hz)
  have e2 : (net == EMPTY) = false := beq_eq_false_iff_ne.mpr (ne_empty_of_nonneg h1)
  have e3 : (node == EMPTY) = false := beq_eq_false_iff_ne.mpr (ne_empty_of_nonneg h2)
  have hw : (Node.mk zone net node (partialPoint point) domain).wild = false := by
    unfold Node.wild partialPoint WILDCARD EMPTY
    dsimp only
    simp only [Bool.or_eq_false_iff, beq_eq_false_iff_ne]
    split <;> omega
  unfold ascToNodeDiff
  rw [h]
  simp only [Option.bind_eq_bind, Option.bind_some, hw, e1, e2, e3, Bool.or_false,
    Bool.false_eq_true, if_false]
  congr 2
  unfold partialPoint
  by_cases h0 : point = 0
  · simp [h0]
  · simp [h0, ne_empty_of_nonneg h3]

/-- What is read against an address does not depend on its point. -/
theorem ascToNodeDiff_congr {old old' : Node} (h : nodeNpEq old old' = true) (asc : Str) :
    ascToNodeDiff asc old = ascToNodeDiff asc old' := by
  simp only [nodeNpEq, Bool.and_eq_true, beq_iff_eq] at h
  obtain ⟨⟨hz, hnet⟩, hnode⟩ := h
  unfold ascToNodeDiff znfpParseDiff
  rw [hz, hnet, hnode]

/-- Any other text gives the node, read against the one before. -/
theorem ascToNodeDiff_nodeToAscDiff {n old : Node} (hn : n.IsAddr) (hz : n.zone = old.zone)
    (hzone : 0 ≤ n.zone) (h : nodeToAscDiff n old ≠ []) :
    ascToNodeDiff (nodeToAscDiff n old) (old.plain n.zone) = some (n.plain n.zone) := by
  have hn' : (n.plain n.zone).IsAddr :=
    ⟨hn.net, hn.node, hn.point, hn.net_int, hn.node_int, hn.point_int⟩
  refine ascToNodeDiff_of_parse ?_ hzone hn'
  revert h
  unfold nodeToAscDiff znfpParseDiff
  rw [hz, bne_self_eq_false, if_neg (by decide)]
  rw [← pointText]
  split
  · intro _
    rw [znfpParsePartial_net hn.net hn.node hn.point]
    simp [Node.plain, ne_empty_of_nonneg hn.net]
  · next h1 =>
      have h1 : n.net = old.net := by simpa using h1
      split
      · intro _
        rw [znfpParsePartial_node hn.node hn.point]
        simp [Node.plain, ne_empty_of_nonneg hn.node, h1]
      · next h2 =>
          have h2 : n.node = old.node := by simpa using h2
          intro h
          have h0 : n.point ≠ 0 := fun h0 => h (if_pos (by simpa using h0))
          rw [znfpParsePartial_point (Int.lt_iff_le_and_ne.mpr ⟨hn.point, Ne.symm h0⟩)]
          simp [Node.plain, h1, h2, partialPoint, h0]

/-! ## The text as a word -/

theorem not_space_putInt {n : Int} (h : 0 ≤ n) : ∀ c ∈ putInt n, isSpace c = false := by
  rw [putInt_of_nonneg h]
  intro c hc
  exact (isDigit_plain c (isDigit_of_mem_putDec hc)).2.2.2.2

theorem not_space_pointText {n : Int} (h : 0 ≤ n) : ∀ c ∈ pointText n, isSpace c = false := by
  unfold pointText
  split
  · intro c hc
    cases hc
  · intro c hc
    rcases List.mem_cons.mp hc with rfl | hc
    · rfl
    · exact not_space_putInt h c hc

theorem not_space_nodeToAscDiff {n old : Node} (hn : n.IsAddr) (hz : n.zone = old.zone) :
    ∀ c ∈ nodeToAscDiff n old, isSpace c = false := by
  have h1 := not_space_putInt hn.net
  have h2 := not_space_putInt hn.node
  have h3 := not_space_pointText hn.point
  unfold nodeToAscDiff
  rw [hz, bne_self_eq_false, if_neg (by decide), ← pointText]
  intro c hc
  split at hc
  · simp only [List.mem_append] at hc
    rcases hc with ((hc | hc) | hc) | hc
    · exact h1 c hc
    · cases List.mem_singleton.mp hc
      rfl
    · exact h2 c hc
    · exact h3 c hc
  · split at hc
    · rcases List.mem_append.mp hc with hc | hc
      · exact h2 c hc
      · exact h3 c hc
    · exact h3 c hc

theorem isDelim_blanks {c : UInt8} (h : isSpace c = false) : isDelim blanks c = false := by
  revert h
  simp only [isSpace, isDelim, blanks, Bool.or_eq_false_iff]
  intro h
  simp only [beq_eq_false_iff_ne] at h
  simp [h]

theorem length_putInt {n : Int} (h : 0 ≤ n) (hn : n < 2 ^ 31) : (putInt n).length ≤ 10 := by
  rw [putInt_of_nonneg h, length_putDec_le_iff (by decide)]
  omega

/-- A number that is a long. -/
theorem length_putInt_long {n : Int} (h : 0 ≤ n) (hn : n < 2 ^ 63) : (putInt n).length ≤ 19 := by
  rw [putInt_of_nonneg h, length_putDec_le_iff (by decide)]
  omega

theorem length_pointText {n : Int} (h : 0 ≤ n) (hn : n < 2 ^ 31) :
    (pointText n).length ≤ 11 := by
  unfold pointText
  split
  · exact Nat.zero_le _
  · have := length_putInt h hn
    simp [lit]
    omega

/-- Three numbers of ten digits, a slash and a dot. -/
theorem length_nodeToAscDiff {n old : Node} (hn : n.IsAddr) (hz : n.zone = old.zone) :
    (nodeToAscDiff n old).length ≤ 32 := by
  have h1 := length_putInt hn.net hn.net_int
  have h2 := length_putInt hn.node hn.node_int
  have h3 := length_pointText hn.point hn.point_int
  unfold nodeToAscDiff
  rw [hz, bne_self_eq_false, if_neg (by decide), ← pointText]
  split
  · simp [lit]
    omega
  · split
    · simp
      omega
    · omega

end Fidogate

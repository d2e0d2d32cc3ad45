/-
# `Fidogate.Common.NodeLists` — node.c: lists of nodes are read back

A list of nodes is written with each node against the one before it, and read
by `lon_add_string` or `areasbbs_add_passive` until a word is no address.  A
node that has zone, net and node of the one before it, and no point, is
printed as nothing (`Unprinted`): between blanks it is lost, and between
commas everything behind it is.
-/
import Fidogate.Common.NodeText
import Fidogate.Common.AreasbbsFile
import Fidogate.Lib.Repeats

namespace Fidogate

open Bytes

/-! ## The functions -/

/-- `lon_add_string`: up to the first word that is no address. -/
def lonAddString (zone : Int) (s : Str) : List Node :=
  areasbbsAddPassive (nodeOld zone) (strtok lineBlanks s)

/-- `lon_print` in the short form. -/
def lonPrint (lon : List Node) : Str := (lit " ").intercalate (lonTexts nodeInvalid lon)

/-- The number of uplinks as `lon_sort` takes it: a `short`. -/
def shortUplinks (cup : Int) : Int := cup.bmod (2 ^ 16)

/-- `lon_sort` as it is called with the number of uplinks; below 0 it would
sort from a place in front of the array. -/
def lonSortShort (lon : List Node) (cup : Int) : Option (List Node) :=
  let off := shortUplinks cup
  if lon = [] ∨ lon.length ≤ off then some lon
  else if off < 0 then none
  else some (lonSortOff lon off)

/-- The loop of `lon_print_sorted` over the sorted array. -/
def lonPrintOrder : List Node → Str
  | [] => []
  | n :: ns =>
      nodeToAscDiff n nodeInvalid ++ ((if ns = [] then [] else [sp]) ++ lonPrintRest n ns)

/-- `lon_print_sorted`; `none` where it sorts outside of the array. -/
def lonPrintSortedShort (lon : List Node) (cup : Int) : Option Str :=
  (lonSortShort lon cup).map lonPrintOrder

theorem lonPrintSorted_eq (lon : List Node) (cup : Int) :
    lonPrintSorted lon cup = lonPrintOrder (lonSortOff lon cup) := by
  unfold lonPrintSorted lonPrintOrder
  cases lonSortOff lon cup <;> rfl

theorem lonSortOff_of_length_le {lon : List Node} {off : Int} (h : lon = [] ∨ lon.length ≤ off) :
    lonSortOff lon off = lon := by
  have hdrop : lon.drop off.toNat = [] := by
    rcases h with rfl | h
    · exact List.drop_nil
    · exact List.drop_of_length_le (by omega)
  have htake := List.take_append_drop off.toNat lon
  rw [hdrop] at htake
  rw [lonSortOff, hdrop]
  exact htake

/-- A list is sorted where the short number is none below 0. -/
theorem lonSortShort_eq (lon : List Node) (cup : Int) : lonSortShort lon cup =
    if lon = [] ∨ 0 ≤ shortUplinks cup then some (lonSortOff lon (shortUplinks cup))
    else none := by
  unfold lonSortShort
  dsimp only
  split
  · next h =>
      rw [lonSortOff_of_length_le h, if_pos]
      exact h.imp_right fun h => by omega
  · next h =>
      obtain ⟨hnil, -⟩ := not_or.mp h
      split
      · next hoff => rw [if_neg (not_or.mpr ⟨hnil, by omega⟩)]
      · next hoff => rw [if_pos (Or.inr (by omega))]

theorem shortUplinks_le (cup : Nat) : (shortUplinks cup).toNat ≤ cup := by
  unfold shortUplinks
  rw [Int.bmod_def]
  omega

/-! ## An address against the one before -/

/-- A node is printed as nothing behind another. -/
def Unprinted (old n : Node) : Prop :=
  n.zone = old.zone ∧ n.net = old.net ∧ n.node = old.node ∧ n.point = 0

instance (old n : Node) : Decidable (Unprinted old n) :=
  inferInstanceAs (Decidable (_ ∧ _ ∧ _ ∧ _))

/-- A node without its domain. -/
def Node.bare (n : Node) : Node := { n with domain := [] }

/-- The nodes of a list are full addresses. -/
def FullAddrs (lon : List Node) : Prop := ∀ n ∈ lon, 0 ≤ n.zone ∧ n.IsAddr

instance (lon : List Node) : Decidable (FullAddrs lon) :=
  inferInstanceAs (Decidable (∀ n ∈ lon, 0 ≤ n.zone ∧ n.IsAddr))

theorem zoneText_ne_nil {n old : Node} (h : n.zone ≠ old.zone) : nodeToAscDiff n old ≠ [] := by
  unfold nodeToAscDiff
  dsimp only
  rw [if_pos (bne_iff_ne.mpr h)]
  simp [lit]

theorem nodeToAscDiff_eq_nil_iff {n old : Node} : nodeToAscDiff n old = [] ↔ Unprinted old n := by
  refine ⟨fun h => ?_, fun h => ?_⟩
  · have hz : n.zone = old.zone := by
      by_contra hz
      exact zoneText_ne_nil hz h
    obtain ⟨h1, h2, h3⟩ := nodeToAscDiff_eq_nil hz h
    exact ⟨hz, h1, h2, h3⟩
  · obtain ⟨h1, h2, h3, h4⟩ := h
    unfold nodeToAscDiff
    simp [h1, h2, h3, h4]

theorem znfpParseParts_zone {zone net node point : Int} (ht : 0 ≤ net) (hn : 0 ≤ node)
    (hp : 0 ≤ point) :
    znfpParseParts zone (58 :: (putDec net.toNat ++ 47 :: (putDec node.toNat ++ pointText point))) =
      some ⟨zone, net, node, partialPoint point, []⟩ := by
  have h58 := znfpPart_putDec 58 net.toNat (s := 47 :: (putDec node.toNat ++ pointText point))
    (fun c hc => by cases hc; rfl)
  have h47 := znfpPart_putDec 47 node.toNat (noDigit_pointText point)
  unfold znfpParseParts partialPoint
  rw [h58]
  simp only [Option.bind_eq_bind, Option.bind_some, h47, znfpPart_pointText hp]
  rw [show (node.toNat : Int) = node by omega, show (net.toNat : Int) = net by omega]
  by_cases h0 : point = 0 <;> simp [h0]

theorem znfpParsePartial_zone {zone net node point : Int} (hz : 0 ≤ zone) (ht : 0 ≤ net)
    (hn : 0 ≤ node) (hp : 0 ≤ point) :
    znfpParsePartial (putInt zone ++ lit ":" ++ putInt net ++ lit "/" ++ putInt node ++
      pointText point) = some ⟨zone, net, node, partialPoint point, []⟩ := by
  rw [putInt_of_nonneg hz, putInt_of_nonneg ht, putInt_of_nonneg hn]
  simp only [List.append_assoc]
  rw [znfpParsePartial_putDec _ (s := lit ":" ++ (putDec net.toNat ++ (lit "/" ++
    (putDec node.toNat ++ pointText point)))) (fun c hc => by cases hc; rfl),
    show (zone.toNat : Int) = zone by omega]
  exact znfpParseParts_zone ht hn hp

/-- What is printed of a node is read as the node. -/
theorem ascToNodeDiff_print {n old old' : Node} (hz : 0 ≤ n.zone) (hn : n.IsAddr)
    (hold : 0 ≤ old.zone → nodeNpEq old old' = true) (h : ¬ Unprinted old n) :
    ascToNodeDiff (nodeToAscDiff n old) old' = some n.bare := by
  rcases eq_or_ne n.zone old.zone with hzone | hzone
  · have hnp : nodeNpEq (old.plain n.zone) old' = true := by
      have hnp := hold (hzone ▸ hz)
      simp only [nodeNpEq, Bool.and_eq_true, beq_iff_eq, Node.plain] at hnp ⊢
      exact ⟨⟨hzone.trans hnp.1.1, hnp.1.2⟩, hnp.2⟩
    rw [← ascToNodeDiff_congr hnp]
    exact ascToNodeDiff_nodeToAscDiff hn hzone hz (mt nodeToAscDiff_eq_nil_iff.mp h)
  · refine ascToNodeDiff_of_parse ?_ hz
      ⟨hn.net, hn.node, hn.point, hn.net_int, hn.node_int, hn.point_int⟩
    unfold nodeToAscDiff znfpParseDiff
    dsimp only
    rw [if_pos (bne_iff_ne.mpr hzone), ← pointText,
      znfpParsePartial_zone hz hn.net hn.node hn.point]
    simp [Node.bare, ne_empty_of_nonneg hz]

/-- The bytes of an address in numbers. -/
def addrByte (c : UInt8) : Bool := isDigit c || c == 58 || c == 47 || c == 46

theorem all_addrByte_putInt {n : Int} (h : 0 ≤ n) : (putInt n).all addrByte = true := by
  rw [putInt_of_nonneg h, List.all_eq_true]
  intro c hc
  rw [addrByte, isDigit_of_mem_putDec hc]
  rfl

theorem all_addrByte_print {n : Node} (old : Node) (hz : 0 ≤ n.zone) (hn : n.IsAddr) :
    (nodeToAscDiff n old).all addrByte = true := by
  have h0 := all_addrByte_putInt hz
  have h1 := all_addrByte_putInt hn.net
  have h2 := all_addrByte_putInt hn.node
  have h3 : (if n.point == 0 then [] else lit "." ++ putInt n.point).all addrByte = true := by
    split
    · rfl
    · rw [List.all_append, all_addrByte_putInt hn.point]
      rfl
  have hcolon : (lit ":").all addrByte = true := rfl
  have hslash : (lit "/").all addrByte = true := rfl
  unfold nodeToAscDiff
  dsimp only
  split
  · simp only [List.all_append, h0, h1, h2, h3, hcolon, hslash, Bool.and_self]
  · split
    · simp only [List.all_append, h1, h2, h3, hslash, Bool.and_self]
    · split
      · simp only [List.all_append, h2, h3, Bool.and_self]
      · exact h3

theorem addrByte_plain {c : UInt8} (h : addrByte c = true) : isSpace c = false ∧ c ≠ 44 :=
  forall_byte (P := fun c => addrByte c = true → isSpace c = false ∧ c ≠ 44)
    (by decide +kernel) c h

theorem isDelim_lineBlanks (c : UInt8) : isDelim lineBlanks c = isSpace c :=
  forall_byte (P := fun c => isDelim lineBlanks c = isSpace c) (by decide +kernel) c

/-! ## Reading what was printed -/

/-- The nodes of a list as they are read, and whether each is printed. -/
def printedNodes (old : Node) : List Node → List (Node × Bool)
  | [] => []
  | n :: ns => (n.bare, decide (¬ Unprinted old n)) :: printedNodes n ns

theorem map_fst_printedNodes : ∀ (old : Node) (ns : List Node),
    (printedNodes old ns).map Prod.fst = ns.map Node.bare
  | _, [] => rfl
  | old, n :: ns => by
      rw [printedNodes, List.map_cons, List.map_cons, map_fst_printedNodes]

/-- All nodes of a list are printed. -/
def AllPrinted (old : Node) (ns : List Node) : Prop :=
  (old :: ns).IsChain fun a n => ¬ Unprinted a n

theorem allPrinted_cons {old n : Node} {ns : List Node} :
    AllPrinted old (n :: ns) ↔ ¬ Unprinted old n ∧ AllPrinted n ns :=
  List.isChain_cons_cons

theorem kept_printedNodes_iff : ∀ (old : Node) (ns : List Node),
    Repeats.kept (printedNodes old ns) = ns.map Node.bare ↔ AllPrinted old ns
  | old, [] => ⟨fun _ => List.isChain_singleton old, fun _ => rfl⟩
  | old, n :: ns => by
      have ih := kept_printedNodes_iff n ns
      rw [printedNodes, Repeats.kept_cons, List.map_cons, allPrinted_cons, ← ih]
      by_cases h : Unprinted old n
      · have hlen : (Repeats.kept (printedNodes n ns)).length ≤ ns.length := by
          have hsub := (Repeats.kept_sublist (printedNodes n ns)).length_le
          rwa [map_fst_printedNodes, List.length_map] at hsub
        refine ⟨fun he => ?_, fun he => absurd h he.1⟩
        rw [if_neg (by simpa using h), List.nil_append] at he
        rw [he, List.length_cons, List.length_map] at hlen
        omega
      · rw [if_pos (by simpa using h), List.singleton_append]
        exact ⟨fun he => ⟨h, (List.cons.inj he).2⟩, fun he => by rw [he.2]⟩

/-- The words that are there are read as the nodes printed. -/
theorem read_lonTexts : ∀ {ns : List Node} {old old' : Node}, FullAddrs ns →
    (0 ≤ old.zone → nodeNpEq old old' = true) →
    areasbbsAddPassive old' ((lonTexts old ns).filter (· ≠ [])) =
      Repeats.kept (printedNodes old ns)
  | [], _, _, _, _ => rfl
  | n :: ns, old, old', hns, hold => by
      obtain ⟨hz, hn⟩ := hns n List.mem_cons_self
      have hrest : FullAddrs ns := fun m hm => hns m (List.mem_cons_of_mem n hm)
      rw [lonTexts, printedNodes, Repeats.kept_cons]
      by_cases h : Unprinted old n
      · have hnext : 0 ≤ n.zone → nodeNpEq n old' = true := by
          intro _
          have hnp := hold (h.1 ▸ hz)
          simp only [nodeNpEq, Bool.and_eq_true, beq_iff_eq] at hnp ⊢
          exact ⟨⟨h.1.trans hnp.1.1, h.2.1.trans hnp.1.2⟩, h.2.2.1.trans hnp.2⟩
        rw [nodeToAscDiff_eq_nil_iff.mpr h, List.filter_cons_of_neg (by decide),
          if_neg (by simpa using h), List.nil_append]
        exact read_lonTexts hrest hnext
      · have hnil := mt nodeToAscDiff_eq_nil_iff.mp h
        have hnext : 0 ≤ n.zone → nodeNpEq n n.bare = true := by
          intro _
          simp [nodeNpEq, Node.bare]
        rw [List.filter_cons_of_pos (by simpa using hnil), areasbbsAddPassive,
          ascToNodeDiff_print hz hn hold h, if_pos (by simpa using h)]
        exact congrArg (n.bare :: ·) (read_lonTexts hrest hnext)

/-! ## The words that were printed -/

theorem isWord_lineBlanks {t : Str} (h : t ≠ []) (ht : ∀ c ∈ t, isSpace c = false) :
    IsWord false lineBlanks t :=
  ⟨h, fun c hc => (isDelim_lineBlanks c).trans (ht c hc), fun h => by cases h⟩

/-- A text in front of a blank is a word, unless it is empty. -/
theorem words_text_blank {t : Str} (ht : ∀ c ∈ t, isSpace c = false) (s : Str) :
    words false lineBlanks (t ++ sp :: s) =
      [t].filter (· ≠ []) ++ words false lineBlanks s := by
  have hsp : isDelim lineBlanks sp = true := by decide
  by_cases h : t = []
  · rw [h, List.nil_append, words_cons hsp]
    rfl
  · rw [words_append (isWord_lineBlanks h ht) hsp, List.filter_cons_of_pos (by simpa using h)]
    rfl

theorem words_text {t : Str} (ht : ∀ c ∈ t, isSpace c = false) :
    words false lineBlanks t = [t].filter (· ≠ []) := by
  by_cases h : t = []
  · rw [h]
    rfl
  · rw [words_word (isWord_lineBlanks h ht), List.filter_cons_of_pos (by simpa using h)]
    rfl

theorem words_intercalate : ∀ {ts : List Str}, (∀ t ∈ ts, ∀ c ∈ t, isSpace c = false) →
    words false lineBlanks ((lit " ").intercalate ts) = ts.filter (· ≠ [])
  | [], _ => rfl
  | [t], h => by
      rw [List.intercalate_singleton]
      exact words_text (h t List.mem_cons_self)
  | t :: t' :: ts, h => by
      have ih := @words_intercalate (t' :: ts) fun x hx => h x (List.mem_cons_of_mem t hx)
      rw [List.intercalate_cons_cons, List.append_assoc]
      show words false lineBlanks (t ++ sp :: (lit " ").intercalate (t' :: ts)) = _
      rw [words_text_blank (h t List.mem_cons_self), ih, ← List.filter_append]
      rfl

theorem splitComma_eq : ∀ s : Str, splitComma s = s.splitOn 44
  | [] => rfl
  | c :: s => by
      rw [splitComma, splitComma_eq s, List.splitOn_cons_eq_if_modifyHead]
      by_cases h : c = 44
      · rw [if_pos h, if_pos (beq_iff_eq.mpr h)]
      · rw [if_neg h, if_neg (by simpa using h)]
        cases hs : s.splitOn 44 with
        | nil => exact absurd hs (List.splitOn_ne_nil _ _)
        | cons t ts => rfl

theorem all_addrByte_lonTexts : ∀ {ns : List Node} (old : Node), FullAddrs ns →
    ∀ t ∈ lonTexts old ns, t.all addrByte = true
  | [], _, _, t, ht => absurd ht List.not_mem_nil
  | n :: ns, old, hns, t, ht => by
      obtain ⟨hz, hn⟩ := hns n List.mem_cons_self
      rcases List.mem_cons.mp ht with rfl | ht
      · exact all_addrByte_print old hz hn
      · exact all_addrByte_lonTexts n (fun m hm => hns m (List.mem_cons_of_mem n hm)) t ht

/-- The words of a list hold neither blanks nor commas. -/
theorem addrByte_lonTexts {ns : List Node} (old : Node) (h : FullAddrs ns) :
    ∀ t ∈ lonTexts old ns, ∀ c ∈ t, isSpace c = false ∧ c ≠ 44 := fun t ht c hc =>
  addrByte_plain (List.all_eq_true.mp (all_addrByte_lonTexts old h t ht) c hc)

theorem nodeNpEq_nodeInvalid {old' : Node} :
    0 ≤ nodeInvalid.zone → nodeNpEq nodeInvalid old' = true := by
  intro h
  exact absurd h (by decide)

/-- What is read of a list in the short form are the nodes printed. -/
theorem lonAddString_lonPrint {zone : Int} {lon : List Node} (h : FullAddrs lon) :
    lonAddString zone (lonPrint lon) = Repeats.kept (printedNodes nodeInvalid lon) := by
  unfold lonAddString lonPrint
  show areasbbsAddPassive _ (words false lineBlanks _) = _
  rw [words_intercalate fun t ht c hc => (addrByte_lonTexts nodeInvalid h t ht c hc).1]
  exact read_lonTexts h nodeNpEq_nodeInvalid

theorem lonTexts_ne_nil : ∀ {old : Node} {ns : List Node}, AllPrinted old ns →
    ∀ t ∈ lonTexts old ns, t ≠ []
  | _, [], _, t, ht => absurd ht List.not_mem_nil
  | old, n :: ns, h, t, ht => by
      rcases List.mem_cons.mp ht with rfl | ht
      · exact mt nodeToAscDiff_eq_nil_iff.mp (allPrinted_cons.mp h).1
      · exact lonTexts_ne_nil (allPrinted_cons.mp h).2 t ht

theorem areasbbsAddPassive_lonPrintPassive {zone : Int} {lon : List Node} (h : FullAddrs lon)
    (hp : AllPrinted nodeInvalid lon) :
    areasbbsAddPassive (nodeOld zone) (splitComma (lonPrintPassive lon)) =
      lon.map Node.bare := by
  cases lon with
  | nil => rfl
  | cons n ns =>
      have hne : lonTexts nodeInvalid (n :: ns) ≠ [] := List.cons_ne_nil _ _
      have hcomma : ∀ t ∈ lonTexts nodeInvalid (n :: ns), (44 : UInt8) ∉ t :=
        fun t ht hc => (addrByte_lonTexts nodeInvalid h t ht 44 hc).2 rfl
      have hfilter : (lonTexts nodeInvalid (n :: ns)).filter (· ≠ []) =
          lonTexts nodeInvalid (n :: ns) :=
        List.filter_eq_self.mpr fun t ht => by simpa using lonTexts_ne_nil hp t ht
      rw [splitComma_eq, lonPrintPassive]
      show areasbbsAddPassive _ (List.splitOn 44 (List.intercalate [44] _)) = _
      rw [List.splitOn_intercalate 44 hcomma hne, ← hfilter,
        read_lonTexts h nodeNpEq_nodeInvalid]
      exact (kept_printedNodes_iff nodeInvalid (n :: ns)).mpr hp

/-! ## The list as it is sorted -/

/-- The nodes of a sorted list as they are read, and whether each is printed. -/
def sortedNodes (old : Node) : List Node → List (Node × Bool)
  | [] => []
  | n :: ns =>
      if nodeEq old n then (n.bare, false) :: sortedNodes old ns
      else (n.bare, decide (¬ Unprinted old n)) :: sortedNodes n ns

/-- The nodes that are not skipped. -/
def lonUniq (old : Node) : List Node → List Node
  | [] => []
  | n :: ns => if nodeEq old n then lonUniq old ns else n :: lonUniq n ns

theorem lonUniq_sublist : ∀ (old : Node) (ns : List Node), (lonUniq old ns).Sublist ns
  | _, [] => List.Sublist.refl []
  | old, n :: ns => by
      rw [lonUniq]
      split
      · exact (lonUniq_sublist old ns).cons n
      · exact (lonUniq_sublist n ns).cons_cons n

theorem kept_printedNodes_lonUniq : ∀ (old : Node) (ns : List Node),
    Repeats.kept (printedNodes old (lonUniq old ns)) = Repeats.kept (sortedNodes old ns)
  | _, [] => rfl
  | old, n :: ns => by
      rw [lonUniq, sortedNodes]
      split
      · rw [Repeats.kept_cons, if_neg (by decide), List.nil_append]
        exact kept_printedNodes_lonUniq old ns
      · rw [printedNodes, Repeats.kept_cons, Repeats.kept_cons, kept_printedNodes_lonUniq n ns]

/-- A node and what is behind it. -/
theorem words_lonPrintNode {n : Node} {ns : List Node} (old : Node) (hz : 0 ≤ n.zone)
    (hn : n.IsAddr) (h : words false lineBlanks (lonPrintRest n ns) =
      (lonTexts n (lonUniq n ns)).filter (· ≠ [])) :
    words false lineBlanks
        (nodeToAscDiff n old ++ ((if ns = [] then [] else [sp]) ++ lonPrintRest n ns)) =
      (lonTexts old (n :: lonUniq n ns)).filter (· ≠ []) := by
  have ht : ∀ c ∈ nodeToAscDiff n old, isSpace c = false :=
    fun c hc => (addrByte_plain (List.all_eq_true.mp (all_addrByte_print old hz hn) c hc)).1
  cases ns with
  | nil =>
      show words false lineBlanks (nodeToAscDiff n old ++ []) = [nodeToAscDiff n old].filter _
      rw [List.append_nil]
      exact words_text ht
  | cons m ms =>
      rw [if_neg (List.cons_ne_nil m ms), List.singleton_append, words_text_blank ht, h, lonTexts,
        ← List.filter_append]
      rfl

theorem words_lonPrintRest : ∀ {ns : List Node} (old : Node), FullAddrs ns →
    words false lineBlanks (lonPrintRest old ns) =
      (lonTexts old (lonUniq old ns)).filter (· ≠ [])
  | [], _, _ => rfl
  | n :: ns, old, h => by
      obtain ⟨hz, hn⟩ := h n List.mem_cons_self
      have hrest : FullAddrs ns := fun m hm => h m (List.mem_cons_of_mem n hm)
      rw [lonPrintRest, lonUniq]
      split
      · exact words_lonPrintRest old hrest
      · exact words_lonPrintNode old hz hn (words_lonPrintRest n hrest)

theorem nodeEq_nodeInvalid {n : Node} (hz : 0 ≤ n.zone) : nodeEq nodeInvalid n = false := by
  have h : ((-1 : Int) == n.zone) = false := beq_eq_false_iff_ne.mpr (by omega)
  simp [nodeEq, nodeInvalid, h]

/-- What is read of a list printed in its order are the nodes printed. -/
theorem lonAddString_lonPrintOrder {zone : Int} {lon : List Node} (h : FullAddrs lon) :
    lonAddString zone (lonPrintOrder lon) = Repeats.kept (sortedNodes nodeInvalid lon) := by
  cases lon with
  | nil => rfl
  | cons n ns =>
      obtain ⟨hz, hn⟩ := h n List.mem_cons_self
      have hrest : FullAddrs ns := fun m hm => h m (List.mem_cons_of_mem n hm)
      have huniq : lonUniq nodeInvalid (n :: ns) = n :: lonUniq n ns := by
        rw [lonUniq, nodeEq_nodeInvalid hz]
        exact if_neg (by decide)
      rw [← kept_printedNodes_lonUniq, huniq]
      unfold lonAddString lonPrintOrder
      show areasbbsAddPassive _ (words false lineBlanks _) = _
      rw [words_lonPrintNode nodeInvalid hz hn (words_lonPrintRest n hrest)]
      refine read_lonTexts (fun m hm => ?_) nodeNpEq_nodeInvalid
      rcases List.mem_cons.mp hm with rfl | hm
      · exact ⟨hz, hn⟩
      · exact hrest m ((lonUniq_sublist n ns).subset hm)

theorem nodeEq_iff_bare {a b : Node} : nodeEq a b = true ↔ a.bare = b.bare := by
  simp [nodeEq, Node.bare, and_assoc]

theorem map_fst_sortedNodes : ∀ (old : Node) (ns : List Node),
    (sortedNodes old ns).map Prod.fst = ns.map Node.bare
  | _, [] => rfl
  | old, n :: ns => by
      rw [sortedNodes]
      split
      · rw [List.map_cons, List.map_cons, map_fst_sortedNodes old ns]
      · rw [List.map_cons, List.map_cons, map_fst_sortedNodes n ns]

/-- A boss right behind one of its points. -/
def Lost (a n : Node) : Prop := Unprinted a n ∧ a.point ≠ 0

instance (a n : Node) : Decidable (Lost a n) := inferInstanceAs (Decidable (_ ∧ _))

theorem lost_iff {a n : Node} : Lost a n ↔ Unprinted a n ∧ nodeEq a n = false := by
  unfold Lost Unprinted
  refine and_congr_right fun h => ?_
  obtain ⟨h1, h2, h3, h4⟩ := h
  simp [nodeEq, h1, h2, h3, h4]

theorem Node.bare_congr {a b : Node} (h : a.bare = b.bare) :
    a.zone = b.zone ∧ a.net = b.net ∧ a.node = b.node ∧ a.point = b.point := by
  simpa [Node.bare] using h

theorem unprinted_congr {a b n : Node} (h : a.bare = b.bare) : Unprinted a n ↔ Unprinted b n := by
  obtain ⟨h1, h2, h3, -⟩ := Node.bare_congr h
  rw [Unprinted, Unprinted, h1, h2, h3]

theorem nodeEq_congr {a b n : Node} (h : a.bare = b.bare) : nodeEq a n = nodeEq b n := by
  obtain ⟨h1, h2, h3, h4⟩ := Node.bare_congr h
  rw [nodeEq, nodeEq, h1, h2, h3, h4]

theorem sortedNodes_congr {a b : Node} (h : a.bare = b.bare) (ns : List Node) :
    sortedNodes a ns = sortedNodes b ns := by
  induction ns with
  | nil => rfl
  | cons n ns ih =>
      rw [sortedNodes, sortedNodes, nodeEq_congr h, ih, decide_eq_decide.mpr]
      exact not_congr (unprinted_congr h)

theorem sortedNodes_eq {a n : Node} (h : nodeEq a n = true) (ns : List Node) :
    sortedNodes a (n :: ns) = (n.bare, false) :: sortedNodes n ns := by
  rw [sortedNodes, if_pos h, sortedNodes_congr (nodeEq_iff_bare.mp h)]

theorem sortedNodes_ne {a n : Node} (h : nodeEq a n = false) (ns : List Node) :
    sortedNodes a (n :: ns) = (n.bare, decide (¬ Unprinted a n)) :: sortedNodes n ns := by
  rw [sortedNodes, h]
  exact if_neg (by decide)

theorem bare_ne {a n : Node} (h : nodeEq a n = false) : a.bare ≠ n.bare :=
  fun he => absurd (nodeEq_iff_bare.mpr he) (Bool.eq_false_iff.mp h)

/-- A node that is not lost is printed or repeats the one before it. -/
theorem runsKept_sortedNodes : ∀ {ns : List Node} {a : Node},
    (a :: ns).IsChain (fun a n => ¬ Lost a n) →
    Repeats.runsKept a.bare true (sortedNodes a ns) = true
  | [], _, _ => rfl
  | n :: ns, a, hc => by
      obtain ⟨hl, hc⟩ := List.isChain_cons_cons.mp hc
      cases h : nodeEq a n with
      | true =>
          have hbare := nodeEq_iff_bare.mp h
          rw [sortedNodes_eq h, Repeats.runsKept, if_pos hbare.symm, Bool.true_or, hbare]
          exact runsKept_sortedNodes hc
      | false =>
          have hp : ¬ Unprinted a n := fun hu => hl (lost_iff.mpr ⟨hu, h⟩)
          rw [sortedNodes_ne h, Repeats.runsKept, if_neg (bare_ne h).symm, Bool.true_and,
            decide_eq_true hp]
          exact runsKept_sortedNodes hc

/-- The list is read in its order, but for repeats, where no boss is lost. -/
theorem destutter_lonPrintOrder {zone : Int} {lon : List Node} (h : FullAddrs lon)
    (hc : lon.IsChain fun a n => ¬ Lost a n) :
    (lonAddString zone (lonPrintOrder lon)).destutter (· ≠ ·) =
      (lon.map Node.bare).destutter (· ≠ ·) := by
  rw [lonAddString_lonPrintOrder h]
  cases lon with
  | nil => rfl
  | cons n ns =>
      have hz := (h n List.mem_cons_self).1
      have hp : ¬ Unprinted nodeInvalid n := by
        rintro ⟨hzone, -⟩
        have : n.zone = -1 := hzone
        omega
      rw [sortedNodes_ne (nodeEq_nodeInvalid hz), decide_eq_true hp, List.map_cons,
        ← map_fst_sortedNodes n ns]
      exact (Repeats.destutter_kept_iff _ _ _).mpr (runsKept_sortedNodes hc)

/-! ## The order of the nodes -/

/-- `node_cmp` does not put the one behind the other. -/
def nodeLe (a b : Node) : Prop := (! nodeLt b a) = true

instance : DecidableRel nodeLe := fun _ _ => inferInstanceAs (Decidable (_ = true))

theorem nodeLe_iff {a b : Node} : nodeLe a b ↔
    a.zone < b.zone ∨ a.zone = b.zone ∧ (a.net < b.net ∨ a.net = b.net ∧
      (a.node < b.node ∨ a.node = b.node ∧ a.point ≤ b.point)) := by
  unfold nodeLe nodeLt
  simp only [Bool.not_eq_true', Bool.or_eq_false_iff, Bool.and_eq_false_iff,
    decide_eq_false_iff_not, beq_eq_false_iff_ne]
  omega

theorem pairwise_lonSort (ns : List Node) : (lonSort ns).Pairwise nodeLe := by
  have htotal : Std.Total nodeLe := ⟨fun a b => by rw [nodeLe_iff, nodeLe_iff]; omega⟩
  have htrans : IsTrans Node nodeLe := ⟨fun a b c => by simp only [nodeLe_iff]; omega⟩
  exact List.pairwise_insertionSort nodeLe ns

/-- In order, a boss comes before its points. -/
theorem not_lost_of_le {a n : Node} (h : nodeLe a n) (hp : 0 ≤ a.point) : ¬ Lost a n := by
  rintro ⟨⟨h1, h2, h3, h4⟩, h5⟩
  rw [nodeLe_iff] at h
  omega

/-- The first of the sorted nodes is not printed again. -/
theorem not_mem_kept_sortedNodes : ∀ {ns : List Node} {a : Node}, (a :: ns).Pairwise nodeLe →
    a.bare ∉ Repeats.kept (sortedNodes a ns)
  | [], _, _ => List.not_mem_nil
  | n :: ns, a, h => by
      obtain ⟨ha, hns⟩ := List.pairwise_cons.mp h
      cases he : nodeEq a n with
      | true =>
          rw [sortedNodes_eq he, Repeats.kept_cons, if_neg (by decide), List.nil_append,
            nodeEq_iff_bare.mp he]
          exact not_mem_kept_sortedNodes hns
      | false =>
          rw [sortedNodes_ne he]
          intro hmem
          have hmem := (Repeats.kept_sublist _).subset hmem
          rw [List.map_cons, map_fst_sortedNodes] at hmem
          have hmem : a.bare ∈ (n :: ns).map Node.bare := hmem
          obtain ⟨m, hm, hbare⟩ := List.mem_map.mp hmem
          obtain ⟨h1, h2, h3, h4⟩ := Node.bare_congr hbare
          have han := nodeLe_iff.mp (ha n List.mem_cons_self)
          have hnm : nodeLe n m := by
            rcases List.mem_cons.mp hm with rfl | hm
            · rw [nodeLe_iff]
              omega
            · exact (List.pairwise_cons.mp hns).1 m hm
          rw [nodeLe_iff] at hnm
          have heq : nodeEq a n = true := by
            simp only [nodeEq, Bool.and_eq_true, beq_iff_eq]
            omega
          rw [he] at heq
          cases heq

/-- Where the list is read behind the nodes that are not sorted, no boss was
lost behind them. -/
theorem isChain_of_destutter {ss ts : List Node} (hs : ss.Pairwise nodeLe)
    (hst : ∀ n ∈ ss, n ∈ ts) (hp : ∀ n ∈ ss, 0 ≤ n.point) : ∀ {ns : List Node} {a : Node},
    AllPrinted a ns →
    (a.bare :: Repeats.kept (sortedNodes a (ns ++ ss))).destutter (· ≠ ·) =
      (a.bare :: (ns ++ ts).map Node.bare).destutter (· ≠ ·) →
    (a :: (ns ++ ss)).IsChain fun a n => ¬ Lost a n
  | [], a, _, h => by
      rw [List.nil_append] at h ⊢
      cases ss with
      | nil => exact List.isChain_singleton a
      | cons s ss =>
          have hchain : (s :: ss).IsChain fun a n => ¬ Lost a n := by
            refine List.IsChain.imp_of_mem_imp ?_ (List.Pairwise.isChain hs)
            intro x y hx _ hle
            exact not_lost_of_le hle (hp x hx)
          refine List.isChain_cons_cons.mpr ⟨fun hl => ?_, hchain⟩
          -- the boss is nowhere behind
          obtain ⟨hu, he⟩ := lost_iff.mp hl
          have hmem : s.bare ∈ (a.bare :: (([] : List Node) ++ ts).map Node.bare).destutter
              (· ≠ ·) :=
            Repeats.mem_destutter.mpr (List.mem_cons_of_mem _
              (List.mem_map_of_mem (hst s List.mem_cons_self)))
          rw [← h, Repeats.mem_destutter, sortedNodes_ne he, Repeats.kept_cons,
            if_neg (by simpa using hu), List.nil_append] at hmem
          rcases List.mem_cons.mp hmem with hmem | hmem
          · exact bare_ne he hmem.symm
          · exact not_mem_kept_sortedNodes hs hmem
  | n :: ns, a, hns, h => by
      obtain ⟨hu, hns⟩ := allPrinted_cons.mp hns
      refine List.isChain_cons_cons.mpr ⟨fun hl => hu hl.1, ?_⟩
      refine isChain_of_destutter hs hst hp hns ?_
      rw [List.cons_append, List.cons_append, List.map_cons] at h
      cases he : nodeEq a n with
      | true =>
          rw [sortedNodes_eq he, Repeats.kept_cons, if_neg (by decide), List.nil_append,
            nodeEq_iff_bare.mp he, Repeats.destutter_cons_self] at h
          exact h
      | false =>
          rw [sortedNodes_ne he, Repeats.kept_cons, if_pos (by simpa using hu),
            List.singleton_append, Repeats.destutter_cons_ne (bare_ne he),
            Repeats.destutter_cons_ne (bare_ne he)] at h
          exact (List.cons.inj h).2

/-! ## The lists are read back -/

/-- A list is read back as it was printed; the sorted one but for repeats of
neighbours. -/
structure LonRoundTrip (zone : Int) (lon : List Node) (cup : Nat) : Prop where
  print : lonAddString zone (lonPrint lon) = lon.map Node.bare
  passive : areasbbsAddPassive (nodeOld zone) (splitComma (lonPrintPassive lon)) =
    lon.map Node.bare
  sorted : ∃ s, lonPrintSortedShort lon cup = some s ∧
    (lonAddString zone s).destutter (· ≠ ·) =
      ((lon.take cup ++ lonSort (lon.drop cup)).map Node.bare).destutter (· ≠ ·)

/-- In the list no boss is right behind itself or one of its points, in the
list as it is sorted none behind one of its points; and the number of uplinks
is none below 0 as a short, nor one that makes another order. -/
structure LonPrintable (lon : List Node) (cup : Nat) : Prop where
  printed : lon.IsChain fun a n => ¬ Unprinted a n
  sorted : (lonSortOff lon (shortUplinks cup)).IsChain fun a n => ¬ Lost a n
  short : lon = [] ∨ 0 ≤ shortUplinks cup
  order : ((lonSortOff lon (shortUplinks cup)).map Node.bare).destutter (· ≠ ·) =
    ((lonSortOff lon cup).map Node.bare).destutter (· ≠ ·)

theorem mem_lonSortOff {lon : List Node} {off : Int} {n : Node} :
    n ∈ lonSortOff lon off ↔ n ∈ lon := by
  rw [lonSortOff, List.mem_append, lonSort, List.mem_insertionSort, ← List.mem_append,
    List.take_append_drop]

theorem fullAddrs_lonSortOff {lon : List Node} (h : FullAddrs lon) (off : Int) :
    FullAddrs (lonSortOff lon off) :=
  fun n hn => h n (mem_lonSortOff.mp hn)

theorem not_unprinted_nodeInvalid {n : Node} (hz : 0 ≤ n.zone) : ¬ Unprinted nodeInvalid n := by
  rintro ⟨hzone, -⟩
  have : n.zone = -1 := hzone
  omega

theorem allPrinted_iff {lon : List Node} (h : FullAddrs lon) :
    AllPrinted nodeInvalid lon ↔ lon.IsChain fun a n => ¬ Unprinted a n := by
  cases lon with
  | nil => exact ⟨fun _ => List.isChain_nil, fun _ => List.isChain_singleton nodeInvalid⟩
  | cons n ns =>
      rw [allPrinted_cons]
      exact ⟨fun h => h.2, fun hc =>
        ⟨not_unprinted_nodeInvalid (h n List.mem_cons_self).1, hc⟩⟩

theorem lonPrintSortedShort_eq {lon : List Node} {cup : Nat}
    (h : lon = [] ∨ 0 ≤ shortUplinks cup) :
    lonPrintSortedShort lon cup = some (lonPrintOrder (lonSortOff lon (shortUplinks cup))) := by
  rw [lonPrintSortedShort, lonSortShort_eq, if_pos h]
  rfl

/-- Where a list sorted behind `off` is read as the one sorted behind `cup`,
it was printed without a loss. -/
theorem sorted_of_read {zone : Int} {lon : List Node} (h : FullAddrs lon) {off cup : Nat}
    (hle : off ≤ cup) (hp : AllPrinted nodeInvalid lon)
    (hread : (lonAddString zone (lonPrintOrder (lonSortOff lon off))).destutter (· ≠ ·) =
      ((lonSortOff lon cup).map Node.bare).destutter (· ≠ ·)) :
    (lonSortOff lon off).IsChain fun a n => ¬ Lost a n := by
  have hcup : lonSortOff lon cup =
      lon.take off ++ ((lon.drop off).take (cup - off) ++ lonSort (lon.drop cup)) := by
    rw [lonSortOff, ← List.append_assoc, Int.toNat_natCast]
    conv_lhs => rw [show cup = off + (cup - off) by omega, List.take_add]
    rw [show off + (cup - off) = cup by omega]
  have hmem : ∀ n ∈ lonSort (lon.drop off),
      n ∈ (lon.drop off).take (cup - off) ++ lonSort (lon.drop cup) := by
    intro n hn
    rw [lonSort, List.mem_insertionSort] at hn
    rw [List.mem_append, lonSort, List.mem_insertionSort,
      show cup = off + (cup - off) by omega, ← List.drop_drop,
      show off + (cup - off) - off = cup - off by omega, ← List.mem_append,
      List.take_append_drop]
    exact hn
  have hpoint : ∀ n ∈ lonSort (lon.drop off), 0 ≤ n.point := by
    intro n hn
    rw [lonSort, List.mem_insertionSort] at hn
    exact (h n (List.mem_of_mem_drop hn)).2.point
  have hfirst : AllPrinted nodeInvalid (lon.take off) := by
    have htake := (allPrinted_iff h).mp hp
    exact (allPrinted_iff fun n hn => h n (List.mem_of_mem_take hn)).mpr (htake.take off)
  have hout : nodeInvalid.bare ∉ (lonSortOff lon off).map Node.bare := by
    intro hmem
    obtain ⟨n, hn, he⟩ := List.mem_map.mp hmem
    have hz := (fullAddrs_lonSortOff h off n hn).1
    have hzone : n.zone = -1 := congrArg Node.zone he
    omega
  have hkept : nodeInvalid.bare ∉ Repeats.kept (sortedNodes nodeInvalid (lonSortOff lon off)) := by
    intro hmem
    have hmem := (Repeats.kept_sublist _).subset hmem
    rw [map_fst_sortedNodes] at hmem
    exact hout hmem
  have hout' : nodeInvalid.bare ∉ (lonSortOff lon cup).map Node.bare := by
    intro hmem
    obtain ⟨n, hn, he⟩ := List.mem_map.mp hmem
    exact hout (he ▸ List.mem_map_of_mem (mem_lonSortOff.mpr (mem_lonSortOff.mp hn)))
  rw [lonAddString_lonPrintOrder (fullAddrs_lonSortOff h _)] at hread
  have hchain := @isChain_of_destutter (lonSort (lon.drop off)) _ (pairwise_lonSort _) hmem
    hpoint (lon.take off) nodeInvalid hfirst
  rw [← hcup] at hchain
  refine (hchain ?_).tail
  show (nodeInvalid.bare :: Repeats.kept (sortedNodes nodeInvalid (lonSortOff lon off))).destutter
    (· ≠ ·) = _
  rw [Repeats.destutter_cons_of_not_mem hkept, Repeats.destutter_cons_of_not_mem hout', hread]

/-- Lists are read back just where no boss is lost in them. -/
theorem lonRoundTrip_iff {zone : Int} {lon : List Node} (h : FullAddrs lon) (cup : Nat) :
    LonRoundTrip zone lon cup ↔ LonPrintable lon cup := by
  refine ⟨fun hr => ?_, fun hp => ?_⟩
  · have hprinted : AllPrinted nodeInvalid lon := by
      have hprint := hr.print
      rw [lonAddString_lonPrint h] at hprint
      exact (kept_printedNodes_iff nodeInvalid lon).mp hprint
    obtain ⟨s, hs, hread⟩ := hr.sorted
    have hshort : lon = [] ∨ 0 ≤ shortUplinks cup := by
      by_contra hshort
      rw [lonPrintSortedShort, lonSortShort_eq, if_neg hshort] at hs
      cases hs
    rw [lonPrintSortedShort_eq hshort] at hs
    obtain rfl := Option.some.inj hs
    have hsorted : (lonSortOff lon (shortUplinks cup)).IsChain fun a n => ¬ Lost a n := by
      rcases hshort with rfl | hoff
      · rw [lonSortOff_of_length_le (Or.inl rfl)]
        exact List.isChain_nil
      · obtain ⟨off, hoff⟩ := Int.eq_ofNat_of_zero_le hoff
        have hle := shortUplinks_le cup
        rw [hoff] at hread hle ⊢
        exact sorted_of_read h hle hprinted hread
    refine ⟨(allPrinted_iff h).mp hprinted, hsorted, hshort, ?_⟩
    rw [← @destutter_lonPrintOrder zone _ (fullAddrs_lonSortOff h _) hsorted]
    exact hread
  · have hprinted := (allPrinted_iff h).mpr hp.printed
    refine ⟨?_, areasbbsAddPassive_lonPrintPassive h hprinted, _,
      lonPrintSortedShort_eq hp.short, ?_⟩
    · rw [lonAddString_lonPrint h]
      exact (kept_printedNodes_iff nodeInvalid lon).mpr hprinted
    · rw [destutter_lonPrintOrder (fullAddrs_lonSortOff h _) hp.sorted, hp.order]
      rfl

/-- Two uplinks, a point and another node. -/
theorem lonRoundTrip_points : LonRoundTrip 2
    [⟨2, 5020, 400, 0, []⟩, ⟨2, 5020, 400, 5, []⟩, ⟨2, 5030, 8, 0, []⟩, ⟨2, 463, 1, 0, []⟩] 2 :=
  (lonRoundTrip_iff (by decide +kernel) 2).mpr
    ⟨by decide +kernel, by decide +kernel, by decide +kernel, by decide +kernel⟩

/-- The boss behind its point is lost. -/
theorem lonPrint_boss : ¬ LonRoundTrip 2 [⟨2, 5020, 400, 5, []⟩, ⟨2, 5020, 400, 0, []⟩] 0 := by
  intro h
  exact absurd h.print (by decide +kernel)

end Fidogate

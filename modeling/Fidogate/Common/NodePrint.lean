/-
# `Fidogate.Common.NodePrint` — node.c: an address in full, printed and read

`znf1` prints zone:net/node.point and the domain; `asc_to_node`,
`asc_to_node_diff` and the readers of lists take it back.  Of a long domain
only the front is printed.
-/
import Fidogate.Common.NodeLists

namespace Fidogate

open Bytes

/-! ## Numbers -/

/-- `atoi` on a number that was printed. -/
theorem atoi_putDec_append (n : Nat) {s : Str} (hs : NoDigit s) : atoi (putDec n ++ s) = n := by
  have htake := takeWhile_putDec n hs
  have hv := getDec_putDec n
  obtain ⟨c, t, hcs, hd⟩ := putDec_eq_cons n
  rw [hcs] at htake hv
  have key : ∀ c : UInt8, isDigit c = true → (isSpace c || c == 11 || c == 12) = false ∧ c ≠ 45 ∧
      c ≠ 43 := forall_byte (by decide +kernel)
  obtain ⟨hspace, h45, h43⟩ := key c hd
  rw [atoi, hcs, List.cons_append, List.dropWhile_cons_of_neg (by rw [hspace]; decide)]
  rw [List.cons_append] at htake
  split
  · next heq => exact absurd (List.cons.inj heq).1 h45
  · next heq => exact absurd (List.cons.inj heq).1 h43
  · rw [htake, hv]

theorem atoi_putInt_append {n : Int} (h : 0 ≤ n) {s : Str} (hs : NoDigit s) :
    atoi (putInt n ++ s) = n := by
  rw [putInt_of_nonneg h, atoi_putDec_append n.toNat hs]
  omega

/-- A number at the end of a line. -/
theorem atoi_putInt_lf {n : Int} (h : 0 ≤ n) : atoi (putInt n ++ [lf]) = n :=
  atoi_putInt_append h fun c hc => Option.some.inj hc ▸ by decide

theorem noDigit_nil : NoDigit [] := fun _ hc => nomatch hc

theorem atoi_putDec (n : Nat) : atoi (putDec n) = n := by
  have h := atoi_putDec_append n noDigit_nil
  rwa [List.append_nil] at h

theorem atoi_putInt (n : Int) : atoi (putInt n) = n := by
  unfold putInt
  split
  · have htake : (putDec n.natAbs).takeWhile isDigit = putDec n.natAbs :=
      List.takeWhile_eq_self_iff.mpr fun c hc => isDigit_of_mem_putDec hc
    rw [atoi, List.dropWhile_cons_of_neg (by decide)]
    change -(getDec 0 ((putDec n.natAbs).takeWhile isDigit) : Int) = n
    rw [htake, getDec_putDec]
    omega
  · rw [atoi_putDec]
    omega

theorem putInt_bytes (n : Int) {c : UInt8} (hc : c ∈ putInt n) : c = 45 ∨ isDigit c = true := by
  rw [putInt] at hc
  split at hc
  · exact (List.mem_cons.mp hc).imp_right isDigit_of_mem_putDec
  · exact .inr (isDigit_of_mem_putDec hc)

theorem putInt_plain {n : Int} {c : UInt8} (hc : c ∈ putInt n) : isSpace c = false ∧ c ≠ nul := by
  have key : ∀ c : UInt8, isDigit c = true → isSpace c = false ∧ c ≠ nul :=
    forall_byte (by decide +kernel)
  obtain rfl | hc := putInt_bytes n hc
  · decide
  · exact key c hc

theorem not_mem_putInt {n : Int} {c : UInt8} (h : c ≠ 45) (hd : isDigit c = false) :
    c ∉ putInt n := by
  intro hc
  obtain hc | hc := putInt_bytes n hc
  · exact h hc
  · rw [hd] at hc
    cases hc

theorem putInt_ne_nil (n : Int) : putInt n ≠ [] := by
  rw [putInt]
  split
  · exact List.cons_ne_nil _ _
  · exact putDec_ne_nil _

/-- A number is not longer than the text it was read from. -/
theorem length_putInt_atoi {s : Str} (hs : s ≠ []) : (putInt (atoi s)).length ≤ s.length := by
  have hpos : 0 < s.length := List.length_pos_iff.mpr hs
  have hdigits : ∀ {t : Str} {k : Nat}, t.length ≤ k → 0 < k →
      (putDec (getDec 0 (t.takeWhile isDigit))).length ≤ k := by
    intro t k ht hk
    rw [length_putDec_le_iff hk]
    have hlt := getDec_lt 0 fun c hc => List.mem_takeWhile_imp (p := isDigit) (l := t) hc
    have hle : (t.takeWhile isDigit).length ≤ k :=
      (List.takeWhile_sublist isDigit).length_le.trans ht
    rw [Nat.zero_add, Nat.one_mul] at hlt
    exact hlt.trans_le (Nat.pow_le_pow_right (by decide) hle)
  have hdrop : (s.dropWhile fun c => isSpace c || c == 11 || c == 12).length ≤ s.length :=
    (List.dropWhile_sublist _).length_le
  rw [atoi]
  split
  · next t ht =>
      rw [ht, List.length_cons] at hdrop
      rw [putInt]
      split
      · rw [List.length_cons, Int.natAbs_neg, Int.natAbs_natCast]
        have ht : t ≠ [] := by
          rintro rfl
          simp [getDec] at *
        have := hdigits (Nat.le_refl t.length) (List.length_pos_iff.mpr ht)
        omega
      · rw [Int.natAbs_neg, Int.natAbs_natCast]
        exact hdigits (by omega) hpos
  · next t ht =>
      rw [ht, List.length_cons] at hdrop
      rw [putInt_of_nonneg (Int.natCast_nonneg _), Int.toNat_natCast]
      exact hdigits (by omega) hpos
  · rw [putInt_of_nonneg (Int.natCast_nonneg _), Int.toNat_natCast]
    exact hdigits hdrop hpos

theorem length_putInt_atol {s : Str} (hs : s ≠ []) : (putInt (atol s)).length ≤ s.length := by
  refine Nat.le_trans ?_ (length_putInt_atoi hs)
  rw [atol]
  generalize atoi s = v
  rw [putInt, putInt]
  split <;> split
  · rw [List.length_cons, List.length_cons]
    exact Nat.succ_le_succ (length_putDec_le (by omega))
  · omega
  · omega
  · exact length_putDec_le (by omega)

/-! ## Addresses -/

/-- An address in full: numbers an `int` holds, and a domain in one word. -/
structure Node.Fits (n : Node) : Prop extends n.IsAddr where
  zone : 0 ≤ n.zone
  zone_int : n.zone < 2 ^ 31
  domain : ∀ c ∈ n.domain, isSpace c = false ∧ c ≠ nul

instance (n : Node) : Decidable n.Fits :=
  have : Decidable (∀ c ∈ n.domain, isSpace c = false ∧ c ≠ nul) :=
    List.decidableBAll (fun c => isSpace c = false ∧ c ≠ nul) n.domain
  decidable_of_iff (n.IsAddr ∧ 0 ≤ n.zone ∧ n.zone < 2 ^ 31 ∧
      ∀ c ∈ n.domain, isSpace c = false ∧ c ≠ nul)
    ⟨fun ⟨h1, h2, h3, h4⟩ => ⟨h1, h2, h3, h4⟩, fun ⟨h1, h2, h3, h4⟩ => ⟨h1, h2, h3, h4⟩⟩

/-- What stands behind the point: nothing, or a domain. -/
def IsDomain (d : Str) : Prop := d = [] ∨ ∃ d', d = 64 :: d'

theorem IsDomain.noDigit {d : Str} (h : IsDomain d) : NoDigit d := by
  intro c hc
  obtain rfl | ⟨d', rfl⟩ := h
  · cases hc
  · cases hc
    rfl

theorem IsDomain.head? {d : Str} (h : IsDomain d) {c : UInt8} (hc : c ≠ 64) : d.head? ≠ some c := by
  obtain rfl | ⟨d', rfl⟩ := h
  · intro h
    cases h
  · intro h
    exact hc (Option.some.inj h).symm

theorem noDigit_pointText_domain (point : Int) {d : Str} (hd : IsDomain d) :
    NoDigit (pointText point ++ d) := by
  unfold pointText
  split
  · exact hd.noDigit
  · intro c hc
    cases hc
    rfl

theorem znfpPart_pointText_domain {point : Int} (h : 0 ≤ point) {d : Str} (hd : IsDomain d) :
    znfpPart 46 (pointText point ++ d) = some (if point = 0 then none else some point, d) := by
  unfold pointText
  by_cases h0 : point = 0
  · rw [if_pos (by simpa using h0), if_pos h0, List.nil_append]
    exact znfpPart_of_ne (hd.head? (by decide))
  · rw [if_neg (by simpa using h0), if_neg h0, putInt_of_nonneg h]
    have hn := znfpPart_putDec 46 point.toNat hd.noDigit
    rw [show (point.toNat : Int) = point by omega] at hn
    exact hn

/-- A full address with the text of its point and what stands behind it. -/
theorem znfpParsePartial_text {n : Node} (hn : n.Fits) {point d : Str} {v : Option Int}
    (hd : IsDomain d) (hdigit : NoDigit (point ++ d))
    (hpoint : znfpPart 46 (point ++ d) = some (v, d)) :
    znfpParsePartial (putInt n.zone ++ lit ":" ++ putInt n.net ++ lit "/" ++ putInt n.node ++
      point ++ d) = some { n with point := v.getD EMPTY, domain := d.tail } := by
  have h58 := znfpPart_putDec 58 n.net.toNat (s := 47 :: (putDec n.node.toNat ++ (point ++ d)))
    (fun c hc => by cases hc; rfl)
  have h47 := znfpPart_putDec 47 n.node.toNat hdigit
  rw [putInt_of_nonneg hn.zone, putInt_of_nonneg hn.net, putInt_of_nonneg hn.node]
  simp only [List.append_assoc]
  rw [znfpParsePartial_putDec _ (s := lit ":" ++ (putDec n.net.toNat ++ (lit "/" ++
    (putDec n.node.toNat ++ (point ++ d))))) (fun c hc => by cases hc; rfl),
    show (n.zone.toNat : Int) = n.zone by have := hn.zone; omega]
  change znfpParseParts n.zone (58 :: (putDec n.net.toNat ++ 47 :: (putDec n.node.toNat ++
    (point ++ d)))) = _
  unfold znfpParseParts
  rw [h58]
  simp only [Option.bind_eq_bind, Option.bind_some, h47, hpoint]
  rw [show (n.node.toNat : Int) = n.node by have := hn.node; omega,
    show (n.net.toNat : Int) = n.net by have := hn.net; omega]
  obtain rfl | ⟨d', rfl⟩ := hd
  · cases v <;> simp
  · cases v <;> simp

/-- A full address with what stands behind it. -/
theorem znfpParsePartial_full {n : Node} (hn : n.Fits) {d : Str} (hd : IsDomain d) :
    znfpParsePartial (putInt n.zone ++ lit ":" ++ putInt n.net ++ lit "/" ++ putInt n.node ++
      pointText n.point ++ d) = some { n with point := partialPoint n.point, domain := d.tail } := by
  rw [znfpParsePartial_text hn hd (noDigit_pointText_domain n.point hd)
    (znfpPart_pointText_domain hn.point hd), partialPoint]
  by_cases h0 : n.point = 0 <;> simp [h0]

/-- The numbers in full, and of the domain what fits. -/
theorem take_domain {numbers domain : Str} (hlen : numbers.length ≤ 47) :
    ∃ d, IsDomain d ∧ (∀ c ∈ d.tail, c ∈ domain) ∧
      (numbers ++ if domain.isEmpty then [] else lit "@" ++ domain).take 47 = numbers ++ d := by
  refine ⟨(if domain.isEmpty then [] else lit "@" ++ domain).take (47 - numbers.length), ?_, ?_, ?_⟩
  · cases domain with
    | nil => exact .inl (List.take_nil ..)
    | cons c domain =>
        generalize 47 - _ = k
        cases k with
        | zero => exact .inl rfl
        | succ k => exact .inr ⟨(c :: domain).take k, rfl⟩
  · cases domain with
    | nil =>
        intro c hc
        rw [List.isEmpty_nil, if_pos rfl, List.take_nil] at hc
        cases hc
    | cons c domain =>
        generalize 47 - _ = k
        intro e he
        cases k with
        | zero => cases he
        | succ k => exact List.mem_of_mem_take (l := c :: domain) he
  · rw [List.take_append, List.take_of_length_le hlen]

theorem length_numbers {n : Node} (hn : n.Fits) {point : Str} (hp : point.length ≤ 11) :
    (putInt n.zone ++ lit ":" ++ putInt n.net ++ lit "/" ++ putInt n.node ++ point).length ≤
      47 := by
  have h1 := length_putInt hn.zone hn.zone_int
  have h2 := length_putInt hn.net hn.net_int
  have h3 := length_putInt hn.node hn.node_int
  simp [lit]
  omega

/-- `znf1`: the numbers, and of the domain what fits. -/
theorem znf1_eq {n : Node} (hn : n.Fits) : ∃ d, IsDomain d ∧ (∀ c ∈ d.tail, c ∈ n.domain) ∧
    znf1 n = putInt n.zone ++ lit ":" ++ putInt n.net ++ lit "/" ++ putInt n.node ++
      pointText n.point ++ d := by
  have hz := ne_empty_of_nonneg hn.zone
  have ht := ne_empty_of_nonneg hn.net
  have hm := ne_empty_of_nonneg hn.node
  have hp := ne_empty_of_nonneg hn.point
  have hprint : znfpPrint n false false = putInt n.zone ++ lit ":" ++ putInt n.net ++ lit "/" ++
      putInt n.node ++ pointText n.point ++
        (if n.domain.isEmpty then [] else lit "@" ++ n.domain) := by
    unfold znfpPrint znfpPutNumber pointText
    simp [hz, ht, hm, hp]
  rw [znf1, hprint]
  exact take_domain (length_numbers hn (length_pointText hn.point hn.point_int))

/-- `znfp1`: a point of 0 as well. -/
theorem znfp1_eq {n : Node} (hn : n.Fits) : ∃ d, IsDomain d ∧ (∀ c ∈ d.tail, c ∈ n.domain) ∧
    znfp1 n = putInt n.zone ++ lit ":" ++ putInt n.net ++ lit "/" ++ putInt n.node ++
      (lit "." ++ putInt n.point) ++ d := by
  have hz := ne_empty_of_nonneg hn.zone
  have ht := ne_empty_of_nonneg hn.net
  have hm := ne_empty_of_nonneg hn.node
  have hp := ne_empty_of_nonneg hn.point
  have hwild : ∀ {v : Int}, 0 ≤ v → (v == WILDCARD) = false := by
    intro v hv
    rw [beq_eq_false_iff_ne, WILDCARD]
    omega
  have hprint : znfpPrint n true true = putInt n.zone ++ lit ":" ++ putInt n.net ++ lit "/" ++
      putInt n.node ++ (lit "." ++ putInt n.point) ++
        (if n.domain.isEmpty then [] else lit "@" ++ n.domain) := by
    unfold znfpPrint znfpPutNumber
    simp [hz, ht, hm, hp, hwild hn.zone, hwild hn.net, hwild hn.node, hwild hn.point]
  rw [znfp1, hprint]
  refine take_domain (length_numbers hn ?_)
  have hlen := length_putInt hn.point hn.point_int
  simp [lit]
  omega

/-- The node `znf1` prints, as it is read: its domain may be cut. -/
def Node.withDomain (n : Node) (domain : Str) : Node := { n with domain := domain }

/-- An address with all its four numbers, each one an `int`. -/
def Node.Full (n : Node) : Prop := (n.withDomain []).Fits

instance (n : Node) : Decidable n.Full := inferInstanceAs (Decidable (n.withDomain []).Fits)

theorem nodeEq_withDomain (n : Node) (domain : Str) : nodeEq (n.withDomain domain) n = true := by
  simp [nodeEq, Node.withDomain]

theorem wild_partialPoint {n : Node} (hn : n.Fits) (domain : Str) :
    Node.wild { n with point := partialPoint n.point, domain := domain } = false := by
  have hz := hn.zone
  have ht := hn.net
  have hm := hn.node
  have hp := hn.point
  simp only [Node.wild, partialPoint, WILDCARD, EMPTY, Bool.or_eq_false_iff, beq_eq_false_iff_ne]
  split
  · omega
  · omega

/-- `asc_to_node` on what `znf1` printed. -/
theorem ascToNode_znf1 {n : Node} (hn : n.Fits) (defzone : Int) :
    ∃ domain, ascToNode false defzone (znf1 n) = some (n.withDomain domain) := by
  obtain ⟨d, hd, -, hprint⟩ := znf1_eq hn
  have hparse := znfpParsePartial_full hn hd
  have hz := ne_empty_of_nonneg hn.zone
  have ht := ne_empty_of_nonneg hn.net
  have hm := ne_empty_of_nonneg hn.node
  have hp := ne_empty_of_nonneg hn.point
  refine ⟨d.tail, ?_⟩
  rw [ascToNode, hprint, hparse]
  simp only [Option.bind_eq_bind, Option.bind_some, ascToNodeStore, hparse, wild_partialPoint hn]
  unfold partialPoint Node.withDomain
  by_cases h0 : n.point = 0
  · simp [hz, ht, hm, h0]
  · simp [hz, ht, hm, hp, h0]

/-- `asc_to_node` on what `znfp1` printed. -/
theorem ascToNode_znfp1 {n : Node} (hn : n.Fits) (defzone : Int) :
    ∃ domain, ascToNode false defzone (znfp1 n) = some (n.withDomain domain) := by
  obtain ⟨d, hd, -, hprint⟩ := znfp1_eq hn
  have hz := ne_empty_of_nonneg hn.zone
  have ht := ne_empty_of_nonneg hn.net
  have hm := ne_empty_of_nonneg hn.node
  have hp := ne_empty_of_nonneg hn.point
  have hpoint : znfpPart 46 (lit "." ++ putInt n.point ++ d) = some (some n.point, d) := by
    have hn' := znfpPart_putDec 46 n.point.toNat hd.noDigit
    rw [show (n.point.toNat : Int) = n.point by have := hn.point; omega] at hn'
    rw [putInt_of_nonneg hn.point]
    exact hn'
  have hdigit : NoDigit (lit "." ++ putInt n.point ++ d) := by
    intro c hc
    cases hc
    rfl
  have hparse := znfpParsePartial_text hn hd hdigit hpoint
  have hwild : Node.wild { n with point := n.point, domain := d.tail } = false := by
    have h1 := hn.zone
    have h2 := hn.net
    have h3 := hn.node
    have h4 := hn.point
    simp only [Node.wild, WILDCARD, Bool.or_eq_false_iff, beq_eq_false_iff_ne]
    omega
  refine ⟨d.tail, ?_⟩
  rw [ascToNode, hprint, hparse]
  simp only [Option.bind_eq_bind, Option.bind_some, ascToNodeStore, hparse, Option.getD_some, hwild]
  simp [hz, ht, hm, hp, Node.withDomain]

/-- A text that is an address leaves nothing of the node before. -/
theorem ascToNodeStore_of_ascToNode {pointFlag : Bool} {zone : Int} {asc : Str} {n : Node}
    (h : ascToNode pointFlag zone asc = some n) (old : Node) :
    ascToNodeStore pointFlag zone asc old = n := by
  unfold ascToNode at h
  cases hparse : znfpParsePartial asc with
  | none =>
      rw [hparse] at h
      cases h
  | some m =>
      rw [hparse] at h
      simp only [Option.bind_eq_bind, Option.bind_some] at h
      split at h
      · cases h
      · rw [← Option.some.inj h]
        simp only [ascToNodeStore, hparse]

/-- `asc_to_node_diff` on what `znf1` printed. -/
theorem ascToNodeDiff_znf1 {n : Node} (hn : n.Fits) (old : Node) :
    ∃ domain, ascToNodeDiff (znf1 n) old = some (n.withDomain domain) := by
  obtain ⟨d, hd, -, hprint⟩ := znf1_eq hn
  refine ⟨d.tail, ?_⟩
  refine ascToNodeDiff_of_parse ?_ hn.zone
    ⟨hn.net, hn.node, hn.point, hn.net_int, hn.node_int, hn.point_int⟩
  rw [znfpParseDiff, hprint, znfpParsePartial_full hn hd]
  simp [Node.withDomain, ne_empty_of_nonneg hn.zone]

/-- The bytes of an address in full. -/
theorem address_bytes {n : Node} (hn : n.Fits) {point d : Str}
    (hpoint : ∀ c ∈ point, isSpace c = false ∧ c ≠ nul) (hd : IsDomain d)
    (hdomain : ∀ c ∈ d.tail, c ∈ n.domain) :
    ∀ c ∈ putInt n.zone ++ lit ":" ++ putInt n.net ++ lit "/" ++ putInt n.node ++ point ++ d,
      isSpace c = false ∧ c ≠ nul := by
  have hnum : ∀ (v : Int), ∀ c ∈ putInt v, isSpace c = false ∧ c ≠ nul := fun v c => putInt_plain
  have hbehind : ∀ c ∈ d, isSpace c = false ∧ c ≠ nul := by
    intro c hc
    obtain rfl | ⟨d', rfl⟩ := hd
    · cases hc
    · rcases List.mem_cons.mp hc with rfl | hc
      · decide
      · exact hn.domain c (hdomain c hc)
  intro c hc
  simp only [List.mem_append] at hc
  rcases hc with (((((hc | hc) | hc) | hc) | hc) | hc) | hc
  · exact hnum n.zone c hc
  · rw [List.mem_singleton.mp hc]
    decide
  · exact hnum n.net c hc
  · rw [List.mem_singleton.mp hc]
    decide
  · exact hnum n.node c hc
  · exact hpoint c hc
  · exact hbehind c hc

/-- The bytes `znf1` prints. -/
theorem znf1_bytes {n : Node} (hn : n.Fits) : ∀ c ∈ znf1 n, isSpace c = false ∧ c ≠ nul := by
  obtain ⟨d, hd, hdomain, hprint⟩ := znf1_eq hn
  rw [hprint]
  refine address_bytes hn (fun c hc => ?_) hd hdomain
  unfold pointText at hc
  split at hc
  · cases hc
  · rcases List.mem_append.mp hc with hc | hc
    · rw [List.mem_singleton.mp hc]
      decide
    · exact putInt_plain hc

theorem znf1_ne_nil {n : Node} (hn : n.Fits) : znf1 n ≠ [] := by
  obtain ⟨d, -, -, hprint⟩ := znf1_eq hn
  rw [hprint]
  simp [lit]

/-- `lon_add_string` on what `znf1` printed. -/
theorem lonAddString_znf1 {n : Node} (hn : n.Fits) (zone : Int) :
    ∃ domain, lonAddString zone (znf1 n) = [n.withDomain domain] := by
  obtain ⟨domain, hread⟩ := ascToNodeDiff_znf1 hn (nodeOld zone)
  have hword := words_word (isWord_lineBlanks (znf1_ne_nil hn) fun c hc => (znf1_bytes hn c hc).1)
  refine ⟨domain, ?_⟩
  rw [lonAddString, show strtok lineBlanks (znf1 n) = [znf1 n] from hword]
  simp only [areasbbsAddPassive, hread]

end Fidogate

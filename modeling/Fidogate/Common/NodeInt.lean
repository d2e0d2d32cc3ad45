/-
# `Fidogate.Common.NodeInt` — parsenode.c: the parts of an address as `int`s

`znfp_parse_partial` with the width of its numbers: a run of digits is summed up
in an `int`, and the domain is cut to its field.  `AddrWritten` says how the parts
of a node stand in the text they were read from; `znfpWritten` puts printing and
reading together.
-/
import Fidogate.Common.Msgid
import Fidogate.Common.NodePrint

namespace Fidogate

open Bytes

/-! ## Reading -/

/-- `val = val * 10 + *s++ - '0'`, for a run of digits. -/
def intDec (val : Int) : Str → Int
  | [] => val
  | c :: s => intDec ((val * 10 + (c.toNat - 48 : Int)).bmod (2 ^ 32)) s

/-- `znfp_get_number`. -/
def intGetNumber (s : Str) : Int × Str :=
  if hasPrefix (lit "*") s then (WILDCARD, s.tail)
  else if hasPrefixI (lit "all") s then (WILDCARD, s.drop 3)
  else if (s.head?.map isDigit).getD false then
    (intDec 0 (s.takeWhile isDigit), s.dropWhile isDigit)
  else (ERROR, s)

/-- The number behind the separator `c`, if the text starts with it. -/
def intPart (c : UInt8) (s : Str) : Option (Option Int × Str) :=
  if s.head? = some c then
    let r := intGetNumber s.tail
    if r.1 = ERROR then none else some (some r.1, r.2)
  else some (none, s)

/-- The domain that may follow. -/
def intDomain : Str → Option Str
  | [] => some []
  | d :: domain => if d == 64 then some (domain.take (MAX_DOMAIN - 1)) else none

/-- `znfp_parse_partial` behind the first number. -/
def intParseParts (val1 : Int) (s : Str) : Option Node := do
  let (net, s) ← intPart 58 s
  let zone := if net.isSome then val1 else EMPTY
  let val1 := if net.isSome then EMPTY else val1
  let (node, s) ← intPart 47 s
  let net := if node.isSome && val1 != EMPTY then some val1 else net
  let val1 := if node.isSome then EMPTY else val1
  let (point, s) ← intPart 46 s
  let node := if point.isSome && val1 != EMPTY then some val1 else node
  let val1 := if point.isSome then EMPTY else val1
  let node := if val1 != EMPTY then some val1 else node
  let domain ← intDomain s
  some ⟨zone, net.getD EMPTY, node.getD EMPTY, point.getD EMPTY, domain⟩

/-- The global wildcard `*`, `All` or `World`. -/
def isWorld (asc : Str) : Bool :=
  asc == lit "*" || strieq asc (lit "all") || strieq asc (lit "world")

/-- `znfp_parse_partial`. -/
def intParsePartial (asc : Str) : Option Node :=
  if isWorld asc then some ⟨WILDCARD, WILDCARD, WILDCARD, WILDCARD, []⟩
  else if asc.head? = some 46 then intParseParts EMPTY asc
  else
    let r := intGetNumber asc
    if r.1 = ERROR then none else intParseParts r.1 r.2

/-- `str_znfp_print` into a buffer of `len` bytes, with `zp_print` TRUE. -/
def strZnfpPrint (len : Nat) (n : Node) (point0 wildcards : Bool) : Str :=
  (znfpPrint n point0 wildcards).take (len - 1)

/-! ## What is written -/

/-- The text of a part: `*`, `all`, or digits, which are exact as far as an `int` goes. -/
def Spells (v : Int) (t : Str) : Prop :=
  v = WILDCARD ∧ (t = lit "*" ∨ strieq t (lit "all") = true) ∨
    t ≠ [] ∧ (∀ c ∈ t, isDigit c = true) ∧ (getDec 0 t < 2 ^ 31 → v = getDec 0 t)

section

variable (S : Int → Str → Prop)

/-- A part is empty, or it is written. -/
def PartWritten (v : Int) : Option Str → Prop
  | none => v = EMPTY
  | some t => S v t

/-- An address of the parts that are written, and what stands behind. -/
def addrText (zone net node point : Option Str) (d : Str) : Str :=
  (zone.elim [] fun z => z ++ lit ":") ++ net.getD [] ++
    (if net.isSome && node.isSome then lit "/" else []) ++ node.getD [] ++
    (point.elim [] fun p => lit "." ++ p) ++ d

/-- The parts of the node, at their places in the text. -/
def AddrWritten (asc : Str) (n : Node) : Prop :=
  ∃ zone net node point d, asc = addrText zone net node point d ∧
    PartWritten S n.zone zone ∧ PartWritten S n.net net ∧ PartWritten S n.node node ∧
    PartWritten S n.point point ∧ IsDomain d ∧ n.domain = d.tail.take (MAX_DOMAIN - 1)

end

/-- A part with a value: a number of an `int` that is not negative, or a wildcard. -/
def IsPart (v : Int) : Prop := 0 ≤ v ∧ v < 2 ^ 31 ∨ v = WILDCARD

instance (v : Int) : Decidable (IsPart v) := inferInstanceAs (Decidable (_ ∨ _))

/-- All four parts have a value. -/
structure Node.Whole (n : Node) : Prop where
  zone : IsPart n.zone
  net : IsPart n.net
  node : IsPart n.node
  point : IsPart n.point
  domain : n.domain.length < MAX_DOMAIN

/-- The four parts are wildcards. -/
def Node.global (n : Node) : Prop :=
  n.zone = WILDCARD ∧ n.net = WILDCARD ∧ n.node = WILDCARD ∧ n.point = WILDCARD

instance (n : Node) : Decidable n.global := inferInstanceAs (Decidable (_ ∧ _))

/-! ## Numbers -/

theorem intDec_eq : ∀ {t : Str} (a : Nat), (∀ c ∈ t, isDigit c = true) →
    intDec ((a : Int).bmod (2 ^ 32)) t = (getDec a t : Int).bmod (2 ^ 32)
  | [], _, _ => rfl
  | c :: t, a, h => by
      have hc : 48 ≤ c.toNat := by
        have key : ∀ c : UInt8, isDigit c = true → 48 ≤ c.toNat := forall_byte (by decide +kernel)
        exact key c (h c List.mem_cons_self)
      have ih := @intDec_eq t (a * 10 + (c.toNat - 48)) fun d hd => h d (List.mem_cons_of_mem c hd)
      have hstep : ((a : Int).bmod (2 ^ 32) * 10 + (c.toNat - 48 : Int)).bmod (2 ^ 32) =
          ((a * 10 + (c.toNat - 48) : Nat) : Int).bmod (2 ^ 32) := by
        rw [← Int.bmod_add_bmod, Int.bmod_mul_bmod, Int.bmod_add_bmod]
        congr 1
        omega
      rw [intDec, hstep, ih]
      rfl

theorem intDec_zero {t : Str} (h : ∀ c ∈ t, isDigit c = true) :
    intDec 0 t = (getDec 0 t : Int).bmod (2 ^ 32) :=
  intDec_eq 0 h

theorem bmod_of_lt {n : Nat} (h : n < 2 ^ 31) : (n : Int).bmod (2 ^ 32) = n :=
  Int.bmod_eq_of_le (by omega) (by omega)

/-- The text a number was read from. -/
def IntSpells (v : Int) (t : Str) : Prop :=
  v = WILDCARD ∧ (t = lit "*" ∨ strieq t (lit "all") = true) ∨
    t ≠ [] ∧ (∀ c ∈ t, isDigit c = true) ∧ v = (getDec 0 t : Int).bmod (2 ^ 32)

theorem intGetNumber_spells {s : Str} (h : (intGetNumber s).1 ≠ ERROR) :
    ∃ t, s = t ++ (intGetNumber s).2 ∧ IntSpells (intGetNumber s).1 t := by
  unfold intGetNumber at h ⊢
  split
  next hs =>
    obtain ⟨t, rfl⟩ := hasPrefix_iff.mp hs
    exact ⟨lit "*", rfl, .inl ⟨rfl, .inl rfl⟩⟩
  next hs =>
    rw [if_neg hs] at h
    split
    next ha =>
      refine ⟨s.take 3, (List.take_append_drop 3 s).symm, .inl ⟨rfl, .inr ?_⟩⟩
      obtain ⟨t, ht⟩ := List.isPrefixOf_iff_prefix.mp ha
      rw [strieq, beq_iff_eq, List.map_take, ← ht]
      rfl
    next ha =>
      rw [if_neg ha] at h
      split
      next hd =>
        have hdigits : ∀ c ∈ s.takeWhile isDigit, isDigit c = true := fun c hc =>
          List.mem_takeWhile_imp (p := isDigit) hc
        refine ⟨s.takeWhile isDigit, (List.takeWhile_append_dropWhile).symm, .inr ⟨?_, hdigits,
          intDec_zero hdigits⟩⟩
        cases s with
        | nil => exact absurd hd Bool.false_ne_true
        | cons c s =>
          rw [List.takeWhile_cons_of_pos (show isDigit c = true from hd)]
          exact List.cons_ne_nil _ _
      next hd =>
        rw [if_neg hd] at h
        exact absurd rfl h

theorem IntSpells.spells {v : Int} {t : Str} (h : IntSpells v t) : Spells v t := by
  rcases h with h | ⟨hne, hd, hv⟩
  · exact .inl h
  · refine .inr ⟨hne, hd, fun hlt => ?_⟩
    rw [hv, bmod_of_lt hlt]

/-- A part is printed no longer than it was written. -/
theorem IntSpells.length_le {v : Int} {t : Str} (h : IntSpells v t) (hv : IsPart v) :
    (znfpPutNumber v true).length ≤ t.length := by
  unfold znfpPutNumber
  rcases h with ⟨rfl, ht⟩ | ⟨hne, hd, hval⟩
  · rw [if_pos (by decide)]
    rcases ht with rfl | ht
    · exact Nat.le_refl _
    · rw [strieq, beq_iff_eq] at ht
      have hlen := congrArg List.length ht
      rw [List.length_map] at hlen
      rw [hlen]
      decide
  · have hpos : 0 < t.length := List.length_pos_iff.mpr hne
    rcases hv with ⟨h0, -⟩ | rfl
    · have hle : v.toNat ≤ getDec 0 t := by
        rw [hval] at h0 ⊢
        rw [Int.bmod_def] at h0 ⊢
        split at h0
        next hlt =>
          rw [if_pos hlt]
          omega
        next hge =>
          rw [if_neg hge]
          omega
      rw [if_neg (by rw [WILDCARD, Bool.true_and, beq_iff_eq]; omega), putInt_of_nonneg h0]
      refine (length_putDec_le hle).trans ((length_putDec_le_iff hpos).mpr ?_)
      have hlt := getDec_lt 0 hd
      rwa [Nat.zero_add, Nat.one_mul] at hlt
    · rw [if_pos (by decide)]
      exact hpos

/-- The text of the number behind a separator. -/
theorem intPart_some {c : UInt8} {s r : Str} {o : Option Int} (h : intPart c s = some (o, r)) :
    o = none ∧ r = s ∧ s.head? ≠ some c ∨
      ∃ v t, o = some v ∧ v ≠ EMPTY ∧ s = c :: (t ++ r) ∧ IntSpells v t := by
  unfold intPart at h
  split at h
  next hc =>
    dsimp only at h
    split at h
    next => cases h
    next hne =>
      obtain ⟨t, ht, hspells⟩ := intGetNumber_spells hne
      rw [Option.some.injEq, Prod.mk.injEq] at h
      obtain ⟨rfl, rfl⟩ := h
      refine .inr ⟨_, t, rfl, hne, ?_, hspells⟩
      rw [← ht]
      cases s with
      | nil => cases hc
      | cons d s =>
        rw [← Option.some.inj hc]
        rfl
  next hc =>
    rw [Option.some.injEq, Prod.mk.injEq] at h
    exact .inl ⟨h.1.symm, h.2.symm, hc⟩

theorem addrText_eq (zone net node point : Option Str) (d : Str) :
    addrText zone net node point d =
      (zone.elim [] fun z => z ++ [58]) ++ net.getD [] ++
        (if net.isSome && node.isSome then [47] else []) ++ node.getD [] ++
        (point.elim [] fun p => [46] ++ p) ++ d := rfl

theorem intDomain_some {s d : Str} (h : intDomain s = some d) :
    IsDomain s ∧ d = s.tail.take (MAX_DOMAIN - 1) := by
  cases s with
  | nil =>
    rw [← Option.some.inj h]
    exact ⟨.inl rfl, rfl⟩
  | cons c s =>
    rw [intDomain] at h
    split at h
    next hc =>
      rw [← Option.some.inj h, beq_iff_eq.mp hc]
      exact ⟨.inr ⟨s, rfl⟩, rfl⟩
    next => cases h

/-- The parts behind the first number, which is the zone, the net or the node. -/
theorem intParseParts_written {val1 : Int} {s : Str} {n : Node} {first : Option Str}
    (hfirst : PartWritten IntSpells val1 first) (hval : first = none ↔ val1 = EMPTY)
    (hpoint : first = none → s.head? = some 46) (h : intParseParts val1 s = some n) :
    AddrWritten IntSpells (first.getD [] ++ s) n := by
  unfold intParseParts at h
  simp only [Option.bind_eq_bind, Option.bind_eq_some_iff, Prod.exists] at h
  obtain ⟨net, s1, h1, node, s2, h2, point, s3, h3, d, h4, hn⟩ := h
  obtain ⟨hdom, rfl⟩ := intDomain_some h4
  rw [← Option.some.inj hn]
  cases first with
  | none =>
    obtain rfl := hval.mp rfl
    have hhead := hpoint rfl
    rcases intPart_some h1 with ⟨rfl, rfl, -⟩ | ⟨v, t, -, -, rfl, -⟩
    · rcases intPart_some h2 with ⟨rfl, rfl, -⟩ | ⟨v, t, -, -, rfl, -⟩
      · rcases intPart_some h3 with ⟨-, -, hno⟩ | ⟨v, t, rfl, -, rfl, ht⟩
        · exact absurd hhead hno
        · exact ⟨none, none, none, some t, s3, by simp [addrText_eq], rfl, rfl, rfl, ht, hdom, rfl⟩
      · exact absurd (Option.some.inj hhead) (by decide)
    · exact absurd (Option.some.inj hhead) (by decide)
  | some f =>
    have hne : val1 ≠ EMPTY := fun he => absurd (hval.mpr he) (Option.some_ne_none f)
    have hbne : (val1 != EMPTY) = true := bne_iff_ne.mpr hne
    have hf : IntSpells val1 f := hfirst
    rcases intPart_some h1 with ⟨rfl, rfl, -⟩ | ⟨v, t, rfl, -, rfl, ht⟩
    · rcases intPart_some h2 with ⟨rfl, rfl, -⟩ | ⟨v, u, rfl, -, rfl, hu⟩
      · rcases intPart_some h3 with ⟨rfl, rfl, -⟩ | ⟨v, w, rfl, -, rfl, hw⟩
        · refine ⟨none, none, some f, none, s3, by simp [addrText_eq], rfl, rfl, ?_, rfl, hdom, rfl⟩
          simpa [PartWritten, hbne] using hf
        · refine ⟨none, none, some f, some w, s3, by simp [addrText_eq], rfl, rfl, ?_, hw, hdom,
            rfl⟩
          simpa [PartWritten, hbne] using hf
      · rcases intPart_some h3 with ⟨rfl, rfl, -⟩ | ⟨v, w, rfl, -, rfl, hw⟩
        · refine ⟨none, some f, some u, none, s3, by simp [addrText_eq], rfl, ?_, ?_, rfl, hdom,
            rfl⟩
          · simpa [PartWritten, hbne] using hf
          · simpa [PartWritten, hbne] using hu
        · refine ⟨none, some f, some u, some w, s3, by simp [addrText_eq], rfl, ?_, ?_, hw, hdom,
            rfl⟩
          · simpa [PartWritten, hbne] using hf
          · simpa [PartWritten, hbne] using hu
    · rcases intPart_some h2 with ⟨rfl, rfl, -⟩ | ⟨v, u, rfl, -, rfl, hu⟩
      · rcases intPart_some h3 with ⟨rfl, rfl, -⟩ | ⟨v, w, rfl, -, rfl, hw⟩
        · exact ⟨some f, some t, none, none, s3, by simp [addrText_eq], hf, ht, rfl, rfl, hdom,
            rfl⟩
        · exact ⟨some f, some t, none, some w, s3, by simp [addrText_eq], hf, ht, rfl, hw, hdom,
            rfl⟩
      · rcases intPart_some h3 with ⟨rfl, rfl, -⟩ | ⟨v, w, rfl, -, rfl, hw⟩
        · exact ⟨some f, some t, some u, none, s3, by simp [addrText_eq], hf, ht, hu, rfl, hdom,
            rfl⟩
        · exact ⟨some f, some t, some u, some w, s3, by simp [addrText_eq], hf, ht, hu, hw, hdom,
            rfl⟩

theorem intParsePartial_world {asc : Str} (h : isWorld asc = true) :
    intParsePartial asc = some ⟨WILDCARD, WILDCARD, WILDCARD, WILDCARD, []⟩ := if_pos h

theorem intParsePartial_point {asc : Str} (hw : isWorld asc = false) (h : asc.head? = some 46) :
    intParsePartial asc = intParseParts EMPTY asc := by
  rw [intParsePartial, hw, if_neg Bool.false_ne_true, if_pos h]

theorem intParsePartial_number {asc : Str} (hw : isWorld asc = false)
    (h : asc.head? ≠ some 46) (hr : (intGetNumber asc).1 ≠ ERROR) :
    intParsePartial asc = intParseParts (intGetNumber asc).1 (intGetNumber asc).2 := by
  rw [intParsePartial, hw, if_neg Bool.false_ne_true, if_neg h]
  exact if_neg hr

/-- What `znfp_parse_partial` accepts. -/
theorem intParsePartial_written {asc : Str} {n : Node} (h : intParsePartial asc = some n) :
    isWorld asc = true ∧ n = ⟨WILDCARD, WILDCARD, WILDCARD, WILDCARD, []⟩ ∨
      AddrWritten IntSpells asc n := by
  cases hw : isWorld asc with
  | true =>
    rw [intParsePartial_world hw] at h
    exact .inl ⟨rfl, (Option.some.inj h).symm⟩
  | false =>
    refine .inr ?_
    by_cases h46 : asc.head? = some 46
    · rw [intParsePartial_point hw h46] at h
      exact @intParseParts_written EMPTY asc n none rfl (by simp) (fun _ => h46) h
    · by_cases hr : (intGetNumber asc).1 = ERROR
      · rw [intParsePartial, hw, if_neg Bool.false_ne_true, if_neg h46] at h
        simp [hr] at h
      · obtain ⟨t, ht, hspells⟩ := intGetNumber_spells hr
        rw [intParsePartial_number hw h46 hr] at h
        have hval : some t = none ↔ (intGetNumber asc).1 = EMPTY := iff_of_false
          (Option.some_ne_none t) hr
        have hwr := @intParseParts_written _ _ n (some t) hspells hval (by simp) h
        rwa [Option.getD_some, ← ht] at hwr

/-! ## Printing and reading -/

theorem intGetNumber_of_znfp {s r : Str} {v : Int} (h : znfpGetNumber s = some (v, r))
    (hv : v < 2 ^ 31) : intGetNumber s = (v, r) := by
  unfold znfpGetNumber at h
  unfold intGetNumber
  split
  next hs =>
    rw [if_pos hs] at h
    exact Option.some.inj h
  next hs =>
    rw [if_neg hs] at h
    split
    next ha =>
      rw [if_pos ha] at h
      exact Option.some.inj h
    next ha =>
      rw [if_neg ha] at h
      split
      next hd =>
        rw [if_pos hd, Option.some.injEq, Prod.mk.injEq] at h
        obtain ⟨rfl, rfl⟩ := h
        rw [intDec_zero fun c hc => List.mem_takeWhile_imp (p := isDigit) hc,
          bmod_of_lt (by omega)]
      next hd =>
        rw [if_neg hd] at h
        cases h

theorem intGetNumber_point {s : Str} (h : s.head? = some 46) : (intGetNumber s).1 = ERROR := by
  cases s with
  | nil => cases h
  | cons c s =>
    rw [Option.some.inj h]
    rfl

theorem IsPart.ne_error {v : Int} (h : IsPart v) : v ≠ ERROR := by
  rw [IsPart, WILDCARD] at h
  rw [ERROR]
  omega

theorem intGetNumber_put {v : Int} (hv : IsPart v) {s : Str} (hs : NoDigit s) :
    intGetNumber (znfpPutNumber v true ++ s) = (v, s) := by
  rcases hv with ⟨h0, hlt⟩ | rfl
  · have hput : znfpPutNumber v true = putDec v.toNat := by
      rw [znfpPutNumber, if_neg (by rw [WILDCARD, Bool.true_and, beq_iff_eq]; omega),
        putInt_of_nonneg h0]
    rw [hput]
    refine intGetNumber_of_znfp ?_ hlt
    rw [znfpGetNumber_putDec _ hs, Int.toNat_of_nonneg h0]
  · rfl

theorem intPart_put {c : UInt8} {v : Int} (hv : IsPart v) {s : Str} (hs : NoDigit s) :
    intPart c (c :: (znfpPutNumber v true ++ s)) = some (some v, s) := by
  rw [intPart, List.head?_cons, if_pos rfl, List.tail_cons, intGetNumber_put hv hs]
  exact if_neg hv.ne_error

theorem intPart_of_ne {c : UInt8} {s : Str} (h : s.head? ≠ some c) :
    intPart c s = some (none, s) := if_neg h

theorem noDigit_cons {c : UInt8} (h : isDigit c = false) (s : Str) : NoDigit (c :: s) := by
  intro d hd
  rw [← Option.some.inj hd]
  exact h

theorem isWorld_length {asc : Str} (h : isWorld asc = true) : asc.length ≤ 5 := by
  have key : ∀ {t : Str}, strieq asc t = true → asc.length = t.length := by
    intro t ht
    rw [strieq, beq_iff_eq] at ht
    have hlen := congrArg List.length ht
    rwa [List.length_map, List.length_map] at hlen
  rw [isWorld, Bool.or_eq_true, Bool.or_eq_true, beq_iff_eq] at h
  rcases h with (rfl | h) | h
  · decide
  · rw [key h]
    decide
  · rw [key h]
    decide

theorem length_put_pos (v : Int) : 0 < (znfpPutNumber v true).length := by
  rw [znfpPutNumber]
  split
  · decide
  · exact List.length_pos_iff.mpr (putInt_ne_nil v)

/-- The domain as it is printed. -/
def domainText (d : Str) : Str := if d.isEmpty then [] else lit "@" ++ d

theorem isDomain_domainText (d : Str) : IsDomain (domainText d) := by
  unfold domainText
  split
  · exact .inl rfl
  · exact .inr ⟨d, rfl⟩

theorem intDomain_domainText {d : Str} (h : d.length < MAX_DOMAIN) :
    intDomain (domainText d) = some d := by
  unfold domainText
  split
  next hd => rw [List.isEmpty_iff.mp hd, intDomain]
  next => exact congrArg some (List.take_of_length_le (Nat.le_pred_of_lt h))

/-- A node with all its parts in print. -/
theorem znfpPrint_whole {n : Node} (hn : n.Whole) (hg : ¬ n.global) (point0 : Bool) :
    znfpPrint n point0 true = znfpPutNumber n.zone true ++ 58 :: (znfpPutNumber n.net true ++
      47 :: (znfpPutNumber n.node true ++ 46 :: (znfpPutNumber n.point true ++
        domainText n.domain))) := by
  have hz : (n.zone == EMPTY) = false := beq_eq_false_iff_ne.mpr hn.zone.ne_error
  have ht : (n.net == EMPTY) = false := beq_eq_false_iff_ne.mpr hn.net.ne_error
  have hm : (n.node == EMPTY) = false := beq_eq_false_iff_ne.mpr hn.node.ne_error
  have hp : (n.point == EMPTY) = false := beq_eq_false_iff_ne.mpr hn.point.ne_error
  have hglobal : (true && n.zone == WILDCARD && n.net == WILDCARD && n.node == WILDCARD &&
      n.point == WILDCARD) = false := by
    rw [← Bool.not_eq_true]
    simpa [Node.global, and_assoc] using hg
  rw [znfpPrint, hglobal, hz, ht, hm, hp]
  simp [domainText, show lit ":" = [58] from rfl, show lit "/" = [47] from rfl,
    show lit "." = [46] from rfl]

/-- The printed node is read back. -/
theorem intParsePartial_print {n : Node} (hn : n.Whole) (hg : ¬ n.global) (point0 : Bool) :
    intParsePartial (znfpPrint n point0 true) = some n := by
  rw [znfpPrint_whole hn hg]
  have h58 := @noDigit_cons 58 rfl
  have h47 := @noDigit_cons 47 rfl
  have h46 := @noDigit_cons 46 rfl
  have hdom := isDomain_domainText n.domain
  have hfirst := intGetNumber_put hn.zone (h58 (znfpPutNumber n.net true ++
      47 :: (znfpPutNumber n.node true ++ 46 :: (znfpPutNumber n.point true ++
        domainText n.domain))))
  rw [intParsePartial_number]
  · rw [hfirst, intParseParts]
    simp only [intPart_put hn.net (h47 _), intPart_put hn.node (h46 _),
      intPart_put hn.point hdom.noDigit, intDomain_domainText hn.domain, Option.bind_eq_bind,
      Option.bind_some, Option.isSome_some, if_true, bne_self_eq_false, Bool.and_false,
      Bool.false_eq_true, if_false, Option.getD_some]
  · rw [← Bool.not_eq_true]
    intro hw
    have hlen := isWorld_length hw
    have h1 := length_put_pos n.zone
    have h2 := length_put_pos n.net
    have h3 := length_put_pos n.node
    have h4 := length_put_pos n.point
    simp only [List.length_append, List.length_cons] at hlen
    omega
  · intro hhead
    have herr := intGetNumber_point hhead
    rw [hfirst] at herr
    exact hn.zone.ne_error herr
  · rw [hfirst]
    exact hn.zone.ne_error

/-- The parts of a node in print, at their places, are no longer than they were written. -/
theorem length_print_le {asc : Str} {n : Node} (hn : n.Whole) (hg : ¬ n.global) (point0 : Bool)
    (h : AddrWritten IntSpells asc n) : (znfpPrint n point0 true).length ≤ asc.length := by
  obtain ⟨zone, net, node, point, d, rfl, hz, ht, hm, hp, hd, hdom⟩ := h
  have key : ∀ {v : Int} {o : Option Str}, IsPart v → PartWritten IntSpells v o →
      ∃ t, o = some t ∧ (znfpPutNumber v true).length ≤ t.length := by
    intro v o hv ho
    cases o with
    | none => exact absurd ho hv.ne_error
    | some t => exact ⟨t, rfl, IntSpells.length_le ho hv⟩
  obtain ⟨z, rfl, h1⟩ := key hn.zone hz
  obtain ⟨t, rfl, h2⟩ := key hn.net ht
  obtain ⟨f, rfl, h3⟩ := key hn.node hm
  obtain ⟨p, rfl, h4⟩ := key hn.point hp
  have h5 : (domainText n.domain).length ≤ d.length := by
    have hle : n.domain.length ≤ d.length - 1 := by
      rw [hdom, List.length_take, List.length_tail]
      omega
    unfold domainText
    split
    next => exact Nat.zero_le _
    next hne =>
      have hpos : 0 < n.domain.length := List.length_pos_iff.mpr fun h0 => hne (by rw [h0]; rfl)
      rw [List.length_append, show (lit "@").length = 1 from rfl]
      omega
  rw [znfpPrint_whole hn hg, addrText_eq]
  simp only [List.length_append, List.length_cons, Option.elim_some, Option.getD_some,
    Option.isSome_some, Bool.and_self, if_true, List.length_nil]
  omega

/-- A printed node is read back if the buffer holds it, unless it is the global wildcard with a
domain, which is not printed. -/
theorem intParsePartial_strZnfpPrint {n : Node} (hn : n.Whole) (len : Nat) (point0 : Bool) :
    intParsePartial (strZnfpPrint len n point0 true) = some n ↔
      (znfpPrint n point0 true).length < len ∧ ¬ (n.global ∧ n.domain ≠ []) := by
  unfold strZnfpPrint
  by_cases hg : n.global
  · have hprint : znfpPrint n point0 true = lit "*" := by
      obtain ⟨hz, ht, hm, hp⟩ := hg
      rw [znfpPrint, hz, ht, hm, hp]
      rfl
    rw [hprint, show (lit "*").length = 1 from rfl, and_iff_right hg, not_ne_iff]
    by_cases hlen : 1 < len
    · rw [List.take_of_length_le (show (lit "*").length ≤ len - 1 by
        rw [show (lit "*").length = 1 from rfl]; omega), intParsePartial_world rfl,
        and_iff_right hlen]
      obtain ⟨hz, ht, hm, hp⟩ := hg
      obtain ⟨zone, net, node, point, domain⟩ := n
      dsimp only at hz ht hm hp ⊢
      rw [hz, ht, hm, hp, Option.some.injEq, Node.mk.injEq]
      simp [eq_comm]
    · rw [show len - 1 = 0 by omega, List.take_zero]
      refine iff_of_false ?_ (fun h => hlen h.1)
      exact (Option.some_ne_none n).symm
  · rw [and_iff_left fun h => hg h.1]
    constructor
    · intro h
      rcases intParsePartial_written h with ⟨-, rfl⟩ | hw
      · exact absurd ⟨rfl, rfl, rfl, rfl⟩ hg
      · have hle := length_print_le hn hg point0 hw
        have hpos : 0 < (znfpPrint n point0 true).length := by
          rw [znfpPrint_whole hn hg, List.length_append]
          exact Nat.add_pos_left (length_put_pos _) _
        rw [List.length_take] at hle
        omega
    · intro h
      rw [List.take_of_length_le (show (znfpPrint n point0 true).length ≤ len - 1 by omega)]
      exact intParsePartial_print hn hg point0

/-! ## The numbers without a bound -/

theorem znfpGetNumber_value {s r : Str} {v : Int} (h : znfpGetNumber s = some (v, r)) :
    0 ≤ v ∨ v = WILDCARD := by
  unfold znfpGetNumber at h
  split at h
  · exact .inr (congrArg Prod.fst (Option.some.inj h)).symm
  · split at h
    · exact .inr (congrArg Prod.fst (Option.some.inj h)).symm
    · split at h
      · obtain ⟨hv, -⟩ := Prod.mk.inj (Option.some.inj h)
        rw [← hv]
        exact .inl (Int.natCast_nonneg _)
      · cases h

theorem intPart_of_znfp {c : UInt8} {s r : Str} {o : Option Int} (h : znfpPart c s = some (o, r))
    (ho : ∀ v, o = some v → v < 2 ^ 31) : intPart c s = some (o, r) := by
  cases s with
  | nil => exact h
  | cons d s =>
    rw [znfpPart] at h
    split at h
    next hd =>
      rw [beq_iff_eq] at hd
      obtain ⟨⟨v, r'⟩, hv, hor⟩ := Option.map_eq_some_iff.mp h
      rw [Prod.mk.injEq] at hor
      obtain ⟨rfl, rfl⟩ := hor
      have hlt := ho v rfl
      have hval := znfpGetNumber_value hv
      rw [intPart, List.head?_cons, if_pos (congrArg some hd), List.tail_cons,
        intGetNumber_of_znfp hv hlt]
      refine if_neg ?_
      rw [WILDCARD] at hval
      rw [ERROR]
      dsimp only
      omega
    next hd =>
      rw [beq_iff_eq] at hd
      rw [← h]
      exact intPart_of_ne fun he => hd (Option.some.inj he)

/-- The node behind the first number, by the parts that were read. -/
def znfpNode (val1 : Int) (net node point : Option Int) (d : Str) : Node where
  zone := if net.isSome then val1 else EMPTY
  net := (if node.isSome && (if net.isSome then EMPTY else val1) != EMPTY then
    some (if net.isSome then EMPTY else val1) else net).getD EMPTY
  node := (if (if point.isSome then EMPTY else if node.isSome then EMPTY
      else if net.isSome then EMPTY else val1) != EMPTY then
    some (if point.isSome then EMPTY else if node.isSome then EMPTY
      else if net.isSome then EMPTY else val1)
    else if point.isSome && (if node.isSome then EMPTY
      else if net.isSome then EMPTY else val1) != EMPTY then
    some (if node.isSome then EMPTY else if net.isSome then EMPTY else val1) else node).getD EMPTY
  point := point.getD EMPTY
  domain := d

theorem znfpParseParts_some {val1 : Int} {s : Str} {n : Node}
    (h : znfpParseParts val1 s = some n) :
    ∃ net s1 node s2 point s3 d, znfpPart 58 s = some (net, s1) ∧
      znfpPart 47 s1 = some (node, s2) ∧ znfpPart 46 s2 = some (point, s3) ∧
      intDomain s3 = some (d.take (MAX_DOMAIN - 1)) ∧ n = znfpNode val1 net node point d := by
  unfold znfpParseParts at h
  simp only [Option.bind_eq_bind, Option.bind_eq_some_iff, Prod.exists] at h
  obtain ⟨net, s1, h1, node, s2, h2, point, s3, h3, h4⟩ := h
  cases s3 with
  | nil => exact ⟨net, s1, node, s2, point, [], [], h1, h2, h3, rfl, (Option.some.inj h4).symm⟩
  | cons c s3 =>
    dsimp only at h4
    split at h4
    next hc =>
      exact ⟨net, s1, node, s2, point, c :: s3, s3, h1, h2, h3, if_pos hc,
        (Option.some.inj h4).symm⟩
    next => cases h4

theorem intParseParts_of_znfp {val1 : Int} {s : Str} {n : Node} (h : znfpParseParts val1 s = some n)
    (ht : n.net < 2 ^ 31) (hm : n.node < 2 ^ 31) (hp : n.point < 2 ^ 31) :
    intParseParts val1 s = some { n with domain := n.domain.take (MAX_DOMAIN - 1) } := by
  obtain ⟨net, s1, node, s2, point, s3, d, h1, h2, h3, hd, hn⟩ := znfpParseParts_some h
  rw [hn, znfpNode] at ht hm hp
  have hnet : ∀ v, net = some v → v < 2 ^ 31 := by
    rintro v rfl
    simpa using ht
  have hnode : ∀ v, node = some v → v < 2 ^ 31 := by
    rintro v rfl
    simpa using hm
  have hpoint : ∀ v, point = some v → v < 2 ^ 31 := by
    rintro v rfl
    simpa using hp
  rw [intParseParts, intPart_of_znfp h1 hnet]
  simp only [Option.bind_eq_bind, Option.bind_some, intPart_of_znfp h2 hnode,
    intPart_of_znfp h3 hpoint, hd, hn, znfpNode]

/-- The first number is the zone, the net or the node. -/
theorem znfpParseParts_first {val1 : Int} {s : Str} {n : Node}
    (h : znfpParseParts val1 s = some n) (hval : val1 ≠ EMPTY) :
    val1 = n.zone ∨ val1 = n.net ∨ val1 = n.node := by
  obtain ⟨net, s1, node, s2, point, s3, d, -, -, -, -, rfl⟩ := znfpParseParts_some h
  have hb : (val1 != EMPTY) = true := bne_iff_ne.mpr hval
  cases net with
  | some v => exact .inl rfl
  | none =>
    cases node with
    | some v => exact .inr (.inl (by simp [znfpNode, hb]))
    | none => exact .inr (.inr (by cases point <;> simp [znfpNode, hb]))

/-- Where the numbers fit an `int` they are read as if they had no bound. -/
theorem intParsePartial_of_znfp {asc : Str} {n : Node} (h : znfpParsePartial asc = some n)
    (hz : n.zone < 2 ^ 31) (ht : n.net < 2 ^ 31) (hm : n.node < 2 ^ 31) (hp : n.point < 2 ^ 31) :
    intParsePartial asc = some { n with domain := n.domain.take (MAX_DOMAIN - 1) } := by
  unfold znfpParsePartial at h
  split at h
  next hw =>
    rw [intParsePartial_world hw, ← Option.some.inj h]
    rfl
  next hw =>
    have hw : isWorld asc = false := Bool.eq_false_iff.mpr hw
    cases asc with
    | nil => cases h
    | cons c s =>
      dsimp only at h
      by_cases h46 : c = 46
      · rw [h46] at h hw ⊢
        rw [intParsePartial_point hw rfl]
        exact intParseParts_of_znfp h ht hm hp
      · rw [if_neg (by simpa using h46), Option.bind_eq_bind, Option.bind_eq_some_iff] at h
        obtain ⟨⟨val1, r⟩, hget, h⟩ := h
        have hval := znfpGetNumber_value hget
        have hne : val1 ≠ EMPTY := by
          rw [WILDCARD] at hval
          rw [EMPTY]
          omega
        have hlt : val1 < 2 ^ 31 := by
          rcases znfpParseParts_first h hne with rfl | rfl | rfl
          · exact hz
          · exact ht
          · exact hm
        have hint := intGetNumber_of_znfp hget hlt
        rw [intParsePartial_number hw fun he => h46 (Option.some.inj he)]
        · rw [hint]
          exact intParseParts_of_znfp h ht hm hp
        · rw [hint]
          exact hne

/-! ## The text of an address -/

/-- The part is empty, a wildcard that is written, or the value of digits in the text. -/
def ExactPart (asc : Str) (v : Int) : Prop :=
  v = EMPTY ∨ ∃ t, t <:+: asc ∧ (v = WILDCARD ∧ (t = lit "*" ∨ strieq t (lit "all") = true) ∨
    t ≠ [] ∧ (∀ c ∈ t, isDigit c = true) ∧ v = getDec 0 t)

theorem not_exactPart {asc : Str} (h : ∀ c ∈ asc, c ≠ 42 ∧ toLower c ≠ 97) :
    ¬ ExactPart asc WILDCARD := by
  rintro (he | ⟨t, ht, ⟨-, rfl | hall⟩ | ⟨-, -, hv⟩⟩)
  · exact absurd he (by decide)
  · exact (h 42 (ht.subset List.mem_cons_self)).1 rfl
  · cases t with
    | nil => exact absurd hall (by decide)
    | cons c t =>
      rw [strieq, beq_iff_eq, List.map_cons] at hall
      exact (h c (ht.subset List.mem_cons_self)).2 (List.cons.inj hall).1
  · rw [WILDCARD] at hv
    omega

/-- A node with all its parts is read back from its text, if the buffer holds it and it is not the
global wildcard with a domain; and of a text that is accepted, each part stands at its place. -/
theorem znfpWritten :
    (∀ n : Node, n.Whole → ∀ (len : Nat) (point0 : Bool),
      intParsePartial (strZnfpPrint len n point0 true) = some n ↔
        (znfpPrint n point0 true).length < len ∧ ¬ (n.global ∧ n.domain ≠ [])) ∧
    ∀ (asc : Str) (n : Node), intParsePartial asc = some n →
      isWorld asc = true ∧ n = ⟨WILDCARD, WILDCARD, WILDCARD, WILDCARD, []⟩ ∨
        AddrWritten Spells asc n := by
  refine ⟨fun n hn len point0 => intParsePartial_strZnfpPrint hn len point0, fun asc n h => ?_⟩
  refine (intParsePartial_written h).imp_right ?_
  rintro ⟨zone, net, node, point, d, hasc, hz, ht, hm, hp, hd⟩
  have key : ∀ {v : Int} {o : Option Str}, PartWritten IntSpells v o → PartWritten Spells v o := by
    intro v o ho
    cases o with
    | none => exact ho
    | some t => exact IntSpells.spells ho
  exact ⟨zone, net, node, point, d, hasc, key hz, key ht, key hm, key hp, hd⟩

/-- A node and a text of each kind. -/
theorem znfpWritten_all :
    intParsePartial (strZnfpPrint 48 ⟨2, -2, 0, 2147483647, lit "fidonet"⟩ true true) =
        some ⟨2, -2, 0, 2147483647, lit "fidonet"⟩ ∧
      (isWorld (lit "2:ALL.5") = true ∧
          (⟨2, -2, -1, 5, []⟩ : Node) = ⟨WILDCARD, WILDCARD, WILDCARD, WILDCARD, []⟩ ∨
        AddrWritten Spells (lit "2:ALL.5") ⟨2, -2, -1, 5, []⟩) :=
  ⟨(znfpWritten.1 _ ⟨by decide, by decide, by decide, by decide, by decide⟩ 48 true).mpr
      ⟨by decide +kernel, by decide⟩,
    znfpWritten.2 _ _ (by decide +kernel)⟩

/-- `world` is a wildcard without `*` or `all`; so is a number that wraps round; and the global
wildcard is printed without its domain. -/
theorem exactPart_world :
    (∃ n, intParsePartial (lit "world") = some n ∧ ¬ ExactPart (lit "world") n.zone) ∧
      (∃ n, intParsePartial (lit "4294967294:1/2") = some n ∧
        ¬ ExactPart (lit "4294967294:1/2") n.zone) ∧
      intParsePartial (strZnfpPrint 48 ⟨-2, -2, -2, -2, lit "fidonet"⟩ true true) ≠
        some ⟨-2, -2, -2, -2, lit "fidonet"⟩ :=
  ⟨⟨⟨-2, -2, -2, -2, []⟩, by decide +kernel, not_exactPart (by decide +kernel)⟩,
    ⟨⟨-2, 1, 2, -1, []⟩, by decide +kernel, not_exactPart (by decide +kernel)⟩, by decide +kernel⟩

end Fidogate

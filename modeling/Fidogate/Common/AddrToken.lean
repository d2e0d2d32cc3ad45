/-
# `Fidogate.Common.AddrToken` — rfcheader.c: the addresses of a header value

`addr_token` cuts a value at the commas where no more parentheses have been
opened than closed since the last cut.  The commas it should cut at are those
outside comments and quoted strings; `addrSplit_iff` says on which values the
two are the same.
-/
import Fidogate.Lib.Bytes
import Mathlib.Data.List.Induction

namespace Fidogate

open Bytes

/-! ## The calls -/

/-- The loop of `addr_token`: the token, and the text behind the comma that ended it. -/
def addrTokenLoop (level : Int) : Str → Str × Str
  | [] => ([], [])
  | c :: p =>
      let level := if c = 40 then level + 1 else level
      let level := if c = 41 then level - 1 else level
      if c = 44 ∧ level ≤ 0 then ([], p)
      else
        let (s, rest) := addrTokenLoop level p
        (c :: s, rest)

/-- `addr_token`, with `save_p` for its state: the token, or NULL. -/
def addrToken (line saveP : Option Str) : Option Str × Option Str :=
  match line <|> saveP with
  | none => (none, none)
  | some [] => (none, none)
  | some p =>
      let (s, rest) := addrTokenLoop 0 p
      (some s, some rest)

/-- `for (p = addr_token(line); p; p = addr_token(NULL))`, for so many calls: the tokens, if
the last call gave NULL. -/
def addrTokens : Nat → Option Str → Option Str → Option (List Str)
  | 0, _, _ => none
  | calls + 1, line, saveP =>
      match addrToken line saveP with
      | (none, _) => some []
      | (some s, saveP) => (addrTokens calls none saveP).map (s :: ·)

/-! ## Comments and quoted strings -/

/-- Where a scan of a value stands; `comment n` is inside `n` more comments than one. -/
inductive AddrScan
  | outside
  | quoted
  | quotedPair
  | comment (n : Nat)
  | commentPair (n : Nat)
  deriving DecidableEq, Repr

namespace AddrScan

/-- The next byte of a value. -/
def step : AddrScan → UInt8 → AddrScan
  | outside, c => if c = dquote then quoted else if c = 40 then comment 0 else outside
  | quoted, c => if c = backslash then quotedPair else if c = dquote then outside else quoted
  | quotedPair, _ => quoted
  | comment n, c =>
      if c = backslash then commentPair n
      else if c = 40 then comment (n + 1)
      else if c = 41 then match n with
        | 0 => outside
        | n + 1 => comment n
      else comment n
  | commentPair n, _ => comment n

end AddrScan

/-- The text behind `a` is outside comments and quoted strings. -/
def Outside (a : Str) : Prop := a.foldl AddrScan.step .outside = .outside

instance (a : Str) : Decidable (Outside a) := inferInstanceAs (Decidable (_ = _))

/-- One of the cuts between the tokens is behind `a`. -/
def CutAt (ts : List Str) (a : Str) : Prop :=
  ∃ us ws, us ≠ [] ∧ ws ≠ [] ∧ ts = us ++ ws ∧ a = [44].intercalate us

/-- The tokens of a value are its text, cut at the commas outside and at no others. -/
structure Splits (v : Str) (ts : List Str) : Prop where
  joined : [44].intercalate ts = v
  cuts : ∀ a b, v = a ++ 44 :: b → (CutAt ts a ↔ Outside a)

/-- The calls come to an end, with the right tokens. -/
def AddrSplit (v : Str) : Prop :=
  ∀ saveP, ∃ ts, addrTokens (v.length + 1) (some v) saveP = some ts ∧ Splits v ts

/-! ## The tokens -/

/-- The parentheses a text opens less those it closes. -/
def parens (s : Str) : Int := s.count 40 - s.count 41

/-- The byte is where `addr_token` cuts, `t` being what it has of the token. -/
def EndsToken (t : Str) (c : UInt8) : Prop := c = 44 ∧ parens t ≤ 0

instance (t : Str) (c : UInt8) : Decidable (EndsToken t c) := inferInstanceAs (Decidable (_ ∧ _))

/-- The tokens from a place in a token on. -/
def tokensFrom (t : Str) : Str → List Str
  | [] => if t = [] then [] else [t]
  | c :: v => if EndsToken t c then t :: tokensFrom [] v else tokensFrom (t ++ [c]) v

/-- What the scan has of its token behind `a`. -/
def tokenBehind (t : Str) : Str → Str
  | [] => t
  | c :: a => if EndsToken t c then tokenBehind [] a else tokenBehind (t ++ [c]) a

theorem parens_concat (t : Str) (c : UInt8) : parens (t ++ [c]) =
    if c = 41 then parens t - 1 else if c = 40 then parens t + 1 else parens t := by
  unfold parens
  rw [List.count_append, List.count_append]
  by_cases h41 : c = 41
  · have h1 : List.count 40 [c] = 0 := by rw [h41]; decide
    have h2 : List.count 41 [c] = 1 := by rw [h41]; decide
    rw [if_pos h41, h1, h2]
    omega
  · have h2 : List.count 41 [c] = 0 :=
      List.count_eq_zero.mpr fun h => h41 (List.mem_singleton.mp h).symm
    rw [if_neg h41, h2]
    by_cases h40 : c = 40
    · have h1 : List.count 40 [c] = 1 := by rw [h40]; decide
      rw [if_pos h40, h1]
      omega
    · have h1 : List.count 40 [c] = 0 :=
        List.count_eq_zero.mpr fun h => h40 (List.mem_singleton.mp h).symm
      rw [if_neg h40, h1]
      omega

theorem addrTokenLoop_cons (t : Str) (c : UInt8) (v : Str) :
    addrTokenLoop (parens t) (c :: v) =
      if EndsToken t c then ([], v)
      else (c :: (addrTokenLoop (parens (t ++ [c])) v).1,
        (addrTokenLoop (parens (t ++ [c])) v).2) := by
  rw [addrTokenLoop, parens_concat]
  dsimp only
  by_cases h41 : c = 41
  · have hno : ¬ EndsToken t c := fun h => absurd (h41.symm.trans h.1) (by decide)
    rw [if_pos h41, if_neg hno, if_neg (fun h => absurd (h41.symm.trans h.1) (by decide)),
      if_pos h41, if_neg (fun h => absurd (h41.symm.trans h) (by decide))]
  · rw [if_neg h41, if_neg h41]
    by_cases h40 : c = 40
    · have hno : ¬ EndsToken t c := fun h => absurd (h40.symm.trans h.1) (by decide)
      rw [if_pos h40, if_neg hno, if_neg (fun h => absurd (h40.symm.trans h.1) (by decide))]
    · rw [if_neg h40]
      rfl

/-- One call gives the next of the tokens. -/
theorem addrTokenLoop_tokens : ∀ (v t : Str), v ≠ [] ∨ t ≠ [] →
    tokensFrom t v = (t ++ (addrTokenLoop (parens t) v).1) ::
      tokensFrom [] (addrTokenLoop (parens t) v).2
  | [], t, h => by
      have ht : t ≠ [] := h.resolve_left fun h => h rfl
      rw [addrTokenLoop, tokensFrom, if_neg ht, List.append_nil]
      rfl
  | c :: v, t, _ => by
      rw [addrTokenLoop_cons, tokensFrom]
      split
      · rw [List.append_nil]
      · rw [addrTokenLoop_tokens v (t ++ [c]) (.inr (by simp)), List.append_assoc,
          List.singleton_append]

theorem length_addrTokenLoop_le : ∀ (v t : Str),
    (addrTokenLoop (parens t) v).2.length ≤ v.length - 1
  | [], _ => Nat.le_refl 0
  | c :: v, t => by
      rw [addrTokenLoop_cons]
      split
      · exact Nat.le_refl _
      · exact Nat.le_trans (length_addrTokenLoop_le v (t ++ [c])) (Nat.sub_le _ _)

/-- The calls come to an end with the tokens. -/
theorem addrTokens_saved (calls : Nat) : ∀ v : Str, v.length < calls →
    addrTokens calls none (some v) = some (tokensFrom [] v) := by
  induction calls with
  | zero => exact fun v h => absurd h (Nat.not_lt_zero _)
  | succ calls ih =>
    intro v h
    cases v with
    | nil => rfl
    | cons c v =>
      have hlen := length_addrTokenLoop_le (c :: v) []
      rw [List.length_cons] at h hlen
      rw [addrTokenLoop_tokens (c :: v) [] (.inl (List.cons_ne_nil c v)), List.nil_append]
      change (addrTokens calls none (some (addrTokenLoop (parens []) (c :: v)).2)).map
        ((addrTokenLoop (parens []) (c :: v)).1 :: ·) = _
      rw [ih _ (by omega)]
      rfl

theorem addrTokens_eq (v : Str) (saveP : Option Str) :
    addrTokens (v.length + 1) (some v) saveP = some (tokensFrom [] v) :=
  addrTokens_saved (v.length + 1) v (Nat.lt_succ_self _)

/-! ## Where the tokens are cut -/

theorem tokensFrom_ne_nil : ∀ {v : Str} (t : Str), v ≠ [] → tokensFrom t v ≠ []
  | [], _, h => absurd rfl h
  | c :: v, t, h => by
      rw [addrTokenLoop_tokens _ t (.inl h)]
      exact List.cons_ne_nil _ _

theorem cutAt_cons {t x : Str} {ts : List Str} :
    CutAt (t :: ts) x ↔ ts ≠ [] ∧ x = t ∨ ∃ y, CutAt ts y ∧ x = t ++ 44 :: y := by
  constructor
  · rintro ⟨us, ws, hus, hws, hts, hx⟩
    obtain ⟨u, us, rfl⟩ := List.exists_cons_of_ne_nil hus
    obtain ⟨rfl, rfl⟩ := List.cons.inj hts
    cases us with
    | nil => exact .inl ⟨hws, hx.trans List.intercalate_singleton⟩
    | cons u' us =>
      refine .inr ⟨_, ⟨u' :: us, ws, List.cons_ne_nil _ _, hws, rfl, rfl⟩, ?_⟩
      rw [hx, List.intercalate_cons_cons, List.append_assoc, List.singleton_append]
  · rintro (⟨hne, rfl⟩ | ⟨y, ⟨us, ws, hus, hws, rfl, rfl⟩, rfl⟩)
    · exact ⟨[x], ts, List.cons_ne_nil _ _, hne, rfl, List.intercalate_singleton.symm⟩
    · refine ⟨t :: us, ws, List.cons_ne_nil _ _, hws, rfl, ?_⟩
      rw [List.intercalate_cons_of_ne_nil hus, List.append_assoc, List.singleton_append]

/-- The cuts are the commas at which the scan has closed its parentheses, and which something
follows. -/
theorem cutAt_tokensFrom : ∀ (v t x : Str), CutAt (tokensFrom t v) x ↔
    ∃ a b, v = a ++ 44 :: b ∧ x = t ++ a ∧ parens (tokenBehind t a) ≤ 0 ∧ b ≠ []
  | [], t, x => by
      have hr : ¬ ∃ a b, ([] : Str) = a ++ 44 :: b ∧ x = t ++ a ∧
          parens (tokenBehind t a) ≤ 0 ∧ b ≠ [] := by
        rintro ⟨a, b, h, -⟩
        simp at h
      refine iff_of_false ?_ hr
      rw [tokensFrom]
      rintro ⟨us, ws, hus, hws, hts, -⟩
      have hlen := congrArg List.length hts
      have := List.length_pos_of_ne_nil hus
      have := List.length_pos_of_ne_nil hws
      rw [List.length_append] at hlen
      split at hlen
      · rw [List.length_nil] at hlen
        omega
      · rw [List.length_singleton] at hlen
        omega
  | c :: v, t, x => by
      rw [tokensFrom]
      split
      next hc =>
        rw [cutAt_cons]
        constructor
        · rintro (⟨hne, rfl⟩ | ⟨y, hy, rfl⟩)
          · have hv : v ≠ [] := by
              rintro rfl
              exact hne rfl
            exact ⟨[], v, congrArg (· :: v) hc.1, (List.append_nil x).symm, hc.2, hv⟩
          · obtain ⟨a, b, rfl, hya, hp, hb⟩ := (cutAt_tokensFrom v [] y).mp hy
            refine ⟨c :: a, b, rfl, by rw [hya, hc.1]; rfl, ?_, hb⟩
            rwa [tokenBehind, if_pos hc]
        · rintro ⟨a, b, hv, rfl, hp, hb⟩
          cases a with
          | nil =>
            obtain ⟨-, rfl⟩ := List.cons.inj hv
            exact .inl ⟨tokensFrom_ne_nil [] hb, List.append_nil t⟩
          | cons d a =>
            obtain ⟨rfl, rfl⟩ := List.cons.inj hv
            rw [tokenBehind, if_pos hc] at hp
            refine .inr ⟨a, (cutAt_tokensFrom _ [] a).mpr ⟨a, b, rfl, rfl, hp, hb⟩, ?_⟩
            rw [hc.1]
      next hc =>
        rw [cutAt_tokensFrom v (t ++ [c]) x]
        constructor
        · rintro ⟨a, b, rfl, rfl, hp, hb⟩
          refine ⟨c :: a, b, rfl, by rw [List.append_assoc]; rfl, ?_, hb⟩
          rwa [tokenBehind, if_neg hc]
        · rintro ⟨a, b, hv, rfl, hp, hb⟩
          cases a with
          | nil => exact absurd ⟨(List.cons.inj hv).1, hp⟩ hc
          | cons d a =>
            obtain ⟨rfl, rfl⟩ := List.cons.inj hv
            rw [tokenBehind, if_neg hc] at hp
            exact ⟨a, b, rfl, by rw [List.append_assoc]; rfl, hp, hb⟩

/-- Only the empty token behind a last cut is lost. -/
theorem intercalate_tokensFrom : ∀ v t : Str, [44].intercalate (tokensFrom t v) = t ++ v ↔
    ∀ a, v = a ++ [44] → 0 < parens (tokenBehind t a)
  | [], t => by
      refine iff_of_true ?_ fun a h => by simp at h
      rw [tokensFrom, List.append_nil]
      split
      next ht => exact ht.symm
      next => exact List.intercalate_singleton
  | c :: v, t => by
      rw [tokensFrom]
      split
      next hc =>
        by_cases hv : v = []
        · subst hv
          refine iff_of_false ?_ fun h => ?_
          · rw [tokensFrom, if_pos rfl, List.intercalate_singleton]
            intro h
            have := congrArg List.length h
            rw [List.length_append, List.length_singleton] at this
            omega
          · have : 0 < parens t := h [] (congrArg (· :: []) hc.1)
            exact absurd hc.2 (by omega)
        · have ih := intercalate_tokensFrom v []
          rw [List.nil_append] at ih
          rw [List.intercalate_cons_of_ne_nil (tokensFrom_ne_nil [] hv), hc.1, List.append_assoc,
            List.append_cancel_left_eq, List.singleton_append, List.cons_inj_right, ih]
          constructor
          · intro h a ha
            cases a with
            | nil => exact absurd (List.cons.inj ha).2 hv
            | cons d a =>
              obtain ⟨rfl, rfl⟩ := List.cons.inj ha
              rw [tokenBehind, if_pos (hc.1 ▸ hc)]
              exact h a rfl
          · intro h a ha
            have := h (44 :: a) (by rw [ha]; rfl)
            rwa [tokenBehind, if_pos (hc.1 ▸ hc)] at this
      next hc =>
        have ih := intercalate_tokensFrom v (t ++ [c])
        rw [List.append_assoc, List.singleton_append] at ih
        rw [ih]
        constructor
        · intro h a ha
          cases a with
          | nil =>
            have hc44 : c = 44 := (List.cons.inj ha).1
            have : ¬ parens t ≤ 0 := fun hp => hc ⟨hc44, hp⟩
            rw [tokenBehind]
            omega
          | cons d a =>
            obtain ⟨rfl, rfl⟩ := List.cons.inj ha
            rw [tokenBehind, if_neg hc]
            exact h a rfl
        · intro h a ha
          have := h (c :: a) (by rw [ha]; rfl)
          rwa [tokenBehind, if_neg hc] at this

/-! ## The commas -/

/-- What a scan that cuts at the commas outside has of its token. -/
def sinceCommaFrom : AddrScan → Str → Str → Str
  | _, t, [] => t
  | st, t, c :: a =>
      if c = 44 ∧ st = .outside then sinceCommaFrom (st.step c) [] a
      else sinceCommaFrom (st.step c) (t ++ [c]) a

/-- The text behind the last comma of `a` that is outside comments and quoted strings. -/
def sinceComma (a : Str) : Str := sinceCommaFrom .outside [] a

/-- At every comma the parentheses since the last comma outside tell whether it is one, and
the last byte is none. -/
structure CommasAgree (v : Str) : Prop where
  agree : ∀ a b, v = a ++ 44 :: b → (Outside a ↔ parens (sinceComma a) ≤ 0)
  last : ∀ a, v = a ++ [44] → ¬ Outside a

theorem tokenBehind_concat (c : UInt8) : ∀ a t : Str, tokenBehind t (a ++ [c]) =
    if EndsToken (tokenBehind t a) c then [] else tokenBehind t a ++ [c]
  | [], _ => rfl
  | d :: a, t => by
      rw [List.cons_append, tokenBehind, tokenBehind]
      split
      · exact tokenBehind_concat c a []
      · exact tokenBehind_concat c a (t ++ [d])

theorem sinceCommaFrom_concat (c : UInt8) : ∀ (a t : Str) (st : AddrScan),
    sinceCommaFrom st t (a ++ [c]) =
      if c = 44 ∧ a.foldl AddrScan.step st = .outside then [] else sinceCommaFrom st t a ++ [c]
  | [], _, _ => rfl
  | d :: a, t, st => by
      rw [List.cons_append, sinceCommaFrom, sinceCommaFrom, List.foldl_cons]
      split
      · exact sinceCommaFrom_concat c a [] _
      · exact sinceCommaFrom_concat c a (t ++ [d]) _

theorem sinceComma_concat (a : Str) (c : UInt8) :
    sinceComma (a ++ [c]) = if c = 44 ∧ Outside a then [] else sinceComma a ++ [c] :=
  sinceCommaFrom_concat c a [] .outside

/-- Up to where the two scans agree they have the same of their token. -/
theorem tokenBehind_eq {v : Str} {behind : Str → Str}
    (hb : behind = tokenBehind [] ∨ behind = sinceComma)
    (h : ∀ a b, v = a ++ 44 :: b → (Outside a ↔ parens (behind a) ≤ 0)) (a b : Str)
    (hv : v = a ++ b) : tokenBehind [] a = sinceComma a := by
  induction a using List.reverseRec generalizing b with
  | nil => rfl
  | append_singleton a c ih =>
    have heq := ih (c :: b) (by rw [hv, List.append_assoc, List.singleton_append])
    have hbehind : behind a = tokenBehind [] a := by
      rcases hb with rfl | rfl
      · rfl
      · exact heq.symm
    rw [tokenBehind_concat, sinceComma_concat, ← heq]
    have hcut : EndsToken (tokenBehind [] a) c ↔ c = 44 ∧ Outside a := by
      refine and_congr_right fun hc => ?_
      rw [h a b (by rw [hv, hc, List.append_assoc, List.singleton_append]), hbehind]
    exact ite_cond_congr (propext hcut)

theorem cutAt_comma {a b : Str} :
    CutAt (tokensFrom [] (a ++ 44 :: b)) a ↔ parens (tokenBehind [] a) ≤ 0 ∧ b ≠ [] := by
  rw [cutAt_tokensFrom]
  constructor
  · rintro ⟨a', b', hv, ha, hp, hb⟩
    obtain rfl : a = a' := ha
    have hbb : 44 :: b = 44 :: b' := List.append_cancel_left hv
    rw [(List.cons.inj hbb).2]
    exact ⟨hp, hb⟩
  · rintro ⟨hp, hb⟩
    exact ⟨a, b, rfl, rfl, hp, hb⟩

/-- A comma in a quoted string is cut. -/
theorem addrSplit_quoted : ¬ AddrSplit (lit "\"a,b\" <c@d>") := by
  intro h
  obtain ⟨ts, hts, hs⟩ := h none
  have htoks : ts = [lit "\"a", lit "b\" <c@d>"] := by
    rw [← Option.some.inj hts]
    decide
  have hcut : CutAt ts (lit "\"a") :=
    ⟨[lit "\"a"], [lit "b\" <c@d>"], by decide, by decide, htoks, by decide⟩
  exact absurd ((hs.cuts (lit "\"a") (lit "b\" <c@d>") (by decide)).mp hcut) (by decide)

/-- A value is split as it should be exactly where the parentheses tell which commas are
outside comments and quoted strings, and none of these is at its end. -/
theorem addrSplit_iff (v : Str) : AddrSplit v ↔ CommasAgree v := by
  have hsplit : AddrSplit v ↔ Splits v (tokensFrom [] v) := by
    constructor
    · intro h
      obtain ⟨ts, hts, hs⟩ := h none
      rw [addrTokens_eq] at hts
      rwa [Option.some.inj hts]
    · exact fun h saveP => ⟨_, addrTokens_eq v saveP, h⟩
  rw [hsplit]
  constructor
  · rintro ⟨hjoin, hcuts⟩
    have hlast := (intercalate_tokensFrom v []).mp hjoin
    have hcomma : ∀ a b, v = a ++ 44 :: b →
        (Outside a ↔ parens (tokenBehind [] a) ≤ 0 ∧ b ≠ []) := by
      intro a b hv
      have h := hcuts a b hv
      rw [hv, cutAt_comma] at h
      exact h.symm
    have hagree : ∀ a b, v = a ++ 44 :: b → (Outside a ↔ parens (tokenBehind [] a) ≤ 0) := by
      intro a b hv
      rw [hcomma a b hv]
      refine and_iff_left_of_imp fun hp => ?_
      rintro rfl
      exact absurd (hlast a hv) (by omega)
    refine ⟨fun a b hv => ?_, fun a hv hout => ((hcomma a [] hv).mp hout).2 rfl⟩
    rw [← tokenBehind_eq (.inl rfl) hagree a _ hv]
    exact hagree a b hv
  · rintro ⟨hagree, hlast⟩
    have htok : ∀ a b, v = a ++ 44 :: b → (Outside a ↔ parens (tokenBehind [] a) ≤ 0) := by
      intro a b hv
      rw [tokenBehind_eq (.inr rfl) hagree a _ hv]
      exact hagree a b hv
    refine ⟨(intercalate_tokensFrom v []).mpr fun a hv => ?_, fun a b hv => ?_⟩
    · have := mt (htok a [] hv).mpr (hlast a hv)
      omega
    · rw [hv, cutAt_comma, ← htok a b hv]
      refine and_iff_left_of_imp fun hout => ?_
      rintro rfl
      exact hlast a hv hout

example : (addrTokens 40 (some (lit "a (x, (y)) <a@b>, c@d")) none) =
    some [lit "a (x, (y)) <a@b>", lit " c@d"] := by decide

end Fidogate

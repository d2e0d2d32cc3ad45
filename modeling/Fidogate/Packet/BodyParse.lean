/-
# `Fidogate.Packet.BodyParse` — a body is parsed into its lines and back

`pkt_get_body_parse` takes a body apart in four stages: the kludges and the
AREA line in front, up to two blank lines, the RFC header lines, and the rest
with its text and control lines.  `parseLines_stages` splits the stages apart;
the rest is the business of `Fidogate.Packet.BodyRest`.
-/
import Mathlib.Data.List.Nodup
import Mathlib.Data.List.TakeWhile
import Fidogate.Lib.Trims
import Fidogate.Packet.BodyRest
import Fidogate.Packet.RoundTrip

namespace Fidogate

open Bytes
open scoped List

/-! ## The parser on a list of lines -/

def parseLines : ParseState → List Str → Option ParseState
  | st, [] => some st
  | st, l :: ls =>
      match parseLine st l with
      | some st' => parseLines st' ls
      | none => none

/-- A line that the reader hands over as it is. -/
def GoodLine (s : Str) : Prop :=
  ∃ l : BodyLine, l.bytes = s ∧ l.Kept ∧ l.text.head? ≠ some lf

theorem exists_bodyLines : ∀ {ls : List Str}, (∀ s ∈ ls, GoodLine s) →
    ∃ bs : List BodyLine, bs.map BodyLine.bytes = ls ∧ (∀ l ∈ bs, l.Kept) ∧
      ∀ l ∈ bs, l.text.head? ≠ some lf
  | [], _ => ⟨[], rfl, by simp, by simp⟩
  | s :: ls, h => by
      obtain ⟨l, hl, hk, hh⟩ := h s List.mem_cons_self
      obtain ⟨bs, hbs, hks, hhs⟩ := exists_bodyLines (fun t ht => h t (List.mem_cons_of_mem _ ht))
      exact ⟨l :: bs, by rw [List.map_cons, hl, hbs], by simpa using ⟨hk, hks⟩,
        by simpa using ⟨hh, hhs⟩⟩

/-- Parsing the bytes of a body is parsing its lines. -/
theorem pktGetBodyParseLoop_lines {t : LineType} (ht : t = .msgType ∨ t = .msgEnd) (dst : Node)
    (rest : Str) (ls : List BodyLine) : ∀ (n : Nat) (st st' : ParseState) (b : Str),
      ls.length < n → (∀ l ∈ ls, l.Kept) → (∀ l ∈ ls.tail, l.text.head? ≠ some lf) →
      parseLines st (ls.map BodyLine.bytes) = some st' →
      ∃ b', pktGetBodyParseLoop dst n st b
          ((ls.map BodyLine.bytes).flatten ++ nul :: endByte t :: nul :: rest) =
        ⟨st'.ret, t, missingLines dst (store b' []) st'.msg,
          missingBuf dst (store b' []) st'.msg, rest⟩ := by
  induction ls with
  | nil =>
      intro n st st' b hn _ _ hp
      obtain ⟨n, rfl⟩ := Nat.exists_eq_succ_of_ne_zero (Nat.ne_of_gt hn)
      have hst : st = st' := by simpa [parseLines] using hp
      subst hst
      refine ⟨b, ?_⟩
      rw [pktGetBodyParseLoop]
      simp only [List.map_nil, List.flatten_nil, List.nil_append, pktGetLine_end ht]
      rcases ht with rfl | rfl
      · rw [if_neg (by decide)]
      · rw [if_neg (by decide)]
  | cons l ls ih =>
      intro n st st' b hn hk hs hp
      obtain ⟨n, rfl⟩ := Nat.exists_eq_succ_of_ne_zero (Nat.ne_of_gt (Nat.zero_lt_of_lt hn))
      have hnul : (nul :: endByte t :: nul :: rest).head? ≠ some lf :=
        (by decide : some nul ≠ some lf)
      have hhead := @head_lines_ne_lf ls hs _ hnul
      rw [List.map_cons, parseLines] at hp
      cases hstep : parseLine st l.bytes with
      | none => rw [hstep] at hp; cases hp
      | some st₁ =>
          rw [hstep] at hp
          obtain ⟨b', hb'⟩ := ih n st₁ st' (store b l.bytes) (Nat.lt_of_succ_lt_succ hn)
            (fun l' h => hk l' (List.mem_cons_of_mem _ h))
            (fun l' h => hs l' (List.mem_of_mem_tail h)) hp
          refine ⟨b', ?_⟩
          rw [List.map_cons, List.flatten_cons, List.append_assoc, pktGetBodyParseLoop,
            pktGetLine_kept (hk l List.mem_cons_self) b hhead]
          simp only [if_true, cstr_store l.nul_not_mem, hstep, hb']


/-! ## The stages in front of the rest -/

/-- The parser in front of the rest: `k`, `a` and `r` are the kludges, the
AREA line and the RFC header lines so far, `n` the blank lines left. -/
def front (k : List Str) (a : Option Str) (n : Nat) (flag : DoFlag) (r : List Str) : ParseState :=
  { msg := { MsgBody.clear with kludge := k, area := a, rfc := r }, lookForArea := a.isNone,
    parseBlank := n, doFlag := flag, foundKludge := false, foundOrigin := false,
    foundTear := false, ret := OK }

theorem front_clean (k : List Str) (a : Option Str) (n : Nat) (flag : DoFlag) (r : List Str) :
    Clean (front k a n flag r) := ⟨rfl, rfl, rfl, rfl, rfl, rfl, rfl, rfl, rfl⟩

def bodyFlag : Bool → DoFlag
  | true => .bodyEchomail
  | false => .bodyNetmail

theorem parseLines_body {echo : Bool} : ∀ (ls : List Str) (st : ParseState),
    st.doFlag = bodyFlag echo → parseLines st ls = some (bodyRun echo st ls)
  | [], st, _ => rfl
  | l :: ls, st, h => by
      have hflag : (bodyLine echo st l).doFlag = bodyFlag echo := by
        rw [← h]
        exact (bodyRun_front (c := st) [l]).doFlag
      have hl : parseLine st l = some (bodyLine echo st l) := by
        unfold parseLine
        rw [h]
        cases echo <;> rfl
      rw [parseLines, hl]
      exact parseLines_body ls _ hflag

/-- A line starts with one RFC header name at most. -/
theorem rfcMatches_eq {l : Str} (h : rfcMatches l ≠ []) : rfcMatches l = [l] := by
  have hnodup : (rfcHeaders.filter (hasPrefixI · l)).Nodup :=
    List.Nodup.filter _ (by decide)
  have hone : ∀ x ∈ rfcHeaders.filter (hasPrefixI · l),
      ∀ y ∈ rfcHeaders.filter (hasPrefixI · l), x = y := by
    intro x hx y hy
    have hd : ∀ x ∈ rfcHeaders, ∀ y ∈ rfcHeaders,
        (x.map toLower).isPrefixOf (y.map toLower) = true → x = y := by decide +kernel
    obtain ⟨hx1, hx2⟩ := List.mem_filter.mp hx
    obtain ⟨hy1, hy2⟩ := List.mem_filter.mp hy
    rcases List.prefix_or_prefix_of_prefix (List.isPrefixOf_iff_prefix.mp hx2)
      (List.isPrefixOf_iff_prefix.mp hy2) with hp | hp
    · exact hd x hx1 y hy1 (List.isPrefixOf_iff_prefix.mpr hp)
    · exact (hd y hy1 x hx1 (List.isPrefixOf_iff_prefix.mpr hp)).symm
  rw [rfcMatches] at h ⊢
  generalize rfcHeaders.filter (hasPrefixI · l) = xs at *
  rcases xs with _ | ⟨x, _ | ⟨y, xs⟩⟩
  · exact absurd rfl h
  · rfl
  · have he := hone x (by simp) y (by simp)
    simp [he] at hnodup

section Front

variable {k : List Str} {a : Option Str}

theorem parseLines_rfc (n : Nat) : ∀ (rs r rest : List Str), (∀ x ∈ rs, rfcMatches x ≠ []) →
    (∀ x ∈ rest.head?, rfcMatches x = []) →
    ∃ flag, parseLines (front k a n .searchRfc r) (rs ++ rest) =
      some (bodyRun a.isSome (front k a n flag (r ++ rs)) rest)
  | [], r, [], _, _ => ⟨.searchRfc, by simp [parseLines, bodyRun]⟩
  | [], r, x :: rest, _, hx => by
      refine ⟨bodyFlag a.isSome, ?_⟩
      have h : parseLine (front k a n .searchRfc r) x =
          some (bodyLine a.isSome (front k a n (bodyFlag a.isSome) r) x) := by
        show some (rfcLine (front k a n .searchRfc r) x) = _
        rw [rfcLine, hx x rfl]
        cases a <;> rfl
      have hflag : (bodyLine a.isSome (front k a n (bodyFlag a.isSome) r) x).doFlag =
          bodyFlag a.isSome :=
        (bodyRun_front (c := front k a n (bodyFlag a.isSome) r) [x]).doFlag
      rw [List.nil_append, parseLines, h, List.append_nil]
      exact parseLines_body rest _ hflag
  | x :: rs, r, rest, hrs, hrest => by
      have hx := hrs x List.mem_cons_self
      obtain ⟨flag, ih⟩ := parseLines_rfc n rs (r ++ [x]) rest
        (fun y hy => hrs y (List.mem_cons_of_mem _ hy)) hrest
      refine ⟨flag, ?_⟩
      have h : parseLine (front k a n .searchRfc r) x =
          some (front k a n .searchRfc (r ++ [x])) := by
        show some (rfcLine (front k a n .searchRfc r) x) = _
        rw [rfcLine, rfcMatches_eq hx]
        rfl
      rw [List.cons_append, parseLines, h]
      simpa using ih

/-- The RFC header lines are the lines up to the first that is none. -/
theorem parseLines_searchRfc (n : Nat) (ls : List Str) : ∃ rs rest flag, ls = rs ++ rest ∧
    (∀ x ∈ rs, rfcMatches x ≠ []) ∧ (∀ x ∈ rest.head?, rfcMatches x = []) ∧
    parseLines (front k a n .searchRfc []) ls =
      some (bodyRun a.isSome (front k a n flag rs) rest) := by
  have h1 : ∀ x ∈ ls.takeWhile (rfcMatches · != []), rfcMatches x ≠ [] := by
    intro x hx
    simpa using List.mem_takeWhile_imp hx
  have h2 : ∀ x ∈ (ls.dropWhile (rfcMatches · != [])).head?, rfcMatches x = [] := by
    intro x hx
    simpa using Trims.dropWhile_head ls x hx
  obtain ⟨flag, h⟩ := parseLines_rfc (k := k) (a := a) n _ [] _ h1 h2
  rw [List.takeWhile_append_dropWhile] at h
  exact ⟨_, _, flag, List.takeWhile_append_dropWhile.symm, h1, h2, h⟩

theorem parseLine_blank (n : Nat) (x : Str) :
    parseLine (front k a n .parseBlank []) x =
      if !isBlankLine x || n - 1 == 0 then parseLine (front k a (n - 1) .searchRfc []) x
      else some (front k a (n - 1) .parseBlank []) := by
  show some (if !isBlankLine x || n - 1 == 0 then rfcLine (front k a (n - 1) .searchRfc []) x
    else front k a (n - 1) .parseBlank []) = _
  split
  · rfl
  · rfl

/-- A line that belongs to the first stage. -/
def isHeadLine (a : Option Str) (x : Str) : Bool := isKludgeLine x || (a.isNone && isAreaLine x)

theorem parseLine_leave {x : Str} (hx : isHeadLine a x = false) :
    parseLine (front k a 3 .hiKludge []) x = parseLine (front k a 3 .parseBlank []) x := by
  rw [isHeadLine, Bool.or_eq_false_iff] at hx
  unfold parseLine
  simp only [front, hx.1, hx.2, Bool.false_eq_true, if_false]
  rfl

/-- Behind the first stage up to two blank lines are dropped. -/
theorem parseLines_afterHead {ls : List Str} (hx : ∀ x ∈ ls.head?, isHeadLine a x = false) :
    ∃ bs rs rest n flag, ls = bs ++ rs ++ rest ∧ bs.length ≤ 2 ∧
      (∀ x ∈ bs, isBlankLine x = true) ∧ (∀ x ∈ rs, rfcMatches x ≠ []) ∧
      (∀ x ∈ rest.head?, rfcMatches x = []) ∧
      parseLines (front k a 3 .hiKludge []) ls =
        some (bodyRun a.isSome (front k a n flag rs) rest) := by
  have stop : ∀ (n : Nat) (flag : DoFlag), some (front k a n flag []) =
      some (bodyRun a.isSome (front k a n flag []) []) := fun _ _ => rfl
  match ls, hx with
  | [], _ => exact ⟨[], [], [], 3, _, rfl, by simp, by simp, by simp, by simp, stop _ _⟩
  | x :: ls, hx =>
      rw [parseLines, parseLine_leave (hx x rfl), parseLine_blank]
      by_cases hb : isBlankLine x = true
      swap
      · obtain ⟨rs, rest, flag, h1, h2, h3, h4⟩ := parseLines_searchRfc (k := k) (a := a) 2 (x :: ls)
        rw [if_pos (by simp [hb])]
        exact ⟨[], rs, rest, 2, flag, h1, by simp, by simp, h2, h3, h4⟩
      rw [if_neg (by simp [hb])]
      match ls with
      | [] => exact ⟨[x], [], [], 2, _, rfl, by simp, by simp [hb], by simp, by simp, stop _ _⟩
      | y :: ls =>
          show ∃ bs rs rest n flag, _ ∧ _ ∧ _ ∧ _ ∧ _ ∧
            parseLines (front k a 2 .parseBlank []) (y :: ls) = _
          rw [parseLines, parseLine_blank]
          by_cases hb' : isBlankLine y = true
          swap
          · obtain ⟨rs, rest, flag, h1, h2, h3, h4⟩ :=
              parseLines_searchRfc (k := k) (a := a) 1 (y :: ls)
            rw [if_pos (by simp [hb'])]
            exact ⟨[x], rs, rest, 1, flag, by rw [h1]; rfl, by simp, by simp [hb], h2, h3, h4⟩
          rw [if_neg (by simp [hb'])]
          match ls with
          | [] =>
              exact ⟨[x, y], [], [], 1, _, rfl, by simp, by simp [hb, hb'], by simp, by simp,
                stop _ _⟩
          | z :: ls =>
              -- the third line is looked at whatever it is
              obtain ⟨rs, rest, flag, h1, h2, h3, h4⟩ :=
                parseLines_searchRfc (k := k) (a := a) 0 (z :: ls)
              show ∃ bs rs rest n flag, _ ∧ _ ∧ _ ∧ _ ∧ _ ∧
                parseLines (front k a 1 .parseBlank []) (z :: ls) = _
              rw [parseLines, parseLine_blank, if_pos (by simp)]
              exact ⟨[x, y], rs, rest, 0, flag, by rw [h1]; rfl, by simp, by simp [hb, hb'], h2, h3,
                h4⟩

theorem parseLine_kludge {x : Str} (hx : isKludgeLine x = true) :
    parseLine (front k a 3 .hiKludge []) x = some (front (k ++ [x]) a 3 .hiKludge []) := by
  unfold parseLine
  simp only [front, hx, if_true]

theorem parseLine_area {x : Str} (hx : isKludgeLine x = false) (ha : isAreaLine x = true) :
    parseLine (front k none 3 .hiKludge []) x = some (front k (some x) 3 .hiKludge []) := by
  unfold parseLine
  simp only [front, hx, ha, Option.isNone_none, Bool.and_self, Bool.false_eq_true, if_false,
    if_true]
  rfl

end Front

/-- What the first stage made of the lines `hd`. -/
structure Headed (hd k : List Str) (a : Option Str) : Prop where
  perm : (a.toList ++ k).Perm hd
  order : k <+ hd
  kludge : ∀ x ∈ k, isKludgeLine x = true
  area : ∀ x ∈ a, isAreaLine x = true

theorem Headed.add_kludge {hd k : List Str} {a : Option Str} (h : Headed hd k a) {x : Str}
    (hx : isKludgeLine x = true) : Headed (hd ++ [x]) (k ++ [x]) a :=
  ⟨by rw [← List.append_assoc]; exact h.perm.append_right [x], h.order.append_right [x],
    forall_mem_snoc h.kludge hx, h.area⟩

theorem Headed.add_area {hd k : List Str} (h : Headed hd k none) {x : Str}
    (hx : isAreaLine x = true) : Headed (hd ++ [x]) k (some x) := by
  refine ⟨?_, h.order.trans (List.sublist_append_left _ _), h.kludge, ?_⟩
  · show (x :: k).Perm (hd ++ [x])
    exact (List.perm_append_singleton x k).symm.trans (h.perm.append_right [x])
  · intro y hy
    exact Option.some.inj hy ▸ hx

/-- The first stage ends in front of the first line that is neither a kludge
nor the first AREA line. -/
theorem parseLines_head : ∀ (ls hd k : List Str) (a : Option Str), Headed hd k a →
    ∃ hd' k' a' tl, ls = hd' ++ tl ∧ Headed (hd ++ hd') k' a' ∧
      (∀ x ∈ tl.head?, isHeadLine a' x = false) ∧
      parseLines (front k a 3 .hiKludge []) ls = parseLines (front k' a' 3 .hiKludge []) tl
  | [], hd, k, a, h => ⟨[], k, a, [], rfl, by rwa [List.append_nil], by simp, rfl⟩
  | x :: ls, hd, k, a, h => by
      by_cases hx : isKludgeLine x = true
      · obtain ⟨hd', k', a', tl, h1, h2, h3, h4⟩ := parseLines_head ls _ _ _ (h.add_kludge hx)
        refine ⟨x :: hd', k', a', tl, by rw [h1]; rfl, by simpa using h2, h3, ?_⟩
        rw [parseLines, parseLine_kludge hx]
        exact h4
      rw [Bool.not_eq_true] at hx
      by_cases ha : (a.isNone && isAreaLine x) = true
      · rw [Bool.and_eq_true, Option.isNone_iff_eq_none] at ha
        obtain ⟨rfl, ha⟩ := ha
        obtain ⟨hd', k', a', tl, h1, h2, h3, h4⟩ := parseLines_head ls _ _ _ (h.add_area ha)
        refine ⟨x :: hd', k', a', tl, by rw [h1]; rfl, by simpa using h2, h3, ?_⟩
        rw [parseLines, parseLine_area hx ha]
        exact h4
      · rw [Bool.not_eq_true] at ha
        refine ⟨[], k, a, x :: ls, rfl, by rwa [List.append_nil], ?_, rfl⟩
        intro y hy
        rw [← Option.some.inj hy, isHeadLine, hx, ha]
        rfl

/-- The stages of a body that starts with a kludge or an AREA line. -/
structure Stages (ls : List Str) where
  head : List Str
  blanks : List Str
  rfc : List Str
  rest : List Str
  kludge : List Str
  area : Option Str
  blanksLeft : Nat
  flag : DoFlag
  split : ls = head ++ blanks ++ rfc ++ rest
  headed : Headed head kludge area
  head_ne : head ≠ []
  blanks_le : blanks.length ≤ 2
  blanks_blank : ∀ x ∈ blanks, isBlankLine x = true
  rfc_rfc : ∀ x ∈ rfc, rfcMatches x ≠ []
  rest_head : ∀ x ∈ rest.head?, rfcMatches x = []
  parse : parseLines .init ls =
    some (bodyRun area.isSome (front kludge area blanksLeft flag rfc) rest)

theorem parseLines_stages {l : Str} {ls : List Str}
    (hl : isKludgeLine l = true ∨ isAreaLine l = true) : Nonempty (Stages (l :: ls)) := by
  obtain ⟨k, a, hhead, hfirst⟩ : ∃ k a, Headed [l] k a ∧
      parseLine .init l = some (front k a 3 .hiKludge []) := by
    by_cases hk : isKludgeLine l = true
    · refine ⟨[l], none, ⟨by simp, by simp, by simpa using hk, by simp⟩, ?_⟩
      unfold parseLine
      simp only [ParseState.init, hk, if_true]
      rfl
    · rw [Bool.not_eq_true] at hk
      have ha : isAreaLine l = true := by
        rcases hl with h | h
        · rw [hk] at h; cases h
        · exact h
      refine ⟨[], some l, ⟨by simp, by simp, by simp, ?_⟩, ?_⟩
      · intro y hy
        exact Option.some.inj hy ▸ ha
      · unfold parseLine
        simp only [ParseState.init, hk, ha, Bool.and_self, Bool.false_eq_true, if_false, if_true]
        rfl
  obtain ⟨hd, k', a', tl, h1, h2, h3, h4⟩ := parseLines_head ls [l] k a hhead
  obtain ⟨bs, rs, rest, n, flag, e1, e2, e3, e4, e5, e6⟩ := parseLines_afterHead (k := k') h3
  refine ⟨⟨l :: hd, bs, rs, rest, k', a', n, flag, ?_, h2, by simp, e2, e3, e4, e5, ?_⟩⟩
  · rw [h1, e1]
    simp
  · rw [parseLines, hfirst]
    exact h4.trans e6

/-! ## What is written is parsed again -/

theorem parseLines_kludges {a : Option Str} {tl : List Str} : ∀ (ks k : List Str),
    (∀ x ∈ ks, isKludgeLine x = true) →
    parseLines (front k a 3 .hiKludge []) (ks ++ tl) =
      parseLines (front (k ++ ks) a 3 .hiKludge []) tl
  | [], k, _ => by rw [List.nil_append, List.append_nil]
  | x :: ks, k, h => by
      rw [List.cons_append, parseLines, parseLine_kludge (h x List.mem_cons_self)]
      show parseLines (front (k ++ [x]) a 3 .hiKludge []) (ks ++ tl) = _
      rw [parseLines_kludges ks _ (fun y hy => h y (List.mem_cons_of_mem _ hy)),
        List.append_assoc, List.singleton_append]

/-- A RFC header line neither belongs to the first stage nor is blank. -/
theorem rfcMatches_open {l : Str} (h : rfcMatches l ≠ []) (a : Option Str) :
    isHeadLine a l = false ∧ isBlankLine l = false := by
  obtain ⟨c, hc, hin⟩ := head_rfcMatches h
  have hne : ∀ d : UInt8, toLower d ∉ rfcInitials → c ≠ d := fun d hd e => hd (e ▸ hin)
  obtain ⟨s, rfl⟩ : ∃ s, l = c :: s := by
    cases l with
    | nil => cases hc
    | cons d s => exact ⟨s, by rw [Option.some.inj hc]⟩
  constructor
  · have hk : isKludgeLine (c :: s) = false := by
      rw [isKludgeLine, beq_eq_false_iff_ne, List.head?_cons]
      exact fun e => hne soh (by decide) (Option.some.inj e)
    have ha : isAreaLine (c :: s) = false :=
      not_of_head head_isAreaLine (hne 65 (by decide)) rfl
    rw [isHeadLine, hk, ha, Bool.and_false]
    rfl
  · have hs : isSpace c = false := by
      simp [isSpace, hne sp (by decide), hne tab (by decide), hne cr (by decide),
        hne lf (by decide)]
    simp [isBlankLine, hs]

/-- The first line behind the kludges can only be taken for what it is. -/
def OpensRest (a : Option Str) (ls : List Str) : Prop :=
  ∀ x ∈ ls.head?, isHeadLine a x = false ∧ isBlankLine x = false

theorem parseLines_open {k rs rest : List Str} {a : Option Str}
    (hrs : ∀ x ∈ rs, rfcMatches x ≠ []) (hrest : ∀ x ∈ rest.head?, rfcMatches x = [])
    (ho : rs = [] → OpensRest a rest) :
    ∃ n flag, parseLines (front k a 3 .hiKludge []) (rs ++ rest) =
      some (bodyRun a.isSome (front k a n flag rs) rest) := by
  have hopen : OpensRest a (rs ++ rest) := by
    cases rs with
    | nil => exact ho rfl
    | cons x rs =>
        intro y hy
        rw [← Option.some.inj hy]
        exact rfcMatches_open (hrs x List.mem_cons_self) a
  obtain ⟨flag, h⟩ := parseLines_rfc (k := k) (a := a) 2 rs [] rest hrs hrest
  cases hls : rs ++ rest with
  | nil =>
      obtain ⟨rfl, rfl⟩ := List.append_eq_nil_iff.mp hls
      exact ⟨3, .hiKludge, rfl⟩
  | cons x ls =>
      obtain ⟨h1, h2⟩ := hopen x (by rw [hls]; rfl)
      refine ⟨2, flag, ?_⟩
      rw [hls] at h
      rw [parseLines, parseLine_leave h1, parseLine_blank, if_pos (by rw [h2]; rfl)]
      exact h

theorem parseLines_again {k rs rest : List Str} {a : Option Str} (hne : a.toList ++ k ≠ [])
    (hk : ∀ x ∈ k, isKludgeLine x = true) (ha : ∀ x ∈ a, isAreaLine x = true)
    (hrs : ∀ x ∈ rs, rfcMatches x ≠ []) (hrest : ∀ x ∈ rest.head?, rfcMatches x = [])
    (ho : rs = [] → OpensRest a rest) :
    ∃ n flag, parseLines .init (a.toList ++ k ++ (rs ++ rest)) =
      some (bodyRun a.isSome (front k a n flag rs) rest) := by
  cases a with
  | some x =>
      have hx : isKludgeLine x = false := by
        have := head_isAreaLine (ha x rfl)
        rw [isKludgeLine, this]
        rfl
      have h1 : parseLine .init x = some (front [] (some x) 3 .hiKludge []) := by
        unfold parseLine
        simp only [ParseState.init, hx, ha x rfl, Bool.and_self, Bool.false_eq_true, if_false,
          if_true]
        rfl
      obtain ⟨n, flag, h⟩ := parseLines_open (k := k) hrs hrest ho
      refine ⟨n, flag, ?_⟩
      rw [Option.toList_some, List.singleton_append, List.cons_append, parseLines, h1]
      exact (parseLines_kludges k [] hk).trans h
  | none =>
      cases k with
      | nil => exact absurd rfl hne
      | cons x k =>
          have h1 : parseLine .init x = some (front [x] none 3 .hiKludge []) := by
            unfold parseLine
            simp only [ParseState.init, hk x List.mem_cons_self, if_true]
            rfl
          obtain ⟨n, flag, h⟩ := parseLines_open (k := x :: k) hrs hrest ho
          refine ⟨n, flag, ?_⟩
          rw [Option.toList_none, List.nil_append, List.cons_append, parseLines, h1]
          exact (parseLines_kludges k [x] (fun y hy => hk y (List.mem_cons_of_mem _ hy))).trans h

/-! ## A body, parsed and written -/

/-- The lines `msg_put_msgbody` writes that have any bytes. -/
def MsgBody.emitted (m : MsgBody) : List Str := m.lines.filter (· != [])

theorem flatten_filter_ne_nil : ∀ ls : List Str, (ls.filter (· != [])).flatten = ls.flatten
  | [] => rfl
  | [] :: ls => flatten_filter_ne_nil ls
  | (c :: s) :: ls => by
      have ih := flatten_filter_ne_nil ls
      simp [ih]

theorem msgPutMsgbody_eq (m : MsgBody) : msgPutMsgbody m = m.emitted.flatten ++ [nul] := by
  rw [MsgBody.emitted, flatten_filter_ne_nil]
  rfl

namespace Stages

variable {ls : List Str} (s : Stages ls)

/-- The parser in front of the rest. -/
def start : ParseState := front s.kludge s.area s.blanksLeft s.flag s.rfc

/-- The body before the lines an echomail lacks are made up. -/
def found : MsgBody := (bodyRun s.area.isSome s.start s.rest).msg

/-- An echomail has at least one SEEN-BY and one PATH line in its rest. -/
def Complete : Prop := s.area.isSome = true → s.found.seenby ≠ [] ∧ s.found.path ≠ []

/-- Blank lines behind the first stage, and text behind a control line. -/
def dropped : List Str := s.blanks ++ lostLines s.area.isSome s.start s.rest

/-- The tear line of an echomail that has none. -/
def madeUp : List Str :=
  if s.area.isSome && s.found.tear.isNone then [lit "---" ++ [cr]] else []

/-- No origin line comes while a tear and an origin line wait. -/
def InTurn : Prop := overtakesAny s.area.isSome s.start s.rest = false

/-- `found` with the tear line an echomail has at last. -/
def written : MsgBody :=
  { s.found with
    tear := if s.area.isSome then some (s.found.tear.getD (lit "---" ++ [cr])) else s.found.tear }

theorem clean : Clean s.start := front_clean _ _ _ _ _

theorem found_front : s.found.area = s.area ∧ s.found.kludge = s.kludge ∧ s.found.rfc = s.rfc :=
  ⟨(bodyRun_front s.rest).area, (bodyRun_front s.rest).kludge, (bodyRun_front s.rest).rfc⟩

theorem kinds : Kinds s.area.isSome s.found := bodyRun_kinds s.clean s.rest

theorem isTearLine_made : isTearLine (lit "---" ++ [cr]) = true := by decide

theorem kinds_written : Kinds s.area.isSome s.written := by
  refine ⟨?_, s.kinds.origin, s.kinds.seenby, s.kinds.path, s.kinds.via, s.kinds.echo_via,
    s.kinds.net_path⟩
  intro l hl
  have htear := s.kinds.tear
  simp only [written] at hl
  split at hl
  · cases ht : s.found.tear with
    | none =>
        rw [ht] at hl
        exact Option.some.inj hl ▸ isTearLine_made
    | some t =>
        rw [ht] at hl
        exact Option.some.inj hl ▸ htear t ht
  · exact htear l hl

theorem lines_written : s.written.lines =
    s.area.toList ++ s.kludge ++ (s.rfc ++ s.written.rest) := by
  obtain ⟨h1, h2, h3⟩ := s.found_front
  simp [MsgBody.lines, MsgBody.rest, written, h1, h2, h3]

/-- Every line is written once, or it is dropped. -/
theorem perm_written : (s.written.lines ++ s.dropped).Perm (ls ++ s.madeUp) := by
  have hrest : ((bodyRun s.area.isSome s.start s.rest).msg.rest ++
      lostLines s.area.isSome s.start s.rest).Perm s.rest :=
    bodyRun_perm s.clean s.rest
  have hmade : s.written.rest.Perm (s.found.rest ++ s.madeUp) := by
    rw [List.perm_iff_count]
    intro x
    simp only [MsgBody.rest, written, madeUp, List.count_append]
    cases ha : s.area.isSome <;> cases ht : s.found.tear <;> simp; omega
  rw [s.lines_written, List.perm_iff_count]
  intro x
  have h1 := s.headed.perm.count_eq x
  have h2 := hrest.count_eq x
  have h3 := hmade.count_eq x
  have h4 := congrArg (List.count x) s.split
  simp only [dropped, found, List.count_append] at h1 h2 h3 h4 ⊢
  omega

/-- What the reader makes of `found` once the missing lines are there. -/
theorem missingLines_found (hc : s.Complete) (dst : Node) (b : Str) :
    missingLines dst (store b []) s.found =
      if s.area.isSome then
        { s.written with origin := some (s.found.origin.getD []) }
      else s.written := by
  have hb : cstr (store b []) = [] := cstr_store (by simp)
  rw [missingLines, s.found_front.1, hb]
  cases ha : s.area with
  | none => simp [written, ha]
  | some a =>
      obtain ⟨h1, h2⟩ := hc (by rw [ha]; rfl)
      have hfa : s.found.area = some a := s.found_front.1.trans ha
      simp [written, ha, hfa, h1, h2]

theorem missingLines_written (hc : s.Complete) (dst dst' : Node) (b b' : Str) :
    missingLines dst' (store b' []) s.written = missingLines dst (store b []) s.found := by
  have hb : cstr (store b' []) = [] := cstr_store (by simp)
  rw [s.missingLines_found hc, missingLines, hb]
  show (if s.found.area.isNone then _ else _) = _
  rw [s.found_front.1]
  cases ha : s.area with
  | none => simp
  | some a =>
      obtain ⟨h1, h2⟩ := hc (by rw [ha]; rfl)
      simp [written, ha, h1, h2]

theorem ne_nil_of_mem {body : Body} {x : Str} (hx : x ∈ body.texts) : x ≠ [] := by
  obtain ⟨l, -, rfl⟩ := List.mem_map.mp hx
  simp [BodyLine.bytes]

/-- The lines written are lines of the body or the tear line made up. -/
theorem mem_written {x : Str} (hx : x ∈ s.written.lines) : x ∈ ls ∨ x = lit "---" ++ [cr] := by
  have hmem := s.perm_written.subset (List.mem_append_left _ hx)
  rcases List.mem_append.mp hmem with h | h
  · exact .inl h
  · right
    unfold madeUp at h
    split at h
    · exact List.mem_singleton.mp h
    · cases h

theorem emitted_eq (hls : ∀ x ∈ ls, x ≠ []) (hc : s.Complete) (dst : Node) (b : Str) :
    (missingLines dst (store b []) s.found).emitted = s.written.lines := by
  have hne : ∀ x ∈ s.written.lines, (x != []) = true := by
    intro x hx
    rw [bne_iff_ne]
    rcases s.mem_written hx with h | h
    · exact hls x h
    · rw [h]
      decide
  have hfil : s.written.lines.filter (· != []) = s.written.lines := List.filter_eq_self.mpr hne
  rw [MsgBody.emitted, s.missingLines_found hc]
  cases ha : s.area with
  | none => simpa using hfil
  | some a =>
      cases ho : s.found.origin with
      | some o =>
          have hw : { s.written with origin := some o } = s.written := by
            simp [written, ho]
          simpa [hw] using hfil
      | none =>
          have hw : s.written.origin = none := ho
          simp only [Option.isSome_some, if_true, Option.getD_none]
          rw [← hfil]
          simp [MsgBody.lines, hw]

/-- The rest as it is written does not start with a RFC header line. -/
theorem head_written : ∀ x ∈ s.written.rest.head?, rfcMatches x = [] := by
  have hk := s.kinds_written
  intro x hx
  cases hb : s.written.body with
  | cons y ys =>
      have hy : ∀ x ∈ (bodyRun s.area.isSome s.start s.rest).msg.body.head?, rfcMatches x = [] :=
        bodyRun_head s.clean s.rest s.rest_head
      rw [MsgBody.rest, hb] at hx
      have he : (bodyRun s.area.isSome s.start s.rest).msg.body = y :: ys := hb
      rw [he] at hy
      exact hy x (by simpa using hx)
  | nil =>
      cases ht : s.written.tear with
      | some t =>
          rw [MsgBody.rest, hb, ht] at hx
          have hxt : t = x := by simpa using hx
          exact hxt ▸ rfcMatches_of_head (head_isTearLine (hk.tear t ht)) (by decide)
      | none =>
          have ha : s.area.isSome = false := by
            cases ha : s.area.isSome with
            | false => rfl
            | true => simp [written, ha] at ht
          obtain ⟨h1, h2⟩ := hk.net_path ha
          rw [MsgBody.rest, hb, ht, h1, h2] at hx
          cases ho : s.written.origin with
          | some o =>
              rw [ho] at hx
              have hxo : o = x := by simpa using hx
              exact hxo ▸ rfcMatches_of_head (head_isOriginLine (hk.origin o ho)) (by decide)
          | none =>
              rw [ho] at hx
              have hv : x ∈ s.written.via := List.mem_of_mem_head? (by simpa using hx)
              exact rfcMatches_of_head (head_isViaLine (hk.via x hv)) (by decide)

/-- Parsing what was written finds it again. -/
theorem parse_written (hi : s.InTurn) (ho : s.rfc = [] → OpensRest s.area s.written.rest) :
    ∃ st, parseLines .init s.written.lines = some st ∧ st.ret = OK ∧ st.msg = s.written := by
  have hne : s.area.toList ++ s.kludge ≠ [] := by
    intro e
    have hp := s.headed.perm
    rw [e] at hp
    exact s.head_ne (List.nil_perm.mp hp)
  obtain ⟨n, flag, h⟩ := parseLines_again hne s.headed.kludge s.headed.area s.rfc_rfc
    s.head_written ho
  have hd := front_clean s.kludge s.area n flag s.rfc
  refine ⟨_, by rw [s.lines_written]; exact h, (bodyRun_front _).ret, ?_⟩
  rw [bodyRun_rest hd s.kinds_written (bodyRun_replay s.clean hd s.rest hi)]
  obtain ⟨h1, h2, h3⟩ := s.found_front
  simp [written, front, h1, h2, h3]

end Stages

/-- A body parsed from its bytes. -/
theorem pktGetBodyParse_lines {t : LineType} (ht : t = .msgType ∨ t = .msgEnd) (dst : Node)
    (b rest : Str) {ls : List Str} (hg : ∀ x ∈ ls, GoodLine x) {st : ParseState}
    (hp : parseLines .init ls = some st) :
    ∃ b', pktGetBodyParse dst b (ls.flatten ++ nul :: endByte t :: nul :: rest) =
      ⟨st.ret, t, missingLines dst (store b' []) st.msg,
        missingBuf dst (store b' []) st.msg, rest⟩ := by
  obtain ⟨bs, rfl, hk, hh⟩ := exists_bodyLines hg
  have hlen : bs.length < ((bs.map BodyLine.bytes).flatten ++
      nul :: endByte t :: nul :: rest).length + 1 := by
    have : bs.length ≤ (bs.map BodyLine.bytes).flatten.length :=
      Body.length_le ⟨bs, fun l hl => hh l (List.mem_of_mem_tail hl)⟩
    rw [List.length_append]
    omega
  exact pktGetBodyParseLoop_lines ht dst rest bs _ .init st b hlen hk
    (fun l hl => hh l (List.mem_of_mem_tail hl)) hp

theorem goodLine_of_mem {body : Body} (hk : ∀ l ∈ body.lines, l.Kept)
    (hh : ∀ x ∈ body.texts.head?, isKludgeLine x = true ∨ isAreaLine x = true) {x : Str}
    (hx : x ∈ body.texts) : GoodLine x := by
  obtain ⟨l, hl, rfl⟩ := List.mem_map.mp hx
  refine ⟨l, rfl, hk l hl, ?_⟩
  have hsep := body.sep
  cases hb : body.lines with
  | nil => rw [hb] at hl; cases hl
  | cons l' ls =>
      rw [hb] at hl hsep
      rcases List.mem_cons.mp hl with rfl | hl
      · -- the first line starts with the byte of its class
        have hfirst := hh l.bytes (by rw [Body.texts, hb]; rfl)
        intro e
        have hhead : l.bytes.head? = some lf := by
          cases ht : l.text with
          | nil => rw [ht] at e; cases e
          | cons c t => rw [ht] at e; simpa [BodyLine.bytes, ht] using e
        rcases hfirst with h | h
        · rw [isKludgeLine, hhead] at h
          exact absurd h (by decide)
        · rw [head_isAreaLine h] at hhead
          exact absurd hhead (by decide)
      · exact hsep l hl

theorem goodLine_made : GoodLine (lit "---" ++ [cr]) :=
  ⟨⟨lit "---", 0, by decide, by decide⟩, rfl, by decide, by decide⟩

/-- A body that starts with a kludge or an AREA line, parsed and written: each
line is written once, apart from up to two blank lines behind the first stage
and text behind a control line; the lines of each kind keep their order; and
what is written is parsed into the same parts again. -/
theorem msgPutMsgbody_pktGetBodyParse {body : Body} (hk : ∀ l ∈ body.lines, l.Kept)
    (hne : body.lines ≠ [])
    (hh : ∀ x ∈ body.texts.head?, isKludgeLine x = true ∨ isAreaLine x = true)
    {t : LineType} (ht : t = .msgType ∨ t = .msgEnd) (dst : Node) (b rest : Str) :
    ∃ (s : Stages body.texts) (m : MsgBody) (b' : Str),
      pktGetBodyParse dst b (body.texts.flatten ++ nul :: endByte t :: nul :: rest) =
        ⟨OK, t, m, b', rest⟩ ∧
      (s.Complete →
        msgPutMsgbody m = m.emitted.flatten ++ [nul] ∧
        (m.emitted ++ s.dropped).Perm (body.texts ++ s.madeUp) ∧
        (m.kludge <+ body.texts ∧ m.rfc <+ body.texts ∧
          m.body.filter (! isOriginLine ·) <+ body.texts ∧
          m.seenby <+ body.texts ∧ m.path <+ body.texts ∧ m.via <+ body.texts) ∧
        (s.InTurn → (s.rfc = [] → OpensRest s.area s.written.rest) →
          ∀ (t' : LineType), t' = .msgType ∨ t' = .msgEnd → ∀ (dst' : Node) (d rest' : Str),
          ∃ d', pktGetBodyParse dst' d (msgPutMsgbody m ++ endByte t' :: nul :: rest') =
            ⟨OK, t', m, d', rest'⟩)) := by
  have hgood : ∀ x ∈ body.texts, GoodLine x := fun x hx => goodLine_of_mem hk hh hx
  obtain ⟨s⟩ : Nonempty (Stages body.texts) := by
    cases hb : body.texts with
    | nil => exact absurd (List.map_eq_nil_iff.mp hb) hne
    | cons l ls => exact parseLines_stages (hh l (by rw [hb]; rfl))
  obtain ⟨b', hget⟩ := pktGetBodyParse_lines ht dst b rest hgood s.parse
  have hret : (bodyRun s.area.isSome s.start s.rest).ret = OK := (bodyRun_front s.rest).ret
  rw [show (front s.kludge s.area s.blanksLeft s.flag s.rfc) = s.start from rfl, hret] at hget
  refine ⟨s, _, _, hget, fun hc => ?_⟩
  have hne' : ∀ x ∈ body.texts, x ≠ [] := fun x hx => Stages.ne_nil_of_mem hx
  have hem := s.emitted_eq hne' hc dst b'
  refine ⟨msgPutMsgbody_eq _, ?_, ?_, ?_⟩
  · show ((missingLines dst (store b' []) s.found).emitted ++ s.dropped).Perm _
    rw [hem]
    exact s.perm_written
  · have hord : InOrder s.found s.rest := bodyRun_inOrder s.clean s.rest
    have hrest : s.rest <+ body.texts := by
      conv => rhs; rw [s.split]
      exact List.sublist_append_right _ _
    have hkl : s.kludge <+ body.texts := by
      conv => rhs; rw [s.split, List.append_assoc, List.append_assoc]
      exact s.headed.order.trans (List.sublist_append_left _ _)
    have hrfc : s.rfc <+ body.texts := by
      conv => rhs; rw [s.split, List.append_assoc]
      exact (List.sublist_append_left _ _).trans (List.sublist_append_right _ _)
    have hbody : s.found.body.filter (! isOriginLine ·) <+ body.texts := by
      have h := hord.body
      rw [List.filter_append] at h
      exact ((List.sublist_append_left _ _).trans h).trans hrest
    have hm : ∀ m : MsgBody, m = missingLines dst (store b' []) s.found →
        m.kludge = s.kludge ∧ m.rfc = s.rfc ∧ m.body = s.found.body ∧
        m.seenby = s.found.seenby ∧ m.path = s.found.path ∧ m.via = s.found.via := by
      rintro m rfl
      rw [s.missingLines_found hc]
      obtain ⟨-, h2, h3⟩ := s.found_front
      split
      · exact ⟨h2, h3, rfl, rfl, rfl, rfl⟩
      · exact ⟨h2, h3, rfl, rfl, rfl, rfl⟩
    obtain ⟨e1, e2, e3, e4, e5, e6⟩ := hm _ rfl
    show (missingLines dst (store b' []) s.found).kludge <+ _ ∧ _
    rw [e1]
    refine ⟨hkl, ?_, ?_, ?_, ?_, ?_⟩
    · exact e2.symm ▸ hrfc
    · exact e3.symm ▸ hbody
    · exact e4.symm ▸ hord.seenby.trans hrest
    · exact e5.symm ▸ hord.path.trans hrest
    · exact e6.symm ▸ hord.via.trans hrest
  · intro hi ho t' ht' dst' d rest'
    obtain ⟨st, hp, hr, hmsg⟩ := s.parse_written hi ho
    have hgood' : ∀ x ∈ s.written.lines, GoodLine x := by
      intro x hx
      rcases s.mem_written hx with h | h
      · exact hgood x h
      · rw [h]
        exact goodLine_made
    obtain ⟨d', hd⟩ := pktGetBodyParse_lines ht' dst' d rest' hgood' hp
    refine ⟨missingBuf dst' (store d' []) st.msg, ?_⟩
    show pktGetBodyParse dst' d (msgPutMsgbody (missingLines dst (store b' []) s.found) ++ _) = _
    rw [msgPutMsgbody_eq, hem, List.append_assoc, List.singleton_append, hd, hr, hmsg,
      s.missingLines_written hc dst dst' b' d']
    rfl

/-- A netmail with a kludge, a blank line, a text line and a Via line. -/
def blankBody : Body :=
  ⟨[⟨[soh] ++ lit "PID: x", 0, by decide, by decide⟩, ⟨[], 0, by decide, by decide⟩,
    ⟨lit "text", 0, by decide, by decide⟩, ⟨[soh] ++ lit "Via 2:2/2", 0, by decide, by decide⟩],
    by decide⟩

theorem pktGetBodyParse_blankBody :
    ∃ (s : Stages blankBody.texts) (m : MsgBody) (b' : Str),
      pktGetBodyParse nodeClear [] (blankBody.texts.flatten ++ [nul, endByte .msgEnd, nul]) =
        ⟨OK, .msgEnd, m, b', []⟩ ∧
      (s.Complete →
        msgPutMsgbody m = m.emitted.flatten ++ [nul] ∧
        (m.emitted ++ s.dropped).Perm (blankBody.texts ++ s.madeUp) ∧
        (m.kludge <+ blankBody.texts ∧ m.rfc <+ blankBody.texts ∧
          m.body.filter (! isOriginLine ·) <+ blankBody.texts ∧
          m.seenby <+ blankBody.texts ∧ m.path <+ blankBody.texts ∧
          m.via <+ blankBody.texts) ∧
        (s.InTurn → (s.rfc = [] → OpensRest s.area s.written.rest) →
          ∀ (t' : LineType), t' = .msgType ∨ t' = .msgEnd → ∀ (dst' : Node) (d rest' : Str),
          ∃ d', pktGetBodyParse dst' d (msgPutMsgbody m ++ endByte t' :: nul :: rest') =
            ⟨OK, t', m, d', rest'⟩)) :=
  msgPutMsgbody_pktGetBodyParse (by decide +kernel) (by decide +kernel) (by decide +kernel)
    (Or.inr rfl) nodeClear [] []

/-- The blank line behind the kludge is not written. -/
theorem pktGetBodyParse_blank_lost :
    ¬ ∀ (body : Body) (dst : Node) (b : Str),
      (∀ l ∈ body.lines, l.Kept) → body.lines ≠ [] →
      (∀ x ∈ body.texts.head?, isKludgeLine x = true ∨ isAreaLine x = true) →
      ∀ x ∈ body.texts,
        (pktGetBodyParse dst b
          (body.texts.flatten ++ [nul, endByte .msgEnd, nul])).msg.emitted.count x =
            body.texts.count x := by
  intro h
  have h := h blankBody nodeClear [] (by decide +kernel) (by decide +kernel) (by decide +kernel)
    [cr] (by decide +kernel)
  revert h
  decide +kernel

end Fidogate

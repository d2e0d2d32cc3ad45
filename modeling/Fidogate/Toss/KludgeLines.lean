/-
# `Fidogate.Toss.KludgeLines` — SEEN-BY and PATH lines are read back

`lon_to_kludge` writes each node against the one before it, and starts a new
line with a full address.  What `kludge_to_lon` reads from the lines is the
list of the nodes that were printed (`kludgeToLon_printed`): a repeat of a
neighbour is printed as nothing.  A boss right behind one of its points is
printed as nothing, too, and lost (`Behind`), unless the line is full.
-/
import Fidogate.Common.NodeText
import Fidogate.Lib.Repeats
import Fidogate.Toss.Echomail

namespace Fidogate

open Bytes

/-! ## The words of a line -/

/-- Words with a blank in front of each, some of them empty. -/
def segment (ss : List Str) : Str := ss.flatMap (sp :: ·)

theorem segment_cons (s : Str) (ss : List Str) : segment (s :: ss) = sp :: (s ++ segment ss) := rfl

theorem segment_concat (ss : List Str) (s : Str) :
    segment (ss ++ [s]) = segment ss ++ (lit " " ++ s) := by
  rw [segment, List.flatMap_append, List.flatMap_singleton]
  rfl

theorem isWord_of_not_space {s : Str} (h : s ≠ []) (hs : ∀ c ∈ s, isSpace c = false) :
    IsWord false blanks s :=
  ⟨h, fun c hc => isDelim_blanks (hs c hc), fun h => by cases h⟩

theorem words_segment : ∀ {ss : List Str}, (∀ s ∈ ss, ∀ c ∈ s, isSpace c = false) →
    words false blanks (segment ss) = ss.filter (· ≠ [])
  | [], _ => rfl
  | s :: ss, h => by
      have ih := @words_segment ss fun s hs => h s (List.mem_cons_of_mem _ hs)
      rw [segment_cons, words_cons (by decide)]
      by_cases hs : s = []
      · rw [hs, List.nil_append, ih]
        rfl
      · have hw := isWord_of_not_space hs (h s List.mem_cons_self)
        rw [List.filter_cons_of_pos (by simpa using hs), ← ih]
        cases ss with
        | nil =>
            rw [show segment [] = [] from rfl, List.append_nil, words_word hw]
            rfl
        | cons t ss =>
            rw [segment_cons, words_append hw (by decide), words_cons (by decide)]

theorem stripCrlf_crlf (s : Str) : stripCrlf (s ++ crlf) = s := by
  have h1 : (s ++ crlf).getLast? = some lf := by simp [crlf]
  have h2 : (s ++ crlf).dropLast = s ++ [cr] := by
    rw [crlf, show s ++ [cr, lf] = (s ++ [cr]) ++ [lf] by simp, List.dropLast_concat]
  unfold stripCrlf
  rw [if_pos h1, h2]
  simp

theorem dropWhile_isSpace_of {s t : Str} (h : s ≠ []) (hs : ∀ c ∈ s, isSpace c = false) :
    (s ++ t).dropWhile isSpace = s ++ t := by
  cases s with
  | nil => exact absurd rfl h
  | cons c s =>
      exact List.dropWhile_cons_of_neg (by rw [hs c List.mem_cons_self]; decide)

/-- The keyword of a line: it ends with its first colon. -/
def IsKeyword (text : Str) : Prop :=
  ∃ kw, text = kw ++ [58] ∧ ∀ c ∈ kw, isSpace c = false ∧ c ≠ 58

theorem kludgeArgs_text {text : Str} (ht : IsKeyword text) (s : Str) :
    kludgeArgs (text ++ s) = stripCrlf (bufCopy BUFFERSIZE (s.dropWhile isSpace)) := by
  obtain ⟨kw, rfl, hkw⟩ := ht
  have hp : ∀ c ∈ kw, (! isSpace c && c != 58) = true := by
    intro c hc
    obtain ⟨h1, h2⟩ := hkw c hc
    rw [h1, Bool.not_false, Bool.true_and]
    exact bne_iff_ne.mpr h2
  unfold kludgeArgs
  rw [List.append_assoc, List.dropWhile_append_of_pos hp, List.singleton_append,
    List.dropWhile_cons_of_neg (by decide)]
  rfl

/-- The words of a line are those that were put on it. -/
theorem strtok_kludgeArgs {text : Str} (ht : IsKeyword text) {ss : List Str}
    (hs : ∀ s ∈ ss, ∀ c ∈ s, isSpace c = false) (hh : ∀ s ∈ ss.head?, s ≠ [])
    (hl : (segment ss).length < 30000) :
    strtok blanks (kludgeArgs (text ++ segment ss ++ crlf)) = ss.filter (· ≠ []) := by
  rw [List.append_assoc, kludgeArgs_text ht]
  cases ss with
  | nil => rfl
  | cons s ss =>
      have hne : s ≠ [] := hh s rfl
      rw [segment_cons, List.cons_append, List.dropWhile_cons_of_pos (by decide),
        List.append_assoc, dropWhile_isSpace_of hne (hs s List.mem_cons_self), bufCopy,
        List.take_of_length_le, ← List.append_assoc, stripCrlf_crlf]
      · show words false blanks (s ++ segment ss) = _
        rw [← words_segment hs, segment_cons, words_cons (by decide)]
      · rw [segment_cons, List.length_cons, List.length_append] at hl
        simp only [List.length_append, crlf, List.length_cons, List.length_nil, BUFFERSIZE]
        omega

/-! ## The nodes of a line -/

theorem ascToNodes_append : ∀ (old : Node) (xs ys : List Str), ascToNodes old (xs ++ ys) =
    ascToNodes old xs ++ ascToNodes ((ascToNodes old xs).getLast?.getD old) ys
  | _, [], _ => rfl
  | old, x :: xs, ys => by
      rw [List.cons_append, ascToNodes, ascToNodes]
      cases ascToNodeDiff x old with
      | none => exact ascToNodes_append old xs ys
      | some n =>
          dsimp only
          rw [ascToNodes_append n xs ys, List.getLast?_cons, List.cons_append]
          rfl

/-- The nodes on the line in the buffer. -/
def lineNodes (zone : Int) (ss : List Str) : List Node :=
  ascToNodes (nodeOld zone) (ss.filter (· ≠ []))

theorem lineNodes_nil_concat (zone : Int) (ss : List Str) :
    lineNodes zone (ss ++ [[]]) = lineNodes zone ss := by
  simp [lineNodes]

theorem lineNodes_concat {zone : Int} {ss : List Str} {s : Str} {n : Node} (hs : s ≠ [])
    (h : ascToNodeDiff s ((lineNodes zone ss).getLast?.getD (nodeOld zone)) = some n) :
    lineNodes zone (ss ++ [s]) = lineNodes zone ss ++ [n] := by
  unfold lineNodes at h ⊢
  rw [List.filter_append, ascToNodes_append, List.filter_cons_of_pos (by simpa using hs),
    List.filter_nil, ascToNodes, h]
  rfl

theorem kludgeToLon_append (zone : Int) (ls ls' : List Str) :
    kludgeToLon zone (ls ++ ls') = kludgeToLon zone ls ++ kludgeToLon zone ls' :=
  List.flatMap_append

/-! ## The lines as they grow -/

/-- A boss behind one of its points. -/
def Behind (old n : Node) : Prop :=
  n.point = 0 ∧ old.point ≠ 0 ∧ n.net = old.net ∧ n.node = old.node

instance (old n : Node) : Decidable (Behind old n) :=
  inferInstanceAs (Decidable (_ ∧ _ ∧ _ ∧ _))

/-- A node is printed as something, or on a new line. -/
def kludgePrinted (zone : Int) (b : KludgeBuf) (n : Node) : Bool :=
  nodeToAscDiff { n with zone := zone } b.old != [] || MAX_LENGTH < b.buf.length + 1

/-- The nodes of a list as they are read, and whether each is printed. -/
def kludgeRead (zone : Int) (text : Str) : KludgeBuf → List Node → List (Node × Bool)
  | _, [] => []
  | b, n :: ns =>
      (n.plain zone, kludgePrinted zone b n) :: kludgeRead zone text (kludgeStep zone text b n) ns

/-- The lines so far hold the nodes printed so far; `ss` are the words in the
buffer. -/
structure Written (zone : Int) (text : Str) (b : KludgeBuf) (ss : List Str) (done : List Node) :
    Prop where
  buf : b.buf = text ++ segment ss
  plain : ∀ s ∈ ss, ∀ c ∈ s, isSpace c = false
  head : ∀ s ∈ ss.head?, s ≠ []
  length : b.buf.length ≤ text.length + MAX_LENGTH
  old : b.old.zone = zone
  last : nodeNpEq ((lineNodes zone ss).getLast?.getD (nodeOld zone)) b.old = true
  read : kludgeToLon zone b.lines ++ lineNodes zone ss = done

theorem written_start (zone : Int) (text : Str) :
    Written zone text ⟨[], text, nodeOld zone⟩ [] [] :=
  { buf := (List.append_nil text).symm
    plain := fun _ h => by cases h
    head := fun _ h => by cases h
    length := Nat.le_add_right _ _
    old := rfl
    last := by simp [lineNodes, ascToNodes, nodeNpEq]
    read := rfl }

section

variable {zone : Int} {text : Str} {b : KludgeBuf} {ss : List Str} {done : List Node} {n : Node}

/-- A finished line is read back. -/
theorem kludgeToLon_line (ht : IsKeyword text)
    (h : Written zone text b ss done) :
    kludgeToLon zone [b.buf ++ crlf] = lineNodes zone ss := by
  have hlen := h.length
  rw [h.buf, List.length_append, MAX_LENGTH] at hlen
  rw [h.buf]
  show (ascToNodes (nodeOld zone)
    (strtok blanks (kludgeArgs (text ++ segment ss ++ crlf)))) ++ [] = _
  rw [strtok_kludgeArgs ht h.plain h.head (by omega), List.append_nil]
  rfl

/-- A word more on the line. -/
theorem written_word (h : Written zone text b ss done) (hn : n.IsAddr) (hz : n.zone = zone)
    (hzone : 0 ≤ zone) (hs : nodeToAscDiff n b.old ≠ [])
    (hl : b.buf.length + (nodeToAscDiff n b.old).length + 1 ≤ text.length + MAX_LENGTH) :
    Written zone text ⟨b.lines, b.buf ++ lit " " ++ nodeToAscDiff n b.old, n⟩
      (ss ++ [nodeToAscDiff n b.old]) (done ++ [n.plain zone]) := by
  have hzo : n.zone = b.old.zone := hz.trans h.old.symm
  have hlast : nodeNpEq ((lineNodes zone ss).getLast?.getD (nodeOld zone)) (b.old.plain zone) =
      true := by
    have hlast := h.last
    simp only [nodeNpEq, Bool.and_eq_true, beq_iff_eq] at hlast ⊢
    exact ⟨⟨hlast.1.1.trans h.old, hlast.1.2⟩, hlast.2⟩
  have hread : ascToNodeDiff (nodeToAscDiff n b.old)
      ((lineNodes zone ss).getLast?.getD (nodeOld zone)) = some (n.plain zone) := by
    rw [ascToNodeDiff_congr hlast, ← hz]
    exact ascToNodeDiff_nodeToAscDiff hn hzo (hz ▸ hzone) hs
  have hline := lineNodes_concat hs hread
  refine ⟨?_, ?_, ?_, ?_, hz, ?_, ?_⟩
  · rw [h.buf, segment_concat, List.append_assoc, List.append_assoc]
  · intro s hmem
    rcases List.mem_append.mp hmem with hmem | hmem
    · exact h.plain s hmem
    · rw [List.mem_singleton.mp hmem]
      exact not_space_nodeToAscDiff hn hzo
  · intro s hmem
    cases ss with
    | nil =>
        cases hmem
        exact hs
    | cons t ss => exact h.head s hmem
  · simp only [List.length_append, lit]
    simpa using (by omega : b.buf.length + 1 + (nodeToAscDiff n b.old).length ≤
      text.length + MAX_LENGTH)
  · rw [hline, List.getLast?_concat]
    simp [nodeNpEq, Node.plain, hz]
  · rw [hline, ← List.append_assoc, h.read]

/-- A node that is printed as nothing. -/
theorem written_nothing (h : Written zone text b ss done) (hn : n.IsAddr) (hz : n.zone = zone)
    (hs : nodeToAscDiff n b.old = [])
    (hl : b.buf.length + 1 ≤ text.length + MAX_LENGTH) :
    Written zone text ⟨b.lines, b.buf ++ lit " " ++ [], n⟩ (ss ++ [[]]) done := by
  obtain ⟨h1, h2, h3⟩ := nodeToAscDiff_eq_nil (hz.trans h.old.symm) hs
  refine ⟨?_, ?_, ?_, ?_, hz, ?_, ?_⟩
  · rw [h.buf, segment_concat, List.append_assoc, List.append_assoc]
  · intro s hmem
    rcases List.mem_append.mp hmem with hmem | hmem
    · exact h.plain s hmem
    · rw [List.mem_singleton.mp hmem]
      intro c hc
      cases hc
  · intro s hmem
    cases ss with
    | nil =>
        -- before the first node of a line there is no net
        have hlast := h.last
        simp only [nodeNpEq, Bool.and_eq_true, beq_iff_eq] at hlast
        have hnet : (-1 : Int) = b.old.net := hlast.1.2
        have := hn.net
        omega
    | cons t ss => exact h.head s hmem
  · simpa [lit] using hl
  · have hlast := h.last
    rw [lineNodes_nil_concat]
    simp only [nodeNpEq, Bool.and_eq_true, beq_iff_eq] at hlast ⊢
    rw [hz, h1, h2]
    exact ⟨⟨hlast.1.1.trans h.old, hlast.1.2⟩, hlast.2⟩
  · rw [lineNodes_nil_concat, h.read]

/-- The line is full: the node goes to a new one. -/
theorem written_break (ht : IsKeyword text)
    (h : Written zone text b ss done) (hn : n.IsAddr) (hz : n.zone = zone) (hzone : 0 ≤ zone) :
    Written zone text
      ⟨b.lines ++ [b.buf ++ crlf], text ++ lit " " ++ nodeToAscDiff n (nodeOld zone), n⟩
      [nodeToAscDiff n (nodeOld zone)] (done ++ [n.plain zone]) := by
  have hfresh : Written zone text ⟨b.lines ++ [b.buf ++ crlf], text, nodeOld zone⟩ [] done :=
    { written_start zone text with
      read := by
        show kludgeToLon zone (b.lines ++ [b.buf ++ crlf]) ++ [] = _
        rw [List.append_nil, kludgeToLon_append, kludgeToLon_line ht h]
        exact h.read }
  have hlen := @length_nodeToAscDiff n (nodeOld zone) hn hz
  refine written_word hfresh hn hz hzone ?_ ?_
  · intro hnil
    have := (@nodeToAscDiff_eq_nil n (nodeOld zone) hz hnil).1
    have := hn.net
    simp only [nodeOld] at *
    omega
  · simp only [MAX_LENGTH]
    omega

theorem written_step (ht : IsKeyword text)
    (h : Written zone text b ss done) (hn : n.IsAddr) (hzone : 0 ≤ zone) :
    ∃ ss', Written zone text (kludgeStep zone text b n) ss'
      (done ++ Repeats.kept [(n.plain zone, kludgePrinted zone b n)]) := by
  have hn' : Node.IsAddr { n with zone := zone } :=
    ⟨hn.net, hn.node, hn.point, hn.net_int, hn.node_int, hn.point_int⟩
  have hkept : kludgePrinted zone b n = true →
      Repeats.kept [(n.plain zone, kludgePrinted zone b n)] = [n.plain zone] := by
    intro h
    rw [h]
    rfl
  unfold kludgeStep
  dsimp only
  split
  · next hfull =>
      have hp : kludgePrinted zone b n = true := by
        unfold kludgePrinted
        rw [Bool.or_eq_true, bne_iff_ne, decide_eq_true_eq]
        rcases eq_or_ne (nodeToAscDiff { n with zone := zone } b.old) [] with hs | hs
        · rw [hs] at hfull
          exact Or.inr (by simpa using hfull)
        · exact Or.inl hs
      rw [hkept hp]
      exact ⟨_, written_break ht h hn' rfl hzone⟩
  · next hfit =>
      by_cases hs : nodeToAscDiff { n with zone := zone } b.old = []
      · have hp : kludgePrinted zone b n = false := by
          unfold kludgePrinted
          rw [hs] at hfit ⊢
          simpa using hfit
        rw [hs] at hfit ⊢
        have hnone : done ++ Repeats.kept [(n.plain zone, false)] = done := List.append_nil done
        rw [hp, hnone]
        refine ⟨ss ++ [[]], ?_⟩
        exact written_nothing h hn' rfl hs (by simp at hfit; omega)
      · have hp : kludgePrinted zone b n = true := by
          unfold kludgePrinted
          rw [Bool.or_eq_true, bne_iff_ne]
          exact Or.inl hs
        rw [hkept hp]
        exact ⟨_, written_word h hn' rfl hzone hs (by omega)⟩

/-- All nodes of a list. -/
theorem written_foldl (ht : IsKeyword text) (hzone : 0 ≤ zone) : ∀ {ns : List Node}
    {b : KludgeBuf} {ss : List Str} {done : List Node}, Written zone text b ss done →
    (∀ n ∈ ns, n.IsAddr) →
    ∃ ss', Written zone text (ns.foldl (kludgeStep zone text) b) ss'
      (done ++ Repeats.kept (kludgeRead zone text b ns))
  | [], _, ss, _, h, _ => ⟨ss, by rw [kludgeRead, Repeats.kept_nil, List.append_nil]; exact h⟩
  | n :: ns, b, ss, done, h, hns => by
      obtain ⟨ss', h'⟩ := written_step ht h (hns n List.mem_cons_self) hzone
      have ih := written_foldl ht hzone h' (fun m hm => hns m (List.mem_cons_of_mem _ hm))
      rw [List.append_assoc, ← Repeats.kept_append] at ih
      exact ih

end

/-- What is read from the lines are the nodes that are printed on them. -/
theorem kludgeToLon_printed {zone : Int} {d4 : Bool} {text : Str} {lon : List Node}
    (ht : IsKeyword text) (hzone : 0 ≤ zone) (hns : ∀ n ∈ lon, n.IsAddr) :
    kludgeToLon zone (lonToKludge zone d4 text lon).1 =
      Repeats.kept (kludgeRead zone text ⟨[], text, nodeOld zone⟩ (kludgeNodes d4 lon)) := by
  have hns : ∀ n ∈ kludgeNodes d4 lon, n.IsAddr := fun n hn => hns n (List.mem_of_mem_filter hn)
  obtain ⟨ss, h⟩ := written_foldl ht hzone (written_start zone text) hns
  unfold lonToKludge
  dsimp only
  rw [kludgeToLon_append, kludgeToLon_line ht h]
  exact h.read

/-- No boss stands behind one of its points. -/
def NoneBehind (ns : List Node) : Prop := ns.IsChain fun a n => ¬ Behind a n

instance (ns : List Node) : Decidable (NoneBehind ns) :=
  inferInstanceAs (Decidable (ns.IsChain fun a n => ¬ Behind a n))

/-- Without EchoMail4D there are no points on the line. -/
theorem noneBehind_kludgeNodes (lon : List Node) : NoneBehind (kludgeNodes false lon) := by
  have hp : ∀ n ∈ kludgeNodes false lon, n.point = 0 := by
    intro n hn
    have h := (List.mem_filter.mp hn).2
    simpa using h
  refine List.Pairwise.isChain (List.pairwise_of_forall_mem_list ?_)
  intro a ha n hn hb
  exact hb.2.1 (hp a ha)

theorem map_fst_kludgeRead (zone : Int) (text : Str) : ∀ (b : KludgeBuf) (ns : List Node),
    (kludgeRead zone text b ns).map Prod.fst = ns.map (Node.plain zone)
  | _, [] => rfl
  | b, n :: ns => by
      rw [kludgeRead, List.map_cons, List.map_cons, map_fst_kludgeRead]

theorem kludgeStep_old (zone : Int) (text : Str) (b : KludgeBuf) (n : Node) :
    (kludgeStep zone text b n).old = { n with zone := zone } := by
  unfold kludgeStep
  dsimp only
  split <;> rfl

/-- The first node of the lines is printed. -/
theorem kludgePrinted_start {zone : Int} {text : Str} {n : Node} (hn : n.IsAddr) :
    kludgePrinted zone ⟨[], text, nodeOld zone⟩ n = true := by
  unfold kludgePrinted
  rw [Bool.or_eq_true, bne_iff_ne]
  left
  intro hnil
  have hnet : n.net = -1 := (@nodeToAscDiff_eq_nil { n with zone := zone } (nodeOld zone) rfl hnil).1
  have := hn.net
  omega

/-- A node that is no boss behind a point is printed or repeats the one before
it. -/
theorem runsKept_kludgeRead {zone : Int} (text : Str) : ∀ {ns : List Node} {b : KludgeBuf}
    {a : Node}, b.old = { a with zone := zone } → (a :: ns).IsChain (fun a n => ¬ Behind a n) →
    Repeats.runsKept (a.plain zone) true (kludgeRead zone text b ns) = true
  | [], _, _, _, _ => rfl
  | n :: ns, b, a, hold, hc => by
      obtain ⟨hb, hc⟩ := List.isChain_cons_cons.mp hc
      have ih := runsKept_kludgeRead text (kludgeStep_old zone text b n) hc
      rw [kludgeRead, Repeats.runsKept]
      split
      · next h =>
          rw [Bool.true_or, ← h]
          exact ih
      · next h =>
          have hp : kludgePrinted zone b n = true := by
            unfold kludgePrinted
            rw [Bool.or_eq_true, bne_iff_ne]
            left
            intro hnil
            have hz : ({ n with zone := zone } : Node).zone = b.old.zone := by rw [hold]
            obtain ⟨h1, h2, h3⟩ := nodeToAscDiff_eq_nil hz hnil
            rw [hold] at h1 h2
            refine hb ⟨h3, fun hp => h ?_, h1, h2⟩
            unfold Node.plain
            rw [show n.net = a.net from h1, show n.node = a.node from h2,
              show n.point = 0 from h3, hp]
          rw [hp]
          exact ih

/-- Of each run of the same node in the list one is printed. -/
def runsPrinted (zone : Int) (text : Str) (ns : List Node) : Bool :=
  match kludgeRead zone text ⟨[], text, nodeOld zone⟩ ns with
  | [] => true
  | (n, k) :: l => Repeats.runsKept n k l

theorem runsPrinted_of_noneBehind {zone : Int} {text : Str} {ns : List Node}
    (hns : ∀ n ∈ ns, n.IsAddr) (hb : NoneBehind ns) : runsPrinted zone text ns = true := by
  cases ns with
  | nil => rfl
  | cons n ns =>
      rw [runsPrinted, kludgeRead, kludgePrinted_start (hns n List.mem_cons_self)]
      exact runsKept_kludgeRead text (kludgeStep_old zone text _ n) hb

/-- The list is read from its lines, but for repeats, just where each run is
printed. -/
theorem kludgeToLon_lonToKludge_iff {zone : Int} {d4 : Bool} {text : Str} {lon : List Node}
    (ht : IsKeyword text) (hzone : 0 ≤ zone) (hns : ∀ n ∈ lon, n.IsAddr) :
    (kludgeToLon zone (lonToKludge zone d4 text lon).1).destutter (· ≠ ·) =
      ((kludgeNodes d4 lon).map (Node.plain zone)).destutter (· ≠ ·) ↔
    runsPrinted zone text (kludgeNodes d4 lon) = true := by
  rw [kludgeToLon_printed ht hzone hns, runsPrinted]
  cases kludgeNodes d4 lon with
  | nil => exact ⟨fun _ => rfl, fun _ => rfl⟩
  | cons n ns =>
      rw [kludgeRead, List.map_cons,
        ← map_fst_kludgeRead zone text (kludgeStep zone text ⟨[], text, nodeOld zone⟩ n) ns]
      exact Repeats.destutter_kept_iff _ _ _

theorem kludgeToLon_lonToKludge {zone : Int} {d4 : Bool} {text : Str} {lon : List Node}
    (ht : IsKeyword text) (hzone : 0 ≤ zone) (hns : ∀ n ∈ lon, n.IsAddr)
    (hb : NoneBehind (kludgeNodes d4 lon)) :
    (kludgeToLon zone (lonToKludge zone d4 text lon).1).destutter (· ≠ ·) =
      ((kludgeNodes d4 lon).map (Node.plain zone)).destutter (· ≠ ·) :=
  (kludgeToLon_lonToKludge_iff ht hzone hns).mpr
    (runsPrinted_of_noneBehind (fun n hn => hns n (List.mem_of_mem_filter hn)) hb)

/-! ## The length of a line -/

/-- The lines so far and the buffer keep to the limit. -/
structure KludgeBuf.Short (b : KludgeBuf) : Prop where
  lines : ∀ l ∈ b.lines, l.length ≤ MAX_LENGTH + crlf.length
  buf : b.buf.length ≤ MAX_LENGTH

theorem kludgeStep_short {zone : Int} {text : Str} (ht : text.length + 33 ≤ MAX_LENGTH)
    {b : KludgeBuf} (hb : b.Short) {n : Node} (hn : n.IsAddr) :
    (kludgeStep zone text b n).Short := by
  have hn' : Node.IsAddr { n with zone := zone } :=
    ⟨hn.net, hn.node, hn.point, hn.net_int, hn.node_int, hn.point_int⟩
  have hlen := @length_nodeToAscDiff { n with zone := zone } (nodeOld zone) hn' rfl
  unfold kludgeStep
  dsimp only
  split
  · refine ⟨?_, ?_⟩
    · intro l hl
      rcases List.mem_append.mp hl with hl | hl
      · exact hb.lines l hl
      · rw [List.mem_singleton.mp hl, List.length_append]
        exact Nat.add_le_add_right hb.buf _
    · simp only [List.length_append, lit]
      simpa using (by omega : text.length + 1 +
        (nodeToAscDiff { n with zone := zone } (nodeOld zone)).length ≤ MAX_LENGTH)
  · next hfit =>
      refine ⟨hb.lines, ?_⟩
      simp only [List.length_append, lit]
      simpa using (by omega : b.buf.length + 1 +
        (nodeToAscDiff { n with zone := zone } b.old).length ≤ MAX_LENGTH)

theorem length_lonToKludge {zone : Int} {d4 : Bool} {text : Str} {lon : List Node}
    (ht : text.length + 33 ≤ MAX_LENGTH) (hns : ∀ n ∈ lon, n.IsAddr) :
    ∀ l ∈ (lonToKludge zone d4 text lon).1, l.length ≤ MAX_LENGTH + crlf.length := by
  have hfold : ∀ {ns : List Node} {b : KludgeBuf}, b.Short → (∀ n ∈ ns, n.IsAddr) →
      (ns.foldl (kludgeStep zone text) b).Short := by
    intro ns
    induction ns with
    | nil => exact fun hb _ => hb
    | cons n ns ih =>
        intro b hb hns
        exact ih (kludgeStep_short ht hb (hns n List.mem_cons_self))
          fun m hm => hns m (List.mem_cons_of_mem n hm)
  have hshort := @hfold (kludgeNodes d4 lon) ⟨[], text, nodeOld zone⟩
    ⟨List.forall_mem_nil _, by dsimp only; omega⟩ fun n hn => hns n (List.mem_of_mem_filter hn)
  intro l hl
  rcases List.mem_append.mp hl with hl | hl
  · exact hshort.lines l hl
  · rw [List.mem_singleton.mp hl, List.length_append]
    exact Nat.add_le_add_right hshort.buf _

/-! ## Writer and reader -/

/-- The lines written for a list, in its order and sorted, are read back as
the nodes written in the current zone, and none is too long. -/
structure KludgeInverse (zone : Int) (d4 : Bool) (text : Str) (lon : List Node) : Prop where
  plain : (kludgeToLon zone (lonToKludge zone d4 text lon).1).destutter (· ≠ ·) =
    ((kludgeNodes d4 lon).map (Node.plain zone)).destutter (· ≠ ·)
  sorted : (kludgeToLon zone (lonToKludgeSorted zone d4 text lon)).destutter (· ≠ ·) =
    ((kludgeNodes d4 (lonSort lon)).map (Node.plain zone)).destutter (· ≠ ·)
  length : ∀ l ∈ (lonToKludge zone d4 text lon).1 ++ lonToKludgeSorted zone d4 text lon,
    l.length ≤ MAX_LENGTH + crlf.length

theorem kludgeInverse_iff {zone : Int} {d4 : Bool} {text : Str} {lon : List Node}
    (ht : IsKeyword text) (hlen : text.length + 33 ≤ MAX_LENGTH) (hzone : 0 ≤ zone)
    (hns : ∀ n ∈ lon, n.IsAddr) :
    KludgeInverse zone d4 text lon ↔
      runsPrinted zone text (kludgeNodes d4 lon) = true ∧
        runsPrinted zone text (kludgeNodes d4 (lonSort lon)) = true := by
  have hsort : ∀ n ∈ lonSort lon, n.IsAddr :=
    fun n hn => hns n ((List.perm_insertionSort _ lon).mem_iff.mp hn)
  rw [← kludgeToLon_lonToKludge_iff ht hzone hns, ← kludgeToLon_lonToKludge_iff ht hzone hsort]
  refine ⟨fun h => ⟨h.plain, h.sorted⟩, fun h => ⟨h.1, h.2, ?_⟩⟩
  intro l hl
  rcases List.mem_append.mp hl with hl | hl
  · exact length_lonToKludge hlen hns l hl
  · exact length_lonToKludge hlen hsort l hl

/-- A point and its boss, and the boss once more, in the order of the list and
sorted. -/
theorem kludgeInverse_point :
    KludgeInverse 2 true (lit "SEEN-BY:") [⟨2, 5020, 1, 0, []⟩, ⟨2, 5020, 1, 5, []⟩,
      ⟨2, 5020, 2, 0, []⟩] :=
  (kludgeInverse_iff ⟨lit "SEEN-BY", by decide +kernel, by decide +kernel⟩ (by decide +kernel)
    (by decide) (by decide +kernel)).mpr (by decide +kernel)

/-- A boss behind one of its points is lost. -/
theorem kludgeInverse_boss :
    ¬ KludgeInverse 2 true (lit "SEEN-BY:") [⟨2, 5020, 1, 5, []⟩, ⟨2, 5020, 1, 0, []⟩] := by
  intro h
  have h := h.plain
  revert h
  decide +kernel

end Fidogate

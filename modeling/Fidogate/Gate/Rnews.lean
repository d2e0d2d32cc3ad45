/-
# `Fidogate.Gate.Rnews` — ftn2rfc.c, rfc2ftn.c: news batches

`unpack` of ftn2rfc announces each article with its size and writes it behind
that; the main loop of rfc2ftn reads articles from a batch, from files, or one
from its standard input.  Only in a batch its `size` does not start at 0.
-/
import Fidogate.Common.Read
import Fidogate.Gate.SndMail

namespace Fidogate

open Bytes

/-! ## The main loop of rfc2ftn -/

/-- What the main loop has of an article when it calls `snd_mail`. -/
structure Article where
  header : List Str
  body : List Str
  size : Int
  deriving DecidableEq, Repr

/-- The part of the main loop that reads an article, and adds the lines of its
body to `size`, with a CR for each. -/
def readArticle (size : Int) (r : Reader) : Article × Reader :=
  let header := headerRead r
  let body := readBody header.2
  (⟨header.1, body.1, size + (body.1.map fun l => (l.length : Int) + 1).sum⟩, body.2)

/-- An article on the standard input. -/
def rfc2ftnStdin (text : Str) : Article := (readArticle 0 ⟨text, none⟩).1

/-- The articles of a list, with -f. -/
def rfc2ftnFilesLoop (size : Int) : List Str → List Article
  | [] => []
  | text :: texts => (readArticle size ⟨text, none⟩).1 :: rfc2ftnFilesLoop 0 texts

def rfc2ftnFiles (texts : List Str) : List Article := rfc2ftnFilesLoop 0 texts

/-- The articles of a batch, with -b, the last return of `read_rnews_size` and
where the batch is read to.  An article takes a byte at least, so the length of
the batch bounds the rounds. -/
def rfc2ftnBatchLoop : Nat → Reader → List Article × Int × Reader
  | 0, r => ([], 0, r)
  | k + 1, r =>
      let size := readRnewsSize r
      if size.1 ≤ 0 then ([], size)
      else
        let a := readArticle size.1 size.2
        let more := rfc2ftnBatchLoop k a.2
        (a.1 :: more.1, more.2)

def rfc2ftnBatch (text : Str) : List Article × Int × Reader :=
  rfc2ftnBatchLoop (text.length + 1) ⟨text, none⟩

/-! ## Batches -/

/-- A text that can be announced. -/
abbrev RnewsText := {t : Str // t ≠ [] ∧ t.length < 2 ^ 63}

/-- An article of a batch. -/
def rnewsText (t : Str) : Str := lit "#! rnews " ++ putInt t.length ++ [lf] ++ t

def rnewsBatch (ts : List RnewsText) : Str := (ts.map fun t => rnewsText t.1).flatten

/-- An article as it is in a batch: the size announced is counted too. -/
def Article.announced (a : Article) (n : Int) : Article := { a with size := n + a.size }

theorem readArticle_within (t rest : Str) (size : Int) :
    readArticle size ((Reader.mk t none).within rest) =
      ((rfc2ftnStdin t).announced size, ⟨rest, some 0⟩) := by
  have hheader := readUntil_within endsHeader rest (r := ⟨t, none⟩) rfl
  have hsize : (readUntil endsHeader ⟨t, none⟩).2.readSize = none :=
    readUntilLoop_readSize endsHeader _ rfl
  have hbody := readUntil_within (fun _ => false) rest hsize
  have hend : (readUntil (fun _ => false) (readUntil endsHeader ⟨t, none⟩).2).2 = ⟨[], none⟩ :=
    readBodyLoop_end _ hsize (Nat.lt_succ_self _)
  unfold readArticle rfc2ftnStdin Article.announced readArticle headerRead readBody
  dsimp only
  rw [hheader]
  dsimp only
  rw [hbody, hend]
  simp only [Reader.within, List.nil_append, List.length_nil, Int.zero_add]

/-- All articles of a batch are read, and nothing behind them is left. -/
theorem rfc2ftnBatchLoop_rnewsBatch : ∀ (ts : List RnewsText) {k : Nat} (readSize : Option Nat),
    ts.length < k → (rfc2ftnBatchLoop k ⟨rnewsBatch ts, readSize⟩).1 =
        ts.map (fun t => (rfc2ftnStdin t.1).announced t.1.length) ∧
      (rfc2ftnBatchLoop k ⟨rnewsBatch ts, readSize⟩).2.1 = 0 ∧
      (rfc2ftnBatchLoop k ⟨rnewsBatch ts, readSize⟩).2.2.fp = []
  | _, 0, _, h => absurd h (Nat.not_lt_zero _)
  | [], _ + 1, _, _ => ⟨rfl, rfl, rfl⟩
  | t :: ts, k + 1, readSize, h => by
      obtain ⟨hne, hlen⟩ := t.2
      have hpos := List.length_pos_iff.mpr hne
      have hsize := readRnewsSize_putInt hne hlen (rnewsBatch ts) readSize
      have ih := rfc2ftnBatchLoop_rnewsBatch ts (some 0) (Nat.lt_of_succ_lt_succ h)
      have hgo : ¬ (t.1.length : Int) ≤ 0 := by omega
      rw [rfc2ftnBatchLoop, rnewsBatch, List.map_cons, List.flatten_cons, ← rnewsBatch, rnewsText,
        hsize]
      dsimp only
      rw [if_neg hgo, readArticle_within]
      exact ⟨congrArg (_ :: ·) ih.1, ih.2⟩

theorem length_le_rnewsBatch (ts : List RnewsText) : ts.length ≤ (rnewsBatch ts).length := by
  induction ts with
  | nil => exact Nat.le_refl 0
  | cons t ts ih =>
      rw [rnewsBatch, List.map_cons, List.flatten_cons, ← rnewsBatch, List.length_append, rnewsText,
        List.length_append]
      have hpos := List.length_pos_iff.mpr t.2.1
      rw [List.length_cons]
      omega

theorem rfc2ftnBatch_rnewsBatch (ts : List RnewsText) :
    (rfc2ftnBatch (rnewsBatch ts)).1 =
        ts.map (fun t => (rfc2ftnStdin t.1).announced t.1.length) ∧
      (rfc2ftnBatch (rnewsBatch ts)).2.1 = 0 ∧ (rfc2ftnBatch (rnewsBatch ts)).2.2.fp = [] :=
  rfc2ftnBatchLoop_rnewsBatch ts none (Nat.lt_succ_of_le (length_le_rnewsBatch ts))

theorem rfc2ftnFiles_eq (texts : List Str) : rfc2ftnFiles texts = texts.map rfc2ftnStdin := by
  unfold rfc2ftnFiles
  induction texts with
  | nil => rfl
  | cons text texts ih =>
      rw [rfc2ftnFilesLoop, ih]
      rfl

/-! ## Too big -/

/-- The article is dropped as too big, whatever else there is to it. -/
def Article.tooBig (a : Article) (m : Mail) (limitsize : Int) : Bool :=
  { m with size := a.size }.tooBig limitsize

theorem rfc2ftnFiles_getElem? (before after : List RnewsText) (t : RnewsText) :
    (rfc2ftnFiles ((before ++ t :: after).map Subtype.val))[before.length]? =
      some (rfc2ftnStdin t.1) := by
  rw [rfc2ftnFiles_eq, List.map_append, List.map_append, List.getElem?_append_right (by simp)]
  simp

theorem rfc2ftnBatch_getElem? (before after : List RnewsText) (t : RnewsText) :
    (rfc2ftnBatch (rnewsBatch (before ++ t :: after))).1[before.length]? =
      some ((rfc2ftnStdin t.1).announced t.1.length) := by
  rw [(rfc2ftnBatch_rnewsBatch _).1, List.map_append, List.getElem?_append_right (by simp)]
  simp

/-- Counting the announced size as well makes a difference for the limits in
between. -/
theorem tooBig_announced_iff (a : Article) (m : Mail) (limitsize : Int) (n : Nat) :
    (a.announced n).tooBig m limitsize = a.tooBig m limitsize ↔
      ¬ (0 < limitsize ∧ a.size ≤ limitsize ∧ limitsize < n + a.size) := by
  unfold Article.tooBig Mail.tooBig Article.announced
  rw [Bool.eq_iff_iff]
  simp only [gt_iff_lt, Bool.and_eq_true, decide_eq_true_eq]
  omega

/-- A news article is found too big alike from the standard input, a list of
files and a batch, with any articles before and behind it, if and only if the
limit is not between the size of its body and that with the whole article
added. -/
theorem rfc2ftn_tooBig_iff (m : Mail) (t : RnewsText) (limitsize : Int) :
    (∀ before after : List RnewsText,
      (rfc2ftnFiles ((before ++ t :: after).map Subtype.val))[before.length]?.map
        (·.tooBig m limitsize) = some ((rfc2ftnStdin t.1).tooBig m limitsize) ∧
      (rfc2ftnBatch (rnewsBatch (before ++ t :: after))).1[before.length]?.map
        (·.tooBig m limitsize) = some ((rfc2ftnStdin t.1).tooBig m limitsize)) ↔
    ¬ (0 < limitsize ∧ (rfc2ftnStdin t.1).size ≤ limitsize ∧
      limitsize < t.1.length + (rfc2ftnStdin t.1).size) := by
  rw [← tooBig_announced_iff _ m]
  constructor
  · intro h
    have hbatch := (h [] []).2
    rw [rfc2ftnBatch_getElem?, Option.map_some] at hbatch
    exact Option.some.inj hbatch
  · intro h before after
    rw [rfc2ftnFiles_getElem?, rfc2ftnBatch_getElem?, Option.map_some, Option.map_some, h]
    exact ⟨rfl, rfl⟩

/-- A short article. -/
def rnewsShort (body : Str) (h : body.length < 100) : RnewsText :=
  ⟨lit "Newsgroups: fido.test\n\n" ++ body, List.append_ne_nil_of_left_ne_nil (by decide) _, by
    rw [List.length_append, show (lit "Newsgroups: fido.test\n\n").length = 23 from by decide +kernel]
    omega⟩

/-- The 6 bytes of a body and a CR are not too big for a limit of 20 bytes; in
a batch they are. -/
theorem rfc2ftn_tooBig_batch :
    (rfc2ftnBatch (rnewsBatch [rnewsShort (lit "a\n") (by decide),
      rnewsShort (lit "hello\n") (by decide)])).1[1]?.map
        (·.tooBig (article (lit "alice") EX_OK) 20) ≠
      some ((rfc2ftnStdin (rnewsShort (lit "hello\n") (by decide)).1).tooBig
        (article (lit "alice") EX_OK) 20) := by
  decide +kernel

/-! ## What ftn2rfc writes is read -/

/-- `theader` without the empty line at its end, and `tbody`, of an article that
is in memory. -/
structure NewsArticle where
  header : List Str
  body : List Str
  noNul : ∀ l ∈ header ++ body, nul ∉ l
  fits : (header.flatten ++ lf :: body.flatten).length < 2 ^ 63

def NewsArticle.theader (a : NewsArticle) : List Str := a.header ++ [[lf]]

/-- `tl_size`. -/
def tlSize (list : List Str) : Int := (list.map fun l => (l.length : Int)).sum

/-- "News batch": what `unpack` prints of an article. -/
def NewsArticle.print (a : NewsArticle) : Str :=
  lit "#! rnews " ++ putInt (tlSize a.theader + tlSize a.body) ++ [lf] ++ a.theader.flatten ++
    a.body.flatten

def newsBatch (arts : List NewsArticle) : Str := (arts.map NewsArticle.print).flatten

theorem NewsArticle.flatten_theader (a : NewsArticle) :
    a.theader.flatten ++ a.body.flatten = a.header.flatten ++ lf :: a.body.flatten := by
  rw [NewsArticle.theader, List.flatten_append, List.append_assoc]
  rfl

/-- The text of an article. -/
def NewsArticle.text (a : NewsArticle) : RnewsText :=
  ⟨a.header.flatten ++ lf :: a.body.flatten,
    List.append_ne_nil_of_right_ne_nil _ (List.cons_ne_nil lf _), a.fits⟩

theorem tlSize_eq (list : List Str) : tlSize list = (list.flatten.length : Int) := by
  unfold tlSize
  induction list with
  | nil => rfl
  | cons l list ih =>
      rw [List.map_cons, List.sum_cons, ih, List.flatten_cons, List.length_append, Int.natCast_add]

theorem NewsArticle.print_eq (a : NewsArticle) : a.print = rnewsText a.text.1 := by
  have hsize : tlSize a.theader + tlSize a.body = (a.text.1.length : Int) := by
    rw [tlSize_eq, tlSize_eq, ← Int.natCast_add, ← List.length_append, a.flatten_theader]
    rfl
  rw [NewsArticle.print, hsize, List.append_assoc, a.flatten_theader]
  rfl

theorem newsBatch_eq (arts : List NewsArticle) :
    newsBatch arts = rnewsBatch (arts.map NewsArticle.text) := by
  rw [newsBatch, rnewsBatch, List.map_map]
  exact congrArg List.flatten (List.map_congr_left fun a _ => a.print_eq)

/-- The article is read as it is from a file of its own; a header of fields is
these fields without their line ends, and the body has the bytes it had. -/
def NewsArticle.ReadAs (a : NewsArticle) (r : Article) : Prop :=
  r = (rfc2ftnStdin a.text.1).announced a.text.1.length ∧
    ((∀ s ∈ a.header, IsHeaderField s) →
      r.header = a.header.map unfoldHeader ∧ r.body.flatten = a.body.flatten)

theorem NewsArticle.readAs (a : NewsArticle) :
    a.ReadAs ((rfc2ftnStdin a.text.1).announced a.text.1.length) := by
  refine ⟨rfl, fun hfields => ?_⟩
  have hnul : nul ∉ a.body.flatten := by
    rw [List.mem_flatten]
    rintro ⟨l, hl, hc⟩
    exact a.noNul l (List.mem_append_right _ hl) hc
  have hheader := headerRead_fields
    (fun s hs => ⟨hfields s hs, a.noNul s (List.mem_append_left _ hs)⟩) a.body.flatten
  change (headerRead ⟨a.header.flatten ++ lf :: a.body.flatten, none⟩).1 = _ ∧
    (readBody (headerRead ⟨a.header.flatten ++ lf :: a.body.flatten, none⟩).2).1.flatten = _
  rw [hheader]
  exact ⟨rfl, readBodyLoop_flatten _ rfl (Nat.lt_succ_self _) hnul⟩

/-- A batch of any articles is read as these articles, one by one and to its
end. -/
theorem rfc2ftnBatch_newsBatch (arts : List NewsArticle) :
    List.Forall₂ NewsArticle.ReadAs arts (rfc2ftnBatch (newsBatch arts)).1 ∧
      (rfc2ftnBatch (newsBatch arts)).2.1 = 0 ∧ (rfc2ftnBatch (newsBatch arts)).2.2.fp = [] := by
  obtain ⟨hread, hend⟩ := rfc2ftnBatch_rnewsBatch (arts.map NewsArticle.text)
  rw [← newsBatch_eq] at hread hend
  refine ⟨?_, hend⟩
  rw [hread, List.map_map]
  exact List.forall₂_map_right_iff.mpr (List.forall₂_same.mpr fun a _ => a.readAs)

/-- An article whose subject goes over two lines. -/
def foldedArticle : NewsArticle :=
  { header := [lit "Subject: one\n two\n"], body := [lit "text\n"]
    noNul := by decide +kernel, fits := by decide +kernel }

/-- Its lines are joined. -/
theorem rfc2ftnBatch_folded :
    ((rfc2ftnBatch (newsBatch [foldedArticle])).1.map fun r => (r.header.map (· ++ [lf])).flatten) ≠
      [foldedArticle].map (·.header.flatten) := by
  decide +kernel

end Fidogate

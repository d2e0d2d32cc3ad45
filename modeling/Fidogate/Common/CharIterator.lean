/-
# `Fidogate.Common.CharIterator` — textlist.c: a text list byte by byte

The iterator keeps the line it is in and a position in it.  One call goes on
over the ends of any number of lines, which may be empty.  The encoders of
mime.c see a text list through these calls only; there they are modelled on
what is left of the lines (`tlCharIteratorNext`), and `next_eq` says that this
is what the calls here do.
-/
import Fidogate.Common.MimeQp
import Fidogate.Common.Textlist
import Fidogate.Lib.Chunks

namespace Fidogate

open Bytes Chain Chunks

/-- TextlistCharIterator; its pointer to the list is never read. -/
structure TextlistCharIterator where
  cur : Option Nat
  len : Nat
  pos : Nat
deriving DecidableEq, Repr

namespace TextlistCharIterator

/-- `tl_char_iterator_start` -/
def tlCharIteratorStart (h : Lines) (list : Textlist) : Option TextlistCharIterator :=
  match list.first with
  | none => some ⟨none, 0, 0⟩
  | some a => do
      let c ← cell h a
      some ⟨some a, c.val.length, 0⟩

/-- `memcpy` of the next bytes of the current line. -/
def copyBytes (h : Lines) (iter : TextlistCharIterator) (toMove : Nat) : Option Str := do
  let c ← cell h (← iter.cur)
  if iter.pos + toMove ≤ c.val.length then some ((c.val.drop iter.pos).take toMove) else none

/-- The loop of `tl_char_iterator_next`, with the bytes moved so far.  A turn
that is not the last one goes on to the next line. -/
def nextLoop (h : Lines) :
    Nat → TextlistCharIterator → Nat → Nat → Str → Option (Str × TextlistCharIterator)
  | 0, iter, _, len, buf => if len = 0 then some (buf, iter) else none
  | fuel + 1, iter, left, len, buf =>
      if len = 0 then some (buf, iter)
      else do
        let toMove := min left len
        let buf := buf ++ (← copyBytes h iter toMove)
        let iter := { iter with pos := iter.pos + toMove }
        let len := len - toMove
        let left := left - toMove
        if left = 0 then
          let c ← cell h (← iter.cur)
          match c.next with
          | none => some (buf, { iter with cur := none })
          | some b => do
              let d ← cell h b
              nextLoop h fuel ⟨some b, d.val.length, 0⟩ d.val.length len buf
        else nextLoop h fuel iter left len buf

/-- `tl_char_iterator_next`: the bytes in the buffer, as many as it returns.
There are at most `h.length` turns. -/
def tlCharIteratorNext (h : Lines) (iter : TextlistCharIterator) (len : Nat) :
    Option (Str × TextlistCharIterator) :=
  match iter.cur with
  | none => some ([], iter)
  | some _ => nextLoop h h.length iter (iter.len - iter.pos) len []

/-- Successive calls for these sizes. -/
def tlCharIteratorCalls (h : Lines) :
    TextlistCharIterator → List Nat → Option (List Str × TextlistCharIterator)
  | iter, [] => some ([], iter)
  | iter, len :: lens => do
      let (chunk, iter) ← iter.tlCharIteratorNext h len
      let (chunks, iter) ← tlCharIteratorCalls h iter lens
      some (chunk :: chunks, iter)

/-! ## What is left -/

/-- The iterator is in the first of these lines, or at the end. -/
structure At (h : Lines) (iter : TextlistCharIterator) (as : List (Nat × Str)) : Prop where
  links : Chain.Linked h iter.cur as
  here : ∀ a ∈ as.head?, iter.len = a.2.length ∧ iter.pos ≤ a.2.length

/-- What is left of the lines. -/
def rest (iter : TextlistCharIterator) : List (Nat × Str) → List Str
  | [] => []
  | (_, line) :: as => line.drop iter.pos :: vals as

section Next

variable {h : Lines} {iter : TextlistCharIterator} {as : List (Nat × Str)}

/-- The start of a line. -/
theorem at_line {a : Nat} {c : Cell Str} (hc : cell h a = some c)
    (hl : Chain.Linked h c.next as) : At h ⟨some a, c.val.length, 0⟩ ((a, c.val) :: as) := by
  refine ⟨.cons hc hl, fun b hb => ?_⟩
  obtain rfl : (a, c.val) = b := Option.some.inj hb
  exact ⟨rfl, Nat.zero_le _⟩

theorem nextLoop_zero (n : Nat) (iter : TextlistCharIterator) (left : Nat) (buf : Str) :
    nextLoop h n iter left 0 buf = some (buf, iter) := by
  cases n <;> exact if_pos rfl

section Turn

variable {a : Nat} {c : Cell Str} {k : Nat}

theorem copyBytes_eq (hcur : iter.cur = some a) (hc : cell h a = some c)
    (hle : iter.pos + k ≤ c.val.length) :
    copyBytes h iter k = some ((c.val.drop iter.pos).take k) := by
  rw [copyBytes, hcur]
  change (do let c ← cell h a; _) = _
  rw [hc]
  exact if_pos hle

/-- A turn that finds enough in the line is the last one. -/
theorem nextLoop_part (hcur : iter.cur = some a) (hc : cell h a = some c)
    (hlt : k + 1 < c.val.length - iter.pos) (n : Nat) (buf : Str) :
    nextLoop h (n + 1) iter (c.val.length - iter.pos) (k + 1) buf =
      some (buf ++ (c.val.drop iter.pos).take (k + 1),
        { iter with pos := iter.pos + (k + 1) }) := by
  have hmin : min (c.val.length - iter.pos) (k + 1) = k + 1 := Nat.min_eq_right (Nat.le_of_lt hlt)
  have hcopy := copyBytes_eq hcur hc (show iter.pos + (k + 1) ≤ c.val.length by omega)
  rw [nextLoop, if_neg (Nat.succ_ne_zero k), hmin]
  dsimp only
  rw [hcopy]
  change (if c.val.length - iter.pos - (k + 1) = 0 then _ else nextLoop h n _ _ _ _) = _
  rw [if_neg (by omega), Nat.sub_self, nextLoop_zero]

/-- A turn that takes all that is left of the line: the bytes, and the end of
the line. -/
theorem nextLoop_line (hcur : iter.cur = some a) (hc : cell h a = some c)
    (hpos : iter.pos ≤ c.val.length) (hle : c.val.length - iter.pos ≤ k + 1) (n : Nat)
    (buf : Str) :
    nextLoop h (n + 1) iter (c.val.length - iter.pos) (k + 1) buf =
      c.next.elim (some (buf ++ c.val.drop iter.pos, ⟨none, iter.len, c.val.length⟩)) fun b =>
        (cell h b).bind fun d => nextLoop h n ⟨some b, d.val.length, 0⟩ d.val.length
          (k + 1 - (c.val.length - iter.pos)) (buf ++ c.val.drop iter.pos) := by
  have hmin : min (c.val.length - iter.pos) (k + 1) = c.val.length - iter.pos := Nat.min_eq_left hle
  have hend : iter.pos + (c.val.length - iter.pos) = c.val.length := Nat.add_sub_cancel' hpos
  have hcopy : copyBytes h iter (c.val.length - iter.pos) = some (c.val.drop iter.pos) := by
    rw [copyBytes_eq hcur hc (Nat.le_of_eq hend), List.take_of_length_le (by simp)]
  rw [nextLoop, if_neg (Nat.succ_ne_zero k), hmin]
  dsimp only
  rw [hcopy, Nat.sub_self, hend, hcur]
  change (do let c ← cell h a; _) = _
  rw [hc]
  change (match c.next with | none => _ | some b => _) = _
  cases c.next <;> rfl

end Turn

/-- Taking lines, one line that is not used up. -/
theorem take_part {k : Nat} {line : Str} (lines : List Str) (hlt : k + 1 < line.length) :
    Fidogate.tlCharIteratorNext (k + 1) (line :: lines) =
      (line.take (k + 1), line.drop (k + 1) :: lines) := by
  rw [Fidogate.tlCharIteratorNext, if_pos hlt]

/-- Taking lines, one line that is. -/
theorem take_line {k : Nat} {line : Str} (lines : List Str) (hle : line.length ≤ k + 1) :
    Fidogate.tlCharIteratorNext (k + 1) (line :: lines) =
      (line ++ (Fidogate.tlCharIteratorNext (k + 1 - line.length) lines).1,
        (Fidogate.tlCharIteratorNext (k + 1 - line.length) lines).2) := by
  rw [Fidogate.tlCharIteratorNext, if_neg (Nat.not_lt.mpr hle)]

theorem take_zero (lines : List Str) : Fidogate.tlCharIteratorNext 0 lines = ([], lines) := by
  cases lines <;> rfl

theorem take_nil (len : Nat) : Fidogate.tlCharIteratorNext len [] = ([], []) := by
  cases len <;> rfl

/-- The loop takes what is left of the lines as a list of lines is taken. -/
theorem nextLoop_eq : ∀ {n : Nat} {iter : TextlistCharIterator} {a : Nat} {line : Str}
    {as : List (Nat × Str)} (len : Nat) (buf : Str), At h iter ((a, line) :: as) →
    as.length < n →
    ∃ iter' as', nextLoop h n iter (line.length - iter.pos) len buf =
        some (buf ++ (Fidogate.tlCharIteratorNext len (iter.rest ((a, line) :: as))).1, iter') ∧
      At h iter' as' ∧
      iter'.rest as' = (Fidogate.tlCharIteratorNext len (iter.rest ((a, line) :: as))).2 := by
  intro n
  induction n with
  | zero => exact fun _ _ _ hn => absurd hn (Nat.not_lt_zero _)
  | succ n ih =>
      intro iter a line as len buf hat hn
      obtain ⟨c, hcur, hc, rfl, hnext⟩ := hat.links.first
      obtain ⟨hlen, hpos⟩ := hat.here _ rfl
      have hdrop : (c.val.drop iter.pos).length = c.val.length - iter.pos := List.length_drop
      cases len with
      | zero =>
          refine ⟨iter, _, ?_, hat, ?_⟩
          · rw [nextLoop_zero, take_zero, List.append_nil]
          · rw [take_zero]
      | succ k =>
          rcases Nat.lt_or_ge (k + 1) (c.val.length - iter.pos) with hlt | hle
          · -- the chunk ends in this line
            have htake := take_part (vals as) (hdrop.symm ▸ hlt)
            refine ⟨{ iter with pos := iter.pos + (k + 1) }, (a, c.val) :: as, ?_,
              ⟨hat.links, fun b hb => ?_⟩, ?_⟩
            · rw [nextLoop_part hcur hc hlt, rest, htake]
            · obtain rfl : (a, c.val) = b := Option.some.inj hb
              exact ⟨hlen, by simp only; omega⟩
            · rw [rest, rest, htake, List.drop_drop]
          · -- the line is used up
            have htake := take_line (vals as) (hdrop.symm ▸ hle)
            rw [rest, htake, nextLoop_line hcur hc hpos hle, hdrop]
            cases as with
            | nil =>
                rw [hnext.head, vals, List.map_nil, take_nil, List.append_nil]
                exact ⟨⟨none, iter.len, c.val.length⟩, [], rfl, ⟨.nil, nofun⟩, rfl⟩
            | cons b as =>
                obtain ⟨b, line⟩ := b
                obtain ⟨d, hb, hd, rfl, hrest⟩ := hnext.first
                obtain ⟨iter', as', heq, hat', hout⟩ := ih (k + 1 - (c.val.length - iter.pos))
                  (buf ++ c.val.drop iter.pos) (at_line hd hrest) (Nat.lt_of_succ_lt_succ hn)
                refine ⟨iter', as', ?_, hat', hout⟩
                rw [hb, Option.elim_some, hd, Option.bind_some, ← List.append_assoc]
                exact heq

/-- One call takes what is left of the lines as a list of lines is taken. -/
theorem next_eq (hat : At h iter as) (len : Nat) :
    ∃ iter' as', iter.tlCharIteratorNext h len =
        some ((Fidogate.tlCharIteratorNext len (iter.rest as)).1, iter') ∧
      At h iter' as' ∧ iter'.rest as' = (Fidogate.tlCharIteratorNext len (iter.rest as)).2 := by
  cases as with
  | nil =>
      have hcur : iter.cur = none := hat.links.head
      refine ⟨iter, [], ?_, hat, ?_⟩
      · rw [tlCharIteratorNext, hcur, rest, take_nil]
      · rw [rest, take_nil]
  | cons a as =>
      obtain ⟨a, line⟩ := a
      obtain ⟨c, hcur, -⟩ := hat.links.first
      obtain ⟨hlen, -⟩ := hat.here _ rfl
      obtain ⟨iter', as', heq, hout⟩ := nextLoop_eq len [] hat hat.links.length_le
      refine ⟨iter', as', ?_, hout⟩
      rw [tlCharIteratorNext, hcur, hlen]
      exact heq

/-- Successive calls take the text of the lines in chunks. -/
theorem calls_eq : ∀ (lens : List Nat) {iter : TextlistCharIterator} {as : List (Nat × Str)},
    At h iter as →
    ∃ iter', tlCharIteratorCalls h iter lens =
      some (chunks (iter.rest as).flatten lens, iter') := by
  intro lens
  induction lens with
  | nil => exact fun _ => ⟨_, rfl⟩
  | cons len lens ih =>
      intro iter as hat
      obtain ⟨iter1, as1, heq, hat1, hrest⟩ := next_eq hat len
      obtain ⟨htake, hdrop⟩ := tlCharIteratorNext_flatten len (iter.rest as)
      obtain ⟨iter', hcalls⟩ := ih hat1
      rw [hrest, hdrop] at hcalls
      refine ⟨iter', ?_⟩
      rw [tlCharIteratorCalls, heq]
      change (do let r ← tlCharIteratorCalls h iter1 lens; _) = _
      rw [hcalls, htake]
      rfl

theorem start_at {l : Textlist} (hl : Chain.Linked h l.first as) :
    ∃ iter, tlCharIteratorStart h l = some iter ∧ At h iter as ∧ iter.rest as = vals as := by
  obtain ⟨first, last⟩ := l
  cases as with
  | nil =>
      obtain rfl : first = none := hl.head
      exact ⟨⟨none, 0, 0⟩, rfl, ⟨.nil, nofun⟩, rfl⟩
  | cons a as =>
      obtain ⟨a, line⟩ := a
      obtain ⟨c, hfirst, hc, rfl, hrest⟩ := hl.first
      obtain rfl : first = some a := hfirst
      refine ⟨⟨some a, c.val.length, 0⟩, ?_, at_line hc hrest, rfl⟩
      rw [tlCharIteratorStart]
      change (do let c ← cell h a; _) = _
      rw [hc]
      rfl

/-- The chunks together are the text of the lines, as far as they were asked
for; a short chunk completes the text, and once it is complete no byte comes. -/
theorem chunks_of_calls {l : Textlist} (hl : Chain.Linked h l.first as) (lens : List Nat) :
    ∃ iter cs iter', tlCharIteratorStart h l = some iter ∧
      tlCharIteratorCalls h iter lens = some (cs, iter') ∧ cs.length = lens.length ∧
      cs.flatten = (vals as).flatten.take lens.sum ∧
      (∀ i len c, lens[i]? = some len → cs[i]? = some c → c.length < len →
        (cs.take (i + 1)).flatten = (vals as).flatten) ∧
      ∀ i, (cs.take i).flatten = (vals as).flatten → ∀ c ∈ cs.drop i, c = [] := by
  obtain ⟨iter, hstart, hat, hrest⟩ := start_at hl
  obtain ⟨iter', hcalls⟩ := calls_eq lens hat
  rw [hrest] at hcalls
  exact ⟨iter, _, iter', hstart, hcalls, length_chunks _ _, flatten_chunks _ _,
    fun _ _ _ hlen hc hlt => flatten_take_of_short hlen hc hlt,
    fun _ h => eq_nil_of_complete h⟩

def threeLines : Lines :=
  [some ⟨lit "ab", some 1, none⟩, some ⟨[], some 2, some 0⟩, some ⟨lit "cde", none, some 1⟩]

/-- A chunk that ends with its line, one behind an empty line, a short one, and
one more. -/
theorem chunks_of_threeLines : ∃ iter cs iter',
    tlCharIteratorStart threeLines ⟨some 0, some 2⟩ = some iter ∧
      tlCharIteratorCalls threeLines iter [2, 2, 5, 1] = some (cs, iter') ∧
      cs.flatten = lit "abcde" := by
  have hl : Chain.Linked threeLines (some 0) [(0, lit "ab"), (1, []), (2, lit "cde")] :=
    .cons rfl (.cons rfl (.cons rfl .nil))
  obtain ⟨iter, cs, iter', hstart, hcalls, -, hcs, -⟩ :=
    chunks_of_calls (l := ⟨some 0, some 2⟩) hl [2, 2, 5, 1]
  exact ⟨iter, cs, iter', hstart, hcalls, hcs.trans rfl⟩

end Next

end TextlistCharIterator

end Fidogate

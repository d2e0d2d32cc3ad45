/-
# `Fidogate.Common.Read` — read.c: reading lines of an article; rfcheader.c: its header

`read_line` is `fgets`, and stops as well where the article ends that
`read_rnews_size` has announced.  An article is read from a news batch as it is
read from a file of its own (`readUntil_within`).
-/
import Fidogate.Common.AreasbbsFile
import Fidogate.Common.MimeBody
import Fidogate.Common.NodePrint

namespace Fidogate

open Bytes

/-! ## Lines -/

/-- A file open for reading, and `read_size`: no value where it is -1. -/
structure Reader where
  fp : Str
  readSize : Option Nat
  deriving DecidableEq, Repr

/-- The loop of `read_line`, `room` being the places left in the buffer: the
line, `read_size` and the rest of the file. -/
def readLineLoop : Nat → Option Nat → Str → Str × Option Nat × Str
  | _, readSize, [] => ([], readSize, [])
  | room, readSize, c :: fp =>
      let readSize := readSize.map (· - 1)
      if room ≤ 1 ∨ readSize = some 0 ∨ c = lf then ([c], readSize, fp)
      else
        let r := readLineLoop (room - 1) readSize fp
        (c :: r.1, r.2)

/-- `read_line`; no value for its NULL. -/
def readLine (n : Nat) (r : Reader) : Option (Str × Reader) :=
  if n ≤ 1 ∨ r.readSize = some 0 ∨ r.fp = [] then none
  else
    let l := readLineLoop (n - 1) r.readSize r.fp
    some (l.1, ⟨l.2.2, l.2.1⟩)

/-- The lines `read_line` gives, as strings, through one that `stop` is true
of.  Each takes a byte at least, so the length of the file bounds the rounds. -/
def readUntilLoop (stop : Str → Bool) : Nat → Reader → List Str × Reader
  | 0, r => ([], r)
  | k + 1, r =>
      match readLine BUFFERSIZE r with
      | none => ([], r)
      | some (line, r) =>
          if stop (cstr line) then ([cstr line], r)
          else
            let more := readUntilLoop stop k r
            (cstr line :: more.1, more.2)

def readUntil (stop : Str → Bool) (r : Reader) : List Str × Reader :=
  readUntilLoop stop (r.fp.length + 1) r

/-- `header_read`: the loop of `header_read_list`, over what `read_line` gives. -/
def headerRead (r : Reader) : List Str × Reader :=
  let lines := readUntil endsHeader r
  (headerReadList lines.1, lines.2)

/-- `while (read_line(buffer, BUFFERSIZE, fp)) tl_append(&body, buffer)`. -/
def readBody (r : Reader) : List Str × Reader := readUntil (fun _ => false) r

/-! ## The size of an article -/

/-- `fgets`: what it reads, and the rest. -/
def fgets (n : Nat) (fp : Str) : Option (Str × Str) :=
  if fp = [] then none
  else
    let l := readLineLoop (n - 1) none fp
    some (cstr l.1, l.2.2)

/-- `read_rnews_size`. -/
def readRnewsSize (r : Reader) : Int × Reader :=
  match fgets 32 r.fp with
  | none => (0, r)
  | some (buffer, fp) =>
      if buffer.head? != some 35 && buffer.length < 10 then (-1, { r with fp := fp })
      else if ! hasPrefix (lit "#! rnews ") buffer then (-1, { r with fp := fp })
      else
        let n := atol (buffer.drop 9)
        if 0 < n then (n, ⟨fp, some n.toNat⟩) else (0, ⟨fp, none⟩)

/-! ## An article in a batch and alone -/

theorem readLineLoop_append : ∀ (room : Nat) (readSize : Option Nat) (fp : Str),
    (readLineLoop room readSize fp).1 ++ (readLineLoop room readSize fp).2.2 = fp
  | _, _, [] => rfl
  | room, readSize, c :: fp => by
      rw [readLineLoop]
      dsimp only
      split
      · rfl
      · exact congrArg (c :: ·) (readLineLoop_append (room - 1) _ fp)

theorem readLineLoop_ne_nil (room : Nat) (readSize : Option Nat) {fp : Str} (h : fp ≠ []) :
    (readLineLoop room readSize fp).1 ≠ [] := by
  cases fp with
  | nil => exact absurd rfl h
  | cons c fp =>
      rw [readLineLoop]
      dsimp only
      split
      · exact List.cons_ne_nil c []
      · exact List.cons_ne_nil c _

theorem readLineLoop_length_lt (room : Nat) (readSize : Option Nat) {fp : Str} (h : fp ≠ []) :
    (readLineLoop room readSize fp).2.2.length < fp.length := by
  have happend := congrArg List.length (readLineLoop_append room readSize fp)
  have hpos := List.length_pos_iff.mpr (readLineLoop_ne_nil room readSize h)
  rw [List.length_append] at happend
  omega

theorem readLineLoop_none (room : Nat) : ∀ fp : Str, (readLineLoop room none fp).2.1 = none := by
  intro fp
  induction fp generalizing room with
  | nil => rfl
  | cons c fp ih =>
      rw [readLineLoop]
      dsimp only [Option.map_none]
      split
      · rfl
      · exact ih (room - 1)

/-- A line of an article that is not over is read as if nothing came behind
the article. -/
theorem readLineLoop_within (rest : Str) : ∀ (room : Nat) {a : Str}, a ≠ [] →
    readLineLoop room (some a.length) (a ++ rest) =
      ((readLineLoop room none a).1, some (readLineLoop room none a).2.2.length,
        (readLineLoop room none a).2.2 ++ rest)
  | _, [], h => absurd rfl h
  | room, c :: a, _ => by
      rw [List.cons_append, readLineLoop, readLineLoop]
      simp only [Option.map_some, Option.map_none, List.length_cons, Nat.add_sub_cancel,
        Option.some.injEq, reduceCtorEq, false_or]
      by_cases hstop : room ≤ 1 ∨ c = lf
      · rw [if_pos (hstop.imp id .inr), if_pos hstop]
      · rw [if_neg hstop]
        cases a with
        | nil => rw [if_pos (.inr (.inl rfl))]; rfl
        | cons d a =>
            rw [if_neg (by simpa [not_or] using hstop),
              readLineLoop_within rest (room - 1) (List.cons_ne_nil d a)]

/-- The reader of the batch stands where the one of the article alone does. -/
def Reader.within (rest : Str) (r : Reader) : Reader := ⟨r.fp ++ rest, some r.fp.length⟩

theorem readLine_eq_none {n : Nat} {r : Reader} (hn : 1 < n) (hsize : r.readSize = none) :
    readLine n r = none ↔ r.fp = [] := by
  have hn' : ¬ n ≤ 1 := Nat.not_le.mpr hn
  unfold readLine
  simp [hsize, hn']

theorem readLine_within (rest : Str) {n : Nat} {r : Reader} (hn : 1 < n)
    (hsize : r.readSize = none) :
    readLine n (r.within rest) = (readLine n r).map fun l => (l.1, l.2.within rest) := by
  obtain ⟨fp, readSize⟩ := r
  obtain rfl : readSize = none := hsize
  have hn' : ¬ n ≤ 1 := Nat.not_le.mpr hn
  unfold readLine Reader.within
  cases fp with
  | nil => simp
  | cons c fp =>
      rw [if_neg (by simp [hn']), if_neg (by simp [hn']),
        readLineLoop_within rest (n - 1) (List.cons_ne_nil c fp)]
      rfl

/-- A line alone: what is left is shorter, and there is no size still. -/
theorem readLine_some {n : Nat} {r : Reader} (hsize : r.readSize = none) {l : Str × Reader}
    (h : readLine n r = some l) :
    l.1 ++ l.2.fp = r.fp ∧ l.2.fp.length < r.fp.length ∧ l.2.readSize = none := by
  unfold readLine at h
  split at h
  · cases h
  · next hgo =>
      obtain rfl := Option.some.inj h
      have hne : r.fp ≠ [] := fun hnil => hgo (.inr (.inr hnil))
      rw [hsize]
      exact ⟨readLineLoop_append _ _ _, readLineLoop_length_lt _ _ hne, readLineLoop_none _ _⟩

theorem readUntilLoop_within (stop : Str → Bool) (rest : Str) :
    ∀ (k k' : Nat) {r : Reader}, r.readSize = none → r.fp.length < k → r.fp.length < k' →
      readUntilLoop stop k (r.within rest) =
        ((readUntilLoop stop k' r).1, (readUntilLoop stop k' r).2.within rest)
  | 0, _, _, _, h, _ => absurd h (Nat.not_lt_zero _)
  | _ + 1, 0, _, _, _, h => absurd h (Nat.not_lt_zero _)
  | k + 1, k' + 1, r, hsize, hk, hk' => by
      rw [readUntilLoop, readUntilLoop, readLine_within rest (by decide) hsize]
      cases hl : readLine BUFFERSIZE r with
      | none => rfl
      | some l =>
          obtain ⟨-, hlt, hsize'⟩ := readLine_some hsize hl
          dsimp only [Option.map_some]
          split
          · rfl
          · rw [readUntilLoop_within stop rest k k' hsize' (by omega) (by omega)]

theorem readUntil_within (stop : Str → Bool) (rest : Str) {r : Reader} (hsize : r.readSize = none) :
    readUntil stop (r.within rest) = ((readUntil stop r).1, (readUntil stop r).2.within rest) := by
  refine readUntilLoop_within stop rest _ _ hsize ?_ (Nat.lt_succ_self _)
  rw [Reader.within, List.length_append]
  omega

/-- What `readUntil` leaves alone. -/
theorem readUntilLoop_readSize (stop : Str → Bool) : ∀ (k : Nat) {r : Reader},
    r.readSize = none → (readUntilLoop stop k r).2.readSize = none
  | 0, _, h => h
  | k + 1, r, h => by
      rw [readUntilLoop]
      cases hl : readLine BUFFERSIZE r with
      | none => exact h
      | some l =>
          obtain ⟨-, -, hsize⟩ := readLine_some h hl
          dsimp only
          split
          · exact hsize
          · exact readUntilLoop_readSize stop k hsize

/-- The body goes to the end of the article. -/
theorem readBodyLoop_end : ∀ (k : Nat) {r : Reader}, r.readSize = none → r.fp.length < k →
    (readUntilLoop (fun _ => false) k r).2 = ⟨[], none⟩
  | 0, _, _, h => absurd h (Nat.not_lt_zero _)
  | k + 1, r, hsize, hk => by
      rw [readUntilLoop]
      cases hl : readLine BUFFERSIZE r with
      | none =>
          have hfp := (readLine_eq_none (by decide) hsize).mp hl
          obtain ⟨fp, readSize⟩ := r
          obtain rfl : fp = [] := hfp
          obtain rfl : readSize = none := hsize
          rfl
      | some l =>
          obtain ⟨-, hlt, hsize'⟩ := readLine_some hsize hl
          exact readBodyLoop_end k hsize' (by omega)

/-- It has all of it. -/
theorem readBodyLoop_flatten : ∀ (k : Nat) {r : Reader}, r.readSize = none → r.fp.length < k →
    nul ∉ r.fp → (readUntilLoop (fun _ => false) k r).1.flatten = r.fp
  | 0, _, _, h, _ => absurd h (Nat.not_lt_zero _)
  | k + 1, r, hsize, hk, hnul => by
      rw [readUntilLoop]
      cases hl : readLine BUFFERSIZE r with
      | none => exact ((readLine_eq_none (by decide) hsize).mp hl).symm
      | some l =>
          obtain ⟨happend, hlt, hsize'⟩ := readLine_some hsize hl
          have hnul' : nul ∉ l.1 ++ l.2.fp := happend ▸ hnul
          rw [List.mem_append, not_or] at hnul'
          have hcstr : cstr l.1 = l.1 := List.takeWhile_eq_self_iff.mpr fun c hc =>
            bne_iff_ne.mpr fun h => hnul'.1 (h ▸ hc)
          have ih := readBodyLoop_flatten k hsize' (by omega) hnul'.2
          change (cstr l.1 :: (readUntilLoop (fun _ => false) k l.2).1).flatten = r.fp
          rw [List.flatten_cons, ih, hcstr, happend]

/-- A line that the buffer holds is read whole. -/
theorem readLineLoop_line : ∀ {room : Nat} {w : Str} (s : Str), lf ∉ w → w.length < room →
    readLineLoop room none (w ++ lf :: s) = (w ++ [lf], none, s)
  | room, [], s, _, _ => by
      rw [List.nil_append, readLineLoop]
      dsimp only
      rw [if_pos (.inr (.inr rfl))]
      rfl
  | room, c :: w, s, hlf, hroom => by
      rw [List.length_cons] at hroom
      rw [List.cons_append, readLineLoop]
      have hgo : ¬ (room ≤ 1 ∨ (none : Option Nat) = some 0 ∨ c = lf) := by
        rintro (h | h | h)
        · omega
        · cases h
        · exact hlf (h ▸ List.mem_cons_self)
      dsimp only [Option.map_none]
      rw [if_neg hgo, readLineLoop_line s (fun h => hlf (List.mem_cons_of_mem c h)) (by omega)]
      rfl

/-- `read_rnews_size` finds the number, and the article behind it. -/
theorem readRnewsSize_putInt {t : Str} (hne : t ≠ []) (hlen : t.length < 2 ^ 63) (rest : Str)
    (readSize : Option Nat) :
    readRnewsSize ⟨lit "#! rnews " ++ putInt t.length ++ [lf] ++ t ++ rest, readSize⟩ =
      ((t.length : Int), (Reader.mk t none).within rest) := by
  have hpos := List.length_pos_iff.mpr hne
  have hdigits : ∀ c ∈ putInt t.length, isDigit c = true := fun c hc =>
    isDigit_of_mem_putDec (putInt_of_nonneg (Int.natCast_nonneg t.length) ▸ hc)
  have hw : ∀ c ∈ lit "#! rnews " ++ putInt t.length, c ≠ lf ∧ c ≠ nul := by
    intro c hc
    obtain hc | hc := List.mem_append.mp hc
    · exact forall_mem_of_all (P := fun c => c ≠ lf ∧ c ≠ nul) (by decide) c hc
    · have hd := hdigits c hc
      exact ⟨fun h => absurd (h ▸ hd) (by decide), fun h => absurd (h ▸ hd) (by decide)⟩
  have hshort : (lit "#! rnews " ++ putInt t.length).length < 32 - 1 := by
    have hdec : (putInt t.length).length ≤ 19 :=
      length_putInt_long (Int.natCast_nonneg _) (by omega)
    rw [List.length_append]
    change 9 + _ < _
    omega
  have hfgets : fgets 32 (lit "#! rnews " ++ putInt t.length ++ [lf] ++ t ++ rest) =
      some (lit "#! rnews " ++ putInt t.length ++ [lf], t ++ rest) := by
    rw [List.append_assoc, List.append_assoc _ [lf], List.singleton_append, fgets,
      if_neg (List.append_ne_nil_of_right_ne_nil _ (List.cons_ne_nil lf _)),
      readLineLoop_line _ (fun h => (hw lf h).1 rfl) hshort]
    have hcstr : cstr (lit "#! rnews " ++ putInt t.length ++ [lf]) =
        lit "#! rnews " ++ putInt t.length ++ [lf] := by
      refine List.takeWhile_eq_self_iff.mpr fun c hc => bne_iff_ne.mpr ?_
      obtain hc | hc := List.mem_append.mp hc
      · exact (hw c hc).2
      · rw [List.mem_singleton.mp hc]
        decide
    dsimp only
    rw [hcstr]
  have hatol : atol (putInt t.length ++ [lf]) = t.length := by
    rw [atol, atoi_putInt_lf (Int.natCast_nonneg _)]
    omega
  unfold readRnewsSize
  rw [hfgets]
  have hprefix : hasPrefix (lit "#! rnews ") (lit "#! rnews " ++ putInt t.length ++ [lf]) = true :=
    hasPrefix_iff.mpr ⟨putInt t.length ++ [lf], (List.append_assoc _ _ _).symm⟩
  have hdrop : (lit "#! rnews " ++ putInt t.length ++ [lf]).drop 9 = putInt t.length ++ [lf] := by
    rw [List.append_assoc]
    exact List.drop_left' rfl
  have hhead : (lit "#! rnews " ++ putInt t.length ++ [lf]).head? = some 35 := rfl
  dsimp only
  rw [hhead, hprefix, hdrop, hatol, if_pos (by omega : (0 : Int) < t.length)]
  rfl

/-! ## Header fields -/

/-- The text without its line ends. -/
def unfoldHeader : Str → Str
  | [] => []
  | c :: s =>
      if c = lf ∨ c = cr ∧ s.head? = some lf then unfoldHeader s else c :: unfoldHeader s

/-- A header field: a line that begins with its name, and more that begin with
a blank. -/
structure FieldLines (s w : Str) (ws : List Str) : Prop where
  text : s = ((w :: ws).map (· ++ [lf])).flatten
  lines : ∀ x ∈ w :: ws, lf ∉ x
  first : ∃ c t, w = c :: t ∧ c ≠ cr ∧ isDelim blanks c = false
  more : ∀ x ∈ ws, startsBlank x = true
  long : 1 < (unfoldHeader s).length
  short : s.length < BUFFERSIZE

def IsHeaderField (s : Str) : Prop := ∃ w ws, FieldLines s w ws

theorem unfoldHeader_line : ∀ {w : Str}, lf ∉ w → ∀ s : Str,
    unfoldHeader (w ++ lf :: s) = stripCrlf (w ++ [lf]) ++ unfoldHeader s
  | [], _, s => by
      rw [List.nil_append, unfoldHeader, if_pos (.inl rfl)]
      rfl
  | [c], h, s => by
      have hc : c ≠ lf := fun hc => h (hc ▸ List.mem_cons_self)
      have hs : unfoldHeader (lf :: s) = unfoldHeader s := by rw [unfoldHeader, if_pos (.inl rfl)]
      rw [List.singleton_append, unfoldHeader, hs, stripCrlf_lf, List.getLast?_singleton,
        List.head?_cons]
      by_cases hcr : c = cr
      · rw [if_pos (.inr ⟨hcr, rfl⟩), if_pos (congrArg some hcr)]
        rfl
      · rw [if_neg (fun h => h.elim hc fun h => hcr h.1), if_neg fun h => hcr (Option.some.inj h)]
        rfl
  | c :: d :: w, h, s => by
      have hc : c ≠ lf := fun hc => h (hc ▸ List.mem_cons_self)
      have hd : d ≠ lf := fun hd => h (hd ▸ List.mem_cons_of_mem c List.mem_cons_self)
      have ih := unfoldHeader_line (w := d :: w) (fun hm => h (List.mem_cons_of_mem c hm)) s
      have hgo : ¬ (c = lf ∨ c = cr ∧ (d :: w ++ lf :: s).head? = some lf) :=
        fun h => h.elim hc fun h => hd (Option.some.inj h.2)
      rw [List.cons_append, unfoldHeader, if_neg hgo, ih, stripCrlf_lf, stripCrlf_lf,
        List.getLast?_cons_cons]
      split
      · rfl
      · rfl

/-- A line that the buffer holds, alone. -/
theorem readLine_line {w : Str} (h : lf ∉ w) (hlen : w.length + 1 < BUFFERSIZE) (s : Str) :
    readLine BUFFERSIZE ⟨w ++ lf :: s, none⟩ = some (w ++ [lf], ⟨s, none⟩) := by
  have hgo : ¬ (BUFFERSIZE ≤ 1 ∨ (none : Option Nat) = some 0 ∨ w ++ lf :: s = []) := by
    rintro (h | h | h)
    · exact absurd h (by decide)
    · cases h
    · exact List.append_ne_nil_of_right_ne_nil w (List.cons_ne_nil lf s) h
  rw [readLine, if_neg hgo, readLineLoop_line s h (by omega)]

/-- The lines of a header, through the empty one. -/
theorem readUntilLoop_header : ∀ {ws : List Str} (rest : Str) (k : Nat),
    (∀ w ∈ ws, (lf ∉ w ∧ nul ∉ w) ∧ w.length + 1 < BUFFERSIZE ∧ endsHeader (w ++ [lf]) = false) →
    ws.length < k →
    readUntilLoop endsHeader k ⟨(ws.map (· ++ [lf])).flatten ++ lf :: rest, none⟩ =
      (ws.map (· ++ [lf]) ++ [[lf]], ⟨rest, none⟩)
  | _, _, 0, _, h => absurd h (Nat.not_lt_zero _)
  | [], rest, k + 1, _, _ => by
      have hline := readLine_line (w := []) List.not_mem_nil (by decide) rest
      rw [List.map_nil, List.flatten_nil, readUntilLoop, hline]
      rfl
  | w :: ws, rest, k + 1, h, hk => by
      obtain ⟨⟨hlf, hnul⟩, hlen, hends⟩ := h w List.mem_cons_self
      have ih := readUntilLoop_header rest k (fun x hx => h x (List.mem_cons_of_mem w hx))
        (Nat.lt_of_succ_lt_succ hk)
      have hcstr : cstr (w ++ [lf]) = w ++ [lf] := by
        refine List.takeWhile_eq_self_iff.mpr fun c hc => bne_iff_ne.mpr ?_
        rintro rfl
        obtain hc | hc := List.mem_append.mp hc
        · exact hnul hc
        · revert hc
          decide
      rw [List.map_cons, List.flatten_cons, List.append_assoc, List.append_assoc,
        List.singleton_append, readUntilLoop, readLine_line hlf hlen]
      dsimp only
      rw [hcstr, hends, ih]
      rfl

theorem startsBlank_strip {x : Str} (h : startsBlank x = true) :
    startsBlank (stripCrlf (x ++ [lf])) = true := by
  cases x with
  | nil => cases h
  | cons c x =>
      have hc : isDelim blanks c = true := h
      rw [stripCrlf_lf]
      split
      · next hcr =>
          cases x with
          | nil =>
              obtain rfl : c = cr := Option.some.inj hcr
              revert hc
              decide
          | cons d x => exact h
      · exact h

theorem endsHeader_blank {x : Str} (h : startsBlank x = true) : endsHeader (x ++ [lf]) = false := by
  cases x with
  | nil => cases h
  | cons c x =>
      have key : ∀ c : UInt8, isDelim blanks c = true → endsHeader [c] = false :=
        forall_byte (by decide +kernel)
      exact key c h

theorem FieldLines.endsHeader_first {s w : Str} {ws : List Str} (hs : FieldLines s w ws) :
    endsHeader (w ++ [lf]) = false := by
  obtain ⟨c, t, hw, hcr, -⟩ := hs.first
  have hc : c ≠ lf := fun hc => hs.lines w List.mem_cons_self (hw ▸ hc ▸ List.mem_cons_self)
  have key : ∀ c : UInt8, c ≠ cr → c ≠ lf → endsHeader [c] = false :=
    forall_byte (by decide +kernel)
  rw [hw]
  exact key c hcr hc

/-- The continuation lines are put behind what there is of the field. -/
theorem headerReadLoop_more : ∀ {ws : List Str} (more : List Str) (first : Bool) (queue : Str)
    (headers : List Str), (∀ x ∈ ws, lf ∉ x ∧ startsBlank x = true) →
    queue.length + ((ws.map (· ++ [lf])).flatten).length < BUFFERSIZE →
    headerReadLoop (ws.map (· ++ [lf]) ++ more) first queue headers =
      headerReadLoop more first (queue ++ unfoldHeader (ws.map (· ++ [lf])).flatten) headers
  | [], more, first, queue, headers, _, _ => by
      rw [List.map_nil, List.nil_append, List.flatten_nil, unfoldHeader, List.append_nil]
  | x :: ws, more, first, queue, headers, h, hlen => by
      obtain ⟨hlf, hblank⟩ := h x List.mem_cons_self
      rw [List.map_cons, List.flatten_cons, List.length_append, List.length_append,
        List.length_singleton] at hlen
      have hstrip := length_stripCrlf_lf x
      have hends := endsHeader_blank hblank
      have hline : (x ++ [lf]).take (BUFFERSIZE - 1) = x ++ [lf] := by
        refine List.take_of_length_le ?_
        rw [List.length_append, List.length_singleton]
        omega
      have ih := headerReadLoop_more more first (queue ++ stripCrlf (x ++ [lf])) headers
        (fun y hy => h y (List.mem_cons_of_mem x hy)) (by rw [List.length_append]; omega)
      rw [List.map_cons, List.cons_append, headerReadLoop]
      dsimp only
      rw [hline, if_neg (by rw [hends]; decide), if_pos (startsBlank_strip hblank),
        List.take_of_length_le (by omega), ih, List.flatten_cons, List.append_assoc x,
        List.singleton_append, unfoldHeader_line hlf, List.append_assoc]

/-- One field is one line of the header. -/
theorem headerReadLoop_field {s w : Str} {ws : List Str} (hs : FieldLines s w ws)
    (more : List Str) (first : Bool) (queue : Str) (headers : List Str) :
    headerReadLoop ((w :: ws).map (· ++ [lf]) ++ more) first queue headers =
      headerReadLoop more false (unfoldHeader s) (if first then headers else headers ++ [queue]) := by
  have hends := hs.endsHeader_first
  obtain ⟨htext, hlines, ⟨c, t, hw, hcr, hblank⟩, hmore, -, hshort⟩ := hs
  have hlf : lf ∉ w := hlines w List.mem_cons_self
  rw [List.map_cons, List.flatten_cons] at htext
  have hlen : w.length + 1 + ((ws.map (· ++ [lf])).flatten).length < BUFFERSIZE := by
    rw [htext, List.length_append, List.length_append, List.length_singleton] at hshort
    exact hshort
  have hstrip := length_stripCrlf_lf w
  have hnot : startsBlank (stripCrlf (w ++ [lf])) = false := by
    rw [stripCrlf_lf, hw]
    split
    · next hlast =>
        cases t with
        | nil => exact absurd (Option.some.inj hlast) hcr
        | cons d t => exact hblank
    · exact hblank
  have hline : (w ++ [lf]).take (BUFFERSIZE - 1) = w ++ [lf] := by
    refine List.take_of_length_le ?_
    rw [List.length_append, List.length_singleton]
    omega
  have hcopy : bufCopy BUFFERSIZE (stripCrlf (w ++ [lf])) = stripCrlf (w ++ [lf]) :=
    List.take_of_length_le (by omega)
  have hcont := headerReadLoop_more more false (stripCrlf (w ++ [lf]))
    (if first then headers else headers ++ [queue])
    (fun x hx => ⟨hlines x (List.mem_cons_of_mem w hx), hmore x hx⟩) (by omega)
  rw [List.map_cons, List.cons_append, headerReadLoop]
  dsimp only
  rw [hline, if_neg (by rw [hends]; decide), if_neg (by rw [hnot]; decide), hcopy, hcont, htext,
    List.append_assoc w, List.singleton_append, unfoldHeader_line hlf]

/-- What `readUntilLoop_header` asks of a line. -/
def IsHeaderLine (w : Str) : Prop :=
  (lf ∉ w ∧ nul ∉ w) ∧ w.length + 1 < BUFFERSIZE ∧ endsHeader (w ++ [lf]) = false

theorem FieldLines.isHeaderLine {s w : Str} {ws : List Str} (hs : FieldLines s w ws)
    (hnul : nul ∉ s) : ∀ x ∈ w :: ws, IsHeaderLine x := by
  intro x hx
  have hsub : (x ++ [lf]).Sublist s := by
    rw [hs.text]
    exact List.sublist_flatten_of_mem (List.mem_map_of_mem hx)
  refine ⟨⟨hs.lines x hx, fun h => hnul (hsub.subset (List.mem_append_left _ h))⟩, ?_, ?_⟩
  · have hlen := hsub.length_le
    rw [List.length_append, List.length_singleton] at hlen
    exact Nat.lt_of_le_of_lt hlen hs.short
  · obtain rfl | hx := List.mem_cons.mp hx
    · exact hs.endsHeader_first
    · exact endsHeader_blank (hs.more x hx)

theorem length_le_lines (ws : List Str) : ws.length ≤ ((ws.map (· ++ [lf])).flatten).length := by
  induction ws with
  | nil => exact Nat.le_refl 0
  | cons w ws ih =>
      rw [List.map_cons, List.flatten_cons, List.length_append, List.length_append,
        List.length_singleton, List.length_cons]
      omega

/-- The lines of the fields of a header, and what the loop makes of them. -/
theorem exists_headerLines : ∀ {fields : List Str}, (∀ s ∈ fields, IsHeaderField s ∧ nul ∉ s) →
    ∃ ws : List Str, fields.flatten = (ws.map (· ++ [lf])).flatten ∧ (∀ w ∈ ws, IsHeaderLine w) ∧
      (∀ (queue : Str) (headers : List Str), 1 < queue.length →
        headerReadLoop (ws.map (· ++ [lf]) ++ [[lf]]) false queue headers =
          headers ++ [queue] ++ fields.map unfoldHeader) ∧
      headerReadList (ws.map (· ++ [lf]) ++ [[lf]]) = fields.map unfoldHeader
  | [], _ => by
      refine ⟨[], rfl, fun _ h => (nomatch h), fun queue headers hq => ?_, rfl⟩
      rw [List.map_nil, List.nil_append, headerReadLoop]
      dsimp only
      rw [if_pos (by decide), if_pos hq, List.map_nil, List.append_nil]
  | s :: fields, h => by
      obtain ⟨⟨w, ws, hs⟩, hnul⟩ := h s List.mem_cons_self
      obtain ⟨ws', hflat, hlines, hloop, hlist⟩ :=
        exists_headerLines fun t ht => h t (List.mem_cons_of_mem s ht)
      refine ⟨(w :: ws) ++ ws', ?_, ?_, fun queue headers hq => ?_, ?_⟩
      · rw [List.flatten_cons, hflat, hs.text, List.map_append, List.flatten_append]
      · intro x hx
        obtain hx | hx := List.mem_append.mp hx
        · exact hs.isHeaderLine hnul x hx
        · exact hlines x hx
      · rw [List.map_append, List.append_assoc, headerReadLoop_field hs, if_neg (by decide),
          hloop _ _ hs.long]
        simp
      · rw [List.map_append, List.append_assoc, headerReadList, headerReadLoop_field hs,
          if_pos rfl, hloop _ _ hs.long]
        rfl

/-- A header of fields is read as these fields, and the body is left. -/
theorem headerRead_fields {fields : List Str} (h : ∀ s ∈ fields, IsHeaderField s ∧ nul ∉ s)
    (body : Str) : headerRead ⟨fields.flatten ++ lf :: body, none⟩ =
      (fields.map unfoldHeader, ⟨body, none⟩) := by
  obtain ⟨ws, hflat, hlines, -, hlist⟩ := exists_headerLines h
  have hcount : ws.length < (fields.flatten ++ lf :: body).length + 1 := by
    have hle := length_le_lines ws
    rw [List.length_append, hflat]
    omega
  have hread := readUntilLoop_header body _ hlines hcount
  rw [← hflat] at hread
  rw [headerRead, readUntil, hread, hlist]

end Fidogate

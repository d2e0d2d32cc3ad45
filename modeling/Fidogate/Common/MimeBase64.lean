/-
# `Fidogate.Common.MimeBase64` — mime.c: a body in base64 and back

The encoder takes three bytes at a time, across the ends of the lines.  The
decoder goes through what it has decoded byte by byte, as it were: a line is
put out at a LF, or where it has `MAX_LINE_LENGTH` bytes.
-/
import Fidogate.Common.MimeQp
import Fidogate.Lib.Lines

namespace Fidogate

open Bytes Parts

/-! ## Encoding -/

/-- `mime_inttob64` -/
def mimeInttob64 (a : Nat) : UInt8 :=
  let c := UInt8.ofNat (a &&& 0x3f)
  if c ≤ 0x19 then c + 65
  else if c ≤ 0x33 then c - 0x1a + 97
  else if c ≤ 0x3d then c - 0x34 + 48
  else if c = 0x3e then 43
  else 47

/-- `mime_b64_encode_chunk` -/
def mimeB64EncodeChunk : Str → Str
  | [] => []
  | [a] => [mimeInttob64 (a.toNat >>> 2), mimeInttob64 (a.toNat <<< 4), 61, 61]
  | [a, b] =>
      [mimeInttob64 (a.toNat >>> 2), mimeInttob64 (a.toNat <<< 4 ||| b.toNat >>> 4),
        mimeInttob64 (b.toNat <<< 2), 61]
  | a :: b :: c :: _ =>
      [mimeInttob64 (a.toNat >>> 2), mimeInttob64 (a.toNat <<< 4 ||| b.toNat >>> 4),
        mimeInttob64 (b.toNat <<< 2 ||| c.toNat >>> 6), mimeInttob64 c.toNat]

/-- `B64_ENC_CHUNK` -/
def B64_ENC_CHUNK : Nat := 3

/-- `B64_NLET_PER_CHUNK` -/
def B64_NLET_PER_CHUNK : Nat := 4

/-- The loop of `mime_b64_encode_tl`, with what is in `buf`. -/
def mimeB64EncodeLoop : Nat → Str → List Str → List Str
  | 0, buf, _ => [buf ++ [lf]]
  | n + 1, buf, iter =>
      let r := tlCharIteratorNext B64_ENC_CHUNK iter
      if r.1 = [] then [buf ++ [lf]]
      else if buf.length + B64_NLET_PER_CHUNK > MIME_STRING_LIMIT then
        (buf ++ [lf]) :: mimeB64EncodeLoop n (mimeB64EncodeChunk r.1) r.2
      else mimeB64EncodeLoop n (buf ++ mimeB64EncodeChunk r.1) r.2

/-- `mime_b64_encode_tl` -/
def mimeB64EncodeTl (lines : List Str) : List Str :=
  mimeB64EncodeLoop (lines.flatten.length + 1) [] lines

/-! ## The lines that come back -/

/-- A line of the decoded text, or a part of a long one, with its end: a CR in
front of the LF is removed, and a LF put where there is none. -/
def endLine (part : Str) : Str :=
  if [cr, lf].isSuffixOf part then part.take (part.length - 2) ++ [lf]
  else if part.getLast? = some lf then part
  else part ++ [lf]

/-- There is no room behind these bytes. -/
def b64Full (part : Str) : Bool := part.length == MAX_LINE_LENGTH

/-- The parts of a line that fit in the buffer. -/
def b64Pieces (line : Str) : List Str := pieces b64Full line

/-- A part that is put out as it is meant: it is more than a LF, and no CR
stands in front of another byte at its end. -/
def GoodPiece (part : Str) : Prop :=
  2 ≤ part.length ∧ (part.getLast? = some lf ∨ part[part.length - 2]? ≠ some cr)

instance (part : Str) : Decidable (GoodPiece part) :=
  inferInstanceAs (Decidable
    (2 ≤ part.length ∧ (part.getLast? = some lf ∨ part[part.length - 2]? ≠ some cr)))

/-- The lines of a body, without an empty one at its end. -/
def bodyLines (lines : List Str) : List Str :=
  if (Lines.lines lf lines.flatten).getLast? = some [lf] then
    (Lines.lines lf lines.flatten).dropLast
  else Lines.lines lf lines.flatten

/-- The lines are those of the text, up to a line end at its end. -/
def SameLines (dec : List Str) (text : Str) : Prop :=
  dec = Lines.lines lf dec.flatten ∧ SameText dec.flatten text

instance (dec : List Str) (text : Str) : Decidable (SameLines dec text) :=
  inferInstanceAs (Decidable (dec = Lines.lines lf dec.flatten ∧ SameText dec.flatten text))

/-! ## Three bytes -/

theorem mimeB64toint_inttob64 (a : Nat) : mimeB64toint (mimeInttob64 a) = some (a &&& 0x3f) := by
  have key : ∀ d : Fin 64, mimeB64toint (mimeInttob64 d.val) = some d.val := by decide +kernel
  have hlt : a &&& 0x3f < 64 := Nat.lt_of_le_of_lt Nat.and_le_right (by decide)
  have h := key ⟨a &&& 0x3f, hlt⟩
  have hand : a &&& 0x3f &&& 0x3f = a &&& 0x3f := by rw [Nat.and_assoc, Nat.and_self]
  rw [mimeInttob64, hand] at h
  exact h

/-- Six bits out of two bytes. -/
theorem sixBits (a b : UInt8) :
    a.toNat >>> 2 &&& 0x3f = a.toNat / 4 ∧
      (a.toNat <<< 4 ||| b.toNat >>> 4) &&& 0x3f = a.toNat % 4 * 16 + b.toNat / 16 ∧
      (a.toNat <<< 2 ||| b.toNat >>> 6) &&& 0x3f = a.toNat % 16 * 4 + b.toNat / 64 ∧
      a.toNat &&& 0x3f = a.toNat % 64 := by
  have h4 : ∀ (a : Fin 256) (b : Fin 16),
      (a.val <<< 4 ||| b.val) &&& 0x3f = a.val % 4 * 16 + b.val := by decide +kernel
  have h2 : ∀ (a : Fin 256) (b : Fin 4),
      (a.val <<< 2 ||| b.val) &&& 0x3f = a.val % 16 * 4 + b.val := by decide +kernel
  have h : ∀ a : Fin 256, a.val >>> 2 &&& 0x3f = a.val / 4 ∧ a.val &&& 0x3f = a.val % 64 := by
    decide +kernel
  have ha := a.toNat_lt
  have hb := b.toNat_lt
  rw [Nat.shiftRight_eq_div_pow b.toNat 4, Nat.shiftRight_eq_div_pow b.toNat 6]
  exact ⟨(h ⟨a.toNat, ha⟩).1, h4 ⟨a.toNat, ha⟩ ⟨b.toNat / 2 ^ 4, by omega⟩,
    h2 ⟨a.toNat, ha⟩ ⟨b.toNat / 2 ^ 6, by omega⟩, (h ⟨a.toNat, ha⟩).2⟩

/-- A byte out of two times six bits. -/
theorem eightBits {v w : Nat} (hv : v < 64) (hw : w < 64) :
    v <<< 2 ||| w >>> 4 = v * 4 + w / 16 ∧
      ((v <<< 4) &&& 0xf0 ||| w >>> 2) = v % 16 * 16 + w / 4 ∧
      ((v <<< 6) &&& 0xc0 ||| w) = v % 4 * 64 + w := by
  have key : ∀ v w : Fin 64, v.val <<< 2 ||| w.val >>> 4 = v.val * 4 + w.val / 16 ∧
      ((v.val <<< 4) &&& 0xf0 ||| w.val >>> 2) = v.val % 16 * 16 + w.val / 4 ∧
      ((v.val <<< 6) &&& 0xc0 ||| w.val) = v.val % 4 * 64 + w.val := by decide +kernel
  exact key ⟨v, hv⟩ ⟨w, hw⟩

theorem ofNat_eq {c : UInt8} {n : Nat} (h : n = c.toNat) : UInt8.ofNat n = c := by
  rw [h, UInt8.ofNat_toNat]

theorem mimeB64Decode_chunk (a b c : UInt8) (s : Str) :
    mimeB64Decode (mimeB64EncodeChunk [a, b, c] ++ s) = (mimeB64Decode s).map ([a, b, c] ++ ·) := by
  have ha := a.toNat_lt
  have hb := b.toNat_lt
  have hc := c.toNat_lt
  obtain ⟨h1, h2, -, -⟩ := sixBits a b
  obtain ⟨-, -, h3, -⟩ := sixBits b c
  obtain ⟨-, -, -, h4⟩ := sixBits c c
  have o1 := (@eightBits (a.toNat / 4) (a.toNat % 4 * 16 + b.toNat / 16) (by omega) (by omega)).1
  have o2 := (@eightBits (a.toNat % 4 * 16 + b.toNat / 16) (b.toNat % 16 * 4 + c.toNat / 64)
    (by omega) (by omega)).2.1
  have o3 := (@eightBits (b.toNat % 16 * 4 + c.toNat / 64) (c.toNat % 64) (by omega)
    (by omega)).2.2
  rw [mimeB64EncodeChunk, List.cons_append, List.cons_append, List.cons_append,
    List.singleton_append, mimeB64Decode]
  simp only [mimeB64toint_inttob64, h1, h2, h3, h4, Option.bind_eq_bind, Option.bind_some]
  rw [if_pos (by omega), if_pos (by omega), o1, o2, o3, ofNat_eq (c := a) (by omega),
    ofNat_eq (c := b) (by omega), ofNat_eq (c := c) (by omega)]
  cases mimeB64Decode s <;> rfl

theorem mimeB64toint_pad : mimeB64toint 61 = some 0x40 := by decide

theorem mimeB64Decode_one (a : UInt8) : mimeB64Decode (mimeB64EncodeChunk [a]) = some [a] := by
  have ha := a.toNat_lt
  obtain ⟨h1, -, -, -⟩ := sixBits a a
  obtain ⟨-, h2, -, -⟩ := sixBits a 0
  have hzero : a.toNat <<< 4 &&& 0x3f = a.toNat % 4 * 16 := by simpa using h2
  have o1 := (@eightBits (a.toNat / 4) (a.toNat % 4 * 16) (by omega) (by omega)).1
  rw [mimeB64EncodeChunk, mimeB64Decode]
  simp only [mimeB64toint_inttob64, mimeB64toint_pad, h1, hzero, Option.bind_eq_bind,
    Option.bind_some]
  rw [if_neg (by decide), if_neg (by decide), o1, ofNat_eq (c := a) (by omega)]
  rfl

theorem mimeB64Decode_two (a b : UInt8) :
    mimeB64Decode (mimeB64EncodeChunk [a, b]) = some [a, b] := by
  have ha := a.toNat_lt
  have hb := b.toNat_lt
  obtain ⟨h1, h2, -, -⟩ := sixBits a b
  obtain ⟨-, -, h3, -⟩ := sixBits b 0
  have hzero : b.toNat <<< 2 &&& 0x3f = b.toNat % 16 * 4 := by simpa using h3
  have o1 := (@eightBits (a.toNat / 4) (a.toNat % 4 * 16 + b.toNat / 16) (by omega) (by omega)).1
  have o2 := (@eightBits (a.toNat % 4 * 16 + b.toNat / 16) (b.toNat % 16 * 4) (by omega)
    (by omega)).2.1
  rw [mimeB64EncodeChunk, mimeB64Decode]
  simp only [mimeB64toint_inttob64, mimeB64toint_pad, h1, h2, hzero, Option.bind_eq_bind,
    Option.bind_some]
  rw [if_pos (by omega), if_neg (by decide), o1, o2, ofNat_eq (c := a) (by omega),
    ofNat_eq (c := b) (by omega)]
  rfl

/-! ## The encoded lines -/

/-- The codes of some bytes. -/
def b64Codes : Str → Str
  | a :: b :: c :: s => mimeB64EncodeChunk [a, b, c] ++ b64Codes s
  | s => mimeB64EncodeChunk s

theorem b64Codes_chunk : ∀ {s : Str}, s.length ≤ B64_ENC_CHUNK → b64Codes s = mimeB64EncodeChunk s
  | [], _ => rfl
  | [_], _ => rfl
  | [_, _], _ => rfl
  | [a, b, c], _ => List.append_nil _
  | _ :: _ :: _ :: _ :: _, h => absurd h (by simp [B64_ENC_CHUNK])

theorem b64Codes_append : ∀ {s : Str} (t : Str), s.length % 3 = 0 →
    b64Codes (s ++ t) = b64Codes s ++ b64Codes t
  | [], t, _ => rfl
  | [_], _, h => absurd h (by simp)
  | [_, _], _, h => absurd h (by simp)
  | a :: b :: c :: s, t, h => by
      have hs : s.length % 3 = 0 := by
        simp only [List.length_cons] at h
        omega
      rw [List.cons_append, List.cons_append, List.cons_append, b64Codes, b64Codes,
        b64Codes_append t hs, List.append_assoc]

theorem length_b64Codes : ∀ s : Str, (b64Codes s).length % 4 = 0
  | [] => rfl
  | [a] => by
      have hlen : (b64Codes [a]).length = 4 := rfl
      rw [hlen]
  | [a, b] => by
      have hlen : (b64Codes [a, b]).length = 4 := rfl
      rw [hlen]
  | a :: b :: c :: s => by
      have ih := length_b64Codes s
      have hlen : (mimeB64EncodeChunk [a, b, c]).length = 4 := rfl
      rw [b64Codes, List.length_append, hlen, Nat.add_mod, ih]

theorem mimeB64Decode_codes : ∀ s : Str, mimeB64Decode (b64Codes s) = some s
  | [] => rfl
  | [a] => mimeB64Decode_one a
  | [a, b] => mimeB64Decode_two a b
  | a :: b :: c :: s => by
      rw [b64Codes, mimeB64Decode_chunk, mimeB64Decode_codes s]
      rfl

/-- Bytes that make a line of the encoded body. -/
def FitsLine (part : Str) : Prop := (b64Codes part).length ≤ MIME_STRING_LIMIT

/-- The encoded body has a line for each part of the text. -/
theorem mimeB64EncodeLoop_eq : ∀ (n : Nat) (part : Str) (iter : List Str),
    iter.flatten.length < n → part.length % 3 = 0 ∨ iter.flatten = [] → FitsLine part →
    ∃ ps : List Str,
      mimeB64EncodeLoop n (b64Codes part) iter = ps.map (fun p => b64Codes p ++ [lf]) ∧
      ps.flatten = part ++ iter.flatten ∧ ∀ p ∈ ps, FitsLine p
  | 0, _, _, h, _, _ => absurd h (Nat.not_lt_zero _)
  | n + 1, part, iter, h, hpart, hfit => by
      obtain ⟨htake, hdrop⟩ := tlCharIteratorNext_flatten B64_ENC_CHUNK iter
      rw [mimeB64EncodeLoop]
      generalize tlCharIteratorNext B64_ENC_CHUNK iter = r at htake hdrop ⊢
      obtain ⟨s, iter'⟩ := r
      dsimp only at htake hdrop ⊢
      by_cases hs : s = []
      · have hnil : iter.flatten = [] := by
          rw [hs] at htake
          exact (List.take_eq_nil_iff.mp htake.symm).resolve_left (by decide)
        refine ⟨[part], ?_, ?_, fun p hp => List.mem_singleton.mp hp ▸ hfit⟩
        · rw [if_pos hs]
          rfl
        · rw [List.flatten_singleton, hnil, List.append_nil]
      · have hflat : s ++ iter'.flatten = iter.flatten := by
          rw [htake, hdrop, List.take_append_drop]
        have hlen : s.length ≤ B64_ENC_CHUNK := by
          rw [htake]
          exact List.length_take_le _ _
        have hpos : 0 < s.length := List.length_pos_iff.mpr hs
        have hless : iter'.flatten.length < n := by
          rw [← hflat, List.length_append] at h
          omega
        -- The chunk is short only where nothing comes behind it.
        have hfull : s.length % 3 = 0 ∨ iter'.flatten = [] := by
          by_cases h3 : s.length = 3
          · exact .inl (by omega)
          · right
            rw [hdrop, List.drop_eq_nil_iff]
            rw [htake, List.length_take] at h3
            simp only [B64_ENC_CHUNK] at h3 ⊢
            omega
        have hpart3 : part.length % 3 = 0 := by
          refine hpart.resolve_right fun hnil => hs ?_
          rw [htake, hnil, List.take_nil]
        have hchunk : (b64Codes s).length ≤ 4 := by
          rw [b64Codes_chunk hlen]
          match s, hlen with
          | [], _ => exact Nat.zero_le 4
          | [_], _ => exact Nat.le_refl 4
          | [_, _], _ => exact Nat.le_refl 4
          | [_, _, _], _ => exact Nat.le_refl 4
          | _ :: _ :: _ :: _ :: _, h => exact absurd h (by simp [B64_ENC_CHUNK])
        rw [if_neg hs, ← b64Codes_chunk hlen]
        split
        · obtain ⟨ps, hps, hpsflat, hpsfit⟩ := mimeB64EncodeLoop_eq n s iter' hless hfull
            (hchunk.trans (by decide))
          refine ⟨part :: ps, ?_, ?_, ?_⟩
          · rw [hps]
            rfl
          · rw [List.flatten_cons, hpsflat, hflat]
          · intro p hp
            obtain rfl | hp := List.mem_cons.mp hp
            · exact hfit
            · exact hpsfit p hp
        · next hroom =>
            have happ := b64Codes_append s hpart3
            have hfit' : FitsLine (part ++ s) := by
              rw [FitsLine, happ, List.length_append]
              simp only [B64_NLET_PER_CHUNK] at hroom
              omega
            have hmore : (part ++ s).length % 3 = 0 ∨ iter'.flatten = [] := by
              rw [List.length_append]
              exact hfull.imp_left fun h => by omega
            obtain ⟨ps, hps, hpsflat, hpsfit⟩ :=
              mimeB64EncodeLoop_eq n (part ++ s) iter' hless hmore hfit'
            refine ⟨ps, ?_, ?_, hpsfit⟩
            · rw [← happ, hps]
            · rw [hpsflat, List.append_assoc, hflat]

theorem mimeB64EncodeTl_eq (lines : List Str) : ∃ ps : List Str,
    mimeB64EncodeTl lines = ps.map (fun p => b64Codes p ++ [lf]) ∧ ps.flatten = lines.flatten ∧
      ∀ p ∈ ps, FitsLine p :=
  mimeB64EncodeLoop_eq _ [] lines (Nat.lt_succ_self _) (.inl rfl) (Nat.zero_le _)

/-! ## Decoding, byte by byte -/

/-- A byte is collected; the line is put out at its end, or where it is full. -/
def b64Byte (o : B64Out) (c : UInt8) : B64Out :=
  if c = lf ∨ o.left ≤ 1 then mimeDebodyFlushStr { o with str := o.str ++ [c] }
  else { o with str := o.str ++ [c], left := o.left - 1 }

theorem mimeDebodyFlushStr_left (body : List Str) (str : Str) (left left' : Nat) :
    mimeDebodyFlushStr ⟨body, str, left⟩ = mimeDebodyFlushStr ⟨body, str, left'⟩ := rfl

theorem left_flushStr (o : B64Out) : (mimeDebodyFlushStr o).left = MAX_LINE_LENGTH := by
  rw [mimeDebodyFlushStr]
  dsimp only
  split <;> rfl

/-- Bytes that do not fill the line. -/
theorem foldl_b64Byte_lt : ∀ {s : Str} {o : B64Out}, lf ∉ s → s.length < o.left →
    s.foldl b64Byte o = { o with str := o.str ++ s, left := o.left - s.length }
  | [], o, _, _ => by
      rw [List.append_nil]
      rfl
  | c :: s, o, hlf, hlen => by
      rw [List.length_cons] at hlen
      have hc : ¬ (c = lf ∨ o.left ≤ 1) := by
        rintro (h | h)
        · exact hlf (h ▸ List.mem_cons_self)
        · omega
      have ih := @foldl_b64Byte_lt s { o with str := o.str ++ [c], left := o.left - 1 }
        (fun h => hlf (List.mem_cons_of_mem c h)) (Nat.lt_sub_of_add_lt hlen)
      rw [List.foldl_cons, b64Byte, if_neg hc, ih]
      dsimp only
      rw [List.append_assoc, List.singleton_append, List.length_cons, Nat.sub_sub, Nat.add_comm 1]

/-- Bytes that fill it. -/
theorem foldl_b64Byte_eq {s : Str} {o : B64Out} (hlf : lf ∉ s) (hpos : 0 < o.left)
    (hlen : s.length = o.left) :
    s.foldl b64Byte o = mimeDebodyFlushStr { o with str := o.str ++ s } := by
  obtain rfl | ⟨s, c, rfl⟩ := List.eq_nil_or_concat s
  · exact absurd hlen (Nat.ne_of_lt hpos)
  · rw [List.concat_eq_append] at hlf hlen ⊢
    rw [List.length_append, List.length_singleton] at hlen
    have hs := @foldl_b64Byte_lt s o (fun h => hlf (List.mem_append_left _ h)) (by omega)
    rw [List.foldl_append, hs, List.foldl_cons, List.foldl_nil, b64Byte]
    dsimp only
    rw [if_pos (.inr (by omega)), List.append_assoc]
    exact mimeDebodyFlushStr_left _ _ _ _

/-- A line end. -/
theorem foldl_b64Byte_lf {s : Str} {o : B64Out} (hlf : lf ∉ s) (hlen : s.length < o.left) :
    (s ++ [lf]).foldl b64Byte o = mimeDebodyFlushStr { o with str := o.str ++ (s ++ [lf]) } := by
  rw [List.foldl_append, foldl_b64Byte_lt hlf hlen, List.foldl_cons, List.foldl_nil, b64Byte]
  dsimp only
  rw [if_pos (.inl rfl), List.append_assoc]
  exact mimeDebodyFlushStr_left _ _ _ _

theorem left_b64Byte {o : B64Out} (_ : 0 < o.left) (c : UInt8) : 0 < (b64Byte o c).left := by
  rw [b64Byte]
  split
  · rw [left_flushStr]
    decide
  · next hc =>
      rw [not_or] at hc
      dsimp only
      omega

theorem left_foldl_b64Byte : ∀ (s : Str) {o : B64Out}, 0 < o.left → 0 < (s.foldl b64Byte o).left
  | [], _, h => h
  | c :: s, _, h => left_foldl_b64Byte s (left_b64Byte h c)

/-- The loop over the line ends, and what it leaves, are the same as the bytes
one by one. -/
theorem b64Newlines_eq : ∀ (n : Nat) {o : B64Out} (dec : Str), 0 < o.left → dec.length < n →
    (b64Newlines n o dec).2.foldl b64Byte (b64Newlines n o dec).1 = dec.foldl b64Byte o ∧
      lf ∉ (b64Newlines n o dec).2 ∧ 0 < (b64Newlines n o dec).1.left ∧
      (b64Newlines n o dec).2.length ≤ dec.length
  | 0, _, _, _, h => absurd h (Nat.not_lt_zero _)
  | n + 1, o, dec, hpos, hn => by
      rw [b64Newlines]
      by_cases hmem : lf ∈ dec
      · obtain ⟨w, t, rfl, hw⟩ := List.eq_append_cons_of_mem hmem
        have htake : ((w ++ lf :: t).takeWhile (· != lf)).length = w.length := by
          rw [(takeWhile_not_mem hw t).1]
        rw [List.length_append, List.length_cons] at hn
        rw [if_pos hmem]
        dsimp only
        rw [htake]
        -- One line is put out, either at its end or because it is full.
        have hstep : ∃ s t', w ++ lf :: t = s ++ t' ∧ s.length = min (w.length + 1) o.left ∧
            s.foldl b64Byte o = mimeDebodyFlushStr { o with str := o.str ++ s } := by
          by_cases hlen : w.length < o.left
          · refine ⟨w ++ [lf], t, by rw [List.append_assoc, List.singleton_append], ?_,
              foldl_b64Byte_lf hw hlen⟩
            rw [List.length_append, List.length_singleton]
            omega
          · have htlen : (w.take o.left).length = o.left := by
              rw [List.length_take]
              omega
            refine ⟨w.take o.left, w.drop o.left ++ lf :: t, ?_, by omega, ?_⟩
            · rw [← List.append_assoc, List.take_append_drop]
            · exact foldl_b64Byte_eq (fun h => hw (List.mem_of_mem_take h)) hpos htlen
        obtain ⟨s, t', hst, hs, hfold⟩ := hstep
        rw [hst, ← hs, List.take_left, List.drop_left, List.foldl_append, hfold]
        have hless := congrArg List.length hst
        rw [List.length_append, List.length_append, List.length_cons] at hless
        obtain ⟨h1, h2, h3, h4⟩ := b64Newlines_eq n (o := mimeDebodyFlushStr
          { o with str := o.str ++ s }) t' (by rw [left_flushStr]; decide) (by omega)
        refine ⟨h1, h2, h3, h4.trans ?_⟩
        rw [List.length_append]
        omega
      · rw [if_neg hmem]
        exact ⟨rfl, hmem, hpos, Nat.le_refl _⟩

theorem b64Tail_eq : ∀ (n : Nat) {o : B64Out} (dec : Str), 0 < o.left → lf ∉ dec →
    dec.length < n → b64Tail n o dec = dec.foldl b64Byte o
  | 0, _, _, _, _, h => absurd h (Nat.not_lt_zero _)
  | n + 1, o, dec, hpos, hlf, hn => by
      rw [b64Tail]
      split
      · next hlen => rw [foldl_b64Byte_lt hlf hlen]
      · next hlen =>
          have htlen : (dec.take o.left).length = o.left := by
            rw [List.length_take]
            omega
          have hfold := foldl_b64Byte_eq (o := o)
            (fun h => hlf (List.mem_of_mem_take (i := o.left) h)) hpos htlen
          have hsplit : dec.foldl b64Byte o =
              (dec.drop o.left).foldl b64Byte
                (mimeDebodyFlushStr { o with str := o.str ++ dec.take o.left }) := by
            rw [← hfold, ← List.foldl_append, List.take_append_drop]
          rw [hsplit]
          dsimp only
          split
          · next hzero =>
              rw [List.drop_of_length_le (by omega)]
              rfl
          · have hdrop := List.length_drop (l := dec) (i := o.left)
            exact b64Tail_eq n _ (by rw [left_flushStr]; decide)
              (fun h => hlf (List.mem_of_mem_drop h)) (by omega)

/-- What is put out at the end. -/
def b64End (o : B64Out) : List Str :=
  if o.left ≠ MAX_LINE_LENGTH then (mimeDebodyFlushStr o).body else o.body

theorem mimeDebodyBase64Loop_codes : ∀ {ps : List Str} {o : B64Out}, 0 < o.left →
    (∀ p ∈ ps, FitsLine p ∧ nul ∉ p) →
    mimeDebodyBase64Loop (ps.map fun p => b64Codes p ++ [lf]) o =
      b64End (ps.flatten.foldl b64Byte o)
  | [], _, _, _ => rfl
  | p :: ps, o, hpos, hps => by
      obtain ⟨hfit, hnul⟩ := hps p List.mem_cons_self
      have hmod := length_b64Codes p
      have hlen : min (b64Codes p ++ [lf]).length MIME_ENC_STRING_LIMIT / 4 * 4 =
          (b64Codes p).length := by
        simp only [FitsLine, MIME_STRING_LIMIT] at hfit
        rw [List.length_append, List.length_singleton, MIME_ENC_STRING_LIMIT]
        omega
      have hcstr : cstr p = p := List.takeWhile_eq_self_iff.mpr fun c hc =>
        bne_iff_ne.mpr fun h => hnul (h ▸ hc)
      obtain ⟨hfold, hlf, hleft, hle⟩ :=
        b64Newlines_eq (p.length + 1) (o := o) p hpos (Nat.lt_succ_self _)
      rw [List.map_cons, mimeDebodyBase64Loop]
      dsimp only
      rw [hlen, List.take_left, mimeB64Decode_codes]
      dsimp only
      rw [hcstr, b64Tail_eq _ _ hleft hlf (Nat.lt_succ_self _), hfold,
        mimeDebodyBase64Loop_codes (left_foldl_b64Byte p hpos)
          fun q hq => hps q (List.mem_cons_of_mem p hq),
        List.flatten_cons, List.foldl_append]

/-! ## Lines -/

theorem endLine_lf {p : Str} (hcr : ¬ [cr, lf] <:+ p) (hlf : p.getLast? = some lf) :
    endLine p = p := by
  rw [endLine, if_neg fun h => hcr (List.isSuffixOf_iff_suffix.mp h), if_pos hlf]

/-- What is put out of a part. -/
theorem flushStr_good {p : Str} (h : GoodPiece p) (body : List Str) (left : Nat) :
    mimeDebodyFlushStr ⟨body, p, left⟩ = ⟨body ++ [endLine p], [], MAX_LINE_LENGTH⟩ := by
  obtain ⟨hlen, hend⟩ := h
  have hcr : [cr, lf] <:+ p ↔ p[p.length - 2]? = some cr := by
    constructor
    · rintro ⟨u, rfl⟩
      rw [List.length_append, List.length_cons, List.length_singleton, Nat.add_sub_cancel,
        List.getElem?_append_right (Nat.le_refl _), Nat.sub_self]
      rfl
    · intro hget
      have hlast := hend.resolve_right fun hne => hne hget
      obtain ⟨u, rfl⟩ := List.getLast?_eq_some_iff.mp hlast
      rw [List.length_append, List.length_singleton] at hlen hget
      have hu : u.getLast? = some cr := by
        rw [List.getLast?_eq_getElem?]
        rwa [List.getElem?_append_left (by omega)] at hget
      obtain ⟨t, rfl⟩ := List.getLast?_eq_some_iff.mp hu
      exact ⟨t, by rw [List.append_assoc, List.singleton_append]⟩
  rw [mimeDebodyFlushStr]
  dsimp only
  rw [if_neg (Nat.not_lt.mpr hlen), endLine]
  by_cases hsuf : [cr, lf] <:+ p
  · rw [if_pos (hcr.mp hsuf), if_pos (List.isSuffixOf_iff_suffix.mpr hsuf)]
  · rw [if_neg fun h => hsuf (hcr.mpr h), if_neg fun h => hsuf (List.isSuffixOf_iff_suffix.mp h)]
    by_cases hlf : p.getLast? = some lf
    · rw [if_neg (not_not_intro hlf), if_pos hlf]
    · rw [if_pos hlf, if_neg hlf]

/-- A line is put out part by part; `part` is the one at hand. -/
theorem foldl_b64Byte_line : ∀ {w : Str} (part : Str) (body : List Str), lf ∉ w →
    part.length < MAX_LINE_LENGTH →
    (∀ p ∈ (parts b64Full part (w ++ [lf])).1 ++ [(parts b64Full part (w ++ [lf])).2],
      GoodPiece p) →
    (w ++ [lf]).foldl b64Byte ⟨body, part, MAX_LINE_LENGTH - part.length⟩ =
      ⟨body ++ ((parts b64Full part (w ++ [lf])).1 ++
        [(parts b64Full part (w ++ [lf])).2]).map endLine, [], MAX_LINE_LENGTH⟩
  | [], part, body, _, hlen, hgood => by
      have hfull : b64Full part = false := beq_false_of_ne (Nat.ne_of_lt hlen)
      have hparts : parts b64Full part [lf] = ([], part ++ [lf]) := by
        rw [parts_cons hfull, parts]
      rw [List.nil_append] at hgood ⊢
      rw [hparts] at hgood ⊢
      rw [List.foldl_cons, List.foldl_nil, b64Byte, if_pos (.inl rfl)]
      exact flushStr_good (hgood _ (List.mem_singleton_self _)) body _
  | c :: w, part, body, hlf, hlen, hgood => by
      have hc : c ≠ lf := fun h => hlf (h ▸ List.mem_cons_self)
      have hw : lf ∉ w := fun h => hlf (List.mem_cons_of_mem c h)
      have hfull : b64Full part = false := beq_false_of_ne (Nat.ne_of_lt hlen)
      rw [List.cons_append, parts_cons hfull] at hgood ⊢
      rw [List.foldl_cons, b64Byte]
      dsimp only
      by_cases hroom : MAX_LINE_LENGTH - part.length ≤ 1
      · -- The part is full, and the next one begins.
        have hnext : b64Full (part ++ [c]) = true := by
          rw [b64Full, List.length_append, List.length_singleton, beq_iff_eq]
          omega
        obtain ⟨d, t, ht⟩ : ∃ d t, w ++ [lf] = d :: t := by
          cases w with
          | nil => exact ⟨lf, [], rfl⟩
          | cons d w => exact ⟨d, w ++ [lf], rfl⟩
        have hrest : parts b64Full [] (w ++ [lf]) = parts b64Full [d] t := by
          rw [ht, parts_cons (by decide)]
          rfl
        have hparts : parts b64Full (part ++ [c]) (w ++ [lf]) =
            ((part ++ [c]) :: (parts b64Full [] (w ++ [lf])).1,
              (parts b64Full [] (w ++ [lf])).2) := by
          rw [hrest, ht, parts_full hnext]
        rw [hparts] at hgood ⊢
        have ih := foldl_b64Byte_line [] (body ++ [endLine (part ++ [c])]) hw (by decide)
          fun p hp => hgood p (List.mem_cons_of_mem _ hp)
        rw [if_pos (.inr hroom), flushStr_good (hgood _ List.mem_cons_self)]
        rw [List.length_nil, Nat.sub_zero] at ih
        rw [ih, List.append_assoc]
        rfl
      · have hless : (part ++ [c]).length < MAX_LINE_LENGTH := by
          rw [List.length_append, List.length_singleton]
          omega
        have ih := foldl_b64Byte_line (part ++ [c]) body hw hless hgood
        have hnot : ¬ (c = lf ∨ MAX_LINE_LENGTH - part.length ≤ 1) := not_or.mpr ⟨hc, hroom⟩
        rw [if_neg hnot]
        rw [List.length_append, List.length_singleton, ← Nat.sub_sub] at ih
        exact ih

theorem foldl_b64Byte_lines : ∀ {ls : List Str} (body : List Str),
    (∀ l ∈ ls, ∃ w, lf ∉ w ∧ l = w ++ [lf]) → (∀ l ∈ ls, ∀ p ∈ b64Pieces l, GoodPiece p) →
    ls.flatten.foldl b64Byte ⟨body, [], MAX_LINE_LENGTH⟩ =
      ⟨body ++ ls.flatMap fun l => (b64Pieces l).map endLine, [], MAX_LINE_LENGTH⟩
  | [], body, _, _ => by
      rw [List.flatMap_nil, List.append_nil]
      rfl
  | l :: ls, body, hls, hgood => by
      obtain ⟨w, hw, rfl⟩ := hls l List.mem_cons_self
      have hline := foldl_b64Byte_line [] body hw (by decide) (hgood _ List.mem_cons_self)
      rw [List.length_nil, Nat.sub_zero] at hline
      rw [List.flatten_cons, List.foldl_append, hline,
        foldl_b64Byte_lines _ (fun l hl => hls l (List.mem_cons_of_mem _ hl))
          fun l hl => hgood l (List.mem_cons_of_mem _ hl),
        List.flatMap_cons, List.append_assoc]
      rfl

/-- A line that fits in the buffer is one part. -/
theorem b64Pieces_short {l : Str} (h : l.length ≤ MAX_LINE_LENGTH) : b64Pieces l = [l] := by
  have key : ∀ (s part : Str), (part ++ s).length ≤ MAX_LINE_LENGTH →
      parts b64Full part s = ([], part ++ s) := by
    intro s
    induction s with
    | nil => exact fun part _ => by rw [List.append_nil, parts]
    | cons c s ih =>
        intro part hlen
        have hfull : b64Full part = false := by
          rw [List.length_append, List.length_cons] at hlen
          exact beq_false_of_ne (by omega)
        rw [parts_cons hfull, ih (part ++ [c]) (by rwa [List.append_assoc]), List.append_assoc,
          List.singleton_append]
  rw [b64Pieces, pieces, key l [] h]
  rfl

/-! ## The round trip -/

theorem bodyLines_spec {lines : List Str} (hbody : IsBody lines) :
    (∀ l ∈ bodyLines lines, ∃ w, lf ∉ w ∧ l = w ++ [lf]) ∧
      (lines.flatten = (bodyLines lines).flatten ∨
        lines.flatten = (bodyLines lines).flatten ++ [lf]) := by
  have hmem := Lines.mem_lines hbody.flatten.2
  have hflat := Lines.flatten_lines (e := lf) lines.flatten
  rw [bodyLines]
  generalize Lines.lines lf lines.flatten = ls at hmem hflat ⊢
  split
  · next hlast =>
      obtain ⟨ls, rfl⟩ := List.getLast?_eq_some_iff.mp hlast
      rw [List.flatten_append, List.flatten_singleton] at hflat
      rw [List.dropLast_concat]
      exact ⟨fun l hl => hmem l (List.mem_append_left _ hl), .inr hflat.symm⟩
  · exact ⟨hmem, .inl hflat.symm⟩

/-- The lines of a body come back from base64 with their ends made uniform,
and those that do not fit in the buffer in parts, if no line but the last one
is empty and the parts are put out as they are meant; and exactly, but for an
empty line at the end, if none has a CR in front of its end or is too long. -/
theorem mimeDebodyBase64_mimeB64EncodeTl (lines : List Str) (hbody : IsBody lines)
    (hgood : ∀ l ∈ bodyLines lines, ∀ p ∈ b64Pieces l, GoodPiece p) :
    mimeDebodyBase64 (mimeB64EncodeTl lines) =
        (bodyLines lines).flatMap (fun l => (b64Pieces l).map endLine) ∧
      ((∀ l ∈ bodyLines lines, l.length ≤ MAX_LINE_LENGTH ∧ ¬ [cr, lf] <:+ l) →
        SameLines (mimeDebodyBase64 (mimeB64EncodeTl lines)) lines.flatten) := by
  obtain ⟨hlines, htext⟩ := bodyLines_spec hbody
  obtain ⟨ps, henc, hflat, hfit⟩ := mimeB64EncodeTl_eq lines
  have hnul : ∀ p ∈ ps, FitsLine p ∧ nul ∉ p := fun p hp =>
    ⟨hfit p hp, fun h => hbody.flatten.1 (hflat ▸ List.mem_flatten_of_mem hp h)⟩
  have hfold := foldl_b64Byte_lines [] hlines hgood
  rw [List.nil_append] at hfold
  have hdec : mimeDebodyBase64 (mimeB64EncodeTl lines) =
      (bodyLines lines).flatMap fun l => (b64Pieces l).map endLine := by
    rw [mimeDebodyBase64, henc, mimeDebodyBase64Loop_codes (by decide) hnul, hflat]
    obtain htext | htext := htext
    · rw [htext, hfold]
      exact if_neg (not_not_intro rfl)
    · -- The empty line at the end is not put out.
      rw [htext, List.foldl_append, hfold]
      exact if_neg (not_not_intro rfl)
  refine ⟨hdec, fun hshort => ?_⟩
  have hsame : mimeDebodyBase64 (mimeB64EncodeTl lines) = bodyLines lines := by
    have hone : ∀ l ∈ bodyLines lines, (b64Pieces l).map endLine = [l] := by
      intro l hl
      obtain ⟨w, -, rfl⟩ := hlines l hl
      obtain ⟨hlen, hcr⟩ := hshort _ hl
      rw [b64Pieces_short hlen, List.map_singleton, endLine_lf hcr List.getLast?_concat]
    rw [hdec, List.flatMap_congr hone, List.flatMap_singleton']
  rw [hsame]
  exact ⟨(Lines.lines_flatten hlines).symm, htext.elim (fun h => .inl h.symm) fun h =>
    .inr (.inr h.symm)⟩

/-- A body with a CR at the end of a line, and one without. -/
theorem mimeDebodyBase64_encode_two :
    mimeDebodyBase64 (mimeB64EncodeTl [lit "a=_ \x0d\n", lit "bcd\n", [lf]]) =
        [lit "a=_ \n", lit "bcd\n"] ∧
      SameLines (mimeDebodyBase64 (mimeB64EncodeTl [lit "a\n", lit "bcdefg\n", [lf]]))
        (lit "a\nbcdefg\n\n") :=
  ⟨(mimeDebodyBase64_mimeB64EncodeTl [lit "a=_ \x0d\n", lit "bcd\n", [lf]] (by decide +kernel)
      (by decide +kernel)).1.trans (by decide +kernel),
    (mimeDebodyBase64_mimeB64EncodeTl [lit "a\n", lit "bcdefg\n", [lf]] (by decide +kernel)
      (by decide +kernel)).2 (by decide +kernel)⟩

/-- A CR in front of a line end does not come back, and an empty line becomes
the beginning of the next one. -/
theorem mimeDebodyBase64_crlf :
    (IsBody [lit "a\x0d\n"] ∧
      ¬ SameLines (mimeDebodyBase64 (mimeB64EncodeTl [lit "a\x0d\n"])) (lit "a\x0d\n")) ∧
    IsBody [lit "a\n", [lf], lit "b\n"] ∧
      ¬ SameLines (mimeDebodyBase64 (mimeB64EncodeTl [lit "a\n", [lf], lit "b\n"]))
        (lit "a\n\nb\n") := by
  decide +kernel

end Fidogate

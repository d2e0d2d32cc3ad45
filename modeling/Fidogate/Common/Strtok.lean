/-
# `Fidogate.Common.Strtok` — strtok_r.c and the number after it

`strtok_r_ext` cuts its string in place.  `strtokExt` gives the token and
where the static pointer is left: `none` for NULL, else the text behind.
`strtokCut` is what the string itself reads afterwards, which matters where
the same string is tokenized again.
-/
import Fidogate.Lib.Bytes
import Mathlib.Data.List.DropRight

namespace Fidogate

open Bytes

def isDelim (delim : Str) (c : UInt8) : Bool := delim.contains c

/-- A token in double quotes and the text behind it: `\"` is a quote. -/
def quotedToken : Str → Str × Str
  | [] => ([], [])
  | [c] => if c == dquote then ([], []) else ([c], [])
  | c :: d :: s =>
      if c == backslash && d == dquote then (dquote :: (quotedToken s).1, (quotedToken s).2)
      else if c == dquote then ([], d :: s)
      else (c :: (quotedToken (d :: s)).1, (quotedToken (d :: s)).2)

/-- `strtok_r_ext`: `quote` for `xstrtok`, which knows `"..."`. -/
def strtokExt (quote : Bool) (delim s : Str) : Option (Str × Option Str) :=
  match s.dropWhile (isDelim delim) with
  | [] => none
  | c :: s =>
      if quote && c == dquote then some ((quotedToken s).1, some (quotedToken s).2)
      else
        match s.dropWhile (! isDelim delim ·) with
        | [] => some (c :: s, none)
        | _ :: rest =>
            some (c :: s.takeWhile (! isDelim delim ·), some (rest.dropWhile (isDelim delim)))

/-- The tokens of a string, one `strtok_r_ext` after the other. -/
def strtokAll (quote : Bool) (delim : Str) : Nat → Str → List Str
  | 0, _ => []
  | n + 1, s =>
      match strtokExt quote delim s with
      | none => []
      | some (tok, none) => [tok]
      | some (tok, some rest) => tok :: strtokAll quote delim n rest

/-- White space between words. -/
def blanks : Str := [sp, tab]

/-- The words of a string, as `strtok` finds them. -/
def strtok (delim s : Str) : List Str := strtokAll false delim (s.length + 1) s

/-- The words of a string, as `xstrtok` finds them. -/
def xstrtok (delim s : Str) : List Str := strtokAll true delim (s.length + 1) s

/-- What the string reads after its first token was taken. -/
def strtokCut (delim s : Str) : Str :=
  match s.dropWhile (isDelim delim) with
  | [] => s
  | c :: s' =>
      s.takeWhile (isDelim delim) ++
        if c == dquote then c :: (quotedToken s').1
        else c :: s'.takeWhile (! isDelim delim ·)

/-- `atoi`. -/
def atoi (s : Str) : Int :=
  match s.dropWhile (fun c => isSpace c || c == 11 || c == 12) with
  | 45 :: s => -(getDec 0 (s.takeWhile isDigit) : Int)
  | 43 :: s => (getDec 0 (s.takeWhile isDigit) : Int)
  | s => (getDec 0 (s.takeWhile isDigit) : Int)

/-- `strip_crlf`: one LF, then one CR. -/
def stripCrlf (s : Str) : Str :=
  let s := if s.getLast? = some lf then s.dropLast else s
  if s.getLast? = some cr then s.dropLast else s

/-- `strip_space` as its callers use it: the white space at the end. -/
def stripSpace (s : Str) : Str := (s.reverse.dropWhile isSpace).reverse

def strUpper (s : Str) : Str := s.map toUpper

def strLower (s : Str) : Str := s.map toLower

/-- `BUF_COPY` into a buffer of `n` bytes. -/
def bufCopy (n : Nat) (s : Str) : Str := s.take (n - 1)

/-- `PATH_MAX` -/
def MAXPATH : Nat := 4096

/-- `MAXINETADDR` -/
def MAXINETADDR : Nat := 128

/-- `BUFSIZ` of the C library. -/
def BUFSIZ : Nat := 8192

example : xstrtok blanks (lit "FOO  \"a b\" -d x") =
    [lit "FOO", lit "a b", lit "-d", lit "x"] := by decide +kernel

/-! ## Line ends -/

theorem stripCrlf_lf (x : Str) :
    stripCrlf (x ++ [lf]) = if x.getLast? = some cr then x.dropLast else x := by
  rw [stripCrlf, List.getLast?_append, List.getLast?_singleton, Option.some_or, if_pos rfl,
    List.dropLast_concat]

theorem length_stripCrlf_lf (x : Str) : (stripCrlf (x ++ [lf])).length ≤ x.length := by
  rw [stripCrlf_lf]
  split
  · rw [List.length_dropLast]
    omega
  · exact Nat.le_refl _

theorem stripCrlf_sublist (s : Str) : (stripCrlf s).Sublist s := by
  have hif : ∀ (p : Prop) [Decidable p] (t : Str), (if p then t.dropLast else t).Sublist t := by
    intro p _ t
    split
    · exact List.dropLast_sublist t
    · exact List.Sublist.refl t
  exact (hif _ _).trans (hif _ s)

/-! ## Words -/

theorem length_quotedToken : ∀ s : Str, (quotedToken s).2.length ≤ s.length
  | [] => Nat.le_refl 0
  | [c] => by
      rw [quotedToken]
      split <;> exact Nat.zero_le _
  | c :: d :: s => by
      have h1 := length_quotedToken s
      have h2 := length_quotedToken (d :: s)
      rw [quotedToken]
      simp only [List.length_cons] at h2 ⊢
      split
      · dsimp only
        omega
      · split
        · simp
        · dsimp only
          omega

theorem strtokExt_length {quote : Bool} {delim s tok rest : Str}
    (h : strtokExt quote delim s = some (tok, some rest)) : rest.length < s.length := by
  unfold strtokExt at h
  have hs : (s.dropWhile (isDelim delim)).length ≤ s.length :=
    (List.dropWhile_suffix _).length_le
  split at h
  · cases h
  · next c s' hd =>
      rw [hd] at hs
      have hs : s'.length < s.length := hs
      split at h
      · cases h
        exact Nat.lt_of_le_of_lt (length_quotedToken s') hs
      · split at h
        · cases h
        · next d rest' hr =>
            cases h
            have h1 : (rest'.dropWhile (isDelim delim)).length ≤ rest'.length :=
              (List.dropWhile_suffix _).length_le
            have h2 : (s'.dropWhile (! isDelim delim ·)).length ≤ s'.length :=
              (List.dropWhile_suffix _).length_le
            rw [hr] at h2
            simp only [List.length_cons] at h2
            omega

/-- More steps than bytes make no difference. -/
theorem strtokAll_steps {quote : Bool} {delim : Str} : ∀ {n m : Nat} {s : Str},
    s.length < n → s.length < m → strtokAll quote delim n s = strtokAll quote delim m s
  | 0, _, _, h, _ => absurd h (Nat.not_lt_zero _)
  | _, 0, _, _, h => absurd h (Nat.not_lt_zero _)
  | n + 1, m + 1, s, hn, hm => by
      rw [strtokAll, strtokAll]
      cases h : strtokExt quote delim s with
      | none => rfl
      | some r =>
          obtain ⟨tok, rest⟩ := r
          cases rest with
          | none => rfl
          | some rest =>
              have hl := strtokExt_length h
              dsimp only
              rw [strtokAll_steps (n := n) (m := m) (by omega) (by omega)]

/-- The words of a string: `xstrtok` or `strtok` until it returns NULL. -/
def words (quote : Bool) (delim s : Str) : List Str := strtokAll quote delim (s.length + 1) s


section

variable {quote : Bool} {delim : Str}

theorem words_eq (s : Str) : words quote delim s =
    match strtokExt quote delim s with
    | none => []
    | some (tok, none) => [tok]
    | some (tok, some rest) => tok :: words quote delim rest := by
  rw [words, strtokAll]
  cases h : strtokExt quote delim s with
  | none => rfl
  | some r =>
      obtain ⟨tok, rest⟩ := r
      cases rest with
      | none => rfl
      | some rest =>
          have hl := strtokExt_length h
          dsimp only
          rw [words, strtokAll_steps hl (Nat.lt_succ_self _)]

@[simp] theorem words_nil : words quote delim [] = [] := rfl

theorem strtokExt_dropWhile (s : Str) :
    strtokExt quote delim (s.dropWhile (isDelim delim)) = strtokExt quote delim s := by
  unfold strtokExt
  rw [List.dropWhile_idempotent]

theorem words_dropWhile (s : Str) :
    words quote delim (s.dropWhile (isDelim delim)) = words quote delim s := by
  rw [words_eq, words_eq s, strtokExt_dropWhile]

/-- Delimiters in front do not count. -/
theorem words_cons {c : UInt8} (hc : isDelim delim c = true) (s : Str) :
    words quote delim (c :: s) = words quote delim s := by
  rw [← words_dropWhile, List.dropWhile_cons_of_pos hc, words_dropWhile]

/-- A word: not empty, no delimiter in it, no quote in front where quotes
count. -/
structure IsWord (quote : Bool) (delim w : Str) : Prop where
  ne_nil : w ≠ []
  plain : ∀ c ∈ w, isDelim delim c = false
  unquoted : quote = true → w.head? ≠ some dquote

theorem strtokExt_word {w : Str} (hw : IsWord quote delim w) (s : Str)
    (hs : ∀ c ∈ s.head?, isDelim delim c = true) :
    strtokExt quote delim (w ++ s) =
      some (w, if s = [] then none else some (s.dropWhile (isDelim delim))) := by
  obtain ⟨hn, hp, hq⟩ := hw
  cases w with
  | nil => exact absurd rfl hn
  | cons c w =>
      have hc : isDelim delim c = false := hp c List.mem_cons_self
      have hw : ∀ d ∈ w, (! isDelim delim d) = true := by
        intro d hd
        rw [hp d (List.mem_cons_of_mem _ hd)]
        rfl
      have hquote : (quote && c == dquote) = false := by
        cases quote with
        | false => rfl
        | true =>
            have h : c ≠ dquote := fun h => hq rfl (by rw [h]; rfl)
            simpa using h
      unfold strtokExt
      rw [List.cons_append, List.dropWhile_cons_of_neg (by rw [hc]; decide)]
      dsimp only
      rw [hquote, if_neg (by decide), List.dropWhile_append_of_pos hw,
        List.takeWhile_append_of_pos hw]
      cases s with
      | nil => simp
      | cons d s =>
          have hd : isDelim delim d = true := hs d rfl
          rw [List.dropWhile_cons_of_neg (by rw [hd]; decide),
            List.takeWhile_cons_of_neg (by rw [hd]; decide)]
          simp [hd]

theorem words_word {w : Str} (hw : IsWord quote delim w) : words quote delim w = [w] := by
  have h := strtokExt_word hw [] (fun _ h => by cases h)
  rw [List.append_nil, if_pos rfl] at h
  rw [words_eq, h]

/-- The first word and the rest. -/
theorem words_append {w : Str} (hw : IsWord quote delim w) {c : UInt8}
    (hc : isDelim delim c = true) (s : Str) :
    words quote delim (w ++ c :: s) = w :: words quote delim s := by
  have h := strtokExt_word hw (c :: s) (fun d hd => by cases hd; exact hc)
  rw [if_neg (List.cons_ne_nil c s), List.dropWhile_cons_of_pos hc] at h
  rw [words_eq, h]
  dsimp only
  rw [words_dropWhile]

/-- A token lies in the string, and the rest behind it. -/
theorem strtokExt_spec {s tok : Str} {rest : Option Str}
    (h : strtokExt false delim s = some (tok, rest)) :
    IsWord false delim tok ∧ tok ⊆ s ∧ tok.length ≤ s.length ∧
      ∀ r ∈ rest, r ⊆ s ∧ tok.length + 1 + r.length ≤ s.length := by
  have hdrop := List.dropWhile_sublist (isDelim delim) (l := s)
  unfold strtokExt at h
  split at h
  · cases h
  · next c s' hs =>
      rw [hs] at hdrop
      have hc : isDelim delim c = false := by
        have hne : s.dropWhile (isDelim delim) ≠ [] := by rw [hs]; exact List.cons_ne_nil c s'
        have hhead := List.head_dropWhile_not (isDelim delim) hne
        simp only [hs, List.head_cons] at hhead
        exact hhead
      have hword : ∀ t, (∀ d ∈ t, (! isDelim delim d) = true) → IsWord false delim (c :: t) := by
        intro t ht
        refine ⟨List.cons_ne_nil c t, fun d hd => ?_, fun hq => (nomatch hq)⟩
        obtain rfl | hd := List.mem_cons.mp hd
        · exact hc
        · exact Bool.not_eq_true' _ ▸ ht d hd
      rw [Bool.false_and, if_neg Bool.false_ne_true] at h
      have hlen := hdrop.length_le
      have hsplit := congrArg List.length
        (List.takeWhile_append_dropWhile (p := (! isDelim delim ·)) (l := s'))
      rw [List.length_append] at hsplit
      rw [List.length_cons] at hlen
      split at h
      · next hend =>
          cases h
          have hall : ∀ d ∈ s', (! isDelim delim d) = true := by
            rw [List.dropWhile_eq_nil_iff] at hend
            exact hend
          exact ⟨hword s' hall, hdrop.subset, hdrop.length_le, fun r hr => (nomatch hr)⟩
      · next d rest' hend =>
          cases h
          rw [hend, List.length_cons] at hsplit
          have htake := List.takeWhile_sublist (! isDelim delim ·) (l := s')
          have hrest : (rest'.dropWhile (isDelim delim)).Sublist (d :: rest') :=
            (List.dropWhile_sublist _).trans (List.sublist_cons_self d rest')
          have hs' : (d :: rest').Sublist s' := hend ▸ List.dropWhile_sublist _
          refine ⟨hword _ fun d hd => List.mem_takeWhile_imp (p := (! isDelim delim ·)) hd,
            ((htake.cons_cons c).trans hdrop).subset, ?_, ?_⟩
          · exact ((htake.cons_cons c).trans hdrop).length_le
          · intro r hr
            cases hr
            have hbehind : (d :: rest').Sublist s :=
              hs'.trans ((List.sublist_cons_self c s').trans hdrop)
            refine ⟨(hrest.trans hbehind).subset, ?_⟩
            have := (List.dropWhile_sublist (isDelim delim) (l := rest')).length_le
            rw [List.length_cons]
            omega

/-- The words lie in the string one behind the other, with a delimiter
between two of them. -/
theorem words_spec (s : Str) :
    (∀ w ∈ words false delim s, IsWord false delim w ∧ w ⊆ s) ∧
      ((words false delim s).map (·.length + 1)).sum ≤ s.length + 1 := by
  induction hn : s.length using Nat.strong_induction_on generalizing s with
  | _ n ih =>
      rw [words_eq]
      split
      · exact ⟨fun w hw => (nomatch hw), Nat.zero_le _⟩
      · next tok h =>
          obtain ⟨hword, hsub, hlen, -⟩ := strtokExt_spec h
          refine ⟨fun w hw => List.mem_singleton.mp hw ▸ ⟨hword, hsub⟩, ?_⟩
          rw [List.map_singleton, List.sum_singleton]
          omega
      · next tok rest h =>
          obtain ⟨hword, hsub, hlen, hrest⟩ := strtokExt_spec h
          obtain ⟨hrsub, hrlen⟩ := hrest rest rfl
          obtain ⟨ih, ihlen⟩ := ih rest.length (by omega) rest rfl
          constructor
          · intro w hw
            obtain rfl | hw := List.mem_cons.mp hw
            · exact ⟨hword, hsub⟩
            · exact ⟨(ih w hw).1, List.Subset.trans (ih w hw).2 hrsub⟩
          · rw [List.map_cons, List.sum_cons]
            omega

end

end Fidogate

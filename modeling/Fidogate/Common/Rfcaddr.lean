/-
# `Fidogate.Common.Rfcaddr` — rfcaddr.c: RFC addresses of FTN names

A name and a node become a user, a host and a real name, these become a text
in a buffer of 128 bytes, and `rfcaddr_from_rfc` takes the text apart again.
It looks for brackets before it looks for quotes, takes quotes and blanks off
the real name, and reads what the buffer had room for; `rfcaddrBack_iff` says
for which names the three come back.
-/
import Fidogate.Common.Acl
import Fidogate.Common.HeaderEnc
import Fidogate.Common.Msgid
import Fidogate.Lib.Trims
import Fidogate.Toss.Ftn2ftn

namespace Fidogate

open Bytes Trims
open scoped List

/-! ## From FTN -/

/-- `MAXUSERNAME` -/
def MAXUSERNAME : Nat := 128

/-- `NOT_ALLOWED_ATOMS` -/
def NOT_ALLOWED_ATOMS : Str := lit "()<>@,;::\\\"[]"

/-- `NOT_ALLOWED_QTEXT` -/
def NOT_ALLOWED_QTEXT : Str := lit "\"\\"

/-- `NOT_ALLOWED_FULLNAME` -/
def NOT_ALLOWED_FULLNAME : Str := lit "<>"

/-- Control characters become underscores. -/
def noCtrl (c : UInt8) : UInt8 := if c < sp then 95 else c

/-- Blanks become dots or underscores. -/
def noBlank (dotNames : Bool) (c : UInt8) : UInt8 :=
  if c = sp then if dotNames then 46 else 95 else c

/-- The user part made of a name: what is no atom is quoted. -/
def rfcaddrUser (dotNames : Bool) (name : Str) : Str :=
  let buf := (bufCopy MAXUSERNAME name).map noCtrl
  let mustQuote := buf.any (NOT_ALLOWED_ATOMS.contains ·)
  let text := (buf.filter (! NOT_ALLOWED_QTEXT.contains ·)).map (noBlank dotNames)
  if mustQuote then dquote :: text.take (MAXUSERNAME - 3) ++ [dquote]
  else text.take (MAXUSERNAME - 2)

/-- The real name.  The loop behind it, for the blanks at its end, starts at
the NUL and does nothing. -/
def rfcaddrReal (name : Str) : Str :=
  (name.filter (! NOT_ALLOWED_FULLNAME.contains ·)).take (MAXUSERNAME - 1)

/-- The fallback, where it stands for the name. -/
def rfcaddrFallback (fallback : Option Str) (name : Str) : Option Str :=
  if charsetIs7bit name then none else fallback

/-- `rfcaddr_from_ftn`; `dotNames` and `fallback` are `dot_names` and
`fallback_username`. -/
def rfcaddrFromFtn (cf : InetConfig) (dotNames : Bool) (fallback : Option Str) (name : Str)
    (n : Node) : RFCAddr where
  addr :=
    if n.zone == -1 then bufCopy MAXINETADDR cf.ftnInvalidDomain
    else strFtnToInet cf MAXINETADDR n false
  user :=
    match rfcaddrFallback fallback name with
    | some user => bufCopy MAXUSERNAME user
    | none => rfcaddrUser dotNames name
  real := rfcaddrReal name

/-! ## From RFC -/

/-- The text in front of the first `a`, and the text between it and the last
`b` behind it. -/
def bracketed (a b : UInt8) (s : Str) : Option (Str × Str) :=
  (splitFirst a s).bind fun p => (splitLast b p.2).map fun r => (p.1, r.1)

/-- `bufn` and `bufa` of `rfcaddr_from_rfc`. -/
def rfcaddrParts (addr : Str) : Str × Str :=
  match bracketed 60 62 addr with
  | some (front, mid) => (bufCopy MAXUSERNAME (front.dropWhile isSpace), bufCopy MAXINETADDR mid)
  | none =>
      match bracketed 40 41 addr with
      | some (front, mid) =>
          (bufCopy MAXUSERNAME mid, bufCopy MAXINETADDR (front.dropWhile isSpace))
      | none => ([], bufCopy MAXINETADDR (addr.dropWhile isSpace))

/-- A quote and white space off the front of `bufn`. -/
def fullNameFront (s : Str) : Str :=
  (if s.head? = some dquote then s.tail else s).dropWhile isSpace

/-- Blanks, a quote and blanks off its end. -/
def fullNameEnd (s : Str) : Str :=
  let s := s.rdropWhile (· == sp)
  (if s.getLast? = some dquote then s.dropLast else s).rdropWhile (· == sp)

/-- What `rfc.real` is copied from. -/
def fullName (s : Str) : Str := fullNameEnd (fullNameFront s)

/-- `user@domain`, `host!user`, `user%domain` or `user`. -/
def rfcaddrSplit (p : Str) : Str × Str :=
  match splitLast 64 p with
  | some (user, addr) => (bufCopy MAXUSERNAME user, bufCopy MAXINETADDR addr)
  | none =>
      match splitFirst 33 p with
      | some (addr, user) => (bufCopy MAXUSERNAME user, bufCopy MAXINETADDR addr)
      | none =>
          match splitLast 37 p with
          | some (user, addr) => (bufCopy MAXUSERNAME user, bufCopy MAXINETADDR addr)
          | none => (bufCopy MAXUSERNAME p, [])

/-- `rfcaddr_from_rfc` -/
def rfcaddrFromRfc (addr : Str) : RFCAddr :=
  let (bufn, bufa) := rfcaddrParts addr
  let (user, host) := rfcaddrSplit (stripSpace (bufa.dropWhile isSpace))
  ⟨user, host, bufCopy MAXUSERNAME (fullName bufn)⟩

/-! ## The text -/

/-- `addr_mode`: `user@do.main (Real Name)`, `Real Name <user@do.main>` or
`user@do.main`. -/
inductive AddrMode
  | comment
  | angle
  | noReal
  deriving DecidableEq, Repr

/-- `TMPS_PRINTF_BUFSIZE` -/
def TMPS_PRINTF_BUFSIZE : Nat := 128

/-- `s_printf` of a text, with HAVE_SNPRINTF: `vsnprintf` returns the length it would need, never
ERROR, so the buffer does not grow. -/
def sPrintf (s : Str) : Str := bufCopy TMPS_PRINTF_BUFSIZE s

/-- The formats of `s_rfcaddr_to_asc` with the real name. -/
def rfcaddrText (mode : AddrMode) (rfc : RFCAddr) : Str :=
  if rfc.real = [] then sRfcaddrToAsc rfc
  else
    match mode with
    | .comment => sRfcaddrToAsc rfc ++ lit " (" ++ rfc.real ++ lit ")"
    | .angle => rfc.real ++ lit " <" ++ sRfcaddrToAsc rfc ++ lit ">"
    | .noReal => sRfcaddrToAsc rfc

/-- `s_rfcaddr_to_asc` with `real_flag`. -/
def sRfcaddrToAscReal (mode : AddrMode) (rfc : RFCAddr) : Str := sPrintf (rfcaddrText mode rfc)

/-- The address is written and read again. -/
def rfcaddrBack (mode : AddrMode) (rfc : RFCAddr) : RFCAddr :=
  rfcaddrFromRfc (sRfcaddrToAscReal mode rfc)

/-! ## What comes back -/

/-- White space, brackets and `@` are in no host name. -/
def HostByte (c : UInt8) : Prop := isSpace c = false ∧ c ∉ lit "()<>@"

instance (c : UInt8) : Decidable (HostByte c) := inferInstanceAs (Decidable (_ ∧ _))

def HostText (h : Str) : Prop := h ≠ [] ∧ ∀ c ∈ h, HostByte c

/-- The names of HOSTS and the domains of the configuration are such names. -/
structure InetConfig.HostNames (cf : InetConfig) : Prop where
  invalid : HostText cf.ftnInvalidDomain
  named : ∀ h ∈ cf.hosts, ∀ name ∈ h.name, HostText name
  hostsdomain : ∀ c ∈ cf.hostsdomain, HostByte c
  zones : ∀ z ∈ cf.zones, ∀ c ∈ z.2, HostByte c

/-- No blank and no quote at either end. -/
structure Untrimmed (r : Str) : Prop where
  front : ∀ c ∈ r.head?, isSpace c = false ∧ c ≠ dquote
  back : ∀ c ∈ r.getLast?, c ≠ sp ∧ c ≠ dquote

/-- What an address needs to come back in the text with its real name. -/
def RFCAddr.Carried (mode : AddrMode) (a : RFCAddr) : Prop :=
  (∀ c ∈ a.user.head?, isSpace c = false) ∧ (rfcaddrText mode a).length < TMPS_PRINTF_BUFSIZE ∧
  if a.real = [] then ¬ [60, 62] <+ a.user ∧ ¬ [40, 41] <+ a.user
  else
    match mode with
    | .comment => ¬ [60, 62] <+ a.user ∧ 40 ∉ a.user ∧ Untrimmed a.real
    | .angle => Untrimmed a.real
    | .noReal => False

/-! ## Brackets -/

section

variable {a b c : UInt8} {s x y : Str}

theorem splitFirst_some (h : splitFirst c s = some (x, y)) : s = x ++ c :: y ∧ c ∉ x := by
  by_cases hc : c ∈ s
  · obtain ⟨x', y', hs, hx⟩ := List.eq_append_cons_of_mem hc
    rw [hs, splitFirst_append hx] at h
    cases h
    exact ⟨hs, hx⟩
  · rw [splitFirst, if_neg (by rwa [List.contains_iff_mem])] at h
    cases h

theorem splitFirst_none (h : splitFirst c s = none) : c ∉ s := by
  intro hc
  obtain ⟨x, y, hs, hx⟩ := List.eq_append_cons_of_mem hc
  rw [hs, splitFirst_append hx] at h
  cases h

theorem splitLast_some (h : splitLast c s = some (x, y)) : s = x ++ c :: y ∧ c ∉ y := by
  by_cases hc : c ∈ s
  · obtain ⟨x', y', hs, hy⟩ := exists_last hc
    rw [hs, splitLast_append hy] at h
    cases h
    exact ⟨hs, hy⟩
  · rw [splitLast_eq_none hc] at h
    cases h

theorem splitLast_none (h : splitLast c s = none) : c ∉ s := by
  intro hc
  obtain ⟨x, y, hs, hy⟩ := exists_last hc
  rw [hs, splitLast_append hy] at h
  cases h

theorem bracketed_append (hx : a ∉ x) {z : Str} (hz : b ∉ z) :
    bracketed a b (x ++ a :: (y ++ b :: z)) = some (x, y) := by
  rw [bracketed, splitFirst_append hx, Option.bind_some]
  dsimp only
  rw [splitLast_append hz]
  rfl

theorem bracketed_some (h : bracketed a b s = some (x, y)) :
    ∃ z, s = x ++ a :: (y ++ b :: z) ∧ a ∉ x := by
  obtain ⟨⟨x', rest⟩, hfirst, h⟩ := Option.bind_eq_some_iff.mp h
  obtain ⟨⟨y', z⟩, hlast, h⟩ := Option.map_eq_some_iff.mp h
  cases h
  obtain ⟨hs, hx⟩ := splitFirst_some hfirst
  obtain ⟨rfl, -⟩ : rest = y' ++ b :: z ∧ _ := splitLast_some hlast
  exact ⟨z, hs, hx⟩

/-- No brackets: no closing one behind an opening one. -/
theorem bracketed_eq_none : bracketed a b s = none ↔ ¬ [a, b] <+ s := by
  constructor
  · intro h
    cases hfirst : splitFirst a s with
    | none => exact fun hsub => splitFirst_none hfirst (hsub.subset List.mem_cons_self)
    | some p =>
        obtain ⟨x, y⟩ := p
        obtain ⟨rfl, hx⟩ := splitFirst_some hfirst
        rw [bracketed, hfirst] at h
        exact not_pair hx (splitLast_none (Option.map_eq_none_iff.mp h))
  · intro h
    cases hb : bracketed a b s with
    | none => rfl
    | some p =>
        obtain ⟨x, y⟩ := p
        obtain ⟨z, hs, -⟩ := bracketed_some hb
        exact absurd (hs ▸ pair_of_append x y z) h

end

/-! ## The full name -/

theorem fullNameFront_suffix (s : Str) : fullNameFront s <:+ s := by
  rw [fullNameFront]
  split
  · exact (List.dropWhile_suffix _).trans (List.tail_suffix s)
  · exact List.dropWhile_suffix _

theorem fullNameEnd_front (s : Str) : fullNameEnd s <+: s := by
  rw [fullNameEnd]
  refine (List.rdropWhile_prefix _ _).trans ?_
  split
  · exact (List.dropLast_prefix _).trans (List.rdropWhile_prefix _ _)
  · exact List.rdropWhile_prefix _ _

theorem length_fullName_le (s : Str) : (fullName s).length ≤ s.length :=
  (fullNameEnd_front _).length_le.trans (fullNameFront_suffix s).length_le

theorem fullName_head (s : Str) : ∀ c ∈ (fullName s).head?, isSpace c = false := by
  intro c hc
  obtain ⟨t, ht⟩ := fullNameEnd_front (fullNameFront s)
  have hfront : c ∈ (fullNameFront s).head? := by
    rw [← ht, List.head?_append, Option.mem_def]
    rw [fullName, Option.mem_def] at hc
    rw [hc, Option.some_or]
  exact dropWhile_head _ c hfront

theorem fullName_last (s : Str) : ∀ c ∈ (fullName s).getLast?, c ≠ sp := by
  intro c hc
  exact ne_of_beq_false (rdropWhile_last _ c hc)

/-- The white space in front of the address behind it is no part of the name. -/
theorem fullName_sp (s : Str) : fullName (s ++ [sp]) = fullName s := by
  have hend : ∀ t : Str, fullNameEnd (t ++ [sp]) = fullNameEnd t := by
    intro t
    rw [fullNameEnd, List.rdropWhile_concat_pos _ _ _ (by rfl)]
    rfl
  have hdrop : ∀ t : Str, fullNameEnd ((t ++ [sp]).dropWhile isSpace) =
      fullNameEnd (t.dropWhile isSpace) := by
    intro t
    rw [List.dropWhile_append]
    split
    · next h0 =>
        rw [List.isEmpty_iff.mp h0]
        rfl
    · exact hend _
  cases s with
  | nil => rfl
  | cons c s =>
      rw [fullName, fullNameFront, fullName, fullNameFront, List.cons_append, List.head?_cons,
        List.head?_cons]
      split
      · exact hdrop s
      · exact hdrop (c :: s)

theorem Untrimmed.fullName {r : Str} (h : Untrimmed r) : fullName r = r := by
  have hq : ¬ r.head? = some dquote := fun hc => (h.front dquote hc).2 rfl
  have hq' : ¬ r.getLast? = some dquote := fun hc => (h.back dquote hc).2 rfl
  have hfront : fullNameFront r = r := by
    rw [fullNameFront, if_neg hq]
    exact dropWhile_of_head fun c hc => (h.front c hc).1
  have hend : r.rdropWhile (· == sp) = r :=
    rdropWhile_of_last fun c hc => beq_false_of_ne (h.back c hc).1
  rw [Fidogate.fullName, hfront, fullNameEnd, hend, if_neg hq', hend]

/-- A quote taken off is missing. -/
theorem untrimmed_of_fullName {r : Str} (h : fullName r = r) : Untrimmed r := by
  refine ⟨fun c hc => ⟨fullName_head r c (h.symm ▸ hc), ?_⟩,
    fun c hc => ⟨fullName_last r c (h.symm ▸ hc), ?_⟩⟩
  · rintro rfl
    obtain ⟨t, rfl⟩ := List.head?_eq_some_iff.mp hc
    have hfront : (fullNameFront (dquote :: t)).length ≤ t.length := by
      rw [fullNameFront, List.head?_cons, if_pos rfl]
      exact (List.dropWhile_suffix _).length_le
    have hlen := (fullNameEnd_front (fullNameFront (dquote :: t))).length_le
    rw [← fullName, h, List.length_cons] at hlen
    omega
  · rintro rfl
    obtain ⟨t, rfl⟩ := List.getLast?_eq_some_iff.mp hc
    have hlen := (fullNameEnd_front (fullNameFront (t ++ [dquote]))).length_le
    rw [← fullName, h] at hlen
    have hfront : fullNameFront (t ++ [dquote]) = t ++ [dquote] :=
      (fullNameFront_suffix _).eq_of_length_le hlen
    have hshort : (fullNameEnd (t ++ [dquote])).length ≤ t.length := by
      rw [fullNameEnd, List.rdropWhile_concat_neg _ _ _ (by decide), List.getLast?_concat,
        if_pos rfl, List.dropLast_concat]
      exact (List.rdropWhile_prefix _ _).length_le
    rw [fullName, hfront] at h
    rw [h, List.length_append, List.length_singleton] at hshort
    omega

/-- What is neither a quote nor white space stays. -/
theorem mem_fullName {c : UInt8} (hq : c ≠ dquote) (hs : isSpace c = false) {s : Str}
    (h : c ∈ s) : c ∈ fullName s := by
  have hsp : (c == sp) = false := by
    refine beq_false_of_ne ?_
    rintro rfl
    cases hs
  have hfront : c ∈ fullNameFront s := by
    refine mem_dropWhile hs ?_
    split
    · next hc =>
        obtain ⟨t, rfl⟩ := List.head?_eq_some_iff.mp hc
        exact (List.mem_cons.mp h).resolve_left hq
    · exact h
  refine mem_rdropWhile (p := (· == sp)) hsp ?_
  split
  · next hc =>
      obtain ⟨t, ht⟩ := List.getLast?_eq_some_iff.mp hc
      have hmem := mem_rdropWhile (p := (· == sp)) hsp hfront
      rw [ht] at hmem ⊢
      rw [List.dropLast_concat]
      exact (List.mem_append.mp hmem).resolve_right fun h' => hq (List.mem_singleton.mp h')
  · exact mem_rdropWhile (p := (· == sp)) hsp hfront

/-! ## The address -/

theorem bufCopy_of_lt {k : Nat} {s : Str} (h : s.length < k) : bufCopy k s = s :=
  List.take_of_length_le (by omega)

theorem length_bufCopy_le (k : Nat) (s : Str) : (bufCopy k s).length ≤ s.length :=
  (List.take_sublist _ _).length_le

/-- User and host are parts of the address, with a byte between them. -/
theorem rfcaddrSplit_within {p u h : Str} (hs : rfcaddrSplit p = (u, h)) (hh : h ≠ []) :
    u.length + h.length < p.length ∧ ∀ c ∈ u, c ∈ p := by
  have hwithin : ∀ {c : UInt8} {x y : Str}, p = x ++ c :: y →
      x.length + y.length < p.length ∧ (∀ c ∈ x, c ∈ p) ∧ ∀ c ∈ y, c ∈ p := by
    rintro c x y rfl
    refine ⟨?_, fun d hd => List.mem_append_left _ hd,
      fun d hd => List.mem_append_right _ (List.mem_cons_of_mem _ hd)⟩
    rw [List.length_append, List.length_cons]
    omega
  have hcopy : ∀ {x y : Str}, (bufCopy MAXUSERNAME x, bufCopy MAXINETADDR y) = (u, h) →
      u.length ≤ x.length ∧ h.length ≤ y.length ∧ ∀ c ∈ u, c ∈ x := by
    intro x y he
    cases he
    exact ⟨length_bufCopy_le _ x, length_bufCopy_le _ y, fun c hc => List.mem_of_mem_take hc⟩
  unfold rfcaddrSplit at hs
  split at hs
  · next x y he =>
      obtain ⟨hlen, hx, -⟩ := hwithin (splitLast_some he).1
      obtain ⟨h1, h2, h3⟩ := hcopy hs
      exact ⟨by omega, fun c hc => hx c (h3 c hc)⟩
  · split at hs
    · next x y he =>
        obtain ⟨hlen, -, hy⟩ := hwithin (splitFirst_some he).1
        obtain ⟨h1, h2, h3⟩ := hcopy hs
        exact ⟨by omega, fun c hc => hy c (h3 c hc)⟩
    · split at hs
      · next x y he =>
          obtain ⟨hlen, hx, -⟩ := hwithin (splitLast_some he).1
          obtain ⟨h1, h2, h3⟩ := hcopy hs
          exact ⟨by omega, fun c hc => hx c (h3 c hc)⟩
      · exact absurd (Prod.mk.inj hs).2.symm hh

theorem stripSpace_front (s : Str) : stripSpace s <+: s := List.rdropWhile_prefix isSpace s

theorem length_rfcaddrParts (s : Str) : (rfcaddrParts s).1.length < MAXUSERNAME := by
  have hcopy : ∀ x : Str, (bufCopy MAXUSERNAME x).length < MAXUSERNAME := by
    intro x
    rw [bufCopy, List.length_take]
    exact lt_of_le_of_lt (min_le_left _ _) (by decide)
  unfold rfcaddrParts
  split
  · exact hcopy _
  · split
    · exact hcopy _
    · exact Nat.zero_lt_succ _

/-- What is read comes from the two parts. -/
theorem rfcaddrFromRfc_within {s : Str} {a : RFCAddr} (h : rfcaddrFromRfc s = a)
    (hh : a.addr ≠ []) :
    a.user.length + a.addr.length < (rfcaddrParts s).2.length ∧
      (∀ c ∈ a.user, c ∈ (rfcaddrParts s).2) ∧ fullName (rfcaddrParts s).1 = a.real := by
  have hlen := length_rfcaddrParts s
  unfold rfcaddrFromRfc at h
  generalize rfcaddrParts s = parts at h hlen
  obtain ⟨bufn, bufa⟩ := parts
  subst h
  dsimp only at hh hlen ⊢
  obtain ⟨h1, h2⟩ := rfcaddrSplit_within rfl hh
  have hsub : stripSpace (bufa.dropWhile isSpace) <+ bufa :=
    (stripSpace_front _).sublist.trans (List.dropWhile_sublist _)
  refine ⟨h1.trans_le hsub.length_le, fun c hc => hsub.subset (h2 c hc), ?_⟩
  exact (bufCopy_of_lt ((length_fullName_le bufn).trans_lt hlen)).symm

section

variable {u h : Str} (hh : HostText h)

include hh

theorem HostText.not_mem {c : UInt8} (hc : ¬ HostByte c) : c ∉ h := fun hm => hc (hh.2 c hm)

/-- No bracket stands behind the user. -/
theorem HostText.not_mem_behind {c : UInt8} (hc : ¬ HostByte c) (hat : c ≠ 64) : c ∉ 64 :: h :=
  fun hm => hh.not_mem hc ((List.mem_cons.mp hm).resolve_left hat)

/-- Behind the user of an address with a comment there is no angle bracket. -/
theorem HostText.comment_tail {r : Str} (hr : 62 ∉ r) :
    62 ∉ 64 :: (h ++ [sp] ++ 40 :: (r ++ [41])) := by
  simp [sp, hr, hh.not_mem (c := 62) (by decide)]

theorem HostText.comment_front (hu : 40 ∉ u) : 40 ∉ u ++ 64 :: h ++ [sp] := by
  simp [sp, hu, hh.not_mem (c := 40) (by decide)]

omit hh in
theorem comment_eq (r : Str) : u ++ 64 :: h ++ [sp] ++ 40 :: (r ++ [41]) =
    u ++ 64 :: (h ++ [sp] ++ 40 :: (r ++ [41])) := by
  simp only [List.append_assoc, List.cons_append]

/-- The blanks around an address are not read. -/
theorem rfcaddrSplit_address {b : Str} (hb : ∀ c ∈ b, isSpace c = true)
    (hlen : (u ++ 64 :: h).length < MAXINETADDR) :
    rfcaddrSplit (stripSpace ((u ++ 64 :: h ++ b).dropWhile isSpace)) =
      (u.dropWhile isSpace, h) := by
  have hdrop : (u ++ 64 :: h ++ b).dropWhile isSpace = u.dropWhile isSpace ++ 64 :: h ++ b := by
    rw [List.append_assoc, List.cons_append, dropWhile_append_cons (by decide), List.append_assoc,
      List.cons_append]
  have hlast : ∀ c ∈ (u.dropWhile isSpace ++ 64 :: h).getLast?, isSpace c = false := by
    intro c hc
    rw [List.getLast?_append_cons, List.getLast?_cons_of_ne_nil hh.1] at hc
    exact (hh.2 c (List.mem_of_getLast? hc)).1
  have hstrip : stripSpace (u.dropWhile isSpace ++ 64 :: h ++ b) =
      u.dropWhile isSpace ++ 64 :: h := by
    change List.rdropWhile isSpace _ = _
    rw [rdropWhile_append hb, rdropWhile_of_last hlast]
  have hu : (u.dropWhile isSpace).length ≤ u.length := (List.dropWhile_suffix _).length_le
  have hsum : u.length + h.length + 1 < 128 := by
    rw [List.length_append, List.length_cons] at hlen
    exact hlen
  have hu1 : (u.dropWhile isSpace).length < MAXUSERNAME := show _ < 128 by omega
  have hh1 : h.length < MAXINETADDR := show _ < 128 by omega
  rw [hdrop, hstrip, rfcaddrSplit, splitLast_append (hh.not_mem (by decide))]
  dsimp only
  rw [bufCopy_of_lt hu1, bufCopy_of_lt hh1]

/-- What is read of a text whose parts are an address and a name. -/
theorem rfcaddrFromRfc_parts {s n t b : Str}
    (hp : rfcaddrParts s = (bufCopy MAXUSERNAME n, bufCopy MAXINETADDR t))
    (ht : t.dropWhile isSpace = (u ++ 64 :: h ++ b).dropWhile isSpace)
    (hb : ∀ c ∈ b, isSpace c = true) (hn : n.length < MAXUSERNAME) (hroom : t.length < MAXINETADDR)
    (hlen : (u ++ 64 :: h).length < MAXINETADDR) :
    rfcaddrFromRfc s = ⟨u.dropWhile isSpace, h, fullName n⟩ := by
  rw [rfcaddrFromRfc, hp]
  dsimp only
  rw [bufCopy_of_lt hn, bufCopy_of_lt hroom, ht, rfcaddrSplit_address hh hb hlen]
  dsimp only
  rw [bufCopy_of_lt ((length_fullName_le n).trans_lt hn)]

/-- `user@domain (Full Name)` -/
theorem rfcaddrFromRfc_comment {r : Str} (hr : 62 ∉ r)
    (hlen : (u ++ 64 :: h ++ [sp] ++ 40 :: (r ++ [41])).length < TMPS_PRINTF_BUFSIZE)
    (hangle : ¬ [60, 62] <+ u) (hparen : 40 ∉ u) :
    rfcaddrFromRfc (u ++ 64 :: h ++ [sp] ++ 40 :: (r ++ [41])) =
      ⟨u.dropWhile isSpace, h, fullName r⟩ := by
  simp only [List.length_append, List.length_cons, List.length_nil] at hlen
  change _ < 128 at hlen
  have hnone : bracketed 60 62 (u ++ 64 :: h ++ [sp] ++ 40 :: (r ++ [41])) = none := by
    rwa [bracketed_eq_none, comment_eq, pair_append (hh.comment_tail hr)]
  have hroom : ((u ++ 64 :: h ++ [sp]).dropWhile isSpace).length < MAXINETADDR := by
    refine (List.dropWhile_suffix _).length_le.trans_lt (show _ < 128 from ?_)
    simp only [List.length_append, List.length_cons, List.length_nil]
    omega
  refine rfcaddrFromRfc_parts (t := (u ++ 64 :: h ++ [sp]).dropWhile isSpace) (b := [sp]) hh ?_
    (List.dropWhile_idempotent _ _) (by decide +kernel) (show _ < 128 by omega) hroom ?_
  · rw [rfcaddrParts, hnone]
    dsimp only
    rw [bracketed_append (hh.comment_front hparen) List.not_mem_nil]
  · rw [List.length_append, List.length_cons]
    exact show _ < 128 by omega

/-- `Full Name <user@domain>` -/
theorem rfcaddrFromRfc_angle {r : Str} (hr : 60 ∉ r)
    (hlen : (r ++ [sp] ++ 60 :: (u ++ 64 :: h ++ [62])).length < TMPS_PRINTF_BUFSIZE) :
    rfcaddrFromRfc (r ++ [sp] ++ 60 :: (u ++ 64 :: h ++ [62])) =
      ⟨u.dropWhile isSpace, h, fullName ((r ++ [sp]).dropWhile isSpace)⟩ := by
  simp only [List.length_append, List.length_cons, List.length_nil] at hlen
  change _ < 128 at hlen
  have hfront : 60 ∉ r ++ [sp] := by simp [sp, hr]
  have hroom : (u ++ 64 :: h).length < MAXINETADDR := by
    rw [List.length_append, List.length_cons]
    exact show _ < 128 by omega
  have hname : ((r ++ [sp]).dropWhile isSpace).length < MAXUSERNAME := by
    refine (List.dropWhile_suffix _).length_le.trans_lt (show _ < 128 from ?_)
    rw [List.length_append, List.length_singleton]
    omega
  refine rfcaddrFromRfc_parts (t := u ++ 64 :: h) (b := []) hh ?_
    (by rw [List.append_nil]) (fun _ hc => nomatch hc) hname hroom hroom
  rw [rfcaddrParts, bracketed_append hfront List.not_mem_nil]

/-- `user@domain` -/
theorem rfcaddrFromRfc_address (hlen : (u ++ 64 :: h).length < TMPS_PRINTF_BUFSIZE)
    (hangle : ¬ [60, 62] <+ u) (hparen : ¬ [40, 41] <+ u) :
    rfcaddrFromRfc (u ++ 64 :: h) = ⟨u.dropWhile isSpace, h, []⟩ := by
  have hnone1 : bracketed 60 62 (u ++ 64 :: h) = none := by
    rwa [bracketed_eq_none, pair_append (hh.not_mem_behind (by decide) (by decide))]
  have hnone2 : bracketed 40 41 (u ++ 64 :: h) = none := by
    rwa [bracketed_eq_none, pair_append (hh.not_mem_behind (by decide) (by decide))]
  refine rfcaddrFromRfc_parts (t := (u ++ 64 :: h).dropWhile isSpace) (b := []) (n := []) hh ?_
    (by rw [List.append_nil, List.dropWhile_idempotent]) (fun _ hc => nomatch hc)
    (Nat.zero_lt_succ _) ((List.dropWhile_suffix _).length_le.trans_lt hlen) hlen
  rw [rfcaddrParts, hnone1]
  dsimp only
  rw [hnone2]
  rfl

end

/-! ## The text that was cut -/

theorem sPrintf_front (s : Str) : sPrintf s <+: s := List.take_prefix _ s

/-- As much of a text as there is. -/
theorem sPrintf_of_le {s : Str} (h : s.length ≤ (sPrintf s).length) :
    s.length < TMPS_PRINTF_BUFSIZE ∧ sPrintf s = s := by
  refine ⟨?_, (sPrintf_front s).eq_of_length_le h⟩
  rw [sPrintf, bufCopy, List.length_take] at h
  exact lt_of_le_of_lt (h.trans (min_le_left _ _)) (by decide)

section

variable {a : RFCAddr} {s x y : Str}

theorem rfcaddrParts_angle (h : bracketed 60 62 s = some (x, y)) :
    rfcaddrParts s = (bufCopy MAXUSERNAME (x.dropWhile isSpace), bufCopy MAXINETADDR y) := by
  rw [rfcaddrParts, h]

theorem rfcaddrParts_paren (h : bracketed 60 62 s = none) (h' : bracketed 40 41 s = some (x, y)) :
    rfcaddrParts s = (bufCopy MAXUSERNAME y, bufCopy MAXINETADDR (x.dropWhile isSpace)) := by
  rw [rfcaddrParts, h]
  dsimp only
  rw [h']

theorem rfcaddrParts_none (h : bracketed 60 62 s = none) (h' : bracketed 40 41 s = none) :
    rfcaddrParts s = ([], bufCopy MAXINETADDR (s.dropWhile isSpace)) := by
  rw [rfcaddrParts, h]
  dsimp only
  rw [h']

section

variable (hb : rfcaddrFromRfc s = a) (hne : a.addr ≠ [])

include hb hne

/-- An address between angle brackets inside the user is shorter than the user. -/
theorem no_angle {v : Str} (hs : s <+: a.user ++ v) (hv : 62 ∉ v) : bracketed 60 62 s = none := by
  cases he : bracketed 60 62 s with
  | none => rfl
  | some p =>
      obtain ⟨x, y⟩ := p
      obtain ⟨z, rfl, -⟩ := bracketed_some he
      have hlt := (rfcaddrFromRfc_within hb hne).1
      rw [rfcaddrParts_angle he] at hlt
      dsimp only at hlt
      have hy := length_bufCopy_le MAXINETADDR y
      have hcut : (x ++ 60 :: y) ++ [62] <+: a.user ++ v := by
        refine List.IsPrefix.trans ⟨z, ?_⟩ hs
        simp only [List.append_assoc, List.cons_append, List.nil_append]
      have hshort := length_lt_of_front hcut hv
      rw [List.length_append, List.length_cons] at hshort
      omega

/-- A comment leaves no parenthesis for the user, and has room for the name. -/
theorem comment_read (h : bracketed 60 62 s = none) (h' : bracketed 40 41 s = some (x, y)) :
    40 ∉ a.user ∧ a.real.length ≤ y.length ∧ (60 ∈ y → y.length < MAXUSERNAME → 60 ∈ a.real) := by
  obtain ⟨-, hmem, hname⟩ := rfcaddrFromRfc_within hb hne
  obtain ⟨z, -, hx⟩ := bracketed_some h'
  rw [rfcaddrParts_paren h h'] at hmem hname
  refine ⟨fun hm => ?_, ?_, fun hm hlen => ?_⟩
  · exact hx ((List.dropWhile_sublist _).subset (List.mem_of_mem_take (hmem 40 hm)))
  · rw [← hname]
    exact (length_fullName_le _).trans (length_bufCopy_le _ y)
  · rw [← hname]
    dsimp only
    rw [bufCopy_of_lt hlen]
    exact mem_fullName (by decide) (by decide) hm

/-- Without a comment there is no name. -/
theorem no_comment (h : bracketed 60 62 s = none) (h' : bracketed 40 41 s = none) :
    a.real = [] := by
  have hname := (rfcaddrFromRfc_within hb hne).2.2
  rw [rfcaddrParts_none h h'] at hname
  exact hname.symm

end

end

/-! ## There and back -/

section

variable {u h r : Str} (hh : HostText h)

include hh

theorem room_comment (hr : 62 ∉ r) (hne : r ≠ [])
    (hb : rfcaddrFromRfc (sPrintf (u ++ 64 :: h ++ [sp] ++ 40 :: (r ++ [41]))) = ⟨u, h, r⟩) :
    (u ++ 64 :: h ++ [sp] ++ 40 :: (r ++ [41])).length < TMPS_PRINTF_BUFSIZE ∧
      ¬ [60, 62] <+ u ∧ 40 ∉ u := by
  have hfront := sPrintf_front (u ++ 64 :: h ++ [sp] ++ 40 :: (r ++ [41]))
  have hangle := no_angle hb hh.1 (comment_eq r ▸ hfront) (hh.comment_tail hr)
  cases hparen : bracketed 40 41 (sPrintf (u ++ 64 :: h ++ [sp] ++ 40 :: (r ++ [41]))) with
  | none => exact absurd (no_comment hb hh.1 hangle hparen) hne
  | some p =>
      obtain ⟨x, y⟩ := p
      obtain ⟨hu, hlen, -⟩ := comment_read hb hh.1 hangle hparen
      obtain ⟨z, hs, hx⟩ := bracketed_some hparen
      obtain ⟨rfl, hrest⟩ := front_cut (hs ▸ hfront) hx (hh.comment_front hu)
      have hz := hrest.length_le
      have hwhole : (u ++ 64 :: h ++ [sp] ++ 40 :: (r ++ [41])).length ≤
          (sPrintf (u ++ 64 :: h ++ [sp] ++ 40 :: (r ++ [41]))).length := by
        rw [hs]
        simp only [List.length_append, List.length_cons, List.length_nil] at hlen hz ⊢
        omega
      obtain ⟨hroom, hcut⟩ := sPrintf_of_le hwhole
      refine ⟨hroom, ?_, hu⟩
      rwa [hcut, bracketed_eq_none, comment_eq, pair_append (hh.comment_tail hr)] at hangle

omit hh in
/-- Of a text that is too long the closing bracket is cut. -/
theorem angle_cut
    (hlong : TMPS_PRINTF_BUFSIZE ≤ (r ++ [sp] ++ 60 :: (u ++ 64 :: h ++ [62])).length) :
    sPrintf (r ++ [sp] ++ 60 :: (u ++ 64 :: h ++ [62])) <+: r ++ [sp] ++ 60 :: (u ++ 64 :: h) := by
  refine List.prefix_of_prefix_length_le (sPrintf_front _) ⟨[62], ?_⟩ ?_
  · simp only [List.append_assoc, List.cons_append]
  · rw [sPrintf, bufCopy, List.length_take]
    change 128 ≤ _ at hlong
    simp only [List.length_append, List.length_cons, List.length_nil] at hlong ⊢
    exact (min_le_left _ _).trans (show 127 ≤ _ by omega)

/-- A comment without the opening bracket starts inside the name, and ends there. -/
theorem comment_within {x y z : Str}
    (hs : x ++ 40 :: (y ++ 41 :: z) <+: r ++ [sp] ++ 60 :: (u ++ 64 :: h)) (hr : 60 ∉ r)
    (hu : 40 ∉ u) (hy : 60 ∉ y) : y.length < r.length := by
  have hopen : 60 ∉ r ++ [sp] := by simp [sp, hr]
  have hx : x.length < (r ++ [sp]).length := by
    refine length_lt_of_front (c := 40) (v := 60 :: (u ++ 64 :: h)) ?_ ?_
    · refine List.IsPrefix.trans ⟨y ++ 41 :: z, ?_⟩ hs
      rw [List.append_assoc]
      rfl
    · simp [hu, hh.not_mem (c := 40) (by decide)]
  have hx60 : 60 ∉ x := by
    have hxr : x <+: r ++ [sp] :=
      List.prefix_of_prefix_length_le (List.IsPrefix.trans ⟨_, rfl⟩ hs) ⟨_, rfl⟩ hx.le
    exact fun hm => hopen (hxr.subset hm)
  have hq : x ++ 40 :: (y ++ [41]) <+: r ++ [sp] ++ 60 :: (u ++ 64 :: h) := by
    refine List.IsPrefix.trans ⟨z, ?_⟩ hs
    simp only [List.append_assoc, List.cons_append, List.nil_append]
  have hend := length_le_of_front hq (by simp [hx60, hy])
  simp only [List.length_append, List.length_cons, List.length_nil] at hend
  omega

theorem room_angle (hr : 60 ∉ r) (hne : r ≠ [])
    (hb : rfcaddrFromRfc (sPrintf (r ++ [sp] ++ 60 :: (u ++ 64 :: h ++ [62]))) = ⟨u, h, r⟩) :
    (r ++ [sp] ++ 60 :: (u ++ 64 :: h ++ [62])).length < TMPS_PRINTF_BUFSIZE := by
  by_contra hlong
  have hcut := angle_cut (Nat.not_lt.mp hlong)
  have hlen127 : (sPrintf (r ++ [sp] ++ 60 :: (u ++ 64 :: h ++ [62]))).length < MAXUSERNAME := by
    rw [sPrintf, bufCopy, List.length_take]
    exact lt_of_le_of_lt (min_le_left _ _) (by decide)
  have hopen : 60 ∉ r ++ [sp] := by simp [sp, hr]
  generalize sPrintf (r ++ [sp] ++ 60 :: (u ++ 64 :: h ++ [62])) = s at hb hcut hlen127
  cases hangle : bracketed 60 62 s with
  | some p =>
      obtain ⟨x, y⟩ := p
      obtain ⟨z, rfl, hx⟩ := bracketed_some hangle
      obtain ⟨rfl, hrest⟩ := front_cut hcut hx hopen
      have hclose : y ++ [62] <+: u ++ 64 :: h :=
        List.IsPrefix.trans ⟨z, by rw [List.append_assoc]; rfl⟩ hrest
      have hshort := length_lt_of_front hclose (hh.not_mem_behind (by decide) (by decide))
      have hlt := (rfcaddrFromRfc_within hb hh.1).1
      rw [rfcaddrParts_angle hangle] at hlt
      dsimp only at hlt
      have hy := length_bufCopy_le MAXINETADDR y
      omega
  | none =>
      cases hparen : bracketed 40 41 s with
      | none => exact hne (no_comment hb hh.1 hangle hparen)
      | some p =>
          obtain ⟨x, y⟩ := p
          obtain ⟨hu, hlen, hname⟩ := comment_read hb hh.1 hangle hparen
          obtain ⟨z, rfl, -⟩ := bracketed_some hparen
          rw [List.length_append, List.length_cons, List.length_append] at hlen127
          have hy : 60 ∉ y := fun hm => hr (hname hm (by omega))
          exact absurd (comment_within hh hcut hr hu hy) (Nat.not_lt.mpr hlen)

theorem room_address
    (hb : rfcaddrFromRfc (sPrintf (u ++ 64 :: h)) = ⟨u, h, r⟩) :
    r = [] ∧ (u ++ 64 :: h).length < TMPS_PRINTF_BUFSIZE ∧ ¬ [60, 62] <+ u ∧ ¬ [40, 41] <+ u := by
  have hfront := sPrintf_front (u ++ 64 :: h)
  have hangle := no_angle hb hh.1 hfront (hh.not_mem_behind (by decide) (by decide))
  cases hparen : bracketed 40 41 (sPrintf (u ++ 64 :: h)) with
  | some p =>
      obtain ⟨x, y⟩ := p
      obtain ⟨hu, -, -⟩ := comment_read hb hh.1 hangle hparen
      obtain ⟨z, hs, -⟩ := bracketed_some hparen
      have hm : (40 : UInt8) ∈ u ++ 64 :: h :=
        hfront.subset (hs ▸ List.mem_append_right x List.mem_cons_self)
      exact absurd ((List.mem_append.mp hm).resolve_right
        (hh.not_mem_behind (by decide) (by decide))) hu
  | none =>
      have hr := no_comment hb hh.1 hangle hparen
      have hlen := (rfcaddrFromRfc_within hb hh.1).1
      rw [rfcaddrParts_none hangle hparen] at hlen
      have hwhole : (u ++ 64 :: h).length ≤ (sPrintf (u ++ 64 :: h)).length := by
        rw [List.length_append, List.length_cons]
        refine le_trans hlen ((length_bufCopy_le _ _).trans (List.dropWhile_suffix _).length_le)
      obtain ⟨hroom, hcut⟩ := sPrintf_of_le hwhole
      rw [hcut, bracketed_eq_none,
        pair_append (hh.not_mem_behind (by decide) (by decide))] at hangle
      rw [hcut, bracketed_eq_none,
        pair_append (hh.not_mem_behind (by decide) (by decide))] at hparen
      exact ⟨hr, hroom, hangle, hparen⟩

end

section

variable {mode : AddrMode} {u h r : Str}

theorem sRfcaddrToAsc_eq (hh : h ≠ []) : sRfcaddrToAsc ⟨u, h, r⟩ = u ++ 64 :: h := by
  unfold sRfcaddrToAsc
  rw [if_neg hh, List.append_assoc]
  rfl

theorem rfcaddrText_nil (hh : h ≠ []) : rfcaddrText mode ⟨u, h, []⟩ = u ++ 64 :: h := by
  unfold rfcaddrText
  rw [if_pos rfl, sRfcaddrToAsc_eq hh]

theorem rfcaddrText_name (hh : h ≠ []) (hr : r ≠ []) :
    rfcaddrText mode ⟨u, h, r⟩ =
      match mode with
      | .comment => u ++ 64 :: h ++ [sp] ++ 40 :: (r ++ [41])
      | .angle => r ++ [sp] ++ 60 :: (u ++ 64 :: h ++ [62])
      | .noReal => u ++ 64 :: h := by
  have hopen : lit " (" = [sp, 40] := rfl
  have hclose : lit ")" = [41] := rfl
  have hless : lit " <" = [sp, 60] := rfl
  have hmore : lit ">" = [62] := rfl
  unfold rfcaddrText
  rw [if_neg hr, sRfcaddrToAsc_eq hh]
  cases mode with
  | comment => simp only [hopen, hclose, List.append_assoc, List.cons_append, List.nil_append]
  | angle => simp only [hless, hmore, List.append_assoc, List.cons_append, List.nil_append]
  | noReal => rfl

theorem sPrintf_of_lt {s : Str} (h : s.length < TMPS_PRINTF_BUFSIZE) : sPrintf s = s :=
  bufCopy_of_lt h

theorem back_address_iff (hh : HostText h) :
    rfcaddrFromRfc (sPrintf (u ++ 64 :: h)) = ⟨u, h, r⟩ ↔
      (∀ c ∈ u.head?, isSpace c = false) ∧ (u ++ 64 :: h).length < TMPS_PRINTF_BUFSIZE ∧
        r = [] ∧ ¬ [60, 62] <+ u ∧ ¬ [40, 41] <+ u := by
  constructor
  · intro hb
    obtain ⟨hr, hlen, hangle, hparen⟩ := room_address hh hb
    rw [sPrintf_of_lt hlen, rfcaddrFromRfc_address hh hlen hangle hparen] at hb
    exact ⟨dropWhile_eq_iff.mp (RFCAddr.mk.inj hb).1, hlen, hr, hangle, hparen⟩
  · rintro ⟨hu, hlen, rfl, hangle, hparen⟩
    rw [sPrintf_of_lt hlen, rfcaddrFromRfc_address hh hlen hangle hparen,
      dropWhile_eq_iff.mpr hu]

theorem back_comment_iff (hh : HostText h) (hr : 62 ∉ r) (hne : r ≠ []) :
    rfcaddrFromRfc (sPrintf (u ++ 64 :: h ++ [sp] ++ 40 :: (r ++ [41]))) = ⟨u, h, r⟩ ↔
      (∀ c ∈ u.head?, isSpace c = false) ∧
        (u ++ 64 :: h ++ [sp] ++ 40 :: (r ++ [41])).length < TMPS_PRINTF_BUFSIZE ∧
        ¬ [60, 62] <+ u ∧ 40 ∉ u ∧ Untrimmed r := by
  constructor
  · intro hb
    obtain ⟨hlen, hangle, hparen⟩ := room_comment hh hr hne hb
    rw [sPrintf_of_lt hlen, rfcaddrFromRfc_comment hh hr hlen hangle hparen] at hb
    obtain ⟨hu, -, hname⟩ := RFCAddr.mk.inj hb
    exact ⟨dropWhile_eq_iff.mp hu, hlen, hangle, hparen, untrimmed_of_fullName hname⟩
  · rintro ⟨hu, hlen, hangle, hparen, htrim⟩
    rw [sPrintf_of_lt hlen, rfcaddrFromRfc_comment hh hr hlen hangle hparen,
      dropWhile_eq_iff.mpr hu, htrim.fullName]

/-- The blank behind the name is no part of it. -/
theorem fullName_blank (hne : r ≠ []) :
    fullName ((r ++ [sp]).dropWhile isSpace) = r ↔ Untrimmed r := by
  have hhead : (∀ c ∈ r.head?, isSpace c = false) → (r ++ [sp]).dropWhile isSpace = r ++ [sp] := by
    refine fun h => dropWhile_of_head fun c hc => h c ?_
    rwa [List.head?_append_of_ne_nil _ hne] at hc
  constructor
  · intro he
    have hr : ∀ c ∈ r.head?, isSpace c = false := fun c hc => fullName_head _ c (he.symm ▸ hc)
    rw [hhead hr, fullName_sp] at he
    exact untrimmed_of_fullName he
  · intro htrim
    rw [hhead fun c hc => (htrim.front c hc).1, fullName_sp, htrim.fullName]

theorem back_angle_iff (hh : HostText h) (hr : 60 ∉ r) (hne : r ≠ []) :
    rfcaddrFromRfc (sPrintf (r ++ [sp] ++ 60 :: (u ++ 64 :: h ++ [62]))) = ⟨u, h, r⟩ ↔
      (∀ c ∈ u.head?, isSpace c = false) ∧
        (r ++ [sp] ++ 60 :: (u ++ 64 :: h ++ [62])).length < TMPS_PRINTF_BUFSIZE ∧
        Untrimmed r := by
  constructor
  · intro hb
    have hlen := room_angle hh hr hne hb
    rw [sPrintf_of_lt hlen, rfcaddrFromRfc_angle hh hr hlen] at hb
    obtain ⟨hu, -, hname⟩ := RFCAddr.mk.inj hb
    exact ⟨dropWhile_eq_iff.mp hu, hlen, (fullName_blank hne).mp hname⟩
  · rintro ⟨hu, hlen, htrim⟩
    rw [sPrintf_of_lt hlen, rfcaddrFromRfc_angle hh hr hlen, dropWhile_eq_iff.mpr hu,
      (fullName_blank hne).mpr htrim]

end

/-- Exactly these addresses come back. -/
theorem rfcaddrBack_eq_iff (mode : AddrMode) {a : RFCAddr} (hh : HostText a.addr)
    (hr : 60 ∉ a.real ∧ 62 ∉ a.real) : rfcaddrBack mode a = a ↔ a.Carried mode := by
  obtain ⟨u, h, r⟩ := a
  unfold rfcaddrBack sRfcaddrToAscReal RFCAddr.Carried
  dsimp only at hh hr ⊢
  by_cases hne : r = []
  · subst hne
    rw [rfcaddrText_nil hh.1, back_address_iff hh, if_pos rfl]
    simp only [true_and]
  · rw [rfcaddrText_name hh.1 hne, if_neg hne]
    cases mode with
    | comment => exact back_comment_iff hh hr.2 hne
    | angle => exact back_angle_iff hh hr.1 hne
    | noReal =>
        dsimp only
        rw [back_address_iff hh]
        exact ⟨fun hb => absurd hb.2.2.1 hne, fun hb => hb.2.2.elim⟩

/-! ## Names -/

/-- The host of a node. -/
def rfcaddrHost (cf : InetConfig) (n : Node) : Str :=
  if n.zone == -1 then cf.ftnInvalidDomain else ftnToInet cf n false

/-- What the user part is made of. -/
def rfcaddrSource (fallback : Option Str) (name : Str) : Str :=
  (rfcaddrFallback fallback name).getD name

/-- The bytes of the user part, without the quotes around it. -/
def rfcaddrUserLen (fallback : Option Str) (name : Str) : Nat :=
  match rfcaddrFallback fallback name with
  | some user => user.length
  | none => (name.filter (! NOT_ALLOWED_QTEXT.contains ·)).length

/-- The quotes around it. -/
def rfcaddrQuotes (fallback : Option Str) (name : Str) : Nat :=
  if rfcaddrFallback fallback name = none ∧ name.any (NOT_ALLOWED_ATOMS.contains ·) then 2 else 0

/-- The name and what is made of it fit the fields; a user that is not quoted
gets a byte less. -/
structure NameFits (fallback : Option Str) (name : Str) : Prop where
  whole : name.length < MAXUSERNAME
  stand : ∀ user ∈ rfcaddrFallback fallback name, user.length < MAXUSERNAME
  room : rfcaddrFallback fallback name = none →
    rfcaddrUserLen fallback name + max 1 (rfcaddrQuotes fallback name) < MAXUSERNAME

/-- The text has room for user, host and name, and the name is in it; the user
has no brackets that are found before those of the text, and the name has no
quotes or blanks around it. -/
def NameBack (cf : InetConfig) (fallback : Option Str) (mode : AddrMode) (name : Str) (n : Node) :
    Prop :=
  let user := rfcaddrSource fallback name
  let real := name.filter (! NOT_ALLOWED_FULLNAME.contains ·)
  let len := rfcaddrUserLen fallback name + rfcaddrQuotes fallback name + 1 +
    (rfcaddrHost cf n).length
  (∀ f ∈ rfcaddrFallback fallback name, ∀ c ∈ f.head?, isSpace c = false) ∧
  if real = [] then len < TMPS_PRINTF_BUFSIZE ∧ ¬ [60, 62] <+ user ∧ ¬ [40, 41] <+ user
  else
    match mode with
    | .comment => len + real.length + 3 < TMPS_PRINTF_BUFSIZE ∧ ¬ [60, 62] <+ user ∧ 40 ∉ user ∧
        Untrimmed real
    | .angle => len + real.length + 3 < TMPS_PRINTF_BUFSIZE ∧ Untrimmed real
    | .noReal => False

/-- The brackets of a text. -/
def isBracket (c : UInt8) : Bool := (lit "()<>").contains c

/-- A name as it stands between the quotes. -/
def rfcaddrUserText (dotNames : Bool) (name : Str) : Str :=
  ((name.map noCtrl).filter (! NOT_ALLOWED_QTEXT.contains ·)).map (noBlank dotNames)

section

variable {name : Str} (dotNames : Bool)

theorem length_rfcaddrUserText : (rfcaddrUserText dotNames name).length =
    (name.filter (! NOT_ALLOWED_QTEXT.contains ·)).length := by
  have hqtext : ∀ c : UInt8,
      (! NOT_ALLOWED_QTEXT.contains (noCtrl c)) = ! NOT_ALLOWED_QTEXT.contains c :=
    forall_byte (by decide +kernel)
  rw [rfcaddrUserText, List.length_map, List.filter_map, List.length_map]
  exact congrArg (fun p => (name.filter p).length) (funext hqtext)

theorem rfcaddrUser_eq (hname : name.length < MAXUSERNAME)
    (hfit : (name.filter (! NOT_ALLOWED_QTEXT.contains ·)).length +
      (if name.any (NOT_ALLOWED_ATOMS.contains ·) then 2 else 1) < MAXUSERNAME) :
    rfcaddrUser dotNames name =
      if name.any (NOT_ALLOWED_ATOMS.contains ·) then
        dquote :: rfcaddrUserText dotNames name ++ [dquote]
      else rfcaddrUserText dotNames name := by
  have hatom : ∀ c : UInt8,
      NOT_ALLOWED_ATOMS.contains (noCtrl c) = NOT_ALLOWED_ATOMS.contains c :=
    forall_byte (by decide +kernel)
  have hany : (name.map noCtrl).any (NOT_ALLOWED_ATOMS.contains ·) =
      name.any (NOT_ALLOWED_ATOMS.contains ·) := by
    rw [List.any_map]
    exact congrArg name.any (funext hatom)
  rw [← length_rfcaddrUserText dotNames] at hfit
  unfold rfcaddrUser
  rw [bufCopy_of_lt hname]
  dsimp only
  rw [hany, ← rfcaddrUserText]
  split at hfit
  · next hq => rw [if_pos hq, if_pos hq, List.take_of_length_le (by omega)]
  · next hq => rw [if_neg hq, if_neg hq, List.take_of_length_le (by omega)]

/-- The brackets of the name are those of the user. -/
theorem filter_rfcaddrUserText :
    (rfcaddrUserText dotNames name).filter isBracket = name.filter isBracket := by
  have hkeep : ∀ c : UInt8, ((! NOT_ALLOWED_QTEXT.contains (noCtrl c)) &&
      isBracket (noBlank dotNames (noCtrl c))) = isBracket c := by
    cases dotNames with
    | false => exact forall_byte (by decide +kernel)
    | true => exact forall_byte (by decide +kernel)
  have hsame : ∀ c : UInt8, isBracket c = true → noBlank dotNames (noCtrl c) = c := by
    cases dotNames with
    | false => exact forall_byte (by decide +kernel)
    | true => exact forall_byte (by decide +kernel)
  rw [rfcaddrUserText, List.filter_map, List.filter_filter, List.filter_map, List.map_map]
  have hfilter : name.filter ((fun c => (isBracket ∘ noBlank dotNames) c &&
      ! NOT_ALLOWED_QTEXT.contains c) ∘ noCtrl) = name.filter isBracket :=
    congrArg (fun p => name.filter p) (funext fun c => (Bool.and_comm _ _).trans (hkeep c))
  rw [hfilter]
  exact (List.map_congr_left fun c hc => hsame c (List.mem_filter.mp hc).2).trans (List.map_id _)

theorem noSpace_rfcaddrUserText : ∀ c ∈ rfcaddrUserText dotNames name, isSpace c = false := by
  have hspace : ∀ c : UInt8, isSpace (noBlank dotNames (noCtrl c)) = false := by
    cases dotNames with
    | false => exact forall_byte (by decide +kernel)
    | true => exact forall_byte (by decide +kernel)
  intro c hc
  obtain ⟨d, hd, rfl⟩ := List.mem_map.mp hc
  obtain ⟨e, -, rfl⟩ := List.mem_map.mp (List.mem_filter.mp hd).1
  exact hspace e

end

section

variable {fallback : Option Str} {name : Str} (hfit : NameFits fallback name) (cf : InetConfig)
  (dotNames : Bool) (n : Node)

include hfit

/-- The user part is the fallback, the quoted name or the name. -/
theorem user_eq : (rfcaddrFromFtn cf dotNames fallback name n).user =
    match rfcaddrFallback fallback name with
    | some user => user
    | none =>
        if name.any (NOT_ALLOWED_ATOMS.contains ·) then
          dquote :: rfcaddrUserText dotNames name ++ [dquote]
        else rfcaddrUserText dotNames name := by
  unfold rfcaddrFromFtn
  cases hf : rfcaddrFallback fallback name with
  | some user => exact bufCopy_of_lt (hfit.stand user hf)
  | none =>
      have hroom := hfit.room hf
      unfold rfcaddrUserLen rfcaddrQuotes at hroom
      rw [hf] at hroom
      refine rfcaddrUser_eq dotNames hfit.whole ?_
      by_cases hq : name.any (NOT_ALLOWED_ATOMS.contains ·) = true
      · rw [if_pos ⟨rfl, hq⟩] at hroom
        rw [if_pos hq]
        exact hroom
      · rw [if_neg fun h => hq h.2] at hroom
        rw [if_neg hq]
        exact hroom

theorem length_user : (rfcaddrFromFtn cf dotNames fallback name n).user.length =
    rfcaddrUserLen fallback name + rfcaddrQuotes fallback name := by
  rw [user_eq hfit, rfcaddrUserLen, rfcaddrQuotes]
  cases hf : rfcaddrFallback fallback name with
  | some user => rfl
  | none =>
      dsimp only
      rw [← length_rfcaddrUserText dotNames]
      by_cases hq : name.any (NOT_ALLOWED_ATOMS.contains ·) = true
      · rw [if_pos hq, if_pos ⟨rfl, hq⟩]
        simp
      · rw [if_neg hq, if_neg fun h => hq h.2]
        rfl

theorem filter_user : (rfcaddrFromFtn cf dotNames fallback name n).user.filter isBracket =
    (rfcaddrSource fallback name).filter isBracket := by
  rw [user_eq hfit, rfcaddrSource]
  cases hf : rfcaddrFallback fallback name with
  | some user => rfl
  | none =>
      have htext := @filter_rfcaddrUserText name dotNames
      dsimp only
      rw [Option.getD_none]
      split
      · rw [List.cons_append, List.filter_cons_of_neg (by decide), List.filter_append, htext]
        exact List.append_nil _
      · exact htext

theorem head_user :
    (∀ c ∈ (rfcaddrFromFtn cf dotNames fallback name n).user.head?, isSpace c = false) ↔
      ∀ f ∈ rfcaddrFallback fallback name, ∀ c ∈ f.head?, isSpace c = false := by
  rw [user_eq hfit]
  cases hf : rfcaddrFallback fallback name with
  | some user =>
      refine ⟨fun h f hf => ?_, fun h => h user rfl⟩
      cases hf
      exact h
  | none =>
      refine ⟨fun _ f hf => absurd hf (Option.not_mem_none f), fun _ c hc => ?_⟩
      dsimp only at hc
      split at hc
      · cases hc
        rfl
      · exact noSpace_rfcaddrUserText dotNames c (List.mem_of_mem_head? hc)

theorem brackets_user {a b : UInt8} (ha : isBracket a = true) (hb : isBracket b = true) :
    [a, b] <+ (rfcaddrFromFtn cf dotNames fallback name n).user ↔
      [a, b] <+ rfcaddrSource fallback name := by
  rw [pair_filter ha hb, filter_user hfit, ← pair_filter ha hb]

theorem mem_user {c : UInt8} (hc : isBracket c = true) :
    c ∈ (rfcaddrFromFtn cf dotNames fallback name n).user ↔ c ∈ rfcaddrSource fallback name := by
  have h : ∀ s : Str, c ∈ s ↔ c ∈ s.filter isBracket := by
    intro s
    rw [List.mem_filter]
    exact ⟨fun hm => ⟨hm, hc⟩, fun hm => hm.1⟩
  rw [h, filter_user hfit, ← h]

theorem real_eq : (rfcaddrFromFtn cf dotNames fallback name n).real =
    name.filter (! NOT_ALLOWED_FULLNAME.contains ·) :=
  bufCopy_of_lt (lt_of_le_of_lt (List.length_filter_le _ _) hfit.whole)

end

theorem hostByte_putInt (v : Int) : ∀ c ∈ putInt v, HostByte c := by
  have hdigit : ∀ c : UInt8, isDigit c = true → HostByte c := forall_byte (by decide +kernel)
  intro c hc
  rw [putInt] at hc
  split at hc
  · rcases List.mem_cons.mp hc with rfl | hc
    · decide
    · exact hdigit c (isDigit_of_mem_putDec hc)
  · exact hdigit c (isDigit_of_mem_putDec hc)

theorem HostText.append {s t : Str} (hs : HostText s) (ht : ∀ c ∈ t, HostByte c) :
    HostText (s ++ t) :=
  ⟨List.append_ne_nil_of_left_ne_nil hs.1 t, fun c hc =>
    (List.mem_append.mp hc).elim (hs.2 c) (ht c)⟩

theorem HostText.bufCopy {h : Str} (hh : HostText h) : HostText (bufCopy MAXINETADDR h) := by
  refine ⟨?_, fun c hc => hh.2 c (List.mem_of_mem_take hc)⟩
  rw [Fidogate.bufCopy, Ne, List.take_eq_nil_iff]
  exact fun h0 => h0.elim (by decide) hh.1

theorem hostText_pfnz (n : Node) : HostText (nodeToPfnz n) := by
  have hfront : HostText ((if 0 < n.point then lit "p" ++ putInt n.point ++ lit "." else []) ++
      lit "f") := by
    have hp : HostText (lit "p") := ⟨by decide, by decide +kernel⟩
    split
    · exact ((hp.append (hostByte_putInt n.point)).append (by decide +kernel)).append
        (by decide +kernel)
    · exact ⟨by decide, by decide +kernel⟩
  exact (((((hfront.append (hostByte_putInt n.node)).append (by decide +kernel)).append
    (hostByte_putInt n.net)).append (by decide +kernel)).append (hostByte_putInt n.zone)).bufCopy

example : nodeToPfnz ⟨2, 5020, 7, 3, []⟩ = lit "p3.f7.n5020.z2" := by
  decide +kernel

/-- A host name, or the domain of a node that has none. -/
theorem InetConfig.HostNames.hostText {cf : InetConfig} (hcf : cf.HostNames) (n : Node) :
    HostText (rfcaddrHost cf n) := by
  have hdomain : ∀ zone, ∀ c ∈ cfZonesInetDomain cf zone, HostByte c := by
    have hzone : ∀ zone : Int, ∀ d ∈ (cf.zones.find? fun z => z.1 == zone).map Prod.snd,
        ∀ c ∈ d, HostByte c := by
      intro zone d hd
      obtain ⟨z, hz, rfl⟩ := Option.map_eq_some_iff.mp hd
      exact hcf.zones z (List.mem_of_find?_eq_some hz)
    intro zone
    rw [cfZonesInetDomain]
    dsimp only
    cases h1 : (cf.zones.find? fun z => z.1 == zone).map Prod.snd with
    | some d => exact hzone zone d h1
    | none =>
        cases h2 : (cf.zones.find? fun z => z.1 == 0).map Prod.snd with
        | some d => exact hzone 0 d h2
        | none => exact hcf.invalid.2
  rw [rfcaddrHost]
  split
  · exact hcf.invalid
  · cases hhost : hostsLookupNode cf.hosts n with
    | none =>
        rw [ftnToInet_none hhost]
        exact (hostText_pfnz n).append (hdomain n.zone)
    | some e =>
        have he : e ∈ cf.hosts := List.mem_of_find?_eq_some hhost
        cases hname : e.name with
        | none =>
            rw [ftnToInet_unnamed hhost hname]
            exact (hostText_pfnz n).append hcf.hostsdomain
        | some name =>
            have htext := hcf.named e he name hname
            rw [ftnToInet_named hhost hname]
            split
            · refine ⟨List.cons_ne_nil _ _, fun c hc => ?_⟩
              rcases List.mem_cons.mp hc with rfl | hc
              · decide
              · rcases List.mem_append.mp hc with hc | hc
                · exact hostByte_putInt _ c hc
                · rcases List.mem_cons.mp hc with rfl | hc
                  · decide
                  · exact htext.2 c hc
            · exact htext

theorem length_rfcaddrText (mode : AddrMode) {a : RFCAddr} (hh : a.addr ≠ []) :
    (rfcaddrText mode a).length = a.user.length + 1 + a.addr.length +
      (if a.real = [] ∨ mode = .noReal then 0 else a.real.length + 3) := by
  obtain ⟨u, h, r⟩ := a
  dsimp only at hh ⊢
  by_cases hr : r = []
  · subst hr
    rw [rfcaddrText_nil hh, if_pos (.inl rfl), List.length_append, List.length_cons]
    omega
  · rw [rfcaddrText_name hh hr]
    cases mode with
    | comment =>
        rw [if_neg (by simp [hr])]
        simp only [List.length_append, List.length_cons, List.length_nil]
        omega
    | angle =>
        rw [if_neg (by simp [hr])]
        simp only [List.length_append, List.length_cons, List.length_nil]
        omega
    | noReal =>
        rw [if_pos (.inr rfl), List.length_append, List.length_cons]
        omega

/-- An address of a name comes back if and only if `NameBack` holds. -/
theorem rfcaddrBack_iff {cf : InetConfig} (hcf : cf.HostNames) (dotNames : Bool)
    {fallback : Option Str} (mode : AddrMode) {name : Str} (hfit : NameFits fallback name)
    (n : Node) :
    rfcaddrBack mode (rfcaddrFromFtn cf dotNames fallback name n) =
      rfcaddrFromFtn cf dotNames fallback name n ↔ NameBack cf fallback mode name n := by
  have haddr : (rfcaddrFromFtn cf dotNames fallback name n).addr =
      bufCopy MAXINETADDR (rfcaddrHost cf n) := by
    rw [rfcaddrHost]
    exact (apply_ite (bufCopy MAXINETADDR) _ _ _).symm
  have hhost : HostText (rfcaddrFromFtn cf dotNames fallback name n).addr :=
    haddr ▸ (hcf.hostText n).bufCopy
  have hreal := real_eq hfit cf dotNames n
  have hangle : 60 ∉ (rfcaddrFromFtn cf dotNames fallback name n).real ∧
      62 ∉ (rfcaddrFromFtn cf dotNames fallback name n).real := by
    rw [hreal]
    exact ⟨fun hm => absurd (List.mem_filter.mp hm).2 (by decide),
      fun hm => absurd (List.mem_filter.mp hm).2 (by decide)⟩
  -- a host that is cut fills the text alone
  have hroom : ∀ k : Nat, rfcaddrUserLen fallback name + rfcaddrQuotes fallback name + 1 +
      (rfcaddrFromFtn cf dotNames fallback name n).addr.length + k < TMPS_PRINTF_BUFSIZE ↔
      rfcaddrUserLen fallback name + rfcaddrQuotes fallback name + 1 +
        (rfcaddrHost cf n).length + k < TMPS_PRINTF_BUFSIZE := by
    intro k
    have hlen : (rfcaddrFromFtn cf dotNames fallback name n).addr.length =
        min 127 (rfcaddrHost cf n).length := by
      rw [haddr, bufCopy, List.length_take]
      rfl
    rw [hlen, TMPS_PRINTF_BUFSIZE]
    omega
  rw [rfcaddrBack_eq_iff mode hhost hangle]
  unfold RFCAddr.Carried NameBack
  rw [head_user hfit, hreal, brackets_user hfit cf dotNames n (by decide) (by decide),
    brackets_user hfit cf dotNames n (by decide) (by decide),
    mem_user hfit cf dotNames n (by decide), length_rfcaddrText mode hhost.1, length_user hfit,
    hreal, hroom]
  dsimp only
  refine and_congr_right fun _ => ?_
  by_cases hne : name.filter (! NOT_ALLOWED_FULLNAME.contains ·) = []
  · rw [if_pos hne, if_pos (.inl hne), if_pos hne, Nat.add_zero]
  · rw [if_neg hne, if_neg hne]
    cases mode with
    | comment => rw [if_neg fun h => h.elim hne (by decide), ← Nat.add_assoc]
    | angle => rw [if_neg fun h => h.elim hne (by decide), ← Nat.add_assoc]
    | noReal => rw [and_false]

/-- A configuration with one domain. -/
def plainInet : InetConfig where
  defzone := 2
  hostname := lit "gate"
  domainname := lit ".example.org"
  hostsdomain := lit ".fidonet.org"
  zones := [(0, lit ".fidonet.org")]
  hosts := []
  ftnInvalidDomain := lit "invalid"

theorem plainInet_hostNames : plainInet.HostNames where
  invalid := ⟨by decide, by decide +kernel⟩
  named := fun _ h => absurd h List.not_mem_nil
  hostsdomain := by decide +kernel
  zones := by decide +kernel

example : rfcaddrHost plainInet ⟨2, 5020, 7, 0, []⟩ = lit "f7.n5020.z2.fidonet.org" := by
  decide +kernel

theorem rfcaddrBack_whole :
    rfcaddrBack .comment
        (rfcaddrFromFtn plainInet false none (lit "Joe User") ⟨2, 5020, 7, 0, []⟩) =
      rfcaddrFromFtn plainInet false none (lit "Joe User") ⟨2, 5020, 7, 0, []⟩ := by
  refine (rfcaddrBack_iff plainInet_hostNames false .comment
    ⟨by decide +kernel, by decide +kernel, by decide +kernel⟩ _).mpr ⟨by decide +kernel, ?_⟩
  rw [if_neg (by decide +kernel)]
  exact ⟨by decide +kernel, by decide +kernel, by decide +kernel,
    ⟨by decide +kernel, by decide +kernel⟩⟩

/-- A comment in the name is taken for the real name, and what is in front of it for the
address. -/
theorem rfcaddrBack_comment : ¬ ∀ (cf : InetConfig) (dotNames : Bool) (fallback : Option Str)
    (mode : AddrMode) (name : Str) (n : Node), cf.HostNames → mode ≠ .noReal →
    (∀ c ∈ name, 32 ≤ c ∧ c < 127) → NameFits fallback name →
    rfcaddrBack mode (rfcaddrFromFtn cf dotNames fallback name n) =
      rfcaddrFromFtn cf dotNames fallback name n := by
  intro h
  have h := h plainInet false none .comment (lit "Joe (home) User") ⟨2, 5020, 7, 0, []⟩
    plainInet_hostNames (by decide) (by decide +kernel)
    ⟨by decide +kernel, by decide +kernel, by decide +kernel⟩
  revert h
  decide +kernel

end Fidogate

/-
# `Fidogate.Common.Histdb` — histdb.c: which Message-ID belongs to a MSGID

The data base is an exact map from a key to the text of the history file
behind it.  Storing and fetching cut the key out of the MSGID each in its own
way: behind the last blank, and behind the first.
-/
import Fidogate.Common.AreasbbsFile
import Mathlib.Data.List.Count

namespace Fidogate

open Bytes

/-- What `hi_write_dbc` is given, and the time it writes. -/
structure DbcRecord where
  rfcMsgid : Str
  fidoMsgid : Str
  time : Int
  deriving DecidableEq, Repr

/-- The MSGID from behind its last blank, or all of it: the key of
`hi_write_dbc`. -/
def serialOf (fidoMsgid : Str) : Str :=
  (fidoMsgid.reverse.takeWhile (· != sp)).reverse

def DbcRecord.key (r : DbcRecord) : Str := serialOf r.fidoMsgid

/-- The line of the history file behind the key and its tab. -/
def DbcRecord.line (r : DbcRecord) : Str := r.rfcMsgid ++ [tab] ++ putInt r.time ++ [lf]

/-- The data base -/
abbrev Dbc := Str → Option Str

/-- `hi_write_dbc` -/
def hiWriteDbc (db : Dbc) (r : DbcRecord) : Dbc := Function.update db r.key (some r.line)

/-- The key `hi_fetch` looks for; without a blank it runs from NULL + 1. -/
def hiFetchKey (keyString : Str) (flag : Int) : Option Str :=
  if flag = 0 then
    if sp ∈ keyString then some (keyString.dropWhile (· != sp)).tail else none
  else some keyString

/-- The first word `hi_fetch` finds in what `dbcfetch` read. -/
def dbcWord (text : Str) : Option Str :=
  (fgetsLines BUFFERSIZE text).head?.bind fun line =>
    (xstrtok blanks line).head?.map (bufCopy MAXPATH)

/-- `hi_fetch`; no value where it reads through a null pointer. -/
def hiFetch (db : Dbc) (keyString : Str) (flag : Int) : Option (Option Str) :=
  (hiFetchKey keyString flag).bind fun key =>
    match db key with
    | none => some none
    | some text => (dbcWord text).map some

/-- The data base after the pairs were stored, from an empty one. -/
def dbcStored (rs : List DbcRecord) : Dbc := rs.foldl hiWriteDbc fun _ => none

/-- The last of the records that has the property. -/
def lastStored (p : DbcRecord → Bool) (rs : List DbcRecord) : Option DbcRecord := rs.reverse.find? p

/-- The Message-ID last stored for exactly this MSGID. -/
def storedFor (rs : List DbcRecord) (msgid : Str) : Option Str :=
  (lastStored (·.fidoMsgid == msgid) rs).map (·.rfcMsgid)

/-- The MSGID has one blank, and of the pairs stored for MSGIDs with its
serial the last one gives the Message-ID last stored for it, as a word; or it
has more blanks and was never stored. -/
def KeptApart (rs : List DbcRecord) (msgid : Str) : Prop :=
  if msgid.count sp = 1 then
    ∀ r, lastStored (·.key == serialOf msgid) rs = some r →
      ∃ r', lastStored (·.fidoMsgid == msgid) rs = some r' ∧ dbcWord r.line = some r'.rfcMsgid
  else sp ∈ msgid ∧ ∀ r ∈ rs, r.fidoMsgid ≠ msgid

theorem dbcStored_apply (rs : List DbcRecord) (key : Str) :
    dbcStored rs key = (lastStored (·.key == key) rs).map DbcRecord.line := by
  induction rs using List.reverseRecOn with
  | nil => rfl
  | append_singleton rs r ih =>
      rw [dbcStored, List.foldl_append, List.foldl_cons, List.foldl_nil, ← dbcStored, hiWriteDbc,
        lastStored, List.reverse_append, List.reverse_singleton, List.singleton_append,
        List.find?_cons]
      by_cases h : r.key = key
      · rw [h, Function.update_self, beq_self_eq_true]
        rfl
      · rw [Function.update_of_ne (Ne.symm h), beq_eq_false_iff_ne.mpr h, ih]
        rfl

theorem not_mem_serialOf (s : Str) : sp ∉ serialOf s := by
  intro h
  have h := List.mem_takeWhile_imp (List.mem_reverse.mp h)
  revert h
  decide

/-- Behind the first blank. -/
theorem hiFetchKey_append {a : Str} (ha : sp ∉ a) (b : Str) :
    hiFetchKey (a ++ sp :: b) 0 = some b := by
  have hmem : sp ∈ a ++ sp :: b := List.mem_append_right _ List.mem_cons_self
  rw [hiFetchKey, if_pos rfl, if_pos hmem, (takeWhile_not_mem ha b).2, List.tail_cons]

/-- Behind the only blank, which is the last one too. -/
theorem serialOf_append (a : Str) {b : Str} (hb : sp ∉ b) : serialOf (a ++ sp :: b) = b := by
  have hrev : (a ++ sp :: b).reverse = b.reverse ++ sp :: a.reverse := by simp
  rw [serialOf, hrev, (takeWhile_not_mem (fun h => hb (List.mem_reverse.mp h)) _).1,
    List.reverse_reverse]

/-- No pair is stored under a key with a blank. -/
theorem lastStored_blank {key : Str} (h : sp ∈ key) (rs : List DbcRecord) :
    lastStored (·.key == key) rs = none := by
  rw [lastStored, List.find?_eq_none]
  intro r _ hr
  have hkey : serialOf r.fidoMsgid = key := beq_iff_eq.mp hr
  exact not_mem_serialOf r.fidoMsgid (hkey.symm ▸ h)

/-- A MSGID that was stored is found under its serial. -/
theorem lastStored_key {rs : List DbcRecord} {msgid : Str}
    (h : lastStored (·.key == serialOf msgid) rs = none) :
    lastStored (·.fidoMsgid == msgid) rs = none := by
  rw [lastStored, List.find?_eq_none] at h ⊢
  intro r hr hm
  rw [← beq_iff_eq.mp hm] at h
  exact h r hr (beq_self_eq_true _)

/-- `hi_fetch` finds the Message-ID last stored for exactly this MSGID, or
nothing where there is none, if and only if `KeptApart` holds. -/
theorem hiFetch_dbcStored (rs : List DbcRecord) (msgid : Str) :
    hiFetch (dbcStored rs) msgid 0 = some (storedFor rs msgid) ↔ KeptApart rs msgid := by
  by_cases hmem : sp ∈ msgid
  · obtain ⟨a, b, rfl, ha⟩ := List.eq_append_cons_of_mem hmem
    have hcount : (a ++ sp :: b).count sp = b.count sp + 1 := by
      rw [List.count_append, List.count_cons_self, List.count_eq_zero.mpr ha, Nat.zero_add]
    rw [hiFetch, hiFetchKey_append ha, Option.bind_some, dbcStored_apply, KeptApart, hcount]
    by_cases hb : sp ∈ b
    · have hne : b.count sp + 1 ≠ 1 := by
        have := List.count_pos_iff.mpr hb
        omega
      rw [if_neg hne, lastStored_blank hb, storedFor, Option.map_none]
      constructor
      · intro h
        have hnone := (Option.map_eq_none_iff.mp (Option.some.inj h).symm)
        refine ⟨hmem, fun r hr hm => ?_⟩
        rw [lastStored, List.find?_eq_none] at hnone
        exact hnone r (List.mem_reverse.mpr hr) (beq_iff_eq.mpr hm)
      · rintro ⟨-, h⟩
        have hnone : lastStored (·.fidoMsgid == a ++ sp :: b) rs = none := by
          rw [lastStored, List.find?_eq_none]
          intro r hr hm
          exact h r (List.mem_reverse.mp hr) (beq_iff_eq.mp hm)
        rw [hnone]
        rfl
    · rw [List.count_eq_zero.mpr hb, if_pos rfl, serialOf_append a hb]
      have hkey := @lastStored_key rs (a ++ sp :: b)
      rw [serialOf_append a hb] at hkey
      cases hl : lastStored (·.key == b) rs with
      | none =>
          rw [storedFor, hkey hl]
          exact ⟨fun _ r h => (nomatch h), fun _ => rfl⟩
      | some r =>
          rw [Option.map_some, storedFor]
          cases lastStored (·.fidoMsgid == a ++ sp :: b) rs with
          | none =>
              constructor
              · intro h
                obtain ⟨w, -, hw⟩ := Option.map_eq_some_iff.mp h
                cases hw
              · intro h
                obtain ⟨r', hr', -⟩ := h r rfl
                cases hr'
          | some r' =>
              constructor
              · intro h s hs
                obtain ⟨w, hw, hw'⟩ := Option.map_eq_some_iff.mp h
                rw [← Option.some.inj hs]
                exact ⟨r', rfl, hw.trans hw'⟩
              · intro h
                obtain ⟨s, hs, hword⟩ := h r rfl
                rw [← Option.some.inj hs] at hword
                dsimp only
                rw [hword]
                rfl
  · rw [hiFetch, hiFetchKey, if_pos rfl, if_neg hmem, Option.bind_none, KeptApart,
      List.count_eq_zero.mpr hmem, if_neg (Nat.zero_ne_one)]
    exact ⟨fun h => (nomatch h), fun h => absurd h.1 hmem⟩

/-! ## Message-IDs that are kept -/

/-- A Message-ID that a line of the history file gives back whole. -/
structure IsMessageId (id : Str) : Prop where
  word : IsWord true blanks id
  line : lf ∉ id ∧ nul ∉ id
  short : id.length < MAXPATH

/-- The first line begins with what was read already. -/
theorem head_fgetsLoop (size : Nat) : ∀ (room : Nat) {cur : Str} (s : Str), cur ≠ [] →
    ∃ u, (fgetsLoop size room cur s).head? = some (cur ++ u)
  | _, cur, [], h => ⟨[], by rw [fgetsLoop, if_neg h, List.append_nil]; rfl⟩
  | room, cur, c :: s, h => by
      rw [fgetsLoop]
      split
      · exact ⟨[c], rfl⟩
      · obtain ⟨u, hu⟩ := head_fgetsLoop size (room - 1) s (show cur ++ [c] ≠ [] by simp)
        exact ⟨c :: u, by rw [hu, List.append_assoc, List.singleton_append]⟩

theorem dbcWord_line {r : DbcRecord} (h : IsMessageId r.rfcMsgid) :
    dbcWord r.line = some r.rfcMsgid := by
  obtain ⟨hword, ⟨hlf, hnul⟩, hshort⟩ := h
  have hsize : (r.rfcMsgid ++ [tab]).length < BUFFERSIZE - 1 := by
    rw [List.length_append, List.length_singleton]
    simp only [MAXPATH, BUFFERSIZE] at hshort ⊢
    omega
  have htab : lf ∉ r.rfcMsgid ++ [tab] := by
    intro h
    obtain h | h := List.mem_append.mp h
    · exact hlf h
    · revert h
      decide
  obtain ⟨u, hu⟩ := head_fgetsLoop BUFFERSIZE (BUFFERSIZE - 1 - (r.rfcMsgid ++ [tab]).length)
    (putInt r.time ++ [lf]) (show r.rfcMsgid ++ [tab] ≠ [] by simp)
  have hkeep : ∀ c ∈ r.rfcMsgid, (c != nul) = true := fun c hc =>
    bne_iff_ne.mpr fun h => hnul (h ▸ hc)
  have hcstr : cstr (r.rfcMsgid ++ [tab] ++ u) = r.rfcMsgid ++ tab :: cstr u := by
    rw [cstr, List.append_assoc, List.takeWhile_append_of_pos hkeep, List.singleton_append,
      List.takeWhile_cons_of_pos (by decide)]
    rfl
  have hline : (fgetsLines BUFFERSIZE r.line).head? = some (r.rfcMsgid ++ tab :: cstr u) := by
    rw [fgetsLines, DbcRecord.line, List.append_assoc (r.rfcMsgid ++ [tab]),
      fgetsLoop_append BUFFERSIZE [] _ htab hsize, List.nil_append, List.head?_map, hu,
      Option.map_some, hcstr]
  have hfirst : xstrtok blanks (r.rfcMsgid ++ tab :: cstr u) =
      r.rfcMsgid :: words true blanks (cstr u) := words_append hword rfl (cstr u)
  rw [dbcWord, hline, Option.bind_some, hfirst, List.head?_cons, Option.map_some, bufCopy,
    List.take_of_length_le (by omega)]

/-- No other system used the serial, and the Message-IDs are words. -/
theorem keptApart_of_unique {rs : List DbcRecord} {msgid : Str} (hone : msgid.count sp = 1)
    (hunique : ∀ r ∈ rs, r.key = serialOf msgid → r.fidoMsgid = msgid)
    (hid : ∀ r ∈ rs, IsMessageId r.rfcMsgid) : KeptApart rs msgid := by
  rw [KeptApart, if_pos hone]
  intro r hr
  obtain ⟨hkey, newer, older, hrs, hnewer⟩ := List.find?_eq_some_iff_append.mp hr
  have hmem : r ∈ rs := List.mem_reverse.mp (hrs ▸ List.mem_append_right _ List.mem_cons_self)
  have hm : r.fidoMsgid = msgid := hunique r hmem (beq_iff_eq.mp hkey)
  refine ⟨r, ?_, dbcWord_line (hid r hmem)⟩
  refine List.find?_eq_some_iff_append.mpr ⟨beq_iff_eq.mpr hm, newer, older, hrs, ?_⟩
  intro s hs
  rw [Bool.not_eq_true', beq_eq_false_iff_ne]
  intro h
  have hskey : s.key = serialOf msgid := h ▸ rfl
  have := hnewer s hs
  rw [hskey, beq_self_eq_true] at this
  exact Bool.false_ne_true this

/-- Two systems that used the same serial. -/
def sameSerial : List DbcRecord :=
  [⟨lit "<a@one.example>", lit "2:5020/1 0a1b2c3d", 1000000000⟩,
    ⟨lit "<b@two.example>", lit "2:5020/2 0a1b2c3d", 1000000001⟩]

/-- The reply to the first is threaded to the second. -/
theorem hiFetch_sameSerial : ¬ ∀ (rs : List DbcRecord) (msgid : Str),
    hiFetch (dbcStored rs) msgid 0 = some (storedFor rs msgid) := by
  intro h
  have h := h sameSerial (lit "2:5020/1 0a1b2c3d")
  revert h
  decide +kernel

end Fidogate

/-
# `Fidogate.Common.Acl` — acl.c: who may write where

The table is the list of its lines, and its texts are state: `ftnacl_lookup`
cuts the pattern lists it reads in place, `list_init` puts blanks for their
commas.  `ftnaclAllows` and `aclAllows` are what the table says itself.
-/
import Fidogate.Common.Wildmat
import Fidogate.Common.Node
import Fidogate.Lib.Run
import Mathlib.Data.List.Forall2

namespace Fidogate

open Bytes

/-- `TYPE_NETMAIL`, `TYPE_ECHOMAIL` -/
inductive AclType
  | netmail | echomail
  deriving DecidableEq, Repr

/-- `RFC2FTN`, `FTN2RFC` -/
inductive GateType
  | rfc2ftn | ftn2rfc
  deriving DecidableEq, Repr

/-- `Acl`: a line of the table. -/
structure Acl where
  gate : GateType
  type : AclType
  emailPat : Str
  ngrpPat : Str
  deriving DecidableEq, Repr

/-- `wildmat`: `wildmatch` of a text and a pattern, upper and lower case apart. -/
def wildmat (s pat : Str) : Bool := wildmatch s pat false

/-- `znfp2`: the text of `znfp1` in another buffer. -/
def znfp2 (n : Node) : Str := (znfpPrint n true true).take 47

/-! ## `ftnacl_lookup` -/

/-- What `ftnacl_lookup` is asked; `node_to` is not read where there is an area. -/
structure FtnQuery where
  nodeFrom : Node
  nodeTo : Node
  echo : Option Str
  deriving DecidableEq, Repr

def FtnQuery.type (q : FtnQuery) : AclType := if q.echo.isSome then .echomail else .netmail

/-- The area or the address the patterns are for. -/
def FtnQuery.text (q : FtnQuery) : Str := q.echo.getD (znfp1 q.nodeTo)

/-- The line is for the query. -/
def Acl.ftnSelects (p : Acl) (q : FtnQuery) : Bool :=
  p.gate == .ftn2rfc && wildmat (znfp2 q.nodeFrom) p.emailPat && p.type == q.type

/-- The patterns of the line, as its text reads now. -/
def Acl.pats (p : Acl) : List Str := xstrtok (lit ",") p.ngrpPat

/-- The line after `xstrtok` took its first token: the others are behind a NUL. -/
def Acl.cut (p : Acl) : Acl := { p with ngrpPat := strtokCut (lit ",") p.ngrpPat }

/-- `ftnacl_lookup`, and the table it leaves. -/
def ftnaclLookup (q : FtnQuery) : List Acl → Bool × List Acl
  | [] => (false, [])
  | p :: acl =>
      if p.ftnSelects q then
        -- the pattern is where the text should be
        if p.pats.any (wildmat · q.text) then (true, p.cut :: acl)
        else ((ftnaclLookup q acl).1, p.cut :: (ftnaclLookup q acl).2)
      else ((ftnaclLookup q acl).1, p :: (ftnaclLookup q acl).2)

/-- The answers of one call after the other. -/
def ftnaclAnswers (acl : List Acl) : List FtnQuery → List Bool
  | [] => []
  | q :: qs => (ftnaclLookup q acl).1 :: ftnaclAnswers (ftnaclLookup q acl).2 qs

/-- A line for the query has a pattern that the area or address matches. -/
def ftnaclAllows (acl : List Acl) (q : FtnQuery) : Bool :=
  acl.any fun p => p.ftnSelects q && p.pats.any (wildmat q.text ·)

/-- A line as it is read from the file, and as it reads now. -/
structure SameLine (p p' : Acl) : Prop where
  gate : p'.gate = p.gate
  type : p'.type = p.type
  emailPat : p'.emailPat = p.emailPat

instance : Std.Refl SameLine := ⟨fun _ => ⟨rfl, rfl, rfl⟩⟩

theorem SameLine.ftnSelects {p p' : Acl} (h : SameLine p p') (q : FtnQuery) :
    p'.ftnSelects q = p.ftnSelects q := by
  rw [Acl.ftnSelects, h.gate, h.type, h.emailPat, Acl.ftnSelects]

/-- What is left of the list of a line serves a query: a pattern that the area
or address matches is still there and matches with text and pattern exchanged;
one that matches so is of the line and matches as it should. -/
structure ListServes (q : FtnQuery) (p p' : Acl) : Prop where
  kept : ∀ n ∈ p.pats, wildmat q.text n = true → n ∈ p'.pats ∧ wildmat n q.text = true
  own : ∀ n ∈ p'.pats, wildmat n q.text = true → n ∈ p.pats ∧ wildmat q.text n = true

instance (q : FtnQuery) (p p' : Acl) : Decidable (ListServes q p p') :=
  decidable_of_iff
    ((∀ n ∈ p.pats, wildmat q.text n = true → n ∈ p'.pats ∧ wildmat n q.text = true) ∧
      ∀ n ∈ p'.pats, wildmat n q.text = true → n ∈ p.pats ∧ wildmat q.text n = true)
    ⟨fun h => ⟨h.1, h.2⟩, fun h => ⟨h.kept, h.own⟩⟩

/-- `ListServes` for each line that is for the query. -/
def TableServes (acl acl' : List Acl) (q : FtnQuery) : Prop :=
  ∀ r ∈ acl.zip acl', r.1.ftnSelects q = true → ListServes q r.1 r.2

instance (acl acl' : List Acl) (q : FtnQuery) : Decidable (TableServes acl acl' q) :=
  inferInstanceAs (Decidable (∀ r ∈ acl.zip acl', r.1.ftnSelects q = true → ListServes q r.1 r.2))

theorem ListServes.any {q : FtnQuery} {p p' : Acl} (h : ListServes q p p') :
    p'.pats.any (wildmat · q.text) = p.pats.any (wildmat q.text ·) := by
  rw [Bool.eq_iff_iff, List.any_eq_true, List.any_eq_true]
  constructor
  · rintro ⟨n, hn, hm⟩
    exact ⟨n, h.own n hn hm⟩
  · rintro ⟨n, hn, hm⟩
    exact ⟨n, h.kept n hn hm⟩

/-- The lines stay what they are, but for their lists. -/
theorem ftnaclLookup_same {q : FtnQuery} {acl acl' : List Acl}
    (h : List.Forall₂ SameLine acl acl') :
    List.Forall₂ SameLine acl (ftnaclLookup q acl').2 := by
  induction h with
  | nil => exact .nil
  | @cons p p' acl acl' hp hacl ih =>
      have hcut : SameLine p p'.cut := ⟨hp.gate, hp.type, hp.emailPat⟩
      rw [ftnaclLookup]
      split
      · split
        · exact .cons hcut hacl
        · exact .cons hcut ih
      · exact .cons hp ih

/-- One call on a table that serves its query. -/
theorem ftnaclLookup_allows {q : FtnQuery} {acl acl' : List Acl}
    (h : List.Forall₂ SameLine acl acl') (hserves : TableServes acl acl' q) :
    (ftnaclLookup q acl').1 = ftnaclAllows acl q := by
  induction h with
  | nil => rfl
  | @cons p p' acl acl' hp hacl ih =>
      have ih := ih fun r hr => hserves r (List.mem_cons_of_mem _ hr)
      have hhead : p.ftnSelects q = true → ListServes q p p' := hserves (p, p') List.mem_cons_self
      have hallows : ftnaclAllows (p :: acl) q =
          (p.ftnSelects q && p.pats.any (wildmat q.text ·) || ftnaclAllows acl q) := rfl
      rw [ftnaclLookup, hp.ftnSelects, ih, hallows]
      cases hsel : p.ftnSelects q with
      | false => rfl
      | true =>
          rw [if_pos rfl, (hhead hsel).any, Bool.true_and]
          cases p.pats.any (wildmat q.text ·) with
          | true => rfl
          | false => rfl

theorem ftnaclAnswers_of_same {acl : List Acl} : ∀ {acl' : List Acl} (qs : List FtnQuery),
    List.Forall₂ SameLine acl acl' →
    Run.Met (fun acl' q => (ftnaclLookup q acl').2) (TableServes acl) acl' qs →
    ftnaclAnswers acl' qs = qs.map (ftnaclAllows acl)
  | _, [], _, _ => rfl
  | acl', q :: qs, hsame, hmet => by
      rw [ftnaclAnswers, ftnaclLookup_allows hsame hmet.1,
        ftnaclAnswers_of_same qs (ftnaclLookup_same hsame) hmet.2, List.map_cons]

/-- Where each call finds lists that serve its query, each answers what the
table says, however many calls came before it. -/
theorem ftnaclAnswers_allows (acl : List Acl) (qs : List FtnQuery)
    (h : Run.Met (fun acl' q => (ftnaclLookup q acl').2) (TableServes acl) acl qs) :
    ftnaclAnswers acl qs = qs.map (ftnaclAllows acl) :=
  ftnaclAnswers_of_same qs (List.forall₂_refl acl) h

/-- Two areas closed to the nodes of a net. -/
def localLine : Acl := ⟨.ftn2rfc, .echomail, lit "2:5020/*", lit "A.LOCAL,B.LOCAL"⟩

/-- A posting of a node of the net. -/
def localQuery (echo : Str) : FtnQuery := ⟨⟨2, 5020, 7, 0, []⟩, nodeClear, some echo⟩

theorem ftnaclAnswers_allows_local :
    ftnaclAnswers [localLine] [localQuery (lit "A.LOCAL"), localQuery (lit "A.LOCAL")] =
      [localQuery (lit "A.LOCAL"), localQuery (lit "A.LOCAL")].map (ftnaclAllows [localLine]) :=
  ftnaclAnswers_allows _ _ (by decide +kernel)

/-- The second area of the list is closed only once. -/
theorem ftnaclAnswers_cut : ¬ ∀ (acl : List Acl) (qs : List FtnQuery),
    ftnaclAnswers acl qs = qs.map (ftnaclAllows acl) := by
  intro h
  have h := h [localLine] [localQuery (lit "B.LOCAL"), localQuery (lit "B.LOCAL")]
  revert h
  decide +kernel

/-! ## `acl_ngrp` and `acl_ngrp_lookup` -/

/-- `RFCAddr` -/
structure RFCAddr where
  user : Str
  addr : Str
  real : Str
  deriving DecidableEq, Repr

/-- `s_rfcaddr_to_asc` without the real name. -/
def sRfcaddrToAsc (rfc : RFCAddr) : Str :=
  rfc.user ++ (if rfc.addr = [] then [] else lit "@") ++ rfc.addr

/-- The `email` of `acl_ngrp`. -/
def aclEmail (rfc : RFCAddr) : Str := bufCopy MAXINETADDR (sRfcaddrToAsc rfc)

/-- What `list_init` does to the text it is given. -/
def blankCommas (list : Str) : Str := list.map fun c => if c == 44 then sp else c

/-- The words `list_init` makes of a text: `argify` without its commas. -/
def listInit (list : Str) : List Str := strtok blanks (blankCommas list)

/-- One pattern of `list_match` on one name. -/
def listMatchStep (name : Str) (found : Bool) (p : Str) : Bool :=
  if p.head? == some 33 then if wildmat name p.tail then false else found
  else if wildmat name p then true else found

/-- `list_match`; no list of patterns is NULL. -/
def listMatch (pats : Option (List Str)) (list : List Str) : Bool :=
  list.foldl (fun found name => (pats.getD []).foldl (listMatchStep name) found) false

/-- The table, and the patterns `acl_ngrp` left in `ngrp_pat_list`. -/
structure AclState where
  acl : List Acl
  ngrpPats : Option (List Str)
  deriving DecidableEq, Repr

/-- The line is for the address. -/
def Acl.selects (p : Acl) (email : Str) (type : AclType) : Bool :=
  p.gate == .rfc2ftn && wildmat email p.emailPat && p.type == type

/-- `acl_lookup` behind `i` lines: the last line for the address counts. -/
def aclLookupLoop (email : Str) (type : AclType) (i : Nat) (ngrp : Option Nat) :
    List Acl → Option Nat
  | [] => ngrp
  | p :: acl =>
      aclLookupLoop email type (i + 1) (if p.selects email type then some i else ngrp) acl

/-- `acl_lookup`: where the line with the patterns for the address is. -/
def aclLookup (email : Str) (type : AclType) (acl : List Acl) : Option Nat :=
  aclLookupLoop email type 0 none acl

/-- The line whose text `list_init` was given. -/
def Acl.blank (p : Acl) : Acl := { p with ngrpPat := blankCommas p.ngrpPat }

/-- The patterns the table has for an address. -/
def aclPats (acl : List Acl) (email : Str) (type : AclType) : Option (List Str) :=
  (aclLookup email type acl).bind fun i => (acl[i]?).map fun p => listInit p.ngrpPat

/-- `acl_ngrp`: without a line for the address `list_init` does nothing. -/
def aclNgrp (st : AclState) (rfcFrom : RFCAddr) (type : AclType) : AclState :=
  match aclLookup (aclEmail rfcFrom) type st.acl with
  | none => st
  | some i =>
      { acl := st.acl.modify i Acl.blank
        ngrpPats := (st.acl[i]?).map fun p => listInit p.ngrpPat }

/-- `acl_ngrp_free` -/
def aclNgrpFree (st : AclState) : AclState := { st with ngrpPats := none }

/-- `acl_ngrp_lookup` -/
def aclNgrpLookup (st : AclState) (list : Str) : Bool := listMatch st.ngrpPats (listInit list)

/-- What the table says about an address and a newsgroup or an FTN address. -/
def aclAllows (acl : List Acl) (email : Str) (type : AclType) (list : Str) : Bool :=
  listMatch (aclPats acl email type) (listInit list)

theorem blankCommas_idem (s : Str) : blankCommas (blankCommas s) = blankCommas s := by
  rw [blankCommas, blankCommas, List.map_map]
  refine List.map_congr_left fun c _ => ?_
  have key : ∀ c : UInt8, (if (if c == 44 then sp else c) == 44 then sp
      else if c == 44 then sp else c) = if c == 44 then sp else c :=
    forall_byte (by decide +kernel)
  exact key c

theorem listMatch_none (list : List Str) : listMatch none list = false := by
  rw [listMatch]
  induction list with
  | nil => rfl
  | cons name list ih => exact ih

/-- A line as it is read from the file, and with blanks for its commas. -/
structure SameRule (p p' : Acl) : Prop extends SameLine p p' where
  ngrpPat : blankCommas p'.ngrpPat = blankCommas p.ngrpPat

theorem SameRule.blank {p p' : Acl} (h : SameRule p p') : SameRule p p'.blank :=
  ⟨⟨h.gate, h.type, h.emailPat⟩, (blankCommas_idem _).trans h.ngrpPat⟩

theorem SameRule.selects {p p' : Acl} (h : SameRule p p') (email : Str) (type : AclType) :
    p'.selects email type = p.selects email type := by
  rw [Acl.selects, h.gate, h.type, h.emailPat, Acl.selects]

instance : Std.Refl SameRule := ⟨fun _ => ⟨⟨rfl, rfl, rfl⟩, rfl⟩⟩

theorem aclLookupLoop_same {acl acl' : List Acl} (h : List.Forall₂ SameRule acl acl')
    (email : Str) (type : AclType) : ∀ (i : Nat) (ngrp : Option Nat),
    aclLookupLoop email type i ngrp acl' = aclLookupLoop email type i ngrp acl := by
  induction h with
  | nil => exact fun _ _ => rfl
  | cons hp _ ih =>
      intro i ngrp
      rw [aclLookupLoop, hp.selects, ih, aclLookupLoop]

/-- The blanks for the commas do not change what the table says. -/
theorem aclPats_same {acl acl' : List Acl} (h : List.Forall₂ SameRule acl acl') (email : Str)
    (type : AclType) : aclPats acl' email type = aclPats acl email type := by
  rw [aclPats, aclLookup, aclLookupLoop_same h, aclPats, aclLookup]
  cases aclLookupLoop email type 0 none acl with
  | none => rfl
  | some i =>
      rw [Option.bind_some, Option.bind_some]
      clear email type
      induction h generalizing i with
      | nil => rfl
      | cons hp _ ih =>
          cases i with
          | zero =>
              rw [List.getElem?_cons_zero, List.getElem?_cons_zero, Option.map_some,
                Option.map_some, listInit, hp.ngrpPat, listInit]
          | succ i =>
              rw [List.getElem?_cons_succ, List.getElem?_cons_succ]
              exact ih i

theorem forall₂_blank {acl acl' : List Acl} (h : List.Forall₂ SameRule acl acl') (i : Nat) :
    List.Forall₂ SameRule acl (acl'.modify i Acl.blank) := by
  induction h generalizing i with
  | nil => exact (List.modify_nil Acl.blank i).symm ▸ .nil
  | cons hp hacl ih =>
      cases i with
      | zero => exact .cons hp.blank hacl
      | succ i => exact .cons hp (ih i)

/-- The lines stay what they are, but for their commas. -/
theorem aclNgrp_same {acl : List Acl} {st : AclState} (h : List.Forall₂ SameRule acl st.acl)
    (rfcFrom : RFCAddr) (type : AclType) :
    List.Forall₂ SameRule acl (aclNgrp st rfcFrom type).acl := by
  rw [aclNgrp]
  cases aclLookup (aclEmail rfcFrom) type st.acl with
  | none => exact h
  | some i => exact forall₂_blank h i

theorem aclLookupLoop_lt {email : Str} {type : AclType} : ∀ {acl : List Acl} {i : Nat}
    {ngrp : Option Nat} {j : Nat}, aclLookupLoop email type i ngrp acl = some j →
    ngrp = some j ∨ i ≤ j ∧ j < i + acl.length
  | [], _, _, _, h => .inl h
  | p :: acl, i, ngrp, j, h => by
      rw [aclLookupLoop] at h
      rw [List.length_cons]
      obtain h | ⟨h1, h2⟩ := aclLookupLoop_lt h
      · cases hsel : p.selects email type with
        | false =>
            rw [hsel] at h
            exact .inl h
        | true =>
            rw [hsel, if_pos rfl, Option.some.injEq] at h
            exact .inr (by omega)
      · exact .inr (by omega)

/-- The list in force after `acl_ngrp`: that of the address, or else the one
that was left. -/
theorem aclNgrp_ngrpPats {acl : List Acl} {st : AclState} (h : List.Forall₂ SameRule acl st.acl)
    (rfcFrom : RFCAddr) (type : AclType) : (aclNgrp st rfcFrom type).ngrpPats =
      (aclPats acl (aclEmail rfcFrom) type).or st.ngrpPats := by
  rw [← aclPats_same h, aclNgrp, aclPats]
  cases hl : aclLookup (aclEmail rfcFrom) type st.acl with
  | none => rfl
  | some i =>
      have hi : i < st.acl.length := by
        obtain h | h := aclLookupLoop_lt hl
        · cases h
        · omega
      dsimp only
      rw [Option.bind_some, List.getElem?_eq_getElem hi]
      rfl

end Fidogate

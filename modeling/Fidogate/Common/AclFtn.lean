/-
# `Fidogate.Common.AclFtn` — acl_ftn.c: who may write to an area or leave it

A file of lists is read line by line; a line can open another file, and the
section a line stands in goes on across files.  Reading is one pass over the
lines of the whole tree in their order (`aclText`), and so a section is what
the lines in front say (`mtypeAt`, `atypeAt`).
-/
import Fidogate.Common.AreasbbsFile
import Fidogate.Common.Wildmat

namespace Fidogate

open Bytes

/-! ## Nodes and patterns -/

/-- A node of a list; `inv` is its flag `NODE_ACL_INV`. -/
structure AclNode where
  node : Node
  inv : Bool
  deriving DecidableEq, Repr

/-- `asc_to_node_diff_acl`. -/
def ascToNodeDiffAcl (asc : Str) (old : Node) : Option AclNode := do
  let inv := asc.head? == some 33
  let n ← znfpParseDiff (if inv then asc.tail else asc) old
  if n.zone == EMPTY || n.net == EMPTY || n.node == EMPTY then none
  else some ⟨{ n with point := if n.point == EMPTY then 0 else n.point }, inv⟩

/-- The loop over the nodes of a line, each read against the one before; one
that is no address spoils the line. -/
def aclNodes (old : Node) : List Str → Option (List AclNode)
  | [] => some []
  | asc :: ascs => do
      let n ← ascToNodeDiffAcl asc old
      let ns ← aclNodes n.node ascs
      some (n :: ns)

/-- `lon_search_acl`. -/
def lonSearchAcl (n : Node) : List AclNode → Bool
  | [] => false
  | p :: ps => if nodeMatch n p.node then ! p.inv else lonSearchAcl n ps

/-- The loop of `wildmatch_string`: an empty pattern ends it. -/
def wildmatchPatterns (s : Str) (ic : Bool) : List Str → Bool
  | [] => false
  | p :: ps =>
      if p.isEmpty then false
      else if p.head? == some 33 then
        if wildmatch s p.tail ic then false else wildmatchPatterns s ic ps
      else if wildmatch s p ic then true
      else wildmatchPatterns s ic ps

/-- `wildmatch_string`. -/
def wildmatchString (s string : Str) (ic : Bool) : Bool :=
  wildmatchPatterns s ic (xstrtok (lit ",") string)

/-! ## Reading -/

/-- `TYPE_ECHO`, `TYPE_FECHO`. -/
inductive AclMtype
  | echo
  | fecho
  deriving DecidableEq, Repr

/-- `TYPE_READONLY`, `TYPE_MANDATORY`. -/
inductive AclAtype
  | readonly
  | mandatory
  deriving DecidableEq, Repr

/-- `ftn_acl_t`. -/
structure FtnAcl where
  nodes : List AclNode
  str : Str
  mtype : AclMtype
  atype : AclAtype
  date : Int

/-- The static variables: the section and the entries. -/
structure FtnAclState where
  mtype : Option AclMtype
  atype : Option AclAtype
  acls : List FtnAcl

/-- The state before a file is read. -/
def FtnAclState.init : FtnAclState := ⟨none, none, []⟩

/-- The zone of the configuration, `mktime` for a midnight, by `tm_isdst`,
`tm_year`, `tm_mon` and `tm_mday`, and what `tm_isdst` holds in the memory the
date of a line is read into. -/
structure AclEnv where
  zone : Int
  mktime : Int → Int → Int → Int → Int
  isdst : Str → Int

/-- A line as `fgets` returns it, for an include line with the file it opens. -/
inductive AclLine where
  | text (line : Str)
  | opened (line : Str) (file : List AclLine)

/-- The date of an entry, 0 for none; one without three parts hands NULL to
`atoi`. -/
def aclDate (env : AclEnv) (line : Str) (t3 : Option Str) : Option Int :=
  match t3 with
  | none => some 0
  | some t3 =>
      match strtok (lit ".") t3 with
      | mday :: mon :: year :: _ =>
          some (env.mktime (env.isdst line) (atoi year + 100) (atoi mon) (atoi mday))
      | _ => none

/-- `ftnacl_parse_line` for a line that opens no file. -/
def ftnaclParseText (env : AclEnv) (st : FtnAclState) (line : Str) : Option FtnAclState :=
  match strtok blanks line with
  | [] => some st
  | [t1] =>
      if strieq t1 (lit "echo") then some { st with mtype := some .echo, atype := none }
      else if strieq t1 (lit "fecho") then some { st with mtype := some .fecho, atype := none }
      else if strieq t1 (lit "readonly") then some { st with atype := some .readonly }
      else if strieq t1 (lit "mandatory") then some { st with atype := some .mandatory }
      else some st
  | t1 :: t2 :: ts =>
      if strieq t1 (lit "include") then some st
      else
        match st.mtype, st.atype with
        | some mtype, some atype =>
            match aclNodes (nodeOld env.zone) (splitComma t1) with
            | none => some st
            | some nodes =>
                (aclDate env line ts.head?).map fun date =>
                  { st with acls := st.acls ++ [⟨nodes, t2, mtype, atype, date⟩] }
        | _, _ => some st

/-- An include line. -/
def isInclude (line : Str) : Bool :=
  match strtok blanks line with
  | t1 :: _ :: _ => strieq t1 (lit "include")
  | _ => false

/-- A line `cf_getline` passes over. -/
def isComment (line : Str) : Bool := (line.dropWhile isSpace).head? == some 35

mutual

/-- `ftnacl_do_file` for a file that is open; `none` where the program ends in
a null pointer. -/
def ftnaclDoFile (env : AclEnv) : List AclLine → FtnAclState → Option FtnAclState
  | [], st => some st
  | l :: ls, st => (ftnaclParseLine env l st).bind (ftnaclDoFile env ls)

/-- `cf_getline` and `ftnacl_parse_line`. -/
def ftnaclParseLine (env : AclEnv) : AclLine → FtnAclState → Option FtnAclState
  | .text line, st =>
      let line := stripCrlf line
      if isComment line then some st else ftnaclParseText env st line
  | .opened line file, st =>
      let line := stripCrlf line
      if isComment line then some st
      else if isInclude line then ftnaclDoFile env file st
      else ftnaclParseText env st line

end

/-- `ftnacl_init`. -/
def ftnaclInit (env : AclEnv) (file : List AclLine) : Option (List FtnAcl) :=
  (ftnaclDoFile env file .init).map FtnAclState.acls

/-- `ftnacl_search` at the time `now`. -/
def ftnaclSearch (acls : List FtnAcl) (now : Int) (node : Node) (area : Str) (atype : AclAtype)
    (mtype : AclMtype) : Bool :=
  acls.any fun acl =>
    atype == acl.atype && mtype == acl.mtype && lonSearchAcl node acl.nodes &&
      wildmatchString area acl.str true && (acl.date == 0 || acl.date > now)

/-! ## What the lists say -/

mutual

/-- The lines of the tree in the order they are read. -/
def aclText : List AclLine → List Str
  | [] => []
  | l :: ls => aclLineText l ++ aclText ls

def aclLineText : AclLine → List Str
  | .text line => if isComment (stripCrlf line) then [] else [stripCrlf line]
  | .opened line file =>
      if isComment (stripCrlf line) then []
      else if isInclude (stripCrlf line) then aclText file
      else [stripCrlf line]

end

/-- The section words. -/
def mtypeWord (line : Str) : Option AclMtype :=
  match strtok blanks line with
  | [t1] =>
      if strieq t1 (lit "echo") then some .echo
      else if strieq t1 (lit "fecho") then some .fecho
      else none
  | _ => none

def atypeWord (line : Str) : Option AclAtype :=
  match strtok blanks line with
  | [t1] =>
      if strieq t1 (lit "readonly") then some .readonly
      else if strieq t1 (lit "mandatory") then some .mandatory
      else none
  | _ => none

/-- The area type behind these lines: what the last of its words says. -/
def mtypeAt (before : List Str) : Option AclMtype := before.reverse.findSome? mtypeWord

/-- The list type behind these lines: what the last of its words says, if no
area type has begun since. -/
def atypeAt (before : List Str) : Option AclAtype :=
  (before.reverse.takeWhile fun l => (mtypeWord l).isNone).findSome? atypeWord

/-- The nodes, the patterns and the date of an entry line. -/
def aclEntryLine (zone : Int) (line : Str) : Option (List AclNode × Str × Option Str) :=
  match strtok blanks line with
  | t1 :: t2 :: ts =>
      if strieq t1 (lit "include") then none
      else (aclNodes (nodeOld zone) (splitComma t1)).map (·, t2, ts.head?)
  | _ => none

/-- The patterns of an entry: an empty one ends them. -/
def aclPatterns (str : Str) : List Str := (xstrtok (lit ",") str).takeWhile (! ·.isEmpty)

/-- A pattern without its mark. -/
def barePattern (p : Str) : Str := if p.head? == some 33 then p.tail else p

/-- The first of the nodes that matches is not marked. -/
def NodesAllow (node : Node) (nodes : List AclNode) : Prop :=
  ∃ p, nodes.find? (nodeMatch node ·.node) = some p ∧ p.inv = false

/-- The first of the patterns that matches is not marked. -/
def PatternsAllow (area str : Str) : Prop :=
  ∃ p, (aclPatterns str).find? (fun p => wildmatch area (barePattern p) true) = some p ∧
    p.head? ≠ some 33

/-- An entry line in a section of these types, with its date, whose nodes and
patterns allow. -/
def AclMatches (env : AclEnv) (lines : List Str) (node : Node) (area : Str) (atype : AclAtype)
    (mtype : AclMtype) (line : Str) (date : Option Str) : Prop :=
  ∃ before after nodes str, lines = before ++ line :: after ∧ atypeAt before = some atype ∧
    mtypeAt before = some mtype ∧ aclEntryLine env.zone line = some (nodes, str, date) ∧
    NodesAllow node nodes ∧ PatternsAllow area str

/-- Day, month and year of a date. -/
def aclDateParts (date : Str) : Option (Int × Int × Int) :=
  match strtok (lit ".") date with
  | mday :: mon :: year :: _ => some (atoi mday, atoi mon, atoi year)
  | _ => none

/-- The midnight a date means: its month counts from 1, and a year of two digits
is one from 2000 on. -/
def meantTime (env : AclEnv) (mday mon year : Int) : Int :=
  env.mktime (-1) (if year < 100 then year + 100 else year - 1900) (mon - 1) mday

/-- There is no date, or it has not yet come. -/
def AclRunning (env : AclEnv) (now : Int) : Option Str → Prop
  | none => True
  | some date => ∃ mday mon year, aclDateParts date = some (mday, mon, year) ∧
      now < meantTime env mday mon year

/-- What the search answers is what the lists say. -/
def FtnAclRight (env : AclEnv) (file : List AclLine) (now : Int) (node : Node) (area : Str)
    (atype : AclAtype) (mtype : AclMtype) : Prop :=
  ∃ acls, ftnaclInit env file = some acls ∧
    (ftnaclSearch acls now node area atype mtype = true ↔
      ∃ line date, AclMatches env (aclText file) node area atype mtype line date ∧
        AclRunning env now date)

/-! ## The condition -/

/-- The time of a date as it is taken, with the month and the year too far, is
0 or has not yet come. -/
def AclKept (env : AclEnv) (now : Int) (line : Str) : Option Str → Prop
  | none => True
  | some date => ∃ mday mon year, aclDateParts date = some (mday, mon, year) ∧
      (env.mktime (env.isdst line) (year + 100) mon mday = 0 ∨
        now < env.mktime (env.isdst line) (year + 100) mon mday)

/-- The date of every entry has three parts. -/
def AclDated (env : AclEnv) (lines : List Str) : Prop :=
  ∀ before line after nodes str date, lines = before ++ line :: after →
    (mtypeAt before).isSome = true → (atypeAt before).isSome = true →
    aclEntryLine env.zone line = some (nodes, str, some date) → (aclDateParts date).isSome = true

/-- Of the entries that match, one whose date is taken to run on and does not is
made up for by one that runs, and one whose date runs and is not taken to by one
that is. -/
structure AclOk (env : AclEnv) (lines : List Str) (now : Int) (node : Node) (area : Str)
    (atype : AclAtype) (mtype : AclMtype) : Prop where
  dated : AclDated env lines
  late : ∀ line date, AclMatches env lines node area atype mtype line date →
    AclKept env now line date → ¬ AclRunning env now date →
    ∃ line' date', AclMatches env lines node area atype mtype line' date' ∧
      AclRunning env now date'
  early : ∀ line date, AclMatches env lines node area atype mtype line date →
    AclRunning env now date → ¬ AclKept env now line date →
    ∃ line' date', AclMatches env lines node area atype mtype line' date' ∧
      AclKept env now line' date'

/-! ## First matches -/

theorem nodesAllow_nil (node : Node) : ¬ NodesAllow node [] := by
  rintro ⟨_, h, _⟩
  cases h

theorem lonSearchAcl_iff {node : Node} : ∀ {nodes : List AclNode},
    lonSearchAcl node nodes = true ↔ NodesAllow node nodes
  | [] => iff_of_false Bool.false_ne_true (nodesAllow_nil node)
  | p :: ps => by
      have ih := @lonSearchAcl_iff node ps
      rw [lonSearchAcl, NodesAllow, List.find?_cons]
      cases nodeMatch node p.node with
      | true =>
          rw [if_pos rfl, Bool.not_eq_true']
          constructor
          · exact fun h => ⟨p, rfl, h⟩
          · rintro ⟨q, h, hq⟩
            rwa [Option.some.inj h]
      | false => exact ih

/-- The first of the patterns up to an empty one. -/
theorem wildmatchPatterns_iff {area : Str} : ∀ {ps : List Str},
    wildmatchPatterns area true ps = true ↔
      ∃ p, (ps.takeWhile (! ·.isEmpty)).find? (fun p => wildmatch area (barePattern p) true) =
        some p ∧ p.head? ≠ some 33
  | [] => by
      refine iff_of_false Bool.false_ne_true ?_
      rintro ⟨_, h, _⟩
      cases h
  | p :: ps => by
      have ih := @wildmatchPatterns_iff area ps
      rw [wildmatchPatterns]
      cases hempty : p.isEmpty with
      | true =>
          rw [if_pos rfl, List.takeWhile_cons_of_neg (by simp [hempty])]
          refine iff_of_false Bool.false_ne_true ?_
          rintro ⟨_, h, _⟩
          cases h
      | false =>
          rw [if_neg (by decide), List.takeWhile_cons_of_pos (by simp [hempty]), List.find?_cons]
          by_cases hmark : p.head? = some 33
          · have hbare : barePattern p = p.tail := by rw [barePattern, hmark]; rfl
            rw [hbare, hmark, beq_self_eq_true, if_pos rfl]
            cases wildmatch area p.tail true with
            | true =>
                refine iff_of_false Bool.false_ne_true ?_
                rintro ⟨q, h, hq⟩
                exact hq (Option.some.inj h ▸ hmark)
            | false => exact ih
          · have hmark' : (p.head? == some 33) = false := beq_eq_false_iff_ne.mpr hmark
            have hbare : barePattern p = p := by rw [barePattern, hmark']; rfl
            rw [hbare, hmark', if_neg Bool.false_ne_true]
            cases wildmatch area p true with
            | true => exact iff_of_true rfl ⟨p, rfl, hmark⟩
            | false => exact ih

theorem wildmatchString_iff {area str : Str} :
    wildmatchString area str true = true ↔ PatternsAllow area str := wildmatchPatterns_iff

/-! ## One pass over the lines -/

section

variable {env : AclEnv}

/-- The lines, one after the other. -/
def ftnaclLines (env : AclEnv) (lines : List Str) (st : FtnAclState) : Option FtnAclState :=
  lines.foldlM (ftnaclParseText env) st

theorem ftnaclLines_append (ls ls' : List Str) (st : FtnAclState) :
    ftnaclLines env (ls ++ ls') st = (ftnaclLines env ls st).bind (ftnaclLines env ls') :=
  List.foldlM_append

theorem ftnaclLines_single (l : Str) (st : FtnAclState) :
    ftnaclLines env [l] st = ftnaclParseText env st l := by
  rw [ftnaclLines, List.foldlM_cons]
  exact bind_pure _

mutual

/-- A file with all it includes. -/
theorem ftnaclDoFile_eq : ∀ (file : List AclLine) (st : FtnAclState),
    ftnaclDoFile env file st = ftnaclLines env (aclText file) st
  | [], st => by
      rw [ftnaclDoFile, aclText]
      rfl
  | l :: ls, st => by
      rw [ftnaclDoFile, aclText, ftnaclLines_append, ftnaclParseLine_eq l st]
      exact congrArg _ (funext (ftnaclDoFile_eq ls))

theorem ftnaclParseLine_eq : ∀ (l : AclLine) (st : FtnAclState),
    ftnaclParseLine env l st = ftnaclLines env (aclLineText l) st
  | .text line, st => by
      rw [ftnaclParseLine, aclLineText]
      split
      · rfl
      · exact (ftnaclLines_single _ st).symm
  | .opened line file, st => by
      rw [ftnaclParseLine, aclLineText]
      split
      · rfl
      · split
        · exact ftnaclDoFile_eq file st
        · exact (ftnaclLines_single _ st).symm

end

/-- The place of a line in lines with one more at the end. -/
theorem append_cons_eq_concat {α : Type*} {ls before after : List α} {x l : α} :
    ls ++ [l] = before ++ x :: after ↔
      (∃ after', after = after' ++ [l] ∧ ls = before ++ x :: after') ∨
        before = ls ∧ x = l ∧ after = [] := by
  constructor
  · intro h
    rcases List.eq_nil_or_concat after with rfl | ⟨after', y, rfl⟩
    · obtain ⟨hls, hl⟩ := List.append_inj' h rfl
      exact .inr ⟨hls.symm, (List.cons.inj hl).1.symm, rfl⟩
    · rw [List.concat_eq_append, ← List.cons_append, ← List.append_assoc] at h
      obtain ⟨hls, hl⟩ := List.append_inj' h rfl
      exact .inl ⟨after', by rw [List.concat_eq_append, (List.cons.inj hl).1], hls⟩
  · rintro (⟨after', rfl, rfl⟩ | ⟨rfl, rfl, rfl⟩)
    · rw [List.append_assoc, List.cons_append]
    · rfl

theorem mtypeAt_concat (ls : List Str) (l : Str) :
    mtypeAt (ls ++ [l]) = (mtypeWord l).or (mtypeAt ls) := by
  rw [mtypeAt, List.reverse_append, List.reverse_singleton, List.singleton_append,
    List.findSome?_cons]
  cases mtypeWord l <;> rfl

theorem atypeAt_concat (ls : List Str) (l : Str) :
    atypeAt (ls ++ [l]) =
      if (mtypeWord l).isSome then none else (atypeWord l).or (atypeAt ls) := by
  rw [atypeAt, List.reverse_append, List.reverse_singleton, List.singleton_append]
  cases hm : mtypeWord l with
  | some m => rw [List.takeWhile_cons_of_neg (by simp [hm])]; rfl
  | none =>
      rw [List.takeWhile_cons_of_pos (by simp [hm]), List.findSome?_cons]
      cases atypeWord l <;> rfl

/-- What a line adds to a section. -/
def aclPush (env : AclEnv) (st : FtnAclState) (line : Str) : Option (List FtnAcl) :=
  match aclEntryLine env.zone line, st.mtype, st.atype with
  | some (nodes, str, date), some mtype, some atype =>
      (aclDate env line date).map fun t => [⟨nodes, str, mtype, atype, t⟩]
  | _, _, _ => some []

/-- A line is a word of a section, or adds an entry to it, or nothing. -/
theorem ftnaclParseText_eq (st : FtnAclState) (line : Str) : ftnaclParseText env st line =
    (aclPush env st line).map fun new =>
      { mtype := (mtypeWord line).or st.mtype
        atype := if (mtypeWord line).isSome then none else (atypeWord line).or st.atype
        acls := st.acls ++ new } := by
  obtain ⟨mtype, atype, acls⟩ := st
  unfold ftnaclParseText aclPush aclEntryLine mtypeWord atypeWord
  split
  · next h =>
      rw [h]
      simp
  · next t1 h =>
      rw [h]
      dsimp only
      split
      · simp
      · split
        · simp
        · split
          · simp
          · split
            · simp
            · simp
  · next t1 t2 ts h =>
      rw [h]
      dsimp only
      split
      · simp
      · cases aclNodes (nodeOld env.zone) (splitComma t1) with
        | none => cases mtype <;> cases atype <;> simp
        | some nodes =>
            cases mtype with
            | none => simp
            | some m =>
                cases atype with
                | none => simp
                | some a =>
                    dsimp only
                    rw [Option.map_some, Option.map_map]
                    rfl

/-- The lines were read without a null pointer, and what is known then. -/
structure AclRead (env : AclEnv) (lines : List Str) (st : FtnAclState) : Prop where
  mtype : st.mtype = mtypeAt lines
  atype : st.atype = atypeAt lines
  mem : ∀ e, e ∈ st.acls ↔ ∃ before line after nodes str date t mtype atype,
    lines = before ++ line :: after ∧ mtypeAt before = some mtype ∧ atypeAt before = some atype ∧
      aclEntryLine env.zone line = some (nodes, str, date) ∧ aclDate env line date = some t ∧
      e = ⟨nodes, str, mtype, atype, t⟩

theorem aclDate_isSome (line : Str) (date : Option Str) : (aclDate env line date).isSome = true ↔
    ∀ d, date = some d → (aclDateParts d).isSome = true := by
  cases date with
  | none => exact iff_of_true rfl fun _ h => by cases h
  | some d =>
      have hparts : (aclDate env line (some d)).isSome = (aclDateParts d).isSome := by
        unfold aclDate aclDateParts
        dsimp only
        split <;> rfl
      rw [hparts]
      exact ⟨fun h d' hd => Option.some.inj hd ▸ h, fun h => h d rfl⟩

/-- The dates of one line more. -/
theorem aclDated_concat (ls : List Str) (l : Str) : AclDated env (ls ++ [l]) ↔
    AclDated env ls ∧ ((mtypeAt ls).isSome = true → (atypeAt ls).isSome = true →
      ∀ nodes str date, aclEntryLine env.zone l = some (nodes, str, some date) →
        (aclDateParts date).isSome = true) := by
  constructor
  · intro h
    refine ⟨?_, ?_⟩
    · rintro before line after nodes str date rfl hm ha hl
      exact h before line (after ++ [l]) nodes str date
        (by rw [List.append_assoc, List.cons_append]) hm ha hl
    · intro hm ha nodes str date hl
      exact h ls l [] nodes str date rfl hm ha hl
  · rintro ⟨h, hlast⟩ before line after nodes str date heq hm ha hl
    obtain ⟨after', rfl, rfl⟩ | ⟨rfl, rfl, rfl⟩ := append_cons_eq_concat.mp heq
    · exact h before line after' nodes str date rfl hm ha hl
    · exact hlast hm ha nodes str date hl

theorem aclPush_isSome (st : FtnAclState) (line : Str) : (aclPush env st line).isSome = true ↔
    (st.mtype.isSome = true → st.atype.isSome = true →
      ∀ nodes str date, aclEntryLine env.zone line = some (nodes, str, some date) →
        (aclDateParts date).isSome = true) := by
  unfold aclPush
  split
  · next nodes str date mtype atype hl hm ha =>
      rw [Option.isSome_map, aclDate_isSome, hl, hm, ha]
      constructor
      · intro h _ _ nodes' str' date' heq
        cases heq
        exact h date' rfl
      · rintro h d rfl
        exact h rfl rfl nodes str d rfl
  · next hno =>
      refine iff_of_true rfl fun hm ha nodes str date hl => ?_
      obtain ⟨mtype, hm⟩ := Option.isSome_iff_exists.mp hm
      obtain ⟨atype, ha⟩ := Option.isSome_iff_exists.mp ha
      exact (hno nodes str _ mtype atype hl hm ha).elim

theorem mem_aclPush {st : FtnAclState} {line : Str} {new : List FtnAcl}
    (h : aclPush env st line = some new) (e : FtnAcl) : e ∈ new ↔
      ∃ nodes str date t mtype atype, st.mtype = some mtype ∧ st.atype = some atype ∧
        aclEntryLine env.zone line = some (nodes, str, date) ∧ aclDate env line date = some t ∧
        e = ⟨nodes, str, mtype, atype, t⟩ := by
  unfold aclPush at h
  split at h
  · next nodes str date mtype atype hl hm ha =>
      obtain ⟨t, ht, rfl⟩ := Option.map_eq_some_iff.mp h
      rw [List.mem_singleton, hl, hm, ha]
      constructor
      · rintro rfl
        exact ⟨nodes, str, date, t, mtype, atype, rfl, rfl, rfl, ht, rfl⟩
      · rintro ⟨nodes', str', date', t', mtype', atype', hm', ha', hl', ht', rfl⟩
        cases hm'
        cases ha'
        cases hl'
        cases ht.symm.trans ht'
        rfl
  · next hno =>
      rw [← Option.some.inj h]
      refine iff_of_false List.not_mem_nil ?_
      rintro ⟨nodes, str, date, t, mtype, atype, hm, ha, hl, -, -⟩
      exact hno nodes str date mtype atype hl hm ha

/-- Reading the lines succeeds if and only if every date has its parts, and the
entries are those of the lines. -/
theorem ftnaclLines_read (lines : List Str) :
    ((ftnaclLines env lines .init).isSome = true ↔ AclDated env lines) ∧
      ∀ st, ftnaclLines env lines .init = some st → AclRead env lines st := by
  induction lines using List.reverseRecOn with
  | nil =>
      refine ⟨iff_of_true rfl ?_, ?_⟩
      · intro before line after _ _ _ h
        cases before <;> cases h
      · intro st h
        cases h
        refine ⟨rfl, rfl, fun e => iff_of_false List.not_mem_nil ?_⟩
        rintro ⟨before, line, after, _, _, _, _, _, _, h, -⟩
        cases before <;> cases h
  | append_singleton ls l ih =>
      obtain ⟨hsome, hread⟩ := ih
      rw [ftnaclLines_append, aclDated_concat]
      cases hls : ftnaclLines env ls .init with
      | none =>
          rw [hls] at hsome
          refine ⟨iff_of_false Bool.false_ne_true fun h => ?_, fun st h => by cases h⟩
          exact Bool.false_ne_true (hsome.mpr h.1)
      | some st =>
          rw [hls] at hsome
          have hst := hread st hls
          rw [Option.bind_some, ftnaclLines_single, ftnaclParseText_eq, Option.isSome_map,
            aclPush_isSome, hst.mtype, hst.atype]
          refine ⟨⟨fun h => ⟨hsome.mp rfl, h⟩, fun h => h.2⟩, ?_⟩
          intro st' h
          obtain ⟨new, hnew, rfl⟩ := Option.map_eq_some_iff.mp h
          refine ⟨(mtypeAt_concat ls l).symm, (atypeAt_concat ls l).symm, fun e => ?_⟩
          rw [List.mem_append, hst.mem, mem_aclPush hnew]
          constructor
          · rintro (⟨before, line, after, nodes, str, date, t, mtype, atype, rfl, hl⟩ |
              ⟨nodes, str, date, t, mtype, atype, hm, ha, hl⟩)
            · exact ⟨before, line, after ++ [l], nodes, str, date, t, mtype, atype,
                by rw [List.append_assoc, List.cons_append], hl⟩
            · exact ⟨ls, l, [], nodes, str, date, t, mtype, atype, rfl, hst.mtype ▸ hm,
                hst.atype ▸ ha, hl⟩
          · rintro ⟨before, line, after, nodes, str, date, t, mtype, atype, heq, hm, ha, hl⟩
            obtain ⟨after', rfl, rfl⟩ | ⟨rfl, rfl, rfl⟩ := append_cons_eq_concat.mp heq
            · exact .inl ⟨before, line, after', nodes, str, date, t, mtype, atype, rfl, hm, ha, hl⟩
            · exact .inr ⟨nodes, str, date, t, mtype, atype, hst.mtype.trans hm,
                hst.atype.trans ha, hl⟩

/-! ## The search -/

/-- A date as it is kept in an entry. -/
theorem aclKept_iff {now t : Int} {line : Str} {date : Option Str}
    (h : aclDate env line date = some t) : (t = 0 ∨ now < t) ↔ AclKept env now line date := by
  cases date with
  | none =>
      cases h
      exact iff_of_true (.inl rfl) trivial
  | some d =>
      unfold aclDate at h
      rw [AclKept, aclDateParts]
      dsimp only at h
      split at h
      · next mday mon year _ _ =>
          cases h
          constructor
          · exact fun h => ⟨atoi mday, atoi mon, atoi year, rfl, h⟩
          · rintro ⟨_, _, _, heq, h⟩
            cases heq
            exact h
      · cases h

/-- The search finds an entry line that allows and that is taken to run on. -/
theorem ftnaclSearch_iff {lines : List Str} {st : FtnAclState} (hst : AclRead env lines st)
    (hdated : AclDated env lines) {now : Int} {node : Node} {area : Str} {atype : AclAtype}
    {mtype : AclMtype} : ftnaclSearch st.acls now node area atype mtype = true ↔
      ∃ line date, AclMatches env lines node area atype mtype line date ∧
        AclKept env now line date := by
  rw [ftnaclSearch, List.any_eq_true]
  constructor
  · rintro ⟨e, he, hall⟩
    obtain ⟨before, line, after, nodes, str, date, t, mtype', atype', heq, hm, ha, hl, ht, rfl⟩ :=
      (hst.mem e).mp he
    simp only [Bool.and_eq_true, beq_iff_eq, Bool.or_eq_true, decide_eq_true_eq] at hall
    obtain ⟨⟨⟨⟨rfl, rfl⟩, hnodes⟩, hpatterns⟩, hdate⟩ := hall
    exact ⟨line, date, ⟨before, after, nodes, str, heq, ha, hm, hl, lonSearchAcl_iff.mp hnodes,
      wildmatchString_iff.mp hpatterns⟩, (aclKept_iff ht).mp hdate⟩
  · rintro ⟨line, date, ⟨before, after, nodes, str, heq, ha, hm, hl, hnodes, hpatterns⟩, hkept⟩
    have hparts : (aclDate env line date).isSome = true := by
      rw [aclDate_isSome]
      rintro d rfl
      exact hdated before line after nodes str d heq (by rw [hm]; rfl) (by rw [ha]; rfl) hl
    obtain ⟨t, ht⟩ := Option.isSome_iff_exists.mp hparts
    refine ⟨⟨nodes, str, mtype, atype, t⟩, (hst.mem _).mpr ⟨before, line, after, nodes, str, date,
      t, mtype, atype, heq, hm, ha, hl, ht, rfl⟩, ?_⟩
    simp only [Bool.and_eq_true, beq_iff_eq, Bool.or_eq_true, decide_eq_true_eq]
    exact ⟨⟨⟨⟨trivial, trivial⟩, lonSearchAcl_iff.mpr hnodes⟩, wildmatchString_iff.mpr hpatterns⟩,
      (aclKept_iff ht).mpr hkept⟩

/-- The lists are followed if and only if the condition holds: every date can be
read, and where it is taken for another one another entry decides alike. -/
theorem ftnAclRight_iff {file : List AclLine} {now : Int} {node : Node} {area : Str}
    {atype : AclAtype} {mtype : AclMtype} :
    FtnAclRight env file now node area atype mtype ↔
      AclOk env (aclText file) now node area atype mtype := by
  obtain ⟨hsome, hread⟩ := @ftnaclLines_read env (aclText file)
  have hinit : ftnaclInit env file =
      (ftnaclLines env (aclText file) .init).map FtnAclState.acls := by
    rw [ftnaclInit, ftnaclDoFile_eq]
  constructor
  · rintro ⟨acls, hacls, hright⟩
    rw [hinit] at hacls
    obtain ⟨st, hst, rfl⟩ := Option.map_eq_some_iff.mp hacls
    have hdated := hsome.mp (by rw [hst]; rfl)
    rw [ftnaclSearch_iff (hread st hst) hdated] at hright
    exact ⟨hdated, fun line date hmatch hkept _ => hright.mp ⟨line, date, hmatch, hkept⟩,
      fun line date hmatch hrun _ => hright.mpr ⟨line, date, hmatch, hrun⟩⟩
  · rintro ⟨hdated, hlate, hearly⟩
    obtain ⟨st, hst⟩ := Option.isSome_iff_exists.mp (hsome.mpr hdated)
    refine ⟨st.acls, by rw [hinit, hst]; rfl, ?_⟩
    rw [ftnaclSearch_iff (hread st hst) hdated]
    constructor
    · rintro ⟨line, date, hmatch, hkept⟩
      by_cases hrun : AclRunning env now date
      · exact ⟨line, date, hmatch, hrun⟩
      · exact hlate line date hmatch hkept hrun
    · rintro ⟨line, date, hmatch, hrun⟩
      by_cases hkept : AclKept env now line date
      · exact ⟨line, date, hmatch, hkept⟩
      · exact hearly line date hmatch hrun hkept

end

/-- `mktime` where local time is UTC: the days since 1970, counted from March
on, by which `tm_mon` may be any number. -/
def utcMidnight (_isdst year mon mday : Int) : Int :=
  let y := year + 1900 + mon / 12
  let m := mon % 12
  let y := if m < 2 then y - 1 else y
  let m := (m + 10) % 12
  86400 * (365 * y + y / 4 - y / 100 + y / 400 + (153 * m + 2) / 5 + mday - 719469)

example : utcMidnight (-1) 70 0 1 = 0 ∧ utcMidnight (-1) 105 11 31 = 1135987200 ∧
    utcMidnight 0 105 12 31 = utcMidnight 0 106 0 31 := by decide

/-- A list with one entry up to 31 December 2005. -/
def datedList : List AclLine :=
  [.text (lit "echo"), .text (lit "readonly"), .text (lit "2:5020/2 FOO 31.12.05")]

/-- On 10 January 2006 the entry is still found: its date is taken for
31 January 2006. -/
theorem ftnaclSearch_late :
    let env : AclEnv := ⟨2, utcMidnight, fun _ => 0⟩
    (∃ acls, ftnaclInit env datedList = some acls ∧
      ftnaclSearch acls 1136851200 ⟨2, 5020, 2, 0, []⟩ (lit "FOO") .readonly .echo = true) ∧
    ¬ FtnAclRight env datedList 1136851200 ⟨2, 5020, 2, 0, []⟩ (lit "FOO") .readonly .echo := by
  have hfound : (ftnaclInit ⟨2, utcMidnight, fun _ => 0⟩ datedList).any (fun acls =>
      ftnaclSearch acls 1136851200 ⟨2, 5020, 2, 0, []⟩ (lit "FOO") .readonly .echo) = true := by
    decide +kernel
  obtain ⟨acls, hacls, hsearch⟩ := (Option.any_eq_true _ _).mp hfound
  refine ⟨⟨acls, hacls, hsearch⟩, ?_⟩
  rintro ⟨acls', hacls', hiff⟩
  cases hacls.symm.trans hacls'
  obtain ⟨line, date, ⟨before, after, nodes, str, heq, -, -, hl, -, -⟩, hrun⟩ := hiff.mp hsearch
  have htext : aclText datedList =
      [lit "echo", lit "readonly", lit "2:5020/2 FOO 31.12.05"] := by decide +kernel
  have hmem : line ∈ aclText datedList := heq ▸ List.mem_append_right _ List.mem_cons_self
  rw [htext, List.mem_cons, List.mem_cons, List.mem_singleton] at hmem
  obtain rfl | rfl | rfl := hmem
  · rw [show aclEntryLine 2 (lit "echo") = none by decide +kernel] at hl
    cases hl
  · rw [show aclEntryLine 2 (lit "readonly") = none by decide +kernel] at hl
    cases hl
  · have hentry : (aclEntryLine 2 (lit "2:5020/2 FOO 31.12.05")).map (·.2.2) =
        some (some (lit "31.12.05")) := by decide +kernel
    rw [hl] at hentry
    cases Option.some.inj hentry
    obtain ⟨mday, mon, year, hparts, hlt⟩ := hrun
    cases hparts.symm.trans
      (show aclDateParts (lit "31.12.05") = some (31, 12, 5) by decide +kernel)
    revert hlt
    decide

end Fidogate

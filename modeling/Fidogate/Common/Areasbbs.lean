/-
# `Fidogate.Common.Areasbbs` — areasbbs.c, passwd.c, uplinks.c: the tables

The areas list is the list of its entries.  Its entries are told apart by
their place, so a lookup that is followed by a change goes to the first entry
of that name.
-/
import Fidogate.Common.Config
import Fidogate.Common.Wildmat

namespace Fidogate

open Bytes

/-! ## Areas -/

/-- `AreasBBS`, without the counters of the statistics. -/
structure AreasBBS where
  passthru : Bool
  readonly : Bool
  dir : Str
  area : Str
  zone : Int
  addr : Node
  lvl : Int
  key : Option Str
  desc : Option Str
  state : Option Str
  passive : List Node
  time : Int
  expireN : Int
  expireT : Int
  nodes : List Node
  uplinks : Int
  deriving DecidableEq, Repr

/-- `areasbbs_new`. -/
def areasbbsNew : AreasBBS :=
  { passthru := false, readonly := false, dir := [], area := [], zone := -1, addr := nodeInvalid,
    lvl := -1, key := none, desc := none, state := none, passive := [], time := 0, expireN := 0,
    expireT := 0, nodes := [], uplinks := 1 }

/-- `areasbbs_lookup`. -/
def areasbbsLookup (areas : List AreasBBS) (area : Str) : Option AreasBBS :=
  areas.find? fun p => strieq area p.area

/-- Change the first entry of that name. -/
def areasbbsUpdate (area : Str) (f : AreasBBS → AreasBBS) : List AreasBBS → List AreasBBS
  | [] => []
  | p :: ps => if strieq area p.area then f p :: ps else p :: areasbbsUpdate area f ps

/-- `areasbbs_remove1` for the first entry of that name. -/
def areasbbsRemove (area : Str) (areas : List AreasBBS) : List AreasBBS :=
  areas.eraseP fun p => strieq area p.area

/-- `areasbbs_isstate`. -/
def areasbbsIsstate (state : Option Str) (st : UInt8) : Bool := (state.getD []).contains st

/-- `areasbbs_chstate` with a set of old states. -/
def areasbbsChstate (state : Option Str) (stold : Str) (stnew : UInt8) : Option Str :=
  match state.getD [] with
  | [] => some [stnew]
  | s => if s.contains stnew then state else some (s.filter (! stold.contains ·) ++ [stnew])

/-! ## Passwords -/

/-- `Passwd`: an entry of PASSWD. -/
structure Passwd where
  context : Str
  node : Node
  passwd : Str
  args : Option Str
  deriving DecidableEq, Repr

/-- `passwd_lookup`. -/
def passwdLookup (passwds : List Passwd) (context : Str) (node : Node) : Option Passwd :=
  passwds.find? fun p => context == p.context && nodeEq node p.node

/-! ## Uplinks -/

/-- `AreaUplink`. -/
structure AreaUplink where
  areafix : Bool
  areas : Str
  uplink : Node
  robotname : Str
  password : Str
  options : Option Str
  deriving DecidableEq, Repr

/-- `uplinks_line_get`. -/
def uplinksLineGet (uplinks : List AreaUplink) (areafix : Bool) (n : Node) : Option AreaUplink :=
  uplinks.find? fun p => p.areafix == areafix && nodeEq p.uplink n

/-- The lines of a file as `cf_getline` hands them over. -/
def cfLines (lines : List Str) : List Str :=
  (lines.map fun l => (stripCrlf l).dropWhile isSpace).filter (·.head? != some 35)

/-- Whether the entry names a file of patterns. -/
def isAreaFile (n : Str) : Bool := n.head? == some 47 || n.head? == some 37 || n.head? == some 46

/-- The pattern is matched against the area, or the area, where it has
wildcards, against the pattern. -/
def uplinkMatch (area pat : Str) : Bool :=
  if isWildcard area then wildmatch pat area true else wildmatch area pat true

/-- The patterns of a list that match, up to the first of them, or up to a
forbidden one, where the area has no wildcard.  The flag says the search
went on to the end. -/
def uplinkScan (area : Str) : List Str → List Str × Bool
  | [] => ([], true)
  | n :: ns =>
      if n.head? == some 33 then
        if uplinkMatch area n.tail && ! isWildcard area then ([], true) else uplinkScan area ns
      else if uplinkMatch area n then
        if isWildcard area then (n :: (uplinkScan area ns).1, (uplinkScan area ns).2)
        else ([n], false)
      else uplinkScan area ns

/-- The entries of one uplink line: the names in its list and in the files
it names. -/
def uplinkNames (files : Str → Option (List Str)) (area : Str) : List Str → List Str × Bool
  | [] => ([], true)
  | n :: ns =>
      if isAreaFile n then
        let r := uplinkScan area
          ((((files n).map cfLines).getD []).filterMap fun l => (xstrtok blanks l).head?)
        if r.2 then (r.1 ++ (uplinkNames files area ns).1, (uplinkNames files area ns).2) else r
      else if n.head? == some 33 then
        if uplinkMatch area n.tail && ! isWildcard area then ([], true)
        else uplinkNames files area ns
      else if uplinkMatch area n then
        if isWildcard area then
          (n :: (uplinkNames files area ns).1, (uplinkNames files area ns).2)
        else ([n], false)
      else uplinkNames files area ns

/-- `uplinks_lookup`: all uplinks for a pattern, the first one for an area. -/
def uplinksLookup (files : Str → Option (List Str)) (areafix : Bool) (area : Str) :
    List AreaUplink → List AreaUplink
  | [] => []
  | a :: as =>
      if a.areafix == areafix then
        let r := uplinkNames files area (strtok (lit ",") a.areas)
        let found := r.1.map fun n => { a with areas := n }
        if r.2 then found ++ uplinksLookup files areafix area as else found
      else uplinksLookup files areafix area as

end Fidogate

/-
# `Fidogate.Common.Areas` — areas.c: areas and newsgroups

The AREAS list is the list of its entries.  A translation table is the
function its 256 bytes are; NUL is "no entry".
-/
import Fidogate.Common.Strtok
import Fidogate.Common.Node
import Mathlib.Logic.Function.Basic

namespace Fidogate

open Bytes

/-! ## The list -/

/-- The encodings of `Area`. -/
inductive MimeEncoding
  | default | bits8 | qp | b64
  deriving DecidableEq, Repr

/-- `Area` -/
structure Area where
  area : Str
  group : Str
  zone : Int
  addr : Node
  origin : Option Str
  distribution : Option Str
  flags : Nat
  rfcLvl : Int
  maxsize : Int
  limitsize : Int
  xHdr : List Str
  charset : Option Str
  encoding : MimeEncoding
  deriving DecidableEq, Repr

def AREA_HIERARCHY : Nat := 8

def AREA_NO : Nat := 16

/-- `p->flags & flag` -/
def Area.flag (p : Area) (flag : Nat) : Bool := p.flags &&& flag != 0

/-! ## Translation tables -/

/-- `areas_x_a` and `areas_x_g` -/
structure Xlate where
  a : UInt8 → UInt8
  g : UInt8 → UInt8

def xlateNone : Xlate := ⟨fun _ => nul, fun _ => nul⟩

/-- "Fill table" of `areas_init_xlate`; of two strings the shorter one reads
NUL at its end. -/
def xlateFill (t : Xlate) : Str → Str → Xlate
  | [], qs => { t with g := qs.foldl (fun g q => Function.update g q nul) t.g }
  | p :: ps, [] => xlateFill { t with a := Function.update t.a p nul } ps []
  | p :: ps, q :: qs => xlateFill ⟨Function.update t.a p q, Function.update t.g q p⟩ ps qs

/-- `areas_init_xlate`, over the values of `AreasXlate`. -/
def areasInitXlate (t : Xlate) : List Str → Xlate
  | [] => t
  | cf :: cfs =>
      if cf = [] then t
      else
        match xstrtok blanks cf with
        | xA :: xG :: _ => areasInitXlate (xlateFill t xA xG) cfs
        | _ => t

/-- A byte of an area name, in a newsgroup name. -/
def Xlate.toGroup (t : Xlate) (c : UInt8) : UInt8 := if t.a c ≠ nul then t.a c else toLower c

/-- A byte of a newsgroup name, in an area name. -/
def Xlate.toArea (t : Xlate) (c : UInt8) : UInt8 := if t.g c ≠ nul then t.g c else toUpper c

/-! ## Lookup -/

/-- The name that begins with `v` for the name `n` that begins with `u`, in a
buffer of `MAXPATH`. -/
def xlateName (f : UInt8 → UInt8) (u v n : Str) : Str :=
  (bufCopy MAXPATH v ++ (n.drop u.length).map f).take (MAXPATH - 1)

/-- `area_build` -/
def areaBuild (t : Xlate) (pa : Area) (area group : Option Str) : Area :=
  match group, area with
  | some g, _ => { pa with area := xlateName t.toArea pa.group pa.area g
                           group := bufCopy MAXPATH g }
  | none, some a => { pa with area := bufCopy MAXPATH a
                              group := xlateName t.toGroup pa.area pa.group a }
  | none, none => { pa with area := [], group := [] }

/-- The entry covers the area name. -/
def Area.coversArea (p : Area) (area : Str) : Bool :=
  if p.flag AREA_HIERARCHY then p.area.length == 0 || hasPrefixI p.area area
  else strieq area p.area

/-- The entry covers the newsgroup name. -/
def Area.coversGroup (p : Area) (group : Str) : Bool :=
  if p.flag AREA_HIERARCHY then hasPrefixI p.group group else strieq group p.group

/-- The test of `areas_lookup` by area -/
def Area.matchesArea (p : Area) (aka : Option Node) (area : Str) : Bool :=
  aka.all (nodeEq p.addr ·) && p.coversArea area

/-- The test of `areas_lookup` by newsgroup: the first byte comes first. -/
def Area.matchesGroup (p : Area) (group : Str) : Bool :=
  group.headD nul == p.group.headD nul && p.coversGroup group

/-- What `areas_lookup` returns for the entry it stops at. -/
def Area.found (t : Xlate) (p : Area) (area group : Option Str) : Option Area :=
  if p.flag AREA_NO then none
  else if p.flag AREA_HIERARCHY then some (areaBuild t p area group) else some p

/-- `areas_lookup` -/
def areasLookup (t : Xlate) (area group : Option Str) (aka : Option Node) :
    List Area → Option Area
  | [] => none
  | p :: ps =>
      if area.any (p.matchesArea aka) then p.found t area group
      else if group.any p.matchesGroup then p.found t area group
      else areasLookup t area group aka ps

theorem areasLookup_area (t : Xlate) (area : Str) (aka : Option Node) (areas : List Area) :
    areasLookup t (some area) none aka areas =
      (areas.find? (·.matchesArea aka area)).bind fun p => p.found t (some area) none := by
  induction areas with
  | nil => rfl
  | cons p ps ih =>
      by_cases h : p.matchesArea aka area = true
      · simp [areasLookup, h]
      · simp [areasLookup, h, ih]

theorem areasLookup_group (t : Xlate) (group : Str) (aka : Option Node) (areas : List Area) :
    areasLookup t none (some group) aka areas =
      (areas.find? (·.matchesGroup group)).bind fun p => p.found t none (some group) := by
  induction areas with
  | nil => rfl
  | cons p ps ih =>
      by_cases h : p.matchesGroup group = true
      · simp [areasLookup, h]
      · simp [areasLookup, h, ih]

end Fidogate

/-
# `Fidogate.Common.Node` — node.c and parsenode.c: FTN addresses

A node is its four numbers and a domain.  The numbers are unbounded here;
`EMPTY` (-1) stands for a part that was not given, `WILDCARD` (-2) for `*`.
A list of nodes (`LON`) is a Lean list.
-/
import Fidogate.Common.Strtok

namespace Fidogate

open Bytes

/-- `Node`: zone:net/node.point. -/
structure Node where
  zone : Int
  net : Int
  node : Int
  point : Int
  domain : Str
  deriving DecidableEq, Repr

def EMPTY : Int := -1

def WILDCARD : Int := -2

/-- `node_clear`. -/
def nodeClear : Node := ⟨0, 0, 0, 0, []⟩

/-- `node_invalid`. -/
def nodeInvalid : Node := ⟨-1, -1, -1, -1, []⟩

/-- `node_eq`: the domain does not count. -/
def nodeEq (a b : Node) : Bool :=
  a.zone == b.zone && a.net == b.net && a.node == b.node && a.point == b.point

/-- `node_np_eq`: the point does not count either. -/
def nodeNpEq (a b : Node) : Bool :=
  a.zone == b.zone && a.net == b.net && a.node == b.node

/-- `node_cmp` asked for "less". -/
def nodeLt (a b : Node) : Bool :=
  a.zone < b.zone || a.zone == b.zone && (a.net < b.net || a.net == b.net &&
    (a.node < b.node || a.node == b.node && a.point < b.point))

/-! ## Reading an address -/

/-- `znfp_get_number`: digits, `*` or `all`, and the text behind. -/
def znfpGetNumber (s : Str) : Option (Int × Str) :=
  if hasPrefix (lit "*") s then some (WILDCARD, s.tail)
  else if hasPrefixI (lit "all") s then some (WILDCARD, s.drop 3)
  else if (s.head?.map isDigit).getD false then
    some ((getDec 0 (s.takeWhile isDigit) : Int), s.dropWhile isDigit)
  else none

/-- The number behind the separator `c`, if the text starts with it. -/
def znfpPart (c : UInt8) (s : Str) : Option (Option Int × Str) :=
  match s with
  | d :: s' =>
      if d == c then (znfpGetNumber s').map fun r => (some r.1, r.2) else some (none, s)
  | [] => some (none, [])

/-- `znfp_parse_partial` behind the first number. -/
def znfpParseParts (val1 : Int) (s : Str) : Option Node := do
  let (net, s) ← znfpPart 58 s
  let zone := if net.isSome then val1 else EMPTY
  let val1 := if net.isSome then EMPTY else val1
  let (node, s) ← znfpPart 47 s
  -- the number before a slash is the net, unless a zone came before it
  let net := if node.isSome && val1 != EMPTY then some val1 else net
  let val1 := if node.isSome then EMPTY else val1
  let (point, s) ← znfpPart 46 s
  let node := if point.isSome && val1 != EMPTY then some val1 else node
  let val1 := if point.isSome then EMPTY else val1
  let node := if val1 != EMPTY then some val1 else node
  let domain ← match s with
    | [] => some []
    | d :: domain => if d == 64 then some domain else none
  some ⟨zone, net.getD EMPTY, node.getD EMPTY, point.getD EMPTY, domain⟩

/-- `znfp_parse_partial`. -/
def znfpParsePartial (asc : Str) : Option Node :=
  if asc == lit "*" || strieq asc (lit "all") || strieq asc (lit "world") then
    some ⟨WILDCARD, WILDCARD, WILDCARD, WILDCARD, []⟩
  else
    match asc with
    | [] => none
    | c :: _ => do
        let (val1, s) ← if c == 46 then some (EMPTY, asc) else znfpGetNumber asc
        znfpParseParts val1 s

def Node.wild (n : Node) : Bool :=
  n.zone == WILDCARD || n.net == WILDCARD || n.node == WILDCARD || n.point == WILDCARD

/-- What `asc_to_node` has written to its node when it returns; a text that
is no address leaves it alone.  `zone` is the default zone. -/
def ascToNodeStore (pointFlag : Bool) (zone : Int) (asc : Str) (old : Node) : Node :=
  match znfpParsePartial asc with
  | none => old
  | some n =>
      if n.wild then n
      else
        let n := { n with zone := if n.zone == EMPTY then zone else n.zone }
        if n.net == EMPTY || n.node == EMPTY then n
        else { n with point := if n.point == EMPTY && ! pointFlag then 0 else n.point }

/-- `asc_to_node`: a node, or ERROR. -/
def ascToNode (pointFlag : Bool) (zone : Int) (asc : Str) : Option Node := do
  let n ← znfpParsePartial asc
  if n.wild || n.net == EMPTY || n.node == EMPTY then none
  else some (ascToNodeStore pointFlag zone asc n)

/-- `znfp_parse_diff`: what is missing is taken from the node before. -/
def znfpParseDiff (asc : Str) (old : Node) : Option Node := do
  let n ← znfpParsePartial asc
  if n.zone != EMPTY then some n
  else if n.net != EMPTY then some { n with zone := old.zone }
  else if n.node != EMPTY then some { n with zone := old.zone, net := old.net }
  else some { n with zone := old.zone, net := old.net, node := old.node }

/-- `asc_to_node_diff`. -/
def ascToNodeDiff (asc : Str) (old : Node) : Option Node := do
  let n ← znfpParseDiff asc old
  if n.wild || n.zone == EMPTY || n.net == EMPTY || n.node == EMPTY then none
  else some { n with point := if n.point == EMPTY then 0 else n.point }

/-- The node the first word of a list is read against. -/
def nodeOld (zone : Int) : Node := ⟨zone, -1, -1, -1, []⟩

/-- The nodes of a list of words, each read against the one before; a word
that is no address is skipped. -/
def ascToNodes (old : Node) : List Str → List Node
  | [] => []
  | asc :: ascs =>
      match ascToNodeDiff asc old with
      | some n => n :: ascToNodes n ascs
      | none => ascToNodes old ascs

/-! ## Printing an address -/

/-- `node_to_asc_diff`. -/
def nodeToAscDiff (n old : Node) : Str :=
  let point := if n.point == 0 then [] else lit "." ++ putInt n.point
  if n.zone != old.zone then
    putInt n.zone ++ lit ":" ++ putInt n.net ++ lit "/" ++ putInt n.node ++ point
  else if n.net != old.net then putInt n.net ++ lit "/" ++ putInt n.node ++ point
  else if n.node != old.node then putInt n.node ++ point
  else point

/-- `znfp_put_number`. -/
def znfpPutNumber (val : Int) (wildcards : Bool) : Str :=
  if wildcards && val == WILDCARD then lit "*" else putInt val

/-- `str_znfp_print` with `zp_print` TRUE; `point0` prints a point of 0. -/
def znfpPrint (n : Node) (point0 wildcards : Bool) : Str :=
  if n.zone == EMPTY && n.net == EMPTY && n.node == EMPTY && n.point == EMPTY then lit "INVALID"
  else if wildcards && n.zone == WILDCARD && n.net == WILDCARD && n.node == WILDCARD &&
      n.point == WILDCARD then lit "*"
  else
    (if n.zone == EMPTY then [] else znfpPutNumber n.zone wildcards ++ lit ":") ++
    (if n.net == EMPTY then []
      else znfpPutNumber n.net wildcards ++ if n.node == EMPTY then [] else lit "/") ++
    (if n.node == EMPTY then [] else znfpPutNumber n.node wildcards) ++
    (if n.point == EMPTY || n.point == 0 && ! (point0 || wildcards) then []
      else lit "." ++ znfpPutNumber n.point wildcards) ++
    if n.domain.isEmpty then [] else lit "@" ++ n.domain

/-- `znfp1`. -/
def znfp1 (n : Node) : Str := (znfpPrint n true true).take 47

/-- `znf1`. -/
def znf1 (n : Node) : Str := (znfpPrint n false false).take 47

/-! ## Patterns -/

/-- `node_match`. -/
def nodeMatch (n pat : Node) : Bool :=
  let part := fun v p : Int => p == EMPTY || p == WILDCARD || v == p
  part n.zone pat.zone && part n.net pat.net && part n.node pat.node && part n.point pat.point

/-! ## Lists of nodes -/

/-- `lon_search`. -/
def lonSearch (lon : List Node) (n : Node) : Bool := lon.any (nodeEq · n)

/-- `lon_remove`: the first that is equal. -/
def lonRemove (lon : List Node) (n : Node) : List Node := lon.eraseP (nodeEq · n)

/-- `lon_is_uplink`. -/
def lonIsUplink (lon : List Node) (uplinks : Int) (n : Node) : Bool :=
  lonSearch (lon.take uplinks.toNat) n

end Fidogate

/-
# `Fidogate.Common.Config` — config.c: addresses and configuration strings

The addresses are never empty: a program without one exits.  A configuration
string is handed out as a pointer into the table, so a caller that tokenizes
it changes what the next caller reads (`Config.cut`).
-/
import Fidogate.Common.Node

namespace Fidogate

open Bytes

/-- `st_addr`: an own address with its zone and uplink. -/
structure StAddr where
  zone : Int
  addr : Node
  uplink : Node
  deriving DecidableEq, Repr

/-- The configuration and the current address. -/
structure Config where
  main : StAddr
  akas : List StAddr
  strings : List (Str × Str)
  curZone : Int
  curAddr : Node
  curUplink : Node
  deriving DecidableEq, Repr

/-- A configuration as `cf_read_config_file` leaves it. -/
def Config.read (main : StAddr) (akas : List StAddr) (strings : List (Str × Str)) : Config :=
  ⟨main, akas, strings, main.zone, main.addr, main.uplink⟩

/-- `cf_defzone`. -/
def Config.defzone (cf : Config) : Int := cf.main.zone

/-- `cf_get_best`: net and node are -1 where only the zone counts. -/
def cfGetBest (cf : Config) (zone net node : Int) : StAddr :=
  let addrs := cf.main :: cf.akas
  let exact := addrs.find? fun a => zone == a.zone && net == a.addr.net && node == a.addr.node
  let sameNet := addrs.find? fun a => zone == a.zone && net == a.addr.net
  let sameZone := addrs.find? fun a => zone == a.zone
  (exact <|> sameNet <|> sameZone).getD cf.main

/-- `cf_set_best`: without BEST_AKA only the zone counts. -/
def cfSetBest (cf : Config) (zone _net _node : Int) : Config :=
  let best := cfGetBest cf zone (-1) (-1)
  { cf with curZone := zone, curAddr := best.addr, curUplink := best.uplink }

/-- `cf_set_zone`. -/
def cfSetZone (cf : Config) (zone : Int) : Config := cfSetBest cf zone (-1) (-1)

/-- `cf_set_curr`. -/
def cfSetCurr (cf : Config) (n : Node) : Config :=
  { cfSetBest cf n.zone n.net n.node with curAddr := n }

/-! ## Configuration strings -/

/-- All strings under a keyword, in the order of the file. -/
def cfGetStrings (cf : Config) (name : Str) : List Str :=
  (cf.strings.filter fun e => strieq e.1 name).map Prod.snd

/-- `cf_get_string (name, TRUE)`. -/
def cfGetString (cf : Config) (name : Str) : Option Str := (cfGetStrings cf name).head?

/-- The strings a loop `s && *s` over a keyword sees. -/
def cfLoopStrings (cf : Config) (name : Str) : List Str :=
  (cfGetStrings cf name).takeWhile (· != [])

/-- The strings under a keyword after the loop has cut each in place. -/
def cutStrings (name delim : Str) : List (Str × Str) → List (Str × Str)
  | [] => []
  | e :: es =>
      if strieq e.1 name then
        if e.2.isEmpty then e :: es else (e.1, strtokCut delim e.2) :: cutStrings name delim es
      else e :: cutStrings name delim es

def Config.cut (cf : Config) (name delim : Str) : Config :=
  { cf with strings := cutStrings name delim cf.strings }

@[simp] theorem cfSetZone_strings (cf : Config) (zone : Int) :
    (cfSetZone cf zone).strings = cf.strings := rfl

@[simp] theorem cfSetBest_strings (cf : Config) (zone net node : Int) :
    (cfSetBest cf zone net node).strings = cf.strings := rfl

@[simp] theorem cfSetCurr_strings (cf : Config) (n : Node) :
    (cfSetCurr cf n).strings = cf.strings := rfl

end Fidogate

/-
# `Fidogate.Areafix.Auth` — areafix.c: who may do what

The privileges are file-scope variables of areafix.c, kept here in one record.
`areafix_auth_check` reads them from the arguments of the PASSWD entry with
`xstrtok`; an entry without arguments hands it NULL, and then the tokenizer
goes on wherever its static pointer was left.
-/
import Fidogate.Common.Areasbbs

namespace Fidogate

open Bytes

/-- The `authorized...` variables of areafix.c. -/
structure Auth where
  authorized : Bool
  lvl : Int
  key : Str
  limA : Int
  limG : Int
  node : Node
  cmdline : Bool
  new : Bool
  fwd : Bool
  delete : Bool
  listall : Bool
  deriving DecidableEq, Repr

/-- The tables read at the start, and whether this is Areafix or Filefix. -/
structure Tables where
  areafix : Bool
  context : Str
  passwds : List Passwd
  uplinks : List AreaUplink

/-- What a command meets outside the program: the lines of the files it reads,
the directories, the time, and the text the static pointer of `xstrtok` is
left at. -/
structure World where
  files : Str → Option (List Str)
  isDir : Str → Bool
  mkdir : Str → Bool
  now : Int
  stale : Option Str

/-- `areafix_auth_init`. -/
def areafixAuthInit : Auth :=
  { authorized := false, lvl := 1, key := [], limA := 0, limG := 0, node := nodeInvalid,
    cmdline := false, new := false, fwd := false, delete := false, listall := false }

/-- The fourth argument: limits `G/A`, or `G` alone. -/
def authLimits : Option Str → Int × Int
  | none => (-1, -1)
  | some p =>
      if p.head? == some 35 then (-1, -1)
      else if p.contains 47 then
        match strtokExt true (lit "/") p with
        | none => (0, 0)
        | some (g, rest) =>
            (atoi g, ((rest.bind (strtokExt true (lit "/ \t"))).map fun r => atoi r.1).getD 0)
      else (atoi p, -1)

/-- Level, key, name and limits in front of the privileges of the key. -/
def authArgs (toks : List Str) (a : Auth) : Auth :=
  let key := (toks[1]?).getD []
  { a with
    lvl := ((toks[0]?).map atoi).getD a.lvl
    key := key
    limG := (authLimits toks[3]?).1
    limA := (authLimits toks[3]?).2
    new := key.contains 36
    fwd := key.contains 38
    delete := key.contains 126
    listall := key.contains 37 }

/-- The words `areafix_auth_check` reads for an entry. -/
def authTokens (pwd : Passwd) (stale : Option Str) : List Str :=
  match pwd.args with
  | some s => xstrtok blanks s
  | none => (stale.map (xstrtok blanks)).getD []

/-- The password of an entry, ignoring case. -/
def passwdOk (passwd : Option Str) (pwd : Option Passwd) : Bool :=
  match passwd, pwd with
  | some s, some p => strieq s p.passwd
  | _, _ => false

/-- `areafix_auth_check`. -/
def areafixAuthCheck (t : Tables) (stale : Option Str) (node : Node) (passwd : Option Str)
    (checkpass : Bool) : Auth :=
  let pwd := passwdLookup t.passwds t.context node
  let a := { areafixAuthInit with
    node := node
    authorized := ! checkpass || passwdOk passwd pwd }
  match pwd with
  | none => a
  | some p => authArgs (authTokens p stale) a

theorem areafixAuthCheck_authorized (t : Tables) (stale : Option Str) (node : Node)
    (passwd : Option Str) : (areafixAuthCheck t stale node passwd true).authorized =
      passwdOk passwd (passwdLookup t.passwds t.context node) := by
  unfold areafixAuthCheck
  cases passwdLookup t.passwds t.context node <;> rfl

end Fidogate

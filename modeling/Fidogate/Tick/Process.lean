/-
# `Fidogate.Tick.Process` — ftntick.c and tick.c: processing a TIC file

`process_tic` finds or creates the file area, moves the file there and sends
it on.  What it does to files, areas and links is logged as it goes; what the
file system answers is part of the world.  The text recoding of a description
is not modelled.
-/
import Fidogate.Common.Hex
import Fidogate.Areafix.Commands
import Fidogate.Common.Date

namespace Fidogate

open Bytes

/-- `Tick`: a TIC file. -/
structure Tick where
  origin : Node
  src : Node
  dst : Node
  area : Option Str
  file : Str
  replaces : Option Str
  desc : List Str
  ldesc : List Str
  crc : Nat
  created : Option Str
  size : Nat
  path : List Str
  seenby : List Node
  pw : Option Str
  release : Int
  date : Int
  app : List Str
  deriving DecidableEq, Repr

/-- Options of the command line and the configuration. -/
structure TickOptions where
  tFlag : Bool
  unknownTickArea : Option Str
  autocreateCheckPass : Bool
  autocreateLine : Str
  inDir : Str
  passPath : Str
  filesChangeMode : Bool
  /-- The routing commands for TIC files: nodes and flavour. -/
  routing : List (List Node × Str)

/-- How `copy_file` ends: a copy that breaks off is removed. -/
inductive CopyRes
  | done | refused | broken
  deriving DecidableEq, Repr

/-- How `link` ends. -/
inductive LinkRes
  | done | otherDevice | exists | failed
  deriving DecidableEq, Repr

/-- What ftntick meets outside the program. -/
structure TickWorld extends World where
  clock : Clock
  isFile : Str → Bool
  mkdirR : Str → Bool
  copy : Str → Str → CopyRes
  unlink : Str → Bool
  link : Str → Str → LinkRes
  /-- The second try, after the old file was removed. -/
  relink : Str → Str → Bool
  /-- Whether a TIC file can be written. -/
  put : Str → Bool
  /-- The name of the TIC file from the sequencer. -/
  seq : Node → Str
  /-- Environment and `%` in a path of the configuration. -/
  expand : Str → Str
  /-- What the buffer for the directory of a new area holds. -/
  fareaDir : Str

/-- What ftntick does. -/
inductive Effect
  /-- The entry of an area has changed. -/
  | area (name : Str)
  | mkdir (dir : Str)
  | copy (old new : Str)
  | unlink (name : Str)
  | utime (name : Str) (date : Int)
  | chmod (name : Str)
  | describe (file line : Str)
  | link (old new : Str)
  /-- A TIC file for a node. -/
  | tic (name : Str) (lines : List Str)
  /-- A request to an uplink. -/
  | request (line : Str)
  | run (cmd : Str)
  deriving DecidableEq, Repr

/-- The state of ftntick, and what it has done. -/
structure Ftntick where
  af : Areafix
  done : List Effect

def Ftntick.did (st : Ftntick) (es : List Effect) : Ftntick := { st with done := st.done ++ es }

/-- `BUF_COPY3` of a directory, a slash and a file. -/
def pathOf (dir file : Str) : Str := bufCopy MAXPATH (dir ++ lit "/" ++ file)

/-! ## Passwords and areas -/

/-- `check_pass`: with `mode` the password is compared. -/
def checkPass (o : TickOptions) (t : Tables) (tic : Tick) (mode : Bool) : Bool :=
  match passwdLookup t.passwds t.context tic.src with
  | some p => ! mode || tic.pw.any (strieq p.passwd)
  | none => o.tFlag

/-- The line for `cmd_new`. -/
def ticAutocreate (o : TickOptions) (t : Tables) (src : Node) (area : Str) : Str :=
  match (uplinksLineGet t.uplinks false src).bind (·.options) with
  | some opts => area ++ lit " " ++ o.autocreateLine ++ lit " " ++ opts
  | none => area ++ lit " " ++ o.autocreateLine

/-- The creation of an area that is not in the list, as far as it comes. -/
def ticCreate (o : TickOptions) (t : Tables) (w : World) (tic : Tick) (area : Str)
    (st : Areafix) : Option AreasBBS × Areafix :=
  if ! checkPass o t tic false then (none, st)
  else if o.autocreateCheckPass && ! checkPass o t tic true then (none, st)
  else
    let st := { st with auth := areafixAuthCheck t w.stale tic.src tic.pw true }
    if ! st.auth.new || checkForbiddenArea t w st.cf area then (none, st)
    else
      let r := cmdNewInt t w tic.src (ticAutocreate o t tic.src area) true st
      if r.1 == ERROR then (none, r.2) else (areasbbsLookup r.2.areas area, r.2)

/-! ## Files -/

/-- `copy_file`. -/
def copyFile (w : TickWorld) (old new : Str) : Bool × List Effect :=
  match w.copy old new with
  | .done => (true, [.copy old new])
  | .refused => (false, [])
  | .broken => (false, [.unlink new])

/-- `move`. -/
def moveFile (w : TickWorld) (cf : Config) (tic : Tick) (old new : Str) : Bool × List Effect :=
  let r := copyFile w old new
  if ! r.1 then r
  else if ! w.unlink old then (false, r.2)
  else
    (true, r.2 ++ [.unlink old] ++
      if tic.date != -1 && (cfGetString cf (lit "TickDontSetTime")).isNone then
        [.utime new tic.date]
      else [])

/-- `add_files_bbs`, with DESC_DIR. -/
def addFilesBbs (o : TickOptions) (w : TickWorld) (tic : Tick) (dir : Str) : List Effect :=
  let descDir := bufCopy MAXPATH (dir ++ lit "/.desc")
  let file := bufCopy MAXPATH (dir ++ lit "/.desc/" ++ tic.file ++ lit ".desc")
  if w.mkdirR descDir then
    [.mkdir descDir, .describe file (tic.desc.headD (lit "--no description--"))] ++
      if o.filesChangeMode then [.chmod file] else []
  else []

/-- The file moves from the inbound to the area's directory. -/
def ticStore (o : TickOptions) (w : TickWorld) (cf : Config) (tic : Tick) (bbs : AreasBBS) :
    Bool × List Effect :=
  if bbs.passthru then (true, [])
  else if ! w.isDir bbs.dir && ! w.mkdirR bbs.dir then (false, [])
  else
    let made := if w.isDir bbs.dir then [] else [Effect.mkdir bbs.dir]
    let new := pathOf bbs.dir tic.file
    let r := moveFile w cf tic (pathOf o.inDir tic.file) new
    if ! r.1 then (false, made ++ r.2)
    else (true, made ++ r.2 ++ (if o.filesChangeMode then [.chmod new] else []) ++
      addFilesBbs o w tic bbs.dir)

/-- The file a TIC replaces is copied away and removed. -/
def ticReplaces (w : TickWorld) (cf : Config) (tic : Tick) (bbs : AreasBBS) (created : Bool) :
    Bool × List Effect :=
  match tic.replaces with
  | none => (true, [])
  | some old =>
      let oldName := pathOf (if created then w.fareaDir else bbs.dir) old
      if (cfGetString cf (lit "TickReplacedIgnore")).isSome || ! w.isFile oldName ||
          bbs.passthru then (true, [])
      else
        match cfGetString cf (lit "TickReplacedDir") with
        | none => (true, [.unlink oldName])
        | some dir =>
            let r := copyFile w oldName (pathOf (w.expand dir) old)
            (r.1, r.2 ++ if r.1 then [.unlink oldName] else [])

/-! ## Sending -/

/-- The flavour for a node. -/
def ticFlav (o : TickOptions) (cf : Config) (n : Node) : Str :=
  ((o.routing.find? fun r => r.1.any (nodeMatch n)).map Prod.snd).getD
    ((cfGetString cf (lit "TickFlav")).getD (lit "Normal"))

/-- `make_dir_name`. -/
def makeDirName (o : TickOptions) (cf : Config) (n : Node) : Str :=
  o.passPath ++ lit "/" ++ putInt n.zone ++ lit "." ++ putInt n.net ++ lit "." ++ putInt n.node ++
    lit "." ++ putInt n.point ++
    if ticFlav o cf n == lit "Hold" && (cfGetString cf (lit "PassthroughtBoxesFlavours")).isSome
    then lit ".H" else []

/-- `tick_put`: the lines of a TIC file. -/
def tickLines (tic : Tick) : List Str :=
  let desc := tic.desc.headD []
  [lit "Area " ++ tic.area.getD (lit "(null)"), lit "Origin " ++ znf1 tic.origin,
    lit "From " ++ znf1 tic.src, lit "File " ++ tic.file] ++
  (if tic.replaces.isSome then [lit "Replaces " ++ tic.file] else []) ++
  [lit "Desc " ++ desc] ++
  (if tic.ldesc.isEmpty then [] else [lit "LDesc " ++ desc]) ++
  [lit "CRC " ++ putHexU8 tic.crc, lit "Created " ++ tic.created.getD (lit "(null)"),
    lit "Size " ++ putDec tic.size, lit "Date " ++ putInt tic.date] ++
  tic.path.map (lit "Path " ++ ·) ++
  tic.seenby.map (fun n => lit "Seenby " ++ znf1 n) ++
  [lit "Pw " ++ tic.pw.getD (lit "(null)")]

/-- The file in the box of a node: `link`, with what it tries when that
fails. -/
def ticLink (w : TickWorld) (name box : Str) : Bool × List Effect :=
  match w.link name box with
  | .done => (true, [.link name box])
  | .otherDevice => (true, (copyFile w name box).2)
  | .exists =>
      if w.relink name box then (true, [.unlink box, .link name box]) else (false, [.unlink box])
  | .failed => (false, [])

/-- `tick_send`. -/
def tickSend (o : TickOptions) (t : Tables) (w : TickWorld) (cf : Config) (tic : Tick) (n : Node)
    (name : Str) : Bool × List Effect :=
  let dir := makeDirName o cf n
  if ! w.mkdirR dir then (false, [])
  else
    let r := ticLink w name (dir ++ lit "/" ++ tic.file)
    if ! r.1 then (false, .mkdir dir :: r.2)
    else
      let pw := (passwdLookup t.passwds (lit "ff") n).map (·.passwd)
      let tic := { tic with dst := n, pw := some (pw.getD []) }
      let file := dir ++ lit "/" ++ w.seq n
      if ! w.put file then (false, .mkdir dir :: r.2)
      else (true, .mkdir dir :: r.2 ++ [.tic file (tickLines tic)])

/-- The file goes to one node after the other, up to the first failure. -/
def ticSendAll (o : TickOptions) (t : Tables) (w : TickWorld) (cf : Config) (tic : Tick)
    (name : Str) : List Node → Bool × List Effect
  | [] => (true, [])
  | n :: ns =>
      let r := tickSend o t w cf tic n name
      if ! r.1 then r
      else
        let r' := ticSendAll o t w cf tic name ns
        (r'.1, r.2 ++ r'.2)

/-- The `do_seenby` of ftntick: SEEN-BY, and the nodes it grew by. -/
def ticSeenby (passive : List Node) : List Node → List Node → List Node × List Node
  | [], seenby => (seenby, [])
  | p :: ps, seenby =>
      if ! lonSearch passive p && ! lonSearch seenby p then
        let r := ticSeenby passive ps (seenby ++ [p])
        (r.1, p :: r.2)
      else ticSeenby passive ps seenby

/-- Path and SEEN-BY with us and the sender, and the nodes the file goes to. -/
def ticRoute (w : TickWorld) (cf : Config) (tic : Tick) (bbs : AreasBBS) : Tick × List Node :=
  let add := fun (l : List Node) (n : Node) => if lonSearch l n then l else l ++ [n]
  let path := (znf1 cf.curAddr ++ lit " " ++ putInt w.now ++ lit " " ++
    dateTz w.clock (lit "%a %b %d %H:%M:%S %Y %Z") w.now none).take 4095
  let r := ticSeenby bbs.passive (bbs.nodes.drop bbs.uplinks.toNat)
    (add (add tic.seenby tic.src) cf.curAddr)
  ({ tic with path := tic.path ++ [path], src := cf.curAddr, seenby := r.1 }, r.2)

/-! ## TickFileAction -/

/-- `sprintf` of one string: `%s` stands for it, once. -/
def sprintfS : Str → Str → Str
  | [], _ => []
  | [c], _ => [c]
  | c :: d :: fmt, s =>
      if c == 37 && d == 115 then s ++ fmt
      else if c == 37 && d == 37 then 37 :: sprintfS fmt s
      else c :: sprintfS (d :: fmt) s

/-- An action: area, files and command. -/
def tickFileAction (line : Str) : Option (Str × Str × Str) := do
  let (area, rest) ← strtokExt true blanks line
  let (wild, rest) ← rest.bind (strtokExt true blanks)
  let (cmd, _) ← rest.bind (strtokExt true [lf])
  some (area, wild, cmd)

/-- The command for a file: the first action that matches. -/
def ticAction (cf : Config) (area file name : Str) : Option Str :=
  (cfLoopStrings cf (lit "TickFileAction")).findSome? fun line =>
    (tickFileAction line).bind fun a =>
      if strieq area a.1 && wildmatch file a.2.1 true then some (sprintfS a.2.2 name) else none

/-! ## process_tic -/

/-- Where the file is once it was moved. -/
def ticFile (o : TickOptions) (tic : Tick) (bbs : AreasBBS) : Str :=
  pathOf (if bbs.passthru then o.inDir else bbs.dir) tic.file

/-- Nobody wants a new area: it is cancelled at the uplink, and the file goes.
The areas list is not written. -/
def ticWithdraw (t : Tables) (w : World) (tic : Tick) (area old : Str) (st : Ftntick) :
    Bool × Ftntick :=
  let auth := if st.af.auth.new then st.af.auth
    else areafixAuthCheck t w.stale tic.src tic.pw true
  let af := { st.af with auth := auth }
  if ! auth.new then (false, { st with af := af })
  else
    let request := (uplinksLineGet t.uplinks false tic.src).map fun a =>
      Effect.request (uplRequest t af.cf (znfp1 a.uplink) a (lit "-") (strUpper area))
    (true, { st with af := { af with changed := false } }.did
      (request.toList ++ [Effect.unlink old]))

/-- The file in the directory for the downlinks. -/
def ticPass (w : TickWorld) (old new : Str) : Bool × List Effect :=
  match w.link old new with
  | .done => (true, [.link old new])
  | _ => copyFile w old new

/-- What is done once all downlinks have the file. -/
def ticFinish (cf : Config) (area file old new : Str) (passthru : Bool) : List Effect :=
  [.unlink new] ++ (if passthru then [.unlink old] else []) ++
    ((ticAction cf area file new).map Effect.run).toList ++
    if passthru then [.unlink new] else []

/-- The file goes to the downlinks. -/
def ticSendOn (o : TickOptions) (t : Tables) (w : TickWorld) (tic : Tick) (area old : Str)
    (passthru : Bool) (nodes : List Node) (st : Ftntick) : Bool × Ftntick :=
  if o.passPath.isEmpty then (false, st)
  else
    let new := pathOf o.passPath tic.file
    let l := ticPass w old new
    if ! l.1 then (false, st.did l.2)
    else
      let s := ticSendAll o t w st.af.cf tic new nodes
      if ! s.1 then (false, st.did (l.2 ++ s.2))
      else (true, st.did (l.2 ++ s.2 ++ ticFinish st.af.cf area tic.file old new passthru))

/-- What is left to do with a file that is in its place. -/
def ticDistribute (o : TickOptions) (t : Tables) (w : TickWorld) (tic : Tick) (area : Str)
    (bbs : AreasBBS) (created : Bool) (st : Ftntick) : Bool × Ftntick :=
  let r := ticRoute w st.af.cf tic bbs
  if r.2.isEmpty && created && bbs.passthru then
    ticWithdraw t w.toWorld tic area (ticFile o tic bbs) st
  else ticSendOn o t w r.1 area (ticFile o tic bbs) bbs.passthru r.2 st

/-- The area's entry when a file comes. -/
def ticArea (w : World) (bbs : AreasBBS) : AreasBBS :=
  { bbs with
    state := if areasbbsIsstate bbs.state 85 || areasbbsIsstate bbs.state 87 ||
        areasbbsIsstate bbs.state 70 then areasbbsChstate bbs.state (lit "UWF") 83
      else bbs.state
    time := w.now }

/-- The area's entry takes note of the file. -/
def Ftntick.arrived (st : Ftntick) (w : World) (area : Str) : Ftntick :=
  { st with
    af := { st.af with areas := areasbbsUpdate area (ticArea w) st.af.areas, changed := true }
    done := st.done ++ [Effect.area area] }

/-- A file from a linked node. -/
def ticAccept (o : TickOptions) (t : Tables) (w : TickWorld) (tic : Tick) (area : Str)
    (bbs : AreasBBS) (created : Bool) (st : Ftntick) : Bool × Ftntick :=
  let r := ticReplaces w st.af.cf tic bbs created
  if ! r.1 then (false, st.did r.2)
  else
    let s := ticStore o w st.af.cf tic bbs
    if ! s.1 then (false, st.did (r.2 ++ s.2))
    else ticDistribute o t w tic area bbs created (st.did (r.2 ++ s.2))

/-- The address for an area. -/
def Ftntick.zoned (st : Ftntick) (bbs : AreasBBS) : Ftntick :=
  { st with af := { st.af with cf := cfSetZone st.af.cf bbs.zone } }

/-- `process_tic` for an area of FAreas.BBS. -/
def ticKnown (o : TickOptions) (t : Tables) (w : TickWorld) (tic : Tick) (area : Str)
    (bbs : AreasBBS) (created : Bool) (st : Ftntick) : Bool × Ftntick :=
  let st := st.zoned bbs
  if ! lonSearch bbs.nodes tic.src then (false, st)
  else
    ticAccept o t w { tic with dst := st.af.cf.curAddr } area bbs created
      (st.arrived w.toWorld area)

/-- `process_tic` for an unknown area, where a place for them is configured. -/
def ticUnknown (o : TickOptions) (w : TickWorld) (tic : Tick) (bbs : AreasBBS) (st : Ftntick) :
    Bool × Ftntick :=
  let st := st.zoned bbs
  let s := ticStore o w st.af.cf { tic with dst := st.af.cf.curAddr } bbs
  (s.1, st.did s.2)

/-- `process_tic`: whether it returns OK, and the state. -/
def processTic (o : TickOptions) (t : Tables) (w : TickWorld) (tic : Tick) (st : Ftntick) :
    Bool × Ftntick :=
  match tic.area with
  | none => (false, st)
  | some area =>
      match areasbbsLookup st.af.areas area with
      | some bbs => ticKnown o t w tic area bbs false st
      | none =>
          match o.unknownTickArea.bind (areasbbsLookup st.af.areas) with
          | some bbs => ticUnknown o w tic bbs st
          | none =>
              match ticCreate o t w.toWorld tic area st.af with
              | (none, af) => (false, { st with af := af })
              | (some bbs, af) => ticKnown o t w tic area bbs true { st with af := af }

end Fidogate

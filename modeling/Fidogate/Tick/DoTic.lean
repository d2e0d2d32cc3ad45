/-
# `Fidogate.Tick.DoTic` — ftntick.c: the TIC files of the inbound

`do_tic` takes one TIC file after the other: the file it names is looked for
in the inbound and renamed to lower case, then `process_tic` does its work and
the TIC file goes.  Each gives the calls it makes.  What the file system
answers while a TIC file is processed comes with it.
-/
import Fidogate.Common.Wildmat
import Fidogate.Lib.Paths
import Fidogate.Tick.RoundTrip

namespace Fidogate

open Bytes

/-- An entry of a directory. -/
structure DirEntry where
  name : Str
  ne_nil : name ≠ []
  noSlash : 47 ∉ name

/-- What `do_tic` does. -/
inductive TicCall
  | rename (old new : Str)
  | unlink (name : Str)
  /-- What `process_tic` and the functions it calls do. -/
  | effect (e : Effect)
  /-- `areasbbs_rewrite`: FAreas.BBS is written. -/
  | rewrite
  | history (key : Str)
  | script (cmd : Str)
  deriving DecidableEq, Repr

structure DoTicOptions extends TickOptions where
  execScript : Option Str
  killDupe : Bool
  noTicHistory : Bool

/-- A TIC file, and what `do_tic` meets: the inbound and its files when
`check_file` looks there, the first time and again. -/
structure TicFile where
  entry : DirEntry
  isTic : wildmatch entry.name (lit "*.tic") true = true
  text : Option Str
  dir : List DirEntry
  dirAgain : List DirEntry
  /-- Size and time of a file. -/
  stat : Str → Option (Nat × Int)
  statAgain : Str → Option (Nat × Int)
  w : TickWorld
  /-- Whether the history can be written. -/
  histWrites : Bool

/-- The state of ftntick: areas, history, and whether `do_tic` has returned. -/
structure DoTic where
  af : Areafix
  hist : List Str
  stopped : Bool

/-! ## check_file -/

inductive FileCheck
  | ok | missing | failed
  deriving DecidableEq, Repr

/-- `tick_get` has met a File line. -/
def ticNamesFile (text : Str) : Bool :=
  (fgetsLines BUFFERSIZE text).any fun line =>
    (tickKeyArg (stripCrlf line)).any fun e => strieq e.1 (lit "File")

/-- `dir_search` -/
def dirSearch (dir : List DirEntry) (file : Str) : Option DirEntry :=
  dir.find? fun e => strieq e.name file

/-- `check_file`: the TIC with what it takes from the file, and a rename. -/
def checkFile (o : TickOptions) (dir : List DirEntry) (stat : Str → Option (Nat × Int))
    (named : Bool) (tic : Tick) : FileCheck × Tick × List TicCall :=
  if ! named then (.failed, tic, [])
  else
    match dirSearch dir tic.file with
    | none => (.missing, tic, [])
    | some e =>
        let orig := pathOf o.inDir e.name
        let tic := { tic with file := strLower e.name }
        let name := pathOf o.inDir tic.file
        let calls := if name == orig then [] else [TicCall.rename orig name]
        match stat name with
        | none => (.failed, tic, calls)
        | some st =>
            if tic.size != 0 && tic.size != st.1 then (.failed, tic, calls)
            else
              (.ok, { tic with
                size := if tic.size != 0 then tic.size else st.1
                date := if tic.date == -1 then st.2 else tic.date }, calls)

/-- What becomes of a TIC whose file is not there. -/
inductive TicWait
  | wait | giveUp | bad | delete | goOn
  deriving DecidableEq, Repr

/-- TickWaitHour and TickWaitAction; `mtime` is the time of the TIC file. -/
def ticWait (cf : Config) (now : Int) (mtime : Option Int) : TicWait :=
  match mtime with
  | none => .giveUp
  | some mtime =>
      let hours := ((cfGetString cf (lit "TickWaitHour")).map atoi).getD (-1)
      if hours != 0 && now - 3600 * hours < mtime then .wait
      else
        match cfGetString cf (lit "TickWaitAction") with
        | none => .giveUp
        | some p => if p == lit "bad" then .bad else if p == lit "delete" then .delete else .goOn

/-! ## The directories of a new area -/

/-- The directories `cmd_new` makes for an area. -/
def newDirs (t : Tables) (w : World) (cf : Config) (passthru : Bool) (name : Str) : List Effect :=
  if t.areafix || passthru then []
  else
    let path := cfGetString cf (lit "AutoCreateFechoPath")
    let dir := (path.getD (lit "(null)") ++ lit "/" ++ strLower name).take 4095
    if w.isDir dir then []
    else
      (path.toList.filter fun p => ! w.isDir p && w.mkdir p).map Effect.mkdir ++
        if (path.any w.isDir || path.any w.mkdir) && w.mkdir dir then [.mkdir dir] else []

/-- `cmd_new_int`, as far as it makes directories. -/
def cmdNewDirs (t : Tables) (w : World) (node : Node) (line : Str) (st : Areafix) : List Effect :=
  if ! (st.auth.new || st.auth.fwd) || ! st.auth.authorized then []
  else
    match xstrtok blanks line with
    | [] => []
    | name :: opts =>
        if (areasbbsLookup st.areas name).isSome then []
        else if ((cfGetString st.cf (lit "ForbiddenChar")).getD []).any name.contains then []
        else if ! st.auth.cmdline && checkForbiddenArea t w st.cf name then []
        else newDirs t w st.cf (newArea w st.cf node name opts true true).passthru name

/-- The creation of an area by `process_tic`, as far as it makes directories. -/
def ticCreateDirs (o : TickOptions) (t : Tables) (w : World) (tic : Tick) (area : Str)
    (st : Areafix) : List Effect :=
  if ! checkPass o t tic false then []
  else if o.autocreateCheckPass && ! checkPass o t tic true then []
  else
    let st := { st with auth := areafixAuthCheck t w.stale tic.src tic.pw true }
    if ! st.auth.new || checkForbiddenArea t w st.cf area then []
    else cmdNewDirs t w tic.src (ticAutocreate o t tic.src area) st

/-- The area of a TIC, or the place for unknown areas. -/
def ticPlace (o : TickOptions) (areas : List AreasBBS) (area : Str) : Option AreasBBS :=
  match areasbbsLookup areas area with
  | some bbs => some bbs
  | none => o.unknownTickArea.bind (areasbbsLookup areas)

/-- `process_tic`, as far as it makes directories for a new area. -/
def processDirs (o : TickOptions) (t : Tables) (w : World) (tic : Tick) (st : Areafix) :
    List Effect :=
  match tic.area with
  | none => []
  | some area =>
      match ticPlace o st.areas area with
      | some _ => []
      | none => ticCreateDirs o t w tic area st

/-! ## do_tic -/

/-- `str_change_ext` -/
def strChangeExt (len : Nat) (old ext : Str) : Str :=
  let new := bufCopy len old
  bufCopy len (new.take (new.length - ext.length) ++ ext)

/-- The TIC file is renamed to `*.bad`. -/
def renameToBad (name : Str) : TicCall := .rename name (strChangeExt MAXPATH name (lit "bad"))

/-- The key of the history. -/
def ticKey (tic : Tick) : Str :=
  tic.area.getD (lit "(null)") ++ lit " " ++ znfp1 tic.origin ++ lit " " ++ tic.file ++ lit " " ++
    (Nat.toDigits 16 tic.crc).map Char.toUInt8

/-- `ftntick_is_dupe` -/
def ftntickIsDupe (tic : Tick) (hist : List Str) : Bool :=
  hist.contains (ticKey tic) && ! tic.replaces.any (strieq tic.file)

/-- A TIC whose file was checked, or whose file nobody waits for any longer. -/
def ticGoOn (o : DoTicOptions) (t : Tables) (f : TicFile) (name : Str) (tic : Tick) (d : DoTic) :
    List TicCall × DoTic :=
  if ! o.noTicHistory && ftntickIsDupe tic d.hist then
    if ! o.killDupe then ([renameToBad name], d)
    else
      ([.unlink (bufCopy BUFFERSIZE (o.inDir ++ lit "/" ++ tic.file)), .unlink name], d)
  else
    let r := processTic o.toTickOptions t f.w tic ⟨d.af, []⟩
    let calls := (processDirs o.toTickOptions t f.w.toWorld tic d.af ++ r.2.done).map TicCall.effect
    let d := { d with af := r.2.af }
    if ! r.1 then (calls ++ [.rewrite, renameToBad name], d)
    else if ! o.noTicHistory && ! f.histWrites then (calls, { d with stopped := true })
    else
      (calls ++ (if o.noTicHistory then [] else [.history (ticKey tic)]) ++ [.rewrite] ++
          (o.execScript.map fun s => TicCall.script (s ++ lit " " ++ name)).toList ++
          [.unlink name],
        { d with hist := if o.noTicHistory then d.hist else d.hist ++ [ticKey tic] })

/-- A TIC that was read. -/
def ticRead (o : DoTicOptions) (t : Tables) (f : TicFile) (name : Str) (named : Bool) (tic : Tick)
    (d : DoTic) : List TicCall × DoTic :=
  let r := checkFile o.toTickOptions f.dir f.stat named tic
  if r.1 == .missing then
    match ticWait d.af.cf f.w.now ((f.stat name).map Prod.snd) with
    | .wait => (r.2.2, d)
    | .giveUp => (r.2.2, { d with stopped := true })
    | .bad => (r.2.2 ++ [renameToBad name], d)
    | .delete => (r.2.2 ++ [.unlink name], d)
    | .goOn =>
        let s := ticGoOn o t f name r.2.1 d
        (r.2.2 ++ s.1, s.2)
  else
    -- check_file is called again
    let r' := checkFile o.toTickOptions f.dirAgain f.statAgain named r.2.1
    if r'.1 == .failed then (r.2.2 ++ r'.2.2 ++ [renameToBad name], d)
    else
      let s := ticGoOn o t f name r'.2.1 d
      (r.2.2 ++ r'.2.2 ++ s.1, s.2)

/-- `do_tic` for one TIC file: the calls, and the state. -/
def doTicFile (o : DoTicOptions) (t : Tables) (d : DoTic) (f : TicFile) : List TicCall × DoTic :=
  if d.stopped then ([], d)
  else
    let name := pathOf o.inDir f.entry.name
    match f.text with
    | none => ([renameToBad name], d)
    | some text =>
        ticRead o t f name (ticNamesFile text) (tickGet d.af.cf.curZone d.af.cf.defzone text) d

def doTicStep (o : DoTicOptions) (t : Tables) (d : DoTic) (f : TicFile) : DoTic :=
  (doTicFile o t d f).2

/-- `do_tic` on the TIC files of the inbound. -/
def doTic (o : DoTicOptions) (t : Tables) (d : DoTic) : List TicFile → List TicCall
  | [] => []
  | f :: fs => (doTicFile o t d f).1 ++ doTic o t (doTicStep o t d f) fs

end Fidogate

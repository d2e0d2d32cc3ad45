/-
# `Fidogate.Areafix.Commands` — areafix.c: the commands

A command is a function on the state of areafix.c.  Replies to the sender are
not modelled, and so the commands that only print (LIST, QUERY, UNLINKED,
HELP, LISTALL, AVAIL) leave the state alone.
-/
import Fidogate.Areafix.Auth
import Fidogate.Common.Packet

namespace Fidogate

open Bytes

/-- The state of areafix.c: privileges, node of the requests, areas list,
number of areas of the node, configuration, requests queued for the uplinks
and command lines run. -/
structure Areafix where
  auth : Auth
  node : Node
  areas : List AreasBBS
  changed : Bool
  limG : Int
  cf : Config
  upl : List Str
  commands : List Str

/-- cmd_sub's return code for an area that has to go again. -/
def DELETE : Int := 2

/-! ## NEW -/

/-- `areafix_check_forbidden_area` and `filefix_check_forbidden_area`. -/
def checkForbiddenArea (t : Tables) (w : World) (cf : Config) (area : Str) : Bool :=
  let name := if t.areafix then lit "AreaFixCreateForbiddenAreas"
    else lit "FileFixCreateForbiddenAreas"
  (cfLoopStrings cf name).any (wildmatch area · true) ||
  (cfLoopStrings cf (name ++ lit "File")).any fun path =>
    ((w.files path).getD []).any fun l =>
      wildmatch area (l.takeWhile fun c => ! isSpace c) true

/-- The options behind the name.  `prl` says that -#, -p, -r and -l count,
`pass` that -# and -p do. -/
def newOptions (zone : Int) (prl pass : Bool) : List Str → AreasBBS → AreasBBS
  | [], p => p
  | o :: ts, p =>
      let p := if prl && pass && (o == lit "-#" || o == lit "-p") then { p with passthru := true }
        else p
      let p := if prl && o == lit "-r" then { p with readonly := true } else p
      if prl && o == lit "-l" || o == lit "-k" || o == lit "-d" || o == lit "-z" ||
          o == lit "-a" || o == lit "-s" || o == lit "-e" || o == lit "-n" then
        match ts with
        | [] => if o == lit "-s" then { p with state := none } else p
        | v :: ts =>
            newOptions zone prl pass ts <|
              if o == lit "-l" then { p with lvl := atoi v }
              else if o == lit "-k" then { p with key := some v }
              else if o == lit "-d" then { p with desc := some v }
              else if o == lit "-z" then { p with zone := atoi v }
              else if o == lit "-a" then { p with addr := ascToNodeStore false zone v p.addr }
              else if o == lit "-s" then { p with state := some v }
              else if o == lit "-e" then { p with expireN := atoi v }
              else { p with expireT := atoi v }
      else newOptions zone prl pass ts p

/-- The entry `cmd_new` fills from the name and the words behind it. -/
def newArea (w : World) (cf : Config) (node : Node) (name : Str) (opts : List Str)
    (dwnl inter : Bool) : AreasBBS :=
  let prl := (cfGetString cf (lit "IgnorePRLKey")).isNone || inter
  let p := newOptions cf.defzone prl (! dwnl || inter) opts
    { areasbbsNew with area := strUpper name, zone := node.zone, time := w.now }
  { p with state := some (p.state.getD (lit "S")) }

/-- The directory of a new area, made where it is missing; `none` where that
fails. -/
def newDir (t : Tables) (w : World) (cf : Config) (passthru : Bool) (name : Str) : Option Str :=
  if t.areafix || passthru then some (lit "-")
  else
    let path := cfGetString cf (lit "AutoCreateFechoPath")
    let dir := (path.getD (lit "(null)") ++ lit "/" ++ strLower name).take 4095
    if w.isDir dir then some dir
    else if (path.any w.isDir || path.any w.mkdir) && w.mkdir dir then some dir
    else none

/-- The keyword of the nodes a new area is sent to. -/
def subscribeKey (t : Tables) : Str :=
  if t.areafix then lit "AutoCreateSubscribeNodes" else lit "AutoCreateSubscribeFileechoNodes"

/-- The nodes of all lines, the first of a line read in the current zone. -/
def subscribeNodes (t : Tables) (cf : Config) : List Node :=
  (cfLoopStrings cf (subscribeKey t)).flatMap fun s =>
    ascToNodes (nodeOld cf.curZone) ((xstrtok blanks s).takeWhile (· != []))

/-- The command line for AutoCreateCmd. -/
def autoCreateCmd (cmd : Str) (node : Node) (p : AreasBBS) : Str :=
  ((lit " ").intercalate
    [cmd, p.area, znfp1 node, p.state.getD [], znfp1 p.addr, putInt p.lvl,
      p.key.getD (lit "NONE"), p.desc.getD (lit "NONE"), putInt p.zone,
      lit (if p.passthru then "-#" else "-"), lit (if p.readonly then "-r" else "-")]).take 32767

/-- `cmd_new`: `dwnl` says that a downlink was given, `inter` that the command
comes from the program itself.  A line without a name, where the source goes
on with NULL, is refused here. -/
def cmdNew (t : Tables) (w : World) (node : Node) (line : Str) (dwnl inter : Bool)
    (st : Areafix) : Int × Areafix :=
  if ! (st.auth.new || st.auth.fwd && inter) || ! st.auth.authorized then (OK, st)
  else
    match xstrtok blanks line with
    | [] => (OK, st)
    | name :: opts =>
        if (areasbbsLookup st.areas name).isSome then (OK, st)
        else if ((cfGetString st.cf (lit "ForbiddenChar")).getD []).any name.contains then (-2, st)
        else if ! st.auth.cmdline && checkForbiddenArea t w st.cf name then (OK, st)
        else
          let p := newArea w st.cf node name opts dwnl inter
          match newDir t w st.cf p.passthru name with
          | none => (ERROR, st)
          | some dir =>
              let script := (cfGetString st.cf (lit "AutoCreateCmd")).map (autoCreateCmd · node p)
              let p := { p with dir := dir, nodes := node :: subscribeNodes t st.cf }
              (OK, { st with
                areas := st.areas ++ [p]
                changed := st.changed || script.isNone
                commands := st.commands ++ script.toList
                cf := st.cf.cut (subscribeKey t) blanks })

/-- `cmd_new_int`. -/
def cmdNewInt (t : Tables) (w : World) (node : Node) (line : Str) (dwnl : Bool) (st : Areafix) :
    Int × Areafix := cmdNew t w node line dwnl true st

/-! ## Requests to the uplinks -/

/-- The name the requests are signed with. -/
def fixName (t : Tables) (cf : Config) : Str :=
  (cfGetString cf (if t.areafix then lit "AreaFixName" else lit "FileFixName")).getD
    (if t.areafix then lit "Areafix Daemon" else lit "Filefix Daemon")

/-- A line of the queue: address, robot, our name, password and request. -/
def uplRequest (t : Tables) (cf : Config) (addr : Str) (a : AreaUplink) (sign : Str) (area : Str) :
    Str :=
  ((lit ",").intercalate [addr, a.robotname, fixName t cf, a.password, sign ++ area]).take 4095

/-! ## SUBSCRIBE -/

/-- `send_rules`, as far as it goes on to select the address to send from. -/
def sendRules (w : World) (cf : Config) (link : Node) (area : Str) : Config :=
  let meant := (cfLoopStrings cf (lit "RulesSendTo")).all fun p =>
    ((ascToNode true cf.defzone p).map (nodeEq link)).getD false
  let rules := ((cfGetString cf (lit "RulesConfig")).bind w.files).map cfLines
  let line := ((rules.getD []).map (xstrtok blanks)).find? fun ts =>
    (ts.head?.map (strieq area)).getD false
  let file := (line.bind (·[1]?)).bind w.files
  if meant && file.isSome then cfSetBest cf link.zone link.net link.node else cf

/-- The number of areas of the node that its first uplink also has. -/
def subLimit (areas : List AreasBBS) (node : Node) (p : AreasBBS) : Nat :=
  match p.nodes with
  | [] => 0
  | first :: _ =>
      areas.countP fun n => n.nodes.length > 1 &&
        (lonSearch n.nodes node || lonSearch p.passive node) && lonSearch n.nodes first

/-- What SUBSCRIBE does with one matching entry. -/
inductive SubResult where
  /-- Left alone; nothing to do with it. -/
  | skip
  /-- Access denied: without a queue of requests the area has to go again. -/
  | deny
  /-- Set active again. -/
  | activate
  /-- Dead area, removed. -/
  | dead
  /-- The node is added. -/
  | add

/-- The checks of SUBSCRIBE on an entry that matches. -/
def subCheck (t : Tables) (st : Areafix) (areas : List AreasBBS) (limG : Int) (p : AreasBBS) :
    SubResult :=
  let a := st.auth
  if a.cmdline then if p.nodes.isEmpty then .dead else .add
  else if p.lvl > a.lvl then .deny
  else if p.key.any fun k => ! k.any a.key.contains then .deny
  else if lonSearch p.nodes st.node then
    if lonSearch p.passive st.node then .activate else .skip
  else if a.limG > 0 && a.limG ≤ limG then .deny
  else if a.limA > 0 && a.limA ≤ subLimit areas st.node p then .deny
  else if t.areafix && p.zone != st.node.zone && p.zone == 0 then .dead
  else if t.areafix && p.zone != st.node.zone && (p.zone > 6 || st.node.zone > 6) then .skip
  else if p.nodes.isEmpty then .dead
  else .add

/-- The loop of SUBSCRIBE over the areas list: what is behind and what is
ahead, with the number of areas that matched. -/
structure SubLoop where
  behind : List AreasBBS
  limG : Int
  changed : Bool
  upl : List Str
  cf : Config
  matched : Nat

/-- The node is added to an area; the request to the uplink goes to the queue,
and `none` is the missing entry for the uplink. -/
def subAdd (t : Tables) (w : World) (node : Node) (wild : Bool) (area : Str) (p : AreasBBS)
    (lp : SubLoop) : Option AreasBBS × SubLoop :=
  let first := p.nodes.headD nodeInvalid
  let q := { p with nodes := p.nodes ++ [node] }
  let lp := { lp with changed := true, limG := lp.limG + 1 }
  let rules := fun lp : SubLoop =>
    if wild then lp else { lp with cf := sendRules w lp.cf node (strUpper area) }
  if areasbbsIsstate p.state 85 || areasbbsIsstate p.state 80 then
    match uplinksLineGet t.uplinks t.areafix first with
    | some a =>
        (some { q with
            area := strUpper p.area
            state := areasbbsChstate p.state (lit "UP") 87
            time := w.now
            passive := lonRemove p.passive node },
          rules { lp with
            upl := lp.upl ++ [uplRequest t lp.cf (znf1 first) a (lit "+") (strUpper p.area)] })
    | none => (none, { lp with behind := lp.behind ++ [q] })
  else (some q, rules lp)

/-- The first loop of `cmd_sub`.  `queue` says that there is a queue for the
requests; where it is missing the source writes through NULL, and the queue
here takes the request.  The code ends the loop early. -/
def cmdSubLoop (t : Tables) (w : World) (st : Areafix) (area : Str) (queue : Bool) :
    List AreasBBS → SubLoop → Option Int × List AreasBBS × SubLoop
  | [], lp => (none, [], lp)
  | p :: ps, lp =>
      let wild := isWildcard area
      if lp.matched != 0 && ! wild then (some OK, p :: ps, lp)
      else if wildmatch p.area (bufCopy BUFSIZ area) true then
        let lp := { lp with matched := lp.matched + 1 }
        match subCheck t st (lp.behind ++ p :: ps) lp.limG p with
        | .skip => cmdSubLoop t w st area queue ps { lp with behind := lp.behind ++ [p] }
        | .deny =>
            if queue then cmdSubLoop t w st area queue ps { lp with behind := lp.behind ++ [p] }
            else (some DELETE, p :: ps, lp)
        | .activate =>
            cmdSubLoop t w st area queue ps { lp with
              behind := lp.behind ++ [{ p with passive := lonRemove p.passive st.node }]
              changed := true
              limG := lp.limG + 1 }
        | .dead => cmdSubLoop t w st area queue ps { lp with changed := true }
        | .add =>
            match subAdd t w st.node wild area p lp with
            | (some q, lp) => cmdSubLoop t w st area queue ps { lp with behind := lp.behind ++ [q] }
            | (none, lp) =>
                if queue then
                  cmdSubLoop t w st area queue ps
                    (if wild then lp else { lp with cf := sendRules w lp.cf st.node (strUpper area) })
                else (some DELETE, ps, lp)
      else cmdSubLoop t w st area queue ps { lp with behind := lp.behind ++ [p] }

/-- The areas of the node, counted at its first SUBSCRIBE. -/
def countAreas (areas : List AreasBBS) (node : Node) : Nat :=
  areas.countP fun p => p.nodes.length > 1 && (lonSearch p.nodes node || lonSearch p.passive node)

/-- `cmd_sub` up to the end of its loop: the return code where the loop ends
early, the number of areas that matched, and the state. -/
def subAreas (t : Tables) (w : World) (area : Str) (queue : Bool) (st : Areafix) :
    Option Int × Nat × Areafix :=
  let limG := if st.limG < 1 then st.limG + countAreas st.areas st.node else st.limG
  let r := cmdSubLoop t w st area queue st.areas ⟨[], limG, st.changed, st.upl, st.cf, 0⟩
  (r.1, r.2.2.matched,
    { st with areas := r.2.2.behind ++ r.2.1, limG := r.2.2.limG, changed := r.2.2.changed,
              upl := r.2.2.upl, cf := r.2.2.cf })

/-- The line `cmd_new` gets for an area of an uplink. -/
def forwardLine (a : AreaUplink) : Str :=
  match a.options with
  | some o => (a.areas ++ lit " " ++ o).take BUFSIZ
  | none => bufCopy BUFSIZ a.areas

/-- The new area is requested from the uplink and has the state `F`. -/
def Areafix.requested (st : Areafix) (area : Str) : Areafix :=
  { st with
    areas := areasbbsUpdate area
      (fun p => { p with state := areasbbsChstate p.state (lit "S") 70 }) st.areas
    changed := true }

/-- An area of an uplink is created and subscribed to with `sub`, and then
requested from the uplink. -/
def subRequest (t : Tables) (w : World) (sub : Str → Areafix → Int × Areafix) (a : AreaUplink)
    (st : Areafix) : Areafix :=
  if (areasbbsLookup st.areas a.areas).isSome || isWildcard a.areas then st
  else
    let r := cmdNewInt t w a.uplink (forwardLine a) true st
    match areasbbsLookup r.2.areas a.areas with
    | none => r.2
    | some p =>
        if r.1 != OK then r.2
        else
          let r := sub p.area (r.2.requested a.areas)
          if r.1 != OK then
            { r.2 with areas := areasbbsRemove a.areas r.2.areas, changed := true }
          else
            { r.2 with upl := r.2.upl ++
                [uplRequest t r.2.cf (znfp1 a.uplink) a (lit "+") (strUpper a.areas)] }

/-- One uplink that has the area: for it, the forward request is allowed. -/
def subForward (t : Tables) (w : World) (sub : Str → Areafix → Int × Areafix) (st : Areafix)
    (a : AreaUplink) : Areafix :=
  subRequest t w sub a { st with auth := { st.auth with fwd := true } }

/-- `cmd_sub`.  An area no entry matches is created, requested from an uplink
and subscribed to by a call of `cmd_sub` itself, without a queue; `depth`
bounds these calls. -/
def cmdSub (t : Tables) (w : World) : Nat → Str → Bool → Areafix → Int × Areafix
  | 0, _, _, st => (OK, st)
  | depth + 1, area, queue, st =>
      if ! st.auth.authorized then (OK, st)
      else
        let r := subAreas t w area queue st
        match r.1 with
        | some ret => (ret, r.2.2)
        | none =>
            if st.auth.fwd && (isWildcard area || r.2.1 == 0) then
              (OK, (uplinksLookup w.files t.areafix area t.uplinks).foldl
                (subForward t w fun area st => cmdSub t w depth area false st) r.2.2)
            else (OK, r.2.2)

/-! ## UNSUBSCRIBE, DELETE, PASSIVE, ACTIVE -/

/-- What UNSUBSCRIBE makes of a matching entry, with the request it queues. -/
def unsubArea (t : Tables) (cf : Config) (node : Node) (p : AreasBBS) :
    Option AreasBBS × List Str :=
  let q := { p with nodes := lonRemove p.nodes node, passive := lonRemove p.passive node }
  match q.nodes with
  | [] => if p.passthru then (none, []) else (some q, [])
  | [first] =>
      if p.passthru then
        match uplinksLineGet t.uplinks t.areafix first with
        | some a =>
            (some { q with area := strUpper p.area
                           state := areasbbsChstate p.state (lit "SWF") 85 },
              [uplRequest t cf (znfp1 a.uplink) a (lit "-") (strUpper p.area)])
        | none => (none, [])
      else (some q, [])
  | _ => (some q, [])

/-- `cmd_unsub`. -/
def cmdUnsub (t : Tables) (area : Str) (st : Areafix) : Int × Areafix :=
  if ! st.auth.authorized then (OK, st)
  else
    (OK, st.areas.foldl (fun st' p =>
      if wildmatch p.area area true then
        if p.nodes.isEmpty then { st' with changed := true }
        else if lonSearch p.nodes st.node then
          let (q, upl) := unsubArea t st.cf st.node p
          { st' with areas := st'.areas ++ q.toList, upl := st'.upl ++ upl, changed := true
                     limG := st'.limG - 1 }
        else { st' with areas := st'.areas ++ [p] }
      else { st' with areas := st'.areas ++ [p] }) { st with areas := [] })

/-- `cmd_delete`: it asks for the privilege of DELETE alone. -/
def cmdDelete (area : Str) (st : Areafix) : Int × Areafix :=
  if ! st.auth.delete then (OK, st)
  else
    (OK, { st with
      areas := st.areas.filter fun p => ! wildmatch p.area area true
      changed := st.changed || st.areas.any fun p => wildmatch p.area area true })

/-- Whether PASSIVE and ACTIVE mean the entry. -/
def passiveMatch (area : Str) (p : AreasBBS) : Bool := area.isEmpty || wildmatch p.area area true

/-- `cmd_passive`: the loop ends at an area whose uplink is not known. -/
def cmdPassiveLoop (t : Tables) (w : World) (node : Node) (cf : Config) (area : Str) :
    List AreasBBS → List AreasBBS × List Str × Bool
  | [] => ([], [], false)
  | p :: ps =>
      let cons := fun q upl changed =>
        let r := cmdPassiveLoop t w node cf area ps
        (q :: r.1, upl ++ r.2.1, changed || r.2.2)
      if passiveMatch area p && lonSearch p.nodes node && p.nodes.length > 1 &&
          ! lonSearch p.passive node then
        let move := fun q : AreasBBS =>
          { q with nodes := lonRemove p.nodes node, passive := p.passive ++ [node] }
        if p.nodes.length ≤ 2 then
          match uplinksLineGet t.uplinks t.areafix (p.nodes.headD nodeInvalid) with
          | none => (p :: ps, [], false)
          | some a =>
              let state :=
                if areasbbsIsstate p.state 87 || areasbbsIsstate p.state 70 ||
                    areasbbsIsstate p.state 83 then areasbbsChstate p.state (lit "WFS") 80
                else p.state
              cons (move { p with area := strUpper p.area, time := w.now, state := state })
                [uplRequest t cf (znfp1 a.uplink) a (lit "-") (strUpper p.area)] true
        else cons (move p) [] true
      else cons p [] false

/-- `cmd_active`: the loop ends at an area whose uplink is not known. -/
def cmdActiveLoop (t : Tables) (node : Node) (cf : Config) (area : Str) :
    List AreasBBS → List AreasBBS × List Str × Bool
  | [] => ([], [], false)
  | p :: ps =>
      let cons := fun q upl changed =>
        let r := cmdActiveLoop t node cf area ps
        (q :: r.1, upl ++ r.2.1, changed || r.2.2)
      if passiveMatch area p && lonSearch p.passive node && ! lonSearch p.nodes node then
        let move := fun q : AreasBBS =>
          { q with nodes := p.nodes ++ [node], passive := lonRemove p.passive node }
        if p.nodes.length == 1 && ! nodeEq (p.nodes.headD nodeInvalid) node then
          match uplinksLineGet t.uplinks t.areafix (p.nodes.headD nodeInvalid) with
          | none => (p :: ps, [], false)
          | some a =>
              let state :=
                if areasbbsIsstate p.state 80 || areasbbsIsstate p.state 85 then
                  areasbbsChstate p.state (lit "P") 87
                else p.state
              cons (move { p with area := strUpper p.area, state := state })
                [uplRequest t cf (znfp1 a.uplink) a (lit "+") (strUpper p.area)] true
        else cons (move p) [] true
      else cons p [] false

/-- The areas list after PASSIVE or ACTIVE. -/
def Areafix.after (st : Areafix) (r : List AreasBBS × List Str × Bool) : Areafix :=
  { st with areas := r.1, upl := st.upl ++ r.2.1, changed := st.changed || r.2.2 }

/-- `cmd_passive`. -/
def cmdPassive (t : Tables) (w : World) (area : Str) (st : Areafix) : Int × Areafix :=
  if ! st.auth.authorized then (OK, st)
  else (OK, st.after (cmdPassiveLoop t w st.node st.cf area st.areas))

/-- `cmd_active`. -/
def cmdActive (t : Tables) (area : Str) (st : Areafix) : Int × Areafix :=
  if ! st.auth.authorized then (OK, st)
  else (OK, st.after (cmdActiveLoop t st.node st.cf area st.areas))

/-! ## PASSWD -/

/-- `cmd_passwd`. -/
def cmdPasswd (t : Tables) (w : World) (arg : Str) (st : Areafix) : Int × Areafix :=
  let st := { st with auth := { st.auth with authorized := false } }
  match strtok blanks arg with
  | [] => (OK, st)
  | addr :: args =>
      match ascToNode false st.cf.defzone addr with
      | none => (OK, st)
      | some n =>
          let st := { st with node := n, cf := cfSetZone st.cf n.zone }
          match args with
          | [] => (OK, st)
          | p :: _ => (OK, { st with auth := areafixAuthCheck t w.stale n (some p) true })

/-! ## A request -/

/-- The commands. -/
inductive Cmd where
  | sub | unsub | passwd | new | delete | passive | active
  /-- LIST, QUERY, UNLINKED, HELP, LISTALL, AVAIL. -/
  | print
  deriving DecidableEq, Repr

/-- The command a word stands for. -/
def cmdWord (buf : Str) : Option Cmd :=
  let is := fun s => strieq buf (lit s)
  if is "list" || is "query" || is "unlinked" then some .print
  else if is "subscribe" || is "sub" then some .sub
  else if is "unsubscribe" || is "unsub" then some .unsub
  else if is "help" then some .print
  else if is "passwd" || is "password" || is "from" then some .passwd
  else if is "listall" then some .print
  else if is "new" || is "create" then some .new
  else if is "delete" then some .delete
  else if is "passive" || is "pause" then some .passive
  else if is "active" || is "resume" then some .active
  else if is "avail" then some .print
  else none

/-- The command a line names, behind its `%`, and its argument. -/
def parseWord (line : Str) : Option (Cmd × Str) :=
  let arg := fun s : Str => s.dropWhile isSpace
  if line.head? == some 43 then some (.sub, arg line.tail)
  else if line.head? == some 45 then some (.unsub, arg line.tail)
  else if line.head? == some 38 then some (.new, arg line.tail)
  else if line.head? == some 126 then some (.delete, arg line.tail)
  else
    let buf := (line.takeWhile (! isSpace ·)).take 31
    (cmdWord buf).map (·, arg (line.drop buf.length))

/-- A line without its `%`. -/
def stripPercent (line : Str) : Str := if line.head? == some 37 then line.tail else line

/-- The command of a line: one without a name is an area to add. -/
def parseCmd (cf : Config) (line : Str) : Option (Cmd × Str) :=
  match parseWord (stripPercent line) with
  | some c => some c
  | none =>
      if line.head? != some 37 && (cfGetString cf (lit "AreaFixSubscribeOnlyIfPlus")).isNone then
        some (.sub, line.dropWhile isSpace)
      else none

/-- `areafix_do_cmd`. -/
def areafixDoCmd (t : Tables) (w : World) (line : Str) (st : Areafix) : Areafix :=
  match parseCmd st.cf line with
  | none => st
  | some (.print, _) => st
  | some (.sub, arg) => (cmdSub t w 2 arg true st).2
  | some (.unsub, arg) => (cmdUnsub t arg st).2
  | some (.passwd, arg) => (cmdPasswd t w arg st).2
  | some (.new, arg) => (cmdNew t w st.node arg false false st).2
  | some (.delete, arg) => (cmdDelete arg st).2
  | some (.passive, arg) => (cmdPassive t w arg st).2
  | some (.active, arg) => (cmdActive t arg st).2

/-- What `areafix_do` makes of a line: a command, nothing, or the end. -/
def requestLine (line : Str) : Option (Option Str) :=
  let p := stripSpace (stripCrlf line)
  if hasPrefix (lit " * ") p then some none
  else if hasPrefix (lit "--") p then none
  else
    let p := p.dropWhile isSpace
    if p.isEmpty then some none else some (some p)

/-- The lines of a request, each with the world it is carried out in. -/
def areafixDoLines (t : Tables) : List (World × Str) → Areafix → Areafix
  | [], st => st
  | (w, line) :: ls, st =>
      match requestLine line with
      | none => st
      | some none => areafixDoLines t ls st
      | some (some p) => areafixDoLines t ls (areafixDoCmd t w p st)

/-- The start of `areafix_do`: the password is the first word of the subject. -/
def areafixStart (t : Tables) (w : World) (node : Node) (subj : Str) (st : Areafix) : Areafix :=
  { st with
    auth := areafixAuthCheck t w.stale node (strtok blanks subj).head? true
    node := node
    upl := [] }

/-- A request: the claimed sender, the subject and the lines. -/
structure Request where
  node : Node
  subj : Str
  start : World
  lines : List (World × Str)

/-- `areafix_do`; `send_request` then empties the queue. -/
def areafixDo (t : Tables) (r : Request) (st : Areafix) : Areafix :=
  areafixDoLines t r.lines (areafixStart t r.start r.node r.subj st)

end Fidogate

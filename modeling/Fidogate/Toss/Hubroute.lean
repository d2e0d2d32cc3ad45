/-
# `Fidogate.Toss.Hubroute` — ftnroute.c: the table of hubs and HUBROUTE

The nodelist is written to a data base, for each node the text of its hub
behind the digit of its mode, and HUBROUTE looks the destination of a packet up
in it.  The data base gives what was stored first for a key.
-/
import Fidogate.Common.Histdb
import Fidogate.Common.NodePrint
import Fidogate.Toss.RouteRules

namespace Fidogate

open Bytes

/-! ## Writing -/

/-- `MODE_PVT`, `MODE_HOLD` and so on; a line in front of all others has
none. -/
inductive NlMode
  | none
  | pvt
  | hold
  | down
  | normal
  | hub
  | host
  | zone
  deriving DecidableEq, Repr

def NlMode.num : NlMode → Nat
  | none => 0
  | pvt => 1
  | hold => 2
  | down => 3
  | normal => 4
  | hub => 5
  | host => 6
  | zone => 7

/-- `nodelist`: the three numbers `save_node` is given, each an `int`, and the
mode. -/
structure Nodelist where
  zone : Int
  net : Int
  node : Int
  mode : NlMode
  zone_int : -2 ^ 31 ≤ zone ∧ zone < 2 ^ 31
  net_int : -2 ^ 31 ≤ net ∧ net < 2 ^ 31
  node_int : -2 ^ 31 ≤ node ∧ node < 2 ^ 31

/-- The node of an entry. -/
def Nodelist.link (s : Nodelist) : Node := ⟨s.zone, s.net, s.node, 0, []⟩

/-- A node of the table with its mode and its hub. -/
structure HubRecord where
  entry : Nodelist
  hub : Node

/-- The key and the text `hi_write_avail` is given. -/
def HubRecord.key (r : HubRecord) : Str := znfp1 r.entry.link

def HubRecord.text (r : HubRecord) : Str := putDec r.entry.mode.num ++ lit "$" ++ znfp1 r.hub

/-- The loop of `hubroute_write` with `uplink` and `old`. -/
def hubrouteLoop (uplink old : Node) : List Nodelist → List HubRecord
  | [] => []
  | s :: ss =>
      match s.mode with
      | .hub => ⟨s, if old.zone != 0 then old else s.link⟩ :: hubrouteLoop s.link old ss
      | .host | .zone => ⟨s, if old.zone != 0 then old else s.link⟩ :: hubrouteLoop s.link s.link ss
      | _ => ⟨s, uplink⟩ :: hubrouteLoop uplink old ss

/-- `hubroute_write`: the records in the order they are stored. -/
def hubrouteWrite (nl : List Nodelist) : List HubRecord := hubrouteLoop nodeClear nodeClear nl

/-- The data base of them: what stands behind the key and its tab. -/
def hubDb (nl : List Nodelist) : Dbc := fun key =>
  ((hubrouteWrite nl).find? (·.key == key)).map fun r => r.text ++ [lf]

/-! ## Reading -/

/-- The state of `do_cmd_mkroute`: `hist_init`, what `nodelist_read` returns,
and the memory of its variable `node`. -/
structure HubState where
  histInit : Bool
  nodelistRead : Int
  node : Node

/-- The data base is open: it was before, or `nodelist_read` has failed. -/
def HubState.opened (h : HubState) : Bool := h.histInit || h.nodelistRead != OK

/-- The node HUBROUTE takes from the text of an entry; it has none where
`znfp_parse_partial` succeeds. -/
def hubNode (h : HubState) (p : Str) : Option Node :=
  match strtokExt true (lit " $") p with
  | some (_ :: _, _) =>
      if (znfpParsePartial (strtokCut (lit " $") p)).isNone then some h.node else none
  | _ => none

/-- The look-up of HUBROUTE. -/
def hubFetch (h : HubState) (db : Dbc) (dst : Node) : Option (Option Node) :=
  if h.opened then
    match hiFetch db (znfp1 dst) 1 with
    | some (some p) => some (hubNode h p)
    | _ => none
  else none

/-! ## What it is meant to do -/

/-- The address of the system of a node, without point and domain. -/
def Node.system (n : Node) : Node := { n with point := 0, domain := [] }

/-- The hub that is recorded for the net and node of an address. -/
def recordedHub (nl : List Nodelist) (dst : Node) : Option Node :=
  ((hubrouteWrite nl).find? (·.key == znfp1 dst.system)).map (·.hub)

/-- A packet the command is for goes to the recorded hub; without one it is left
alone, as is any other packet. -/
def HubRouted (nl : List Nodelist) (r : MkRoute) (desc : RouteDesc) (res : RouteDesc × Bool) :
    Prop :=
  if r.links.any (nodeMatch desc.dst) = true then
    match recordedHub nl desc.dst with
    | some hub => nodeEq res.1.dst hub = true ∧ res.2 = true
    | none => res = (desc, false)
  else res = (desc, false)

/-- The condition: the hub of a destination that is in the table is the
destination itself, whose address is printed without point and domain, and the
data base is open. -/
def HubrouteOk (nl : List Nodelist) (h : HubState) (r : MkRoute) (dst : Node) : Prop :=
  r.links.any (nodeMatch dst) = true → ∀ hub, recordedHub nl dst = some hub →
    nodeEq dst hub = true ∧ znfp1 dst = znfp1 dst.system ∧ h.opened = true

/-! ## The keys -/

/-- The numbers in front of the point. -/
def Node.numbers (n : Node) : Str :=
  (if n.zone == EMPTY then [] else znfpPutNumber n.zone true ++ lit ":") ++
    (if n.net == EMPTY then []
      else znfpPutNumber n.net true ++ if n.node == EMPTY then [] else lit "/") ++
    if n.node == EMPTY then [] else znfpPutNumber n.node true

theorem not_mem_znfpPutNumber (v : Int) : (46 : UInt8) ∉ znfpPutNumber v true := by
  unfold znfpPutNumber
  split
  · decide
  · exact not_mem_putInt (by decide) (by decide)

theorem Node.not_mem_numbers (n : Node) : (46 : UInt8) ∉ n.numbers := by
  have hz := not_mem_znfpPutNumber n.zone
  have ht := not_mem_znfpPutNumber n.net
  have hm := not_mem_znfpPutNumber n.node
  have h58 : (46 : UInt8) ∉ lit ":" := by decide
  have h47 : (46 : UInt8) ∉ lit "/" := by decide
  unfold Node.numbers
  simp only [List.mem_append, not_or]
  refine ⟨⟨?_, ?_⟩, ?_⟩
  · split
    · exact List.not_mem_nil
    · exact fun h => (List.mem_append.mp h).elim hz h58
  · split
    · exact List.not_mem_nil
    · refine fun h => (List.mem_append.mp h).elim ht ?_
      split
      · exact List.not_mem_nil
      · exact h47
  · split
    · exact List.not_mem_nil
    · exact hm

theorem Node.numbers_of_fits {n : Node} (hn : n.Fits) :
    n.numbers = putInt n.zone ++ lit ":" ++ putInt n.net ++ lit "/" ++ putInt n.node := by
  have hput : ∀ {v : Int}, 0 ≤ v → znfpPutNumber v true = putInt v := by
    intro v hv
    have hwild : (v == WILDCARD) = false := beq_eq_false_iff_ne.mpr (by rw [WILDCARD]; omega)
    rw [znfpPutNumber, hwild]
    rfl
  unfold Node.numbers
  rw [hput hn.zone, hput hn.net, hput hn.node]
  simp [ne_empty_of_nonneg hn.zone, ne_empty_of_nonneg hn.net, ne_empty_of_nonneg hn.node]

theorem length_putInt_int {v : Int} (h : -2 ^ 31 ≤ v ∧ v < 2 ^ 31) : (putInt v).length ≤ 11 := by
  rw [putInt]
  split
  · rw [List.length_cons]
    exact Nat.succ_le_succ ((length_putDec_le_iff (by decide)).mpr (by omega))
  · exact (length_putDec_le_iff (by decide)).mpr (by omega)

theorem length_znfpPutNumber {v : Int} (h : -2 ^ 31 ≤ v ∧ v < 2 ^ 31) :
    (znfpPutNumber v true).length ≤ 11 := by
  unfold znfpPutNumber
  split
  · decide
  · exact length_putInt_int h

/-- What is printed of a node without point and domain. -/
theorem znfp1_link {n : Node} (hpoint : n.point = 0) (hdomain : n.domain = [])
    (hzone : -2 ^ 31 ≤ n.zone ∧ n.zone < 2 ^ 31) (hnet : -2 ^ 31 ≤ n.net ∧ n.net < 2 ^ 31)
    (hnode : -2 ^ 31 ≤ n.node ∧ n.node < 2 ^ 31) : znfp1 n = n.numbers ++ lit ".0" := by
  have hprint : znfpPrint n true true = n.numbers ++ lit ".0" := by
    have h0 : (n.point == EMPTY) = false := by rw [hpoint]; rfl
    have h1 : (n.point == WILDCARD) = false := by rw [hpoint]; rfl
    unfold znfpPrint
    rw [h0, h1, hdomain, Bool.and_false, Bool.and_false, if_neg Bool.false_ne_true,
      if_neg Bool.false_ne_true, hpoint]
    simp [Node.numbers, znfpPutNumber, lit, putInt, putDec, WILDCARD]
  have h1 := length_znfpPutNumber hzone
  have h2 := length_znfpPutNumber hnet
  have h3 := length_znfpPutNumber hnode
  have hnumbers : n.numbers.length ≤ 35 := by
    unfold Node.numbers
    simp only [List.length_append]
    split <;> split <;> (try split) <;> simp [lit] <;> omega
  rw [znfp1, hprint, List.take_of_length_le]
  rw [List.length_append]
  simp [lit]
  omega

/-- The key of an entry that is found under the address of a packet: the address
is printed as one without point and domain. -/
theorem HubRecord.key_eq {r : HubRecord} {dst : Node} (hn : dst.Fits) (h : r.key = znfp1 dst) :
    znfp1 dst = znfp1 dst.system := by
  have hsystem : znfp1 dst.system = dst.numbers ++ lit ".0" :=
    znfp1_link rfl rfl ⟨Int.le_trans (by decide) hn.zone, hn.zone_int⟩
      ⟨Int.le_trans (by decide) hn.net, hn.net_int⟩ ⟨Int.le_trans (by decide) hn.node, hn.node_int⟩
  have hkey : r.key = r.entry.link.numbers ++ lit ".0" :=
    znfp1_link rfl rfl r.entry.zone_int r.entry.net_int r.entry.node_int
  obtain ⟨d, -, -, hprint⟩ := znfp1_eq hn
  rw [← Node.numbers_of_fits hn] at hprint
  -- both sides are cut at the first point
  have hcut : r.entry.link.numbers ++ 46 :: lit "0" =
      dst.numbers ++ 46 :: (putInt dst.point ++ d) := by
    rw [hkey, hprint, List.append_assoc, List.append_assoc] at h
    exact h
  have hrest := congrArg (List.dropWhile (· != (46 : UInt8))) hcut
  rw [(takeWhile_not_mem (Node.not_mem_numbers _) _).2,
    (takeWhile_not_mem (Node.not_mem_numbers _) _).2] at hrest
  rw [hprint, hsystem, List.append_assoc, List.append_assoc, ← (List.cons.inj hrest).2]
  rfl

/-! ## The text of an entry -/

theorem fgetsLoop_prefix (size : Nat) : ∀ (s cur : Str) (room : Nat), cur ≠ [] →
    ∃ t ls, fgetsLoop size room cur s = (cur ++ t) :: ls
  | [], cur, room, h => ⟨[], [], by rw [fgetsLoop, if_neg h, List.append_nil]⟩
  | c :: s, cur, room, h => by
      rw [fgetsLoop]
      split
      · exact ⟨[c], _, rfl⟩
      · have hne : cur ++ [c] ≠ [] := List.append_ne_nil_of_left_ne_nil h [c]
        obtain ⟨t, ls, ht⟩ := fgetsLoop_prefix size s (cur ++ [c]) (room - 1) hne
        exact ⟨c :: t, ls, by rw [ht, List.append_assoc]; rfl⟩

/-- The first line of a text that is longer than two bytes. -/
theorem fgetsLines_two {c d : UInt8} (hc : c ≠ lf ∧ c ≠ nul) (hd : d ≠ lf ∧ d ≠ nul) (s : Str) :
    ∃ t, (fgetsLines BUFFERSIZE (c :: d :: s)).head? = some (c :: d :: t) := by
  obtain ⟨t, ls, ht⟩ := fgetsLoop_prefix BUFFERSIZE s [c, d] (BUFFERSIZE - 3) (List.cons_ne_nil _ _)
  have hroom1 : ¬ (c = lf ∨ BUFFERSIZE - 1 ≤ 1) := not_or.mpr ⟨hc.1, by decide⟩
  have hroom2 : ¬ (d = lf ∨ BUFFERSIZE - 1 - 1 ≤ 1) := not_or.mpr ⟨hd.1, by decide⟩
  refine ⟨cstr t, ?_⟩
  rw [fgetsLines, fgetsLoop, if_neg hroom1, fgetsLoop, if_neg hroom2]
  rw [show BUFFERSIZE - 1 - 1 - 1 = BUFFERSIZE - 3 from rfl, List.nil_append, List.singleton_append,
    ht, List.map_cons, List.head?_cons]
  simp [cstr, hc.2, hd.2]

/-- The first word of a text that begins with a digit and a dollar sign. -/
theorem dbcWord_digit {c : UInt8} (hc : isDigit c = true) (s : Str) :
    ∃ t, dbcWord (c :: 36 :: s) = some (c :: 36 :: t) := by
  have key : ∀ c : UInt8, isDigit c = true → (c ≠ lf ∧ c ≠ nul) ∧ isDelim blanks c = false ∧
      c ≠ dquote := forall_byte (by decide +kernel)
  obtain ⟨hplain, hdelim, hquote⟩ := key c hc
  obtain ⟨t, ht⟩ := fgetsLines_two hplain (d := 36) (by decide) s
  have hword : ∃ w, (xstrtok blanks (c :: 36 :: t)).head? = some (c :: 36 :: w) := by
    have htake : (36 :: t).takeWhile (! isDelim blanks ·) =
        36 :: t.takeWhile (! isDelim blanks ·) := rfl
    have hdrop : (36 :: t).dropWhile (! isDelim blanks ·) = t.dropWhile (! isDelim blanks ·) := rfl
    rw [xstrtok, List.length_cons, strtokAll, strtokExt,
      List.dropWhile_cons_of_neg (Bool.eq_false_iff.mp hdelim)]
    dsimp only
    rw [if_neg (by simpa using hquote), htake, hdrop]
    cases t.dropWhile (! isDelim blanks ·) with
    | nil => exact ⟨t, rfl⟩
    | cons e rest => exact ⟨t.takeWhile (! isDelim blanks ·), rfl⟩
  obtain ⟨w, hw⟩ := hword
  refine ⟨w.take (MAXPATH - 3), ?_⟩
  rw [dbcWord, ht, Option.bind_some, hw]
  rfl

/-- The text of an entry names no node: what is parsed is the mode. -/
theorem hubNode_text (h : HubState) {c : UInt8} (hc : isDigit c = true) (s : Str) :
    hubNode h (c :: 36 :: s) = none := by
  have key : ∀ c : UInt8, isDigit c = true → isDelim (lit " $") c = false ∧ c ≠ dquote ∧
      (znfpParsePartial [c]).isNone = false := forall_byte (by decide +kernel)
  obtain ⟨hdelim, hquote, hparse⟩ := key c hc
  have htake : (36 :: s).takeWhile (! isDelim (lit " $") ·) = [] := rfl
  have hbehind : (36 :: s).dropWhile (! isDelim (lit " $") ·) = 36 :: s := rfl
  have hdrop : (c :: 36 :: s).dropWhile (isDelim (lit " $")) = c :: 36 :: s :=
    List.dropWhile_cons_of_neg (Bool.eq_false_iff.mp hdelim)
  have htok : strtokExt true (lit " $") (c :: 36 :: s) =
      some ([c], some (s.dropWhile (isDelim (lit " $")))) := by
    rw [strtokExt, hdrop]
    dsimp only
    rw [if_neg (by simpa using hquote), hbehind, htake]
  have hcut : strtokCut (lit " $") (c :: 36 :: s) = [c] := by
    rw [strtokCut, hdrop]
    dsimp only
    rw [if_neg (by simpa using hquote), List.takeWhile_cons_of_neg (Bool.eq_false_iff.mp hdelim),
      htake]
    rfl
  rw [hubNode, htok, hcut]
  dsimp only
  rw [hparse]
  rfl

theorem HubRecord.text_digit (r : HubRecord) :
    ∃ c, isDigit c = true ∧ r.text = c :: 36 :: znfp1 r.hub := by
  have hmode : ∀ m : NlMode, ∃ c, isDigit c = true ∧ putDec m.num = [c] := by
    intro m
    cases m <;> exact ⟨_, rfl, rfl⟩
  obtain ⟨c, hc, hput⟩ := hmode r.entry.mode
  refine ⟨c, hc, ?_⟩
  rw [HubRecord.text, hput]
  rfl

/-! ## Hub routing -/

/-- The look-up finds an entry, if there is one and the data base is open, and
no node in it. -/
theorem hubFetch_hubDb (nl : List Nodelist) (h : HubState) (dst : Node) :
    hubFetch h (hubDb nl) dst =
      if h.opened && (hubrouteWrite nl).any (·.key == znfp1 dst) then some none else none := by
  rw [hubFetch]
  cases hopen : h.opened with
  | false => rfl
  | true =>
      rw [if_pos rfl, hiFetch, hiFetchKey, if_neg one_ne_zero, Option.bind_some, hubDb,
        Bool.true_and, ← List.isSome_find?]
      cases hfind : (hubrouteWrite nl).find? (·.key == znfp1 dst) with
      | none => rfl
      | some r =>
          obtain ⟨c, hc, htext⟩ := r.text_digit
          obtain ⟨t, ht⟩ := dbcWord_digit hc (znfp1 r.hub ++ [lf])
          rw [Option.map_some, htext, List.cons_append, List.cons_append]
          dsimp only
          rw [ht, Option.map_some]
          dsimp only
          rw [hubNode_text h hc]
          rfl

/-- What HUBROUTE does with a packet it is for: the destination stays. -/
theorem doCmdMkroute_hubroute {nl : List Nodelist} {h : HubState} {r : MkRoute} {desc : RouteDesc}
    (hcmd : r.cmd = .hubroute) (hn : desc.dst.Fits) :
    doCmdMkroute (hubFetch h (hubDb nl)) desc r =
      if r.links.any (nodeMatch desc.dst) &&
          (h.opened && (hubrouteWrite nl).any (·.key == znfp1 desc.dst)) then
        ({ desc with moveOnly := false }, true)
      else (desc, false) := by
  have hzero := zeroWild_of_given (Node.given_of_nonneg hn.zone hn.net hn.node hn.point)
  rw [doCmdMkroute, hcmd, hubFetch_hubDb]
  dsimp only
  cases r.links.any (nodeMatch desc.dst) with
  | false => simp [hzero]
  | true =>
      cases h.opened && (hubrouteWrite nl).any (·.key == znfp1 desc.dst) with
      | false => simp [hzero]
      | true => simp [hzero]

/-- The entry of a destination is found if and only if the data base is open and
the address is printed without point and domain. -/
theorem any_key_iff {nl : List Nodelist} {dst hub : Node} (hn : dst.Fits)
    (hrec : recordedHub nl dst = some hub) :
    (hubrouteWrite nl).any (·.key == znfp1 dst) = true ↔ znfp1 dst = znfp1 dst.system := by
  constructor
  · intro h
    obtain ⟨r, -, hr⟩ := List.any_eq_true.mp h
    exact r.key_eq hn (beq_iff_eq.mp hr)
  · intro h
    obtain ⟨r, hr, -⟩ := Option.map_eq_some_iff.mp hrec
    rw [h, ← List.isSome_find?, hr]
    rfl

/-- Nothing is found for a destination that is not in the table. -/
theorem any_key_none {nl : List Nodelist} {dst : Node} (hn : dst.Fits)
    (hrec : recordedHub nl dst = none) :
    (hubrouteWrite nl).any (·.key == znfp1 dst) = false := by
  rw [List.any_eq_false]
  intro r hr hkey
  have hsystem := r.key_eq hn (beq_iff_eq.mp hkey)
  rw [hsystem] at hkey
  exact List.find?_eq_none.mp (Option.map_eq_none_iff.mp hrec) r hr hkey

/-- HUBROUTE does what is expected of it if and only if its condition holds. -/
theorem hubRouted_iff {nl : List Nodelist} {h : HubState} {r : MkRoute} {desc : RouteDesc}
    (hcmd : r.cmd = .hubroute) (hn : desc.dst.Fits) :
    HubRouted nl r desc (doCmdMkroute (hubFetch h (hubDb nl)) desc r) ↔
      HubrouteOk nl h r desc.dst := by
  rw [doCmdMkroute_hubroute hcmd hn, HubRouted, HubrouteOk]
  cases hlink : r.links.any (nodeMatch desc.dst) with
  | false => simp
  | true =>
      rw [if_pos rfl, Bool.true_and]
      cases hrec : recordedHub nl desc.dst with
      | none =>
          rw [any_key_none hn hrec]
          simp
      | some hub =>
          have hfound := any_key_iff hn hrec
          rw [Bool.and_comm]
          by_cases hany : (hubrouteWrite nl).any (·.key == znfp1 desc.dst) = true
          · have hsystem := hfound.mp hany
            rw [hany]
            cases hopen : h.opened with
            | false => simp
            | true => simpa using fun _ => hsystem
          · have hsystem : ¬ znfp1 desc.dst = znfp1 desc.dst.system := fun h => hany (hfound.mpr h)
            rw [Bool.eq_false_iff.mpr hany]
            simp [hsystem]

/-- A host and a node of its net. -/
def hostAndNode : List Nodelist :=
  [⟨2, 5020, 0, .host, by decide, by decide, by decide⟩,
    ⟨2, 5020, 9, .normal, by decide, by decide, by decide⟩]

/-- A netmail packet to a node. -/
def packetTo (dst : Node) : RouteDesc :=
  ⟨⟨2, 5020, 7, 0, []⟩, dst, FLAV_NONE, TYPE_NETMAIL, FLAV_NORMAL, false⟩

/-- A packet to the host is its hub's. -/
theorem hubRouted_host :
    let nl := hostAndNode
    let h : HubState := ⟨true, 0, nodeClear⟩
    let r : MkRoute := ⟨nodeClear, [⟨2, 5020, 0, 0, []⟩], .hubroute, FLAV_NORMAL⟩
    let desc := packetTo ⟨2, 5020, 0, 0, []⟩
    HubRouted nl r desc (doCmdMkroute (hubFetch h (hubDb nl)) desc r) := by
  refine (hubRouted_iff rfl (by decide)).mpr ?_
  intro _ hub hhub
  have hrec : recordedHub hostAndNode ⟨2, 5020, 0, 0, []⟩ = some ⟨2, 5020, 0, 0, []⟩ := by
    decide +kernel
  rw [show hub = _ from Option.some.inj (hhub.symm.trans hrec)]
  decide +kernel

/-- A packet to another node of the net is not sent to the host. -/
theorem doCmdMkroute_hub :
    let nl := hostAndNode
    let h : HubState := ⟨true, 0, nodeClear⟩
    let r : MkRoute := ⟨nodeClear, [⟨2, 5020, 9, 0, []⟩], .hubroute, FLAV_NORMAL⟩
    let desc := packetTo ⟨2, 5020, 9, 0, []⟩
    recordedHub nl desc.dst = some ⟨2, 5020, 0, 0, []⟩ ∧
      doCmdMkroute (hubFetch h (hubDb nl)) desc r = (desc, true) ∧
      ¬ HubRouted nl r desc (doCmdMkroute (hubFetch h (hubDb nl)) desc r) := by
  have hrec : recordedHub hostAndNode ⟨2, 5020, 9, 0, []⟩ = some ⟨2, 5020, 0, 0, []⟩ := by
    decide +kernel
  have hfetch : hubFetch ⟨true, 0, nodeClear⟩ (hubDb hostAndNode) ⟨2, 5020, 9, 0, []⟩ =
      some none := by
    decide +kernel
  have hres : doCmdMkroute (hubFetch ⟨true, 0, nodeClear⟩ (hubDb hostAndNode))
      (packetTo ⟨2, 5020, 9, 0, []⟩)
      ⟨nodeClear, [⟨2, 5020, 9, 0, []⟩], .hubroute, FLAV_NORMAL⟩ =
      (packetTo ⟨2, 5020, 9, 0, []⟩, true) := by
    rw [doCmdMkroute]
    dsimp only [packetTo]
    rw [hfetch]
    rfl
  refine ⟨hrec, hres, ?_⟩
  rw [hres, HubRouted, if_pos (by decide)]
  dsimp only [packetTo]
  rw [hrec]
  decide

end Fidogate

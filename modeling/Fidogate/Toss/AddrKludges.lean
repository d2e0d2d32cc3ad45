/-
# `Fidogate.Toss.AddrKludges` — kludge.c: the addresses of a netmail at the next hop

`kludge_pt_intl` takes the addresses of a netmail from its first INTL, FMPT
and TOPT kludge and deletes these three; `pkt_put_msg_hdr` writes kludges of
its own in front of those left.  For a point of 0 it writes none, so that a
second FMPT or TOPT that was overruled here counts at the next hop
(`kludgePtIntl_again`).
-/
import Fidogate.Toss.Netmail
import Fidogate.Common.NodePrint

namespace Fidogate

open Bytes

/-! ## The kludges of a name -/

def kludgesOf (name : Str) (tl : List Str) : List Str := tl.filter (isKludge name)

theorem kludgeGetValue_eq (tl : List Str) (name : Str) :
    kludgeGetValue tl name = (kludgesOf name tl).head?.map (kludgeValue name) := by
  rw [kludgeGetValue, kludgeGet, kludgesOf, List.head?_filter]

/-- Names that start with other letters. -/
def NamesApart (name name' : Str) : Prop :=
  ∃ c c', name.head? = some c ∧ name'.head? = some c' ∧ toLower c ≠ toLower c'

/-- A line is a kludge of one name at most. -/
theorem isKludge_apart {name name' x : Str} (hne : NamesApart name name')
    (h : isKludge name x = true) :
    isKludge name' x = false := by
  have hhead : ∀ {n : Str} {c : UInt8}, n.head? = some c → isKludge n x = true →
      x.tail.head?.map toLower = some (toLower c) := by
    intro n c hn hk
    simp only [isKludge, Bool.and_eq_true, hasPrefixI, List.isPrefixOf_iff_prefix] at hk
    obtain ⟨t, ht⟩ := hk.1.2
    cases n with
    | nil => cases hn
    | cons d n =>
        rw [← Option.some.inj hn, ← List.head?_map, ← ht]
        rfl
  obtain ⟨c, c', hc, hc', hcc⟩ := hne
  rw [Bool.eq_false_iff]
  intro h'
  exact hcc (Option.some.inj ((hhead hc h).symm.trans (hhead hc' h')))

theorem apart_intl_fmpt : NamesApart (lit "INTL") (lit "FMPT") := ⟨73, 70, rfl, rfl, by decide⟩

theorem apart_intl_topt : NamesApart (lit "INTL") (lit "TOPT") := ⟨73, 84, rfl, rfl, by decide⟩

theorem apart_fmpt_topt : NamesApart (lit "FMPT") (lit "TOPT") := ⟨70, 84, rfl, rfl, by decide⟩

theorem apart_topt_fmpt : NamesApart (lit "TOPT") (lit "FMPT") := ⟨84, 70, rfl, rfl, by decide⟩

theorem kludgesOf_delete (name : Str) (tl : List Str) :
    kludgesOf name (kludgeDelete tl name) = (kludgesOf name tl).tail := by
  unfold kludgesOf kludgeDelete
  induction tl with
  | nil => rfl
  | cons x tl ih =>
      cases h : isKludge name x with
      | true => rw [List.eraseP_cons_of_pos h, List.filter_cons_of_pos h, List.tail_cons]
      | false =>
          have hneg : ¬ isKludge name x = true := Bool.eq_false_iff.mp h
          rw [List.eraseP_cons_of_neg hneg, List.filter_cons_of_neg hneg,
            List.filter_cons_of_neg hneg, ih]

theorem kludgesOf_delete_apart {name name' : Str} (hne : NamesApart name name') (tl : List Str) :
    kludgesOf name' (kludgeDelete tl name) = kludgesOf name' tl := by
  unfold kludgesOf kludgeDelete
  induction tl with
  | nil => rfl
  | cons x tl ih =>
      cases h : isKludge name x with
      | true =>
          have hneg : ¬ isKludge name' x = true := Bool.eq_false_iff.mp (isKludge_apart hne h)
          rw [List.eraseP_cons_of_pos h, List.filter_cons_of_neg hneg]
      | false =>
          rw [List.eraseP_cons_of_neg (Bool.eq_false_iff.mp h), List.filter_cons, List.filter_cons,
            ih]

/-- What `kludge_pt_intl` leaves of the kludges. -/
def kludgesLeft (tl : List Str) : List Str :=
  (kludgePtIntlBody { MsgBody.clear with kludge := tl }).kludge

theorem mem_kludgesLeft {tl : List Str} {x : Str} (h : x ∈ kludgesLeft tl) : x ∈ tl :=
  (kludgePtIntlBody_kludge _).subset h

section

variable (tl : List Str)

theorem kludgesOf_fmpt :
    kludgesOf (lit "FMPT") (kludgeDelete tl (lit "INTL")) = kludgesOf (lit "FMPT") tl :=
  kludgesOf_delete_apart apart_intl_fmpt tl

theorem kludgesOf_topt :
    kludgesOf (lit "TOPT") (kludgeDelete (kludgeDelete tl (lit "INTL")) (lit "FMPT")) =
      kludgesOf (lit "TOPT") tl :=
  (kludgesOf_delete_apart apart_fmpt_topt _).trans (kludgesOf_delete_apart apart_intl_topt tl)

theorem kludgesOf_fmpt_left :
    kludgesOf (lit "FMPT") (kludgesLeft tl) = (kludgesOf (lit "FMPT") tl).tail := by
  have h := kludgesOf_delete_apart apart_topt_fmpt
    (kludgeDelete (kludgeDelete tl (lit "INTL")) (lit "FMPT"))
  rw [kludgesOf_delete, kludgesOf_fmpt] at h
  exact h

theorem kludgesOf_topt_left :
    kludgesOf (lit "TOPT") (kludgesLeft tl) = (kludgesOf (lit "TOPT") tl).tail := by
  have h := kludgesOf_delete (lit "TOPT") (kludgeDelete (kludgeDelete tl (lit "INTL")) (lit "FMPT"))
  rw [kludgesOf_topt] at h
  exact h

/-- The number of the first kludge of a name. -/
def kludgePoint (name : Str) : Option Int := (kludgesOf name tl).head?.map (atoi ∘ kludgeValue name)

/-- The address an INTL kludge gives at place `i`. -/
def intlNode (zone : Int) (i : Nat) : Option Node :=
  (((kludgeGetValue tl (lit "INTL")).map (strtok lineBlanks)).getD [])[i]?.bind
    (ascToNode false zone)

/-- The deletions do not come in the way of one another. -/
theorem kludgePtIntlMsg_eq (zone : Int) (msg : Message) :
    kludgePtIntlMsg zone tl msg =
      { msg with
        nodeFrom := { (intlNode tl zone 1).getD msg.nodeFrom with
          point := (kludgePoint tl (lit "FMPT")).getD ((intlNode tl zone 1).getD msg.nodeFrom).point }
        nodeTo := { (intlNode tl zone 0).getD msg.nodeTo with
          point := (kludgePoint tl (lit "TOPT")).getD ((intlNode tl zone 0).getD msg.nodeTo).point } } := by
  unfold kludgePtIntlMsg kludgePoint
  dsimp only
  rw [kludgeGetValue_eq _ (lit "FMPT"), kludgesOf_fmpt, kludgeGetValue_eq _ (lit "TOPT"),
    kludgesOf_topt, Option.map_map, Option.map_map]
  rfl

end

/-! ## What is written -/

/-- The address in the INTL kludge. -/
def Node.noPoint (n : Node) : Node := { n with point := 0, domain := [] }

theorem Node.Full.noPoint {n : Node} (h : n.Full) : n.noPoint.Fits :=
  ⟨⟨h.net, h.node, Int.le_refl 0, h.net_int, h.node_int, (by decide : (0 : Int) < 2 ^ 31)⟩,
    h.zone, h.zone_int,
    fun _ hc => nomatch hc⟩

theorem kludgeValue_blank {name v : Str} (hv : v.head?.any isSpace = false) :
    kludgeValue name (soh :: name ++ sp :: v) = v := by
  have hdrop : (soh :: name ++ sp :: v).drop (name.length + 1) = sp :: v := by
    rw [List.cons_append, List.drop_succ_cons, List.drop_left]
  unfold kludgeValue
  dsimp only
  rw [hdrop, if_neg (fun h => by cases h), List.dropWhile_cons_of_pos (by decide)]
  cases v with
  | nil => rfl
  | cons c v =>
      rw [List.head?_cons, Option.any_some] at hv
      exact List.dropWhile_cons_of_neg (by rw [hv]; decide)

theorem isKludge_blank (name v : Str) : isKludge name (soh :: name ++ sp :: v) = true := by
  have hpre : hasPrefixI name (name ++ sp :: v) = true := by
    rw [hasPrefixI, List.map_append]
    exact List.isPrefixOf_iff_prefix.mpr (List.prefix_append _ _)
  have hget : (soh :: name ++ sp :: v)[name.length + 1]? = some sp := by
    rw [List.cons_append, List.getElem?_cons_succ, List.getElem?_append_right (Nat.le_refl _),
      Nat.sub_self]
    rfl
  rw [isKludge, hget]
  show ((some soh == some soh) && hasPrefixI name (name ++ sp :: v) &&
    (some sp == some sp || _)) = true
  rw [hpre]
  rfl

theorem kludgePoint_cons {name : Str} {point : Int} (h : 0 ≤ point) (tl : List Str) :
    kludgePoint ((soh :: name ++ sp :: (putInt point ++ [cr])) :: tl) name = some point := by
  have hhead : (putInt point ++ [cr]).head?.any isSpace = false := by
    rw [putInt_of_nonneg h]
    obtain ⟨c, s, hcs, hd⟩ := putDec_eq_cons point.toNat
    rw [hcs]
    have key : ∀ c : UInt8, isDigit c = true → isSpace c = false := forall_byte (by decide +kernel)
    exact key c hd
  rw [kludgePoint, kludgesOf, List.filter_cons_of_pos (isKludge_blank _ _), List.head?_cons,
    Option.map_some, Function.comp_apply, kludgeValue_blank hhead,
    atoi_putInt_append h (fun c hc => by cases hc; rfl)]

theorem kludgePoint_cons_apart {name name' : Str} (hne : NamesApart name name') (v : Str)
    (tl : List Str) :
    kludgePoint ((soh :: name ++ sp :: v) :: tl) name' = kludgePoint tl name' := by
  have hneg : ¬ isKludge name' (soh :: name ++ sp :: v) = true :=
    Bool.eq_false_iff.mp (isKludge_apart hne (isKludge_blank name v))
  rw [kludgePoint, kludgesOf, List.filter_cons_of_neg hneg]
  rfl

section

variable {msg : Message} (ha : msg.area = none)

include ha

theorem addrKludges_netmail : addrKludges msg =
    (soh :: lit "INTL" ++ sp :: (znf1 msg.nodeTo.noPoint ++ sp :: (znf1 msg.nodeFrom.noPoint ++
      [cr]))) ::
    ((if 0 < msg.nodeFrom.point then [soh :: lit "FMPT" ++ sp :: (putInt msg.nodeFrom.point ++ [cr])]
      else []) ++
    if 0 < msg.nodeTo.point then [soh :: lit "TOPT" ++ sp :: (putInt msg.nodeTo.point ++ [cr])]
      else []) := by
  have h1 : lit "INTL " = lit "INTL" ++ [sp] := by decide
  have h2 : lit "FMPT " = lit "FMPT" ++ [sp] := by decide
  have h3 : lit "TOPT " = lit "TOPT" ++ [sp] := by decide
  have h4 : lit " " = [sp] := by decide
  rw [addrKludges, ha, h1, h2, h3, h4]
  simp only [List.append_assoc, List.cons_append]
  rfl

/-- The INTL kludge that was written is the first, and both its addresses are
read. -/
theorem intlNode_addrKludges (hfrom : msg.nodeFrom.Full) (hto : msg.nodeTo.Full) (tl : List Str)
    (zone : Int) : ∃ d d', intlNode (addrKludges msg ++ tl) zone 0 =
        some (msg.nodeTo.noPoint.withDomain d) ∧
      intlNode (addrKludges msg ++ tl) zone 1 = some (msg.nodeFrom.noPoint.withDomain d') := by
  obtain ⟨d, hd⟩ := ascToNode_znf1 hto.noPoint zone
  obtain ⟨d', hd'⟩ := ascToNode_znf1 hfrom.noPoint zone
  have hbto := fun c hc => (znf1_bytes hto.noPoint c hc).1
  have hbfrom := fun c hc => (znf1_bytes hfrom.noPoint c hc).1
  have hneto := znf1_ne_nil hto.noPoint
  have hnefrom := znf1_ne_nil hfrom.noPoint
  have hwords : words false lineBlanks (znf1 msg.nodeTo.noPoint ++ sp ::
      (znf1 msg.nodeFrom.noPoint ++ [cr])) = [znf1 msg.nodeTo.noPoint, znf1 msg.nodeFrom.noPoint] := by
    rw [words_append (isWord_lineBlanks hneto hbto) (by decide),
      words_append (isWord_lineBlanks hnefrom hbfrom) (by decide), words_nil]
  have hhead : (znf1 msg.nodeTo.noPoint ++ sp :: (znf1 msg.nodeFrom.noPoint ++ [cr])).head?.any
      isSpace = false := by
    cases h : znf1 msg.nodeTo.noPoint with
    | nil => exact absurd h hneto
    | cons c s => exact hbto c (h ▸ List.mem_cons_self)
  have hval : kludgeGetValue (addrKludges msg ++ tl) (lit "INTL") = some (znf1 msg.nodeTo.noPoint ++
      sp :: (znf1 msg.nodeFrom.noPoint ++ [cr])) := by
    rw [kludgeGetValue_eq, addrKludges_netmail ha, List.cons_append, kludgesOf,
      List.filter_cons_of_pos (isKludge_blank _ _), List.head?_cons, Option.map_some,
      kludgeValue_blank hhead]
  refine ⟨d, d', ?_, ?_⟩
  · rw [intlNode, hval]
    change ((words false lineBlanks _)[0]?).bind _ = _
    rw [hwords]
    exact hd
  · rw [intlNode, hval]
    change ((words false lineBlanks _)[1]?).bind _ = _
    rw [hwords]
    exact hd'

theorem kludgePoint_fmpt (hfrom : msg.nodeFrom.Full) (tl : List Str) :
    kludgePoint (addrKludges msg ++ tl) (lit "FMPT") =
      if 0 < msg.nodeFrom.point then some msg.nodeFrom.point else kludgePoint tl (lit "FMPT") := by
  rw [addrKludges_netmail ha, List.cons_append,
    kludgePoint_cons_apart apart_intl_fmpt, List.append_assoc]
  split
  · exact kludgePoint_cons hfrom.point _
  · rw [List.nil_append]
    split
    · exact kludgePoint_cons_apart apart_topt_fmpt _ tl
    · rfl

theorem kludgePoint_topt (hto : msg.nodeTo.Full) (tl : List Str) :
    kludgePoint (addrKludges msg ++ tl) (lit "TOPT") =
      if 0 < msg.nodeTo.point then some msg.nodeTo.point else kludgePoint tl (lit "TOPT") := by
  have hback : ∀ tl', kludgePoint ((if 0 < msg.nodeFrom.point then
      [soh :: lit "FMPT" ++ sp :: (putInt msg.nodeFrom.point ++ [cr])] else []) ++ tl')
        (lit "TOPT") = kludgePoint tl' (lit "TOPT") := by
    intro tl'
    split
    · exact kludgePoint_cons_apart apart_fmpt_topt _ tl'
    · rfl
  rw [addrKludges_netmail ha, List.cons_append,
    kludgePoint_cons_apart apart_intl_topt, List.append_assoc, hback]
  split
  · exact kludgePoint_cons hto.point _
  · rfl

end

/-! ## The next hop -/

/-- The addresses are the same, zone:net/node.point. -/
def SameAddrs (msg msg' : Message) : Prop :=
  nodeEq msg'.nodeFrom msg.nodeFrom = true ∧ nodeEq msg'.nodeTo msg.nodeTo = true

instance (msg msg' : Message) : Decidable (SameAddrs msg msg') :=
  inferInstanceAs (Decidable (_ ∧ _))

/-- There are two kludges of the name, and the first one says 0, which the
second does not. -/
def Overruled (name : Str) (tl : List Str) : Prop :=
  ∃ f g ls, kludgesOf name tl = f :: g :: ls ∧ atoi (kludgeValue name f) = 0 ∧
    atoi (kludgeValue name g) ≠ 0

/-- The point is read as it was written, unless an overruled kludge is left. -/
theorem getD_point_iff {name : Str} {tl left : List Str} {point old : Int} (h0 : 0 ≤ point)
    (hpoint : (kludgePoint tl name).getD old = point)
    (hleft : kludgesOf name left = (kludgesOf name tl).tail) :
    ((if 0 < point then some point else kludgePoint left name).getD 0 = point) ↔
      ¬ Overruled name tl := by
  have hover : Overruled name tl ↔ point = 0 ∧ (kludgePoint left name).getD 0 ≠ 0 := by
    unfold Overruled
    unfold kludgePoint at hpoint ⊢
    rw [hleft]
    constructor
    · rintro ⟨f, g, ls, htl, hf, hg⟩
      rw [htl] at hpoint ⊢
      exact ⟨hpoint.symm.trans hf, hg⟩
    · rintro ⟨hp, hg⟩
      cases htl : kludgesOf name tl with
      | nil =>
          rw [htl] at hg
          exact absurd rfl hg
      | cons f ls =>
          cases ls with
          | nil =>
              rw [htl] at hg
              exact absurd rfl hg
          | cons g ls =>
              rw [htl] at hg hpoint
              exact ⟨f, g, ls, rfl, hpoint.trans hp, hg⟩
  rw [hover]
  split
  · next hpos =>
      refine ⟨fun _ hn => ?_, fun _ => rfl⟩
      omega
  · next hpos =>
      have hzero : point = 0 := by omega
      rw [hzero]
      simp

/-- The addresses `kludge_pt_intl` took from the kludges are the ones it takes
from those written and those left. -/
theorem kludgePtIntlMsg_again {zone zone' : Int} {tl : List Str} {msg msg' : Message}
    (ha : msg.area = none) (hfrom : (kludgePtIntlMsg zone tl msg).nodeFrom.Full)
    (hto : (kludgePtIntlMsg zone tl msg).nodeTo.Full) :
    SameAddrs (kludgePtIntlMsg zone tl msg) (kludgePtIntlMsg zone'
        (addrKludges (kludgePtIntlMsg zone tl msg) ++ kludgesLeft tl) msg') ↔
      ¬ Overruled (lit "FMPT") tl ∧ ¬ Overruled (lit "TOPT") tl := by
  have heq := kludgePtIntlMsg_eq tl zone msg
  obtain ⟨m, hm⟩ : ∃ m, m = kludgePtIntlMsg zone tl msg := ⟨_, rfl⟩
  rw [← hm] at hfrom hto heq ⊢
  have ha : m.area = none := by rw [heq]; exact ha
  obtain ⟨old, hpf⟩ : ∃ old, (kludgePoint tl (lit "FMPT")).getD old = m.nodeFrom.point :=
    ⟨((intlNode tl zone 1).getD msg.nodeFrom).point, by rw [heq]⟩
  obtain ⟨old', hpt⟩ : ∃ old', (kludgePoint tl (lit "TOPT")).getD old' = m.nodeTo.point :=
    ⟨((intlNode tl zone 0).getD msg.nodeTo).point, by rw [heq]⟩
  obtain ⟨d, d', hdst, hsrc⟩ := intlNode_addrKludges ha hfrom hto (kludgesLeft tl) zone'
  rw [kludgePtIntlMsg_eq, hdst, hsrc, kludgePoint_fmpt ha hfrom, kludgePoint_topt ha hto,
    ← getD_point_iff hfrom.point hpf (kludgesOf_fmpt_left tl),
    ← getD_point_iff hto.point hpt (kludgesOf_topt_left tl)]
  simp only [SameAddrs, nodeEq, Node.withDomain, Node.noPoint, Option.getD_some, BEq.rfl,
    Bool.true_and, beq_iff_eq]
  rfl

/-- The parser finds the kludges in front of the first line that is none. -/
theorem parseLines_kludge {k ls : List Str} (hne : k ≠ []) (hk : ∀ x ∈ k, isKludgeLine x = true)
    (hls : ∀ x ∈ ls.head?, isHeadLine none x = false) :
    ∃ st, parseLines .init (k ++ ls) = some st ∧ st.ret = OK ∧ st.msg.kludge = k ∧
      st.msg.area = none := by
  obtain ⟨bs, rs, rest, n, flag, -, -, -, -, -, hp⟩ := parseLines_afterHead (k := k) hls
  have hrun := @bodyRun_front false (front k none n flag rs) rest
  refine ⟨_, ?_, hrun.ret, hrun.kludge, hrun.area⟩
  cases k with
  | nil => exact absurd rfl hne
  | cons x k =>
      have h1 : parseLine .init x = some (front [x] none 3 .hiKludge []) := by
        unfold parseLine
        simp only [ParseState.init, hk x List.mem_cons_self, if_true]
        rfl
      rw [List.cons_append, parseLines, h1]
      exact (parseLines_kludges k [x] fun y hy => hk y (List.mem_cons_of_mem _ hy)).trans hp

/-- The kludges written and the kludges left are the kludges of the next hop. -/
theorem pktGetBodyParse_again {zone : Int} {tl ls : List Str} {msg : Message}
    (ha : msg.area = none) (hfrom : (kludgePtIntlMsg zone tl msg).nodeFrom.Full)
    (hto : (kludgePtIntlMsg zone tl msg).nodeTo.Full) (htl : ∀ x ∈ tl, isKludgeLine x = true)
    (hgood : ∀ x ∈ tl ++ ls, GoodLine x) (hls : ∀ x ∈ ls.head?, isHeadLine none x = false)
    {t : LineType} (ht : t = .msgType ∨ t = .msgEnd) (dst : Node) (b rest : Str) :
    ∃ r, pktGetBodyParse dst b ((addrKludges (kludgePtIntlMsg zone tl msg)).flatten ++
        (kludgesLeft tl).flatten ++ ls.flatten ++ nul :: endByte t :: nul :: rest) = r ∧
      r.code = OK ∧ r.msg.area = none ∧
      r.msg.kludge = addrKludges (kludgePtIntlMsg zone tl msg) ++ kludgesLeft tl := by
  obtain ⟨m, hm⟩ : ∃ m, m = kludgePtIntlMsg zone tl msg := ⟨_, rfl⟩
  have harea : m.area = none := by
    rw [hm, kludgePtIntlMsg_eq]
    exact ha
  rw [← hm] at hfrom hto ⊢
  have hk : ∀ x ∈ addrKludges m ++ kludgesLeft tl, isKludgeLine x = true := by
    intro x hx
    rcases List.mem_append.mp hx with hx | hx
    · exact isKludgeLine_addrKludges harea x hx
    · exact htl x (mem_kludgesLeft hx)
  have hlines : ∀ x ∈ addrKludges m ++ kludgesLeft tl ++ ls, GoodLine x := by
    intro x hx
    rcases List.mem_append.mp hx with hx | hx
    · rcases List.mem_append.mp hx with hx | hx
      · exact goodLine_addrKludges harea hfrom.point_int hto.point_int x hx
      · exact hgood x (List.mem_append_left _ (mem_kludgesLeft hx))
    · exact hgood x (List.mem_append_right _ hx)
  have hne : addrKludges m ++ kludgesLeft tl ≠ [] := by
    rw [addrKludges_netmail harea]
    exact List.cons_ne_nil _ _
  obtain ⟨st, hp, hret, hkl, hnet⟩ := parseLines_kludge hne hk hls
  obtain ⟨b', hget⟩ := pktGetBodyParse_lines ht dst b rest hlines hp
  have hsame : ∀ b'', missingLines dst b'' st.msg = st.msg := by
    intro b''
    rw [missingLines, hnet]
    rfl
  rw [List.flatten_append, List.flatten_append] at hget
  refine ⟨_, hget, hret, ?_, ?_⟩
  · show (missingLines dst _ st.msg).area = none
    rw [hsame]
    exact hnet
  · show (missingLines dst _ st.msg).kludge = _
    rw [hsame]
    exact hkl

/-- A netmail is written with its addresses and what was left of its kludges,
and the next hop reads it: it takes the same addresses from it if and only if
no kludge was overruled by one that says 0. -/
theorem kludgePtIntl_again {zone zone' : Int} {tl : List Str} {msg : Message}
    (ha : msg.area = none) (hfrom : (kludgePtIntlMsg zone tl msg).nodeFrom.Full)
    (hto : (kludgePtIntlMsg zone tl msg).nodeTo.Full) :
    (∀ msg', SameAddrs (kludgePtIntlMsg zone tl msg) (kludgePtIntlMsg zone'
        (addrKludges (kludgePtIntlMsg zone tl msg) ++ kludgesLeft tl) msg') ↔
      ¬ Overruled (lit "FMPT") tl ∧ ¬ Overruled (lit "TOPT") tl) ∧
    ∀ ls, (∀ x ∈ tl, isKludgeLine x = true) → (∀ x ∈ tl ++ ls, GoodLine x) →
      (∀ x ∈ ls.head?, isHeadLine none x = false) → ∀ t : LineType, t = .msgType ∨ t = .msgEnd →
      ∀ dst b rest, ∃ r, pktGetBodyParse dst b
          ((addrKludges (kludgePtIntlMsg zone tl msg)).flatten ++ (kludgesLeft tl).flatten ++
            ls.flatten ++ nul :: endByte t :: nul :: rest) = r ∧
        r.code = OK ∧ r.msg.area = none ∧
        r.msg.kludge = addrKludges (kludgePtIntlMsg zone tl msg) ++ kludgesLeft tl :=
  ⟨fun _ => kludgePtIntlMsg_again ha hfrom hto, fun _ htl hgood hls _ ht dst b rest =>
    pktGetBodyParse_again ha hfrom hto htl hgood hls ht dst b rest⟩

/-- The kludges of a netmail from a point, and one FMPT more. -/
def pointKludges (point : Str) : List Str :=
  [soh :: lit "INTL 2:5020/7 2:5020/9" ++ [cr], soh :: lit "FMPT " ++ point ++ [cr],
    soh :: lit "FMPT 5" ++ [cr]]

theorem kludgePtIntlMsg_point : kludgePtIntlMsg 2 (pointKludges (lit "3")) helloHeader =
    { helloHeader with nodeFrom := ⟨2, 5020, 9, 3, []⟩ } := by
  decide +kernel

theorem kludgePtIntlMsg_noPoint : kludgePtIntlMsg 2 (pointKludges (lit "0")) helloHeader =
    helloHeader := by
  decide +kernel

theorem kludgePtIntl_again_point :
    SameAddrs (kludgePtIntlMsg 2 (pointKludges (lit "3")) helloHeader) (kludgePtIntlMsg 2
      (addrKludges (kludgePtIntlMsg 2 (pointKludges (lit "3")) helloHeader) ++
        kludgesLeft (pointKludges (lit "3"))) helloHeader) := by
  refine ((kludgePtIntl_again rfl ?_ ?_).1 helloHeader).mpr ⟨?_, ?_⟩
  · rw [kludgePtIntlMsg_point]
    decide
  · rw [kludgePtIntlMsg_point]
    decide
  · rintro ⟨f, g, ls, h, hf, -⟩
    have hfirst : kludgePoint (pointKludges (lit "3")) (lit "FMPT") = some 3 := by decide +kernel
    rw [kludgePoint, h] at hfirst
    exact absurd (hf.symm.trans (Option.some.inj hfirst)) (by decide)
  · rintro ⟨f, g, ls, h, -⟩
    have hnone : kludgesOf (lit "TOPT") (pointKludges (lit "3")) = [] := by decide +kernel
    rw [hnone] at h
    cases h

/-- A second FMPT, overruled by one that says 0, counts at the next hop. -/
theorem kludgePtIntl_overruled :
    ¬ ∀ (zone zone' : Int) (tl : List Str) (msg msg' : Message), msg.area = none →
      (kludgePtIntlMsg zone tl msg).nodeFrom.Full → (kludgePtIntlMsg zone tl msg).nodeTo.Full →
      SameAddrs (kludgePtIntlMsg zone tl msg) (kludgePtIntlMsg zone'
        (addrKludges (kludgePtIntlMsg zone tl msg) ++ kludgesLeft tl) msg') := by
  intro h
  have hover : Overruled (lit "FMPT") (pointKludges (lit "0")) :=
    ⟨soh :: lit "FMPT 0" ++ [cr], soh :: lit "FMPT 5" ++ [cr], [], by decide +kernel,
      by decide +kernel, by decide +kernel⟩
  have hfull : (kludgePtIntlMsg 2 (pointKludges (lit "0")) helloHeader).nodeFrom.Full ∧
      (kludgePtIntlMsg 2 (pointKludges (lit "0")) helloHeader).nodeTo.Full := by
    rw [kludgePtIntlMsg_noPoint]
    decide
  exact ((kludgePtIntlMsg_again rfl hfull.1 hfull.2).mp
    (h 2 2 _ helloHeader helloHeader rfl hfull.1 hfull.2)).1 hover

end Fidogate

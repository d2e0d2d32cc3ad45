/-
# `Fidogate.Toss.Netmail` — ftntoss.c: netmail and its Via trace

`do_netmail` writes a netmail on to its next hop.  What follows the fixed
fields of the message header is the text: the address kludges, the parts of
the body in the order of `msg_put_msgbody`, and the line of `add_via` behind
the Via lines.  The answer to a ping goes to a packet of its own and is not
modelled.

The line `add_via` makes starts with `Via`, not with ^A`Via` as the parser
has it and as the other programs write it, so no reader takes it for a Via
line (`doNetmail_not_traced`).
-/
import Fidogate.Packet.BodyParse
import Fidogate.Common.NodeText
import Fidogate.Toss.Echomail

namespace Fidogate

open Bytes
open scoped List

/-! ## The address kludges -/

/-- The value in a kludge line, as `kludge_from_tline` returns it. -/
def kludgeValue (name line : Str) : Str :=
  let s := line.drop (name.length + 1)
  (if s.head? == some 58 then s.tail else s).dropWhile isSpace

/-- `kludge_get`: the value. -/
def kludgeGetValue (tl : List Str) (name : Str) : Option Str :=
  (kludgeGet tl name).map (kludgeValue name)

/-- `tl_delete` of the line `kludge_get` found. -/
def kludgeDelete (tl : List Str) (name : Str) : List Str := tl.eraseP (isKludge name)

/-- `kludge_pt_intl` with `del` on: what it makes of the message. -/
def kludgePtIntlMsg (zone : Int) (tl : List Str) (msg : Message) : Message :=
  let words := ((kludgeGetValue tl (lit "INTL")).map (strtok [sp, tab, cr, lf])).getD []
  let fmpt := kludgeGetValue (kludgeDelete tl (lit "INTL")) (lit "FMPT")
  let topt := kludgeGetValue (kludgeDelete (kludgeDelete tl (lit "INTL")) (lit "FMPT")) (lit "TOPT")
  let dst := (words[0]?.bind (ascToNode false zone)).getD msg.nodeTo
  let src := (words[1]?.bind (ascToNode false zone)).getD msg.nodeFrom
  { msg with
    nodeFrom := { src with point := (fmpt.map atoi).getD src.point }
    nodeTo := { dst with point := (topt.map atoi).getD dst.point } }

/-- `kludge_pt_intl` with `del` on: what it makes of the body. -/
def kludgePtIntlBody (body : MsgBody) : MsgBody :=
  { body with kludge :=
      kludgeDelete (kludgeDelete (kludgeDelete body.kludge (lit "INTL")) (lit "FMPT")) (lit "TOPT") }

/-! ## REWRITE and REMAP -/

/-- `CMD_REWRITE`, `CMD_REWRITE_FROM`, `CMD_REWRITE_TO`. -/
inductive RewriteType
  | rewrite
  | rewriteFrom
  | rewriteTo
  deriving DecidableEq, Repr

/-- `Rewrite`. -/
structure Rewrite where
  type : RewriteType
  src : Node
  dst : Node
  name : Str
  deriving DecidableEq, Repr

/-- `Remap`: `CMD_REMAP_TO`, or else `CMD_REMAP_FROM`. -/
structure Remap where
  remapTo : Bool
  src : Node
  dst : Node
  name : Str
  deriving DecidableEq, Repr

/-- `change_addr`. -/
def changeAddr (node newpat : Node) : Node :=
  { node with
    zone := if newpat.zone != -1 then newpat.zone else node.zone
    net := if newpat.net != -1 then newpat.net else node.net
    node := if newpat.node != -1 then newpat.node else node.node
    point := if newpat.point != -1 then newpat.point else node.point }

/-- The rule is one for the sender of the message. -/
def Rewrite.fits (r : Rewrite) (msg : Message) : Bool :=
  (nodeMatch msg.nodeFrom r.src && (r.type == .rewrite ||
    r.type == .rewriteFrom && wildmatch msg.nameFrom r.name true)) ||
  (nodeMatch msg.nodeTo r.src && (r.type == .rewrite ||
    r.type == .rewriteTo && wildmatch msg.nameTo r.name true))

/-- `do_rewrite`: the first rule that fits changes the sender, also where it
fits for the addressee. -/
def doRewrite (rules : List Rewrite) (msg : Message) : Message :=
  match rules.find? (·.fits msg) with
  | none => msg
  | some r => { msg with nodeFrom := changeAddr msg.nodeFrom r.dst }

def Remap.fits (r : Remap) (msg : Message) : Bool :=
  if r.remapTo then nodeMatch msg.nodeTo r.src && wildmatch msg.nameTo r.name true
  else nodeMatch msg.nodeFrom r.src && wildmatch msg.nameFrom r.name true

/-- `do_remap`; `none` is a message to be killed. -/
def doRemap (rules : List Remap) (msg : Message) : Option Message :=
  match rules.find? (·.fits msg) with
  | none => some msg
  | some r =>
      let n := changeAddr msg.nodeTo r.dst
      if n.zone == 0 && n.net == 0 && n.node == 0 && n.point == 0 then none
      else some { msg with nodeTo := n }

/-! ## The Via line -/

def PROGRAM : Str := lit "ftntoss"

/-- The text `add_via` makes, without its CR. -/
def viaText (ftsVia : Bool) (ck : Clock) (gate : Node) : Str :=
  if ftsVia then
    lit "Via " ++ znf1 gate ++ lit " @" ++ dateVia ftsVia ck ++ lit " FIDOGATE/" ++ PROGRAM
  else lit "Via FIDOGATE/" ++ PROGRAM ++ znf1 gate ++ dateVia ftsVia ck

/-- `add_via`. -/
def addVia (ftsVia : Bool) (ck : Clock) (gate : Node) (list : List Str) : List Str :=
  list ++ [viaText ftsVia ck gate ++ [cr]]

/-! ## A netmail on its way -/

/-- `check_empty`. -/
def checkEmpty (body : MsgBody) : Bool :=
  body.rfc.isEmpty && body.tear.isNone && body.origin.isNone && body.seenby.isEmpty &&
    body.body.all fun l => l.isEmpty || l.head? == some cr

/-- What the run was started with, and what it meets: whether the packet can
be opened and written. -/
structure NetmailOptions where
  ftsVia : Bool
  ck : Clock
  killEmpty : Bool
  rewrites : List Rewrite
  remaps : List Remap
  opens : Bool
  writes : Bool

/-- What becomes of a netmail; `written` has the message header and the text
behind its fixed fields. -/
inductive NetmailResult
  | killed
  | error
  | written (msg : Message) (text : Str)
  deriving DecidableEq

/-- `do_netmail`. -/
def doNetmail (o : NetmailOptions) (cf : Config) (msg : Message) (body : MsgBody) :
    NetmailResult :=
  let isPing := strieq msg.nameTo (lit "ping")
  if ! isPing && o.killEmpty && checkEmpty body && isLocalAddr cf msg.nodeTo false then .killed
  else
    match doRemap o.remaps (doRewrite o.rewrites msg) with
    | none => .killed
    | some msg =>
        let cf := cfSetBest cf msg.nodeTo.zone msg.nodeTo.net msg.nodeTo.node
        if ! o.opens || ! o.writes then .error
        else
          .written msg ((addrKludges msg).flatten ++
            msgPutMsgbody { body with via := addVia o.ftsVia o.ck cf.curAddr body.via })

/-- The netmail branch of `unpack`. -/
def unpackNetmail (o : NetmailOptions) (cf : Config) (msg : Message) (body : MsgBody) :
    NetmailResult :=
  let msg := { msg with nodeFrom := { msg.nodeFrom with point := 0 }
                        nodeTo := { msg.nodeTo with point := 0 } }
  let msg := kludgePtIntlMsg cf.defzone body.kludge msg
  doNetmail o cf { msg with nodeOrig := msg.nodeFrom } (kludgePtIntlBody body)

/-! ## What is written is a list of lines -/

/-- No control characters. -/
def Plain (s : Str) : Prop := ∀ c ∈ s, 32 ≤ c

instance (s : Str) : Decidable (Plain s) :=
  decidable_of_iff (s.all (32 ≤ ·) = true) (by simp [Plain])

theorem Plain.append {s t : Str} (hs : Plain s) (ht : Plain t) : Plain (s ++ t) := by
  intro c hc
  rcases List.mem_append.mp hc with h | h
  · exact hs c h
  · exact ht c h

theorem plain_of_isDigit {c : UInt8} (h : isDigit c = true) : 32 ≤ c :=
  forall_byte (P := fun c => isDigit c = true → 32 ≤ c) (by decide +kernel) c h

theorem plain_putDec (n : Nat) : Plain (putDec n) :=
  fun _ hc => plain_of_isDigit (isDigit_of_mem_putDec hc)

theorem plain_putInt (n : Int) : Plain (putInt n) := by
  unfold putInt
  split
  · intro c hc
    rcases List.mem_cons.mp hc with rfl | hc
    · decide
    · exact plain_putDec _ c hc
  · exact plain_putDec _

theorem plain_replicate (n : Nat) {c : UInt8} (h : 32 ≤ c) : Plain (List.replicate n c) :=
  fun _ hd => (List.mem_replicate.mp hd).2 ▸ h

theorem plain_putIntZ (w : Nat) (n : Int) : Plain (putIntZ w n) := by
  unfold putIntZ
  split
  · intro c hc
    rcases List.mem_cons.mp hc with rfl | hc
    · decide
    · exact (plain_replicate _ (by decide)).append (plain_putDec _) c hc
  · exact (plain_replicate _ (by decide)).append (plain_putDec _)

theorem plain_putIntW (w : Nat) (n : Int) : Plain (putIntW w n) :=
  (plain_replicate _ (by decide)).append (plain_putInt n)

theorem plain_getD {ls : List Str} (h : ∀ s ∈ ls, Plain s) (i : Nat) : Plain (ls.getD i []) := by
  rw [List.getD_eq_getElem?_getD]
  cases hi : ls[i]? with
  | none => exact fun c hc => by cases hc
  | some s => exact h s (List.mem_of_getElem? hi)

theorem plain_weekdays (i : Nat) : Plain (weekdays.getD i []) :=
  plain_getD (by decide) i

theorem plain_months (i : Nat) : Plain (months.getD i []) :=
  plain_getD (by decide) i

theorem plain_znfpPutNumber (v : Int) (w : Bool) : Plain (znfpPutNumber v w) := by
  unfold znfpPutNumber
  split
  · decide
  · exact plain_putInt v

theorem Plain.cons {c : UInt8} {s : Str} (hc : 32 ≤ c) (hs : Plain s) : Plain (c :: s) := by
  intro d hd
  rcases List.mem_cons.mp hd with rfl | hd
  · exact hc
  · exact hs d hd

theorem plain_nil : Plain [] := fun _ hc => by cases hc

theorem plain_ite {p : Prop} [Decidable p] {s t : Str} (hs : Plain s) (ht : Plain t) :
    Plain (if p then s else t) := by
  split
  · exact hs
  · exact ht

theorem plain_utc : Plain (lit "UTC") := by decide

theorem plain_dateField {ck : Clock} (htz : ∀ tm, Plain (ck.tzName tm)) (tm : Tm) (tzone : Int)
    {c : UInt8} (hc : 32 ≤ c) : Plain (dateField ck tm tzone c) := by
  have hsign : (32 : UInt8) ≤ if 0 ≤ dateOff tzone then 43 else 45 := by
    split <;> decide
  have hx : Plain (months.getD tm.mon.toNat [] ++ sp :: putIntW 2 tm.mday ++
      sp :: putIntW 4 (tm.year + 1900)) :=
    ((plain_months _).append (.cons (by decide) (plain_putIntW _ _))).append
      (.cons (by decide) (plain_putIntW _ _))
  have hX : Plain (putIntZ 2 tm.hour ++ 58 :: putIntZ 2 tm.min ++ 58 :: putIntZ 2 tm.sec) :=
    ((plain_putIntZ _ _).append (.cons (by decide) (plain_putIntZ _ _))).append
      (.cons (by decide) (plain_putIntZ _ _))
  have hminus : Plain (if 0 ≤ dateOff tzone then [] else [45]) :=
    plain_ite plain_nil (.cons (by decide) plain_nil)
  unfold dateField
  dsimp only
  refine plain_ite (plain_weekdays _) (plain_ite (plain_months _) ?_)
  refine plain_ite (plain_putIntZ _ _) (plain_ite (plain_putIntZ _ _) ?_)
  refine plain_ite (plain_putIntZ _ _) (plain_ite (plain_putIntZ _ _) ?_)
  refine plain_ite plain_utc (plain_ite (plain_putIntZ _ _) ?_)
  refine plain_ite (plain_putIntZ _ _) (plain_ite (plain_putIntZ _ _) ?_)
  refine plain_ite (plain_putIntZ _ _) (plain_ite (plain_putInt _) ?_)
  refine plain_ite hx (plain_ite hX ?_)
  refine plain_ite (plain_putIntZ _ _) (plain_ite (plain_putIntW _ _) ?_)
  refine plain_ite (htz _) (plain_ite ?_ (plain_ite ?_ (.cons hc plain_nil)))
  · exact (hminus.append (plain_putIntZ _ _)).append (plain_putIntZ _ _)
  · exact (Plain.cons hsign (plain_putIntZ _ _)).append (plain_putIntZ _ _)

theorem plain_dateConv {ck : Clock} (htz : ∀ tm, Plain (ck.tzName tm)) (tm : Tm) (tzone : Int) :
    ∀ fmt : Str, Plain fmt → Plain (dateConv ck tm tzone fmt)
  | [], _ => plain_nil
  | [c], hf => plain_ite plain_nil hf
  | c :: c' :: fmt, hf => by
      have hc : 32 ≤ c := hf c List.mem_cons_self
      have hc' : 32 ≤ c' := hf c' (List.mem_cons_of_mem _ List.mem_cons_self)
      have h1 := plain_dateConv htz tm tzone fmt
        fun d hd => hf d (List.mem_cons_of_mem _ (List.mem_cons_of_mem _ hd))
      have h2 := plain_dateConv htz tm tzone (c' :: fmt) fun d hd => hf d (List.mem_cons_of_mem _ hd)
      rw [dateConv]
      exact plain_ite ((plain_dateField htz tm tzone hc').append h1) (.cons hc h2)

theorem plain_dateVia {ck : Clock} (htz : ∀ tm, Plain (ck.tzName tm)) (ftsVia : Bool) :
    Plain (dateVia ftsVia ck) := by
  have hf : Plain (DATE_VIA ftsVia) := by
    cases ftsVia
    · decide
    · decide
  exact fun c hc => plain_dateConv htz _ _ _ hf c (List.mem_of_mem_take hc)

/-- An address in print has nothing but its domain that is not plain. -/
theorem mem_znf1 {n : Node} {c : UInt8} (hc : c ∈ znf1 n) : 32 ≤ c ∨ c ∈ n.domain := by
  have hinv : Plain (lit "INVALID") := by decide
  have hstar : Plain (lit "*") := .cons (by decide) plain_nil
  have hcolon : Plain (lit ":") := .cons (by decide) plain_nil
  have hslash : Plain (lit "/") := .cons (by decide) plain_nil
  have hdot : Plain (lit ".") := .cons (by decide) plain_nil
  have hc := List.mem_of_mem_take hc
  unfold znfpPrint at hc
  split at hc
  · exact .inl (hinv c hc)
  split at hc
  · exact .inl (hstar c hc)
  rcases List.mem_append.mp hc with hc | hc
  · refine .inl (((Plain.append ?_ ?_).append ?_).append ?_ c hc)
    · exact plain_ite plain_nil ((plain_znfpPutNumber _ _).append hcolon)
    · exact plain_ite plain_nil
        ((plain_znfpPutNumber _ _).append (plain_ite plain_nil hslash))
    · exact plain_ite plain_nil (plain_znfpPutNumber _ _)
    · exact plain_ite plain_nil (hdot.append (plain_znfpPutNumber _ _))
  · split at hc
    · cases hc
    · rcases List.mem_append.mp hc with hc | hc
      · exact .inl (List.mem_singleton.mp hc ▸ by decide)
      · exact .inr hc

/-- A text without NUL, CR and a 0x02 at its end is one line. -/
theorem goodLine_text {t : Str} (h0 : nul ∉ t) (hcr : cr ∉ t) (hlf : t.head? ≠ some lf)
    (hstx : t.getLast? ≠ some stx) (hlen : t.length ≤ 32764) : GoodLine (t ++ [cr]) := by
  have hp : stxPaired t = true := by
    by_contra h
    obtain ⟨s, rfl, -⟩ := exists_of_not_stxPaired (Bool.not_eq_true _ ▸ h)
    exact hstx List.getLast?_concat
  refine ⟨⟨t, 0, h0, hcr⟩, rfl, ?_, hlf⟩
  rw [BodyLine.Kept, if_pos hp, BodyLine.length_bytes]
  exact Nat.succ_le_succ hlen

theorem goodLine_kludge {t : Str} (h : Plain t) (hlen : t.length ≤ 32763) :
    GoodLine (soh :: t ++ [cr]) := by
  have hne : ∀ {c : UInt8}, c < 32 → c ≠ soh → c ∉ soh :: t := by
    intro c hc h1 hm
    rcases List.mem_cons.mp hm with rfl | hm
    · exact h1 rfl
    · exact absurd (h c hm) (UInt8.not_le.mpr hc)
  refine goodLine_text (hne (by decide) (by decide)) (hne (by decide) (by decide))
    ?_ ?_ (Nat.succ_le_succ hlen)
  · intro e
    cases e
  intro e
  exact hne (c := stx) (by decide) (by decide) (List.mem_of_getLast? e)

theorem length_znf1 (n : Node) : (znf1 n).length ≤ 47 := by
  rw [znf1, List.length_take]
  exact Nat.min_le_left _ _

theorem isKludgeLine_addrKludges {msg : Message} (ha : msg.area = none) :
    ∀ x ∈ addrKludges msg, isKludgeLine x = true := by
  intro x hx
  rw [addrKludges, ha] at hx
  simp only [List.mem_append, List.mem_singleton] at hx
  rcases hx with (rfl | hx) | hx
  · rfl
  · split at hx
    · exact List.mem_singleton.mp hx ▸ rfl
    · cases hx
  · split at hx
    · exact List.mem_singleton.mp hx ▸ rfl
    · cases hx

theorem goodLine_addrKludges {msg : Message} (ha : msg.area = none)
    (hf : msg.nodeFrom.point < 2 ^ 31) (ht : msg.nodeTo.point < 2 ^ 31) :
    ∀ x ∈ addrKludges msg, GoodLine x := by
  have hword : ∀ (s : Str), Plain s → s.length = 5 → ∀ n : Int, 0 < n → n < 2 ^ 31 →
      GoodLine (soh :: s ++ putInt n ++ [cr]) := by
    intro s hs hl n h0 hn
    have hp := length_putInt (Int.le_of_lt h0) hn
    refine goodLine_kludge (t := s ++ putInt n) (hs.append (plain_putInt n)) ?_
    rw [List.length_append, hl]
    omega
  have hbare : ∀ n : Node, Plain (znf1 { n with point := 0, domain := [] }) := by
    intro n c hc
    rcases mem_znf1 hc with h | h
    · exact h
    · cases h
  have hintl : Plain (lit "INTL ") := by decide
  have hfmpt : Plain (lit "FMPT ") := by decide
  have htopt : Plain (lit "TOPT ") := by decide
  have hsp : Plain (lit " ") := .cons (by decide) plain_nil
  have htwo : ∀ a b : Str, Plain a → Plain b → a.length ≤ 47 → b.length ≤ 47 →
      GoodLine (soh :: lit "INTL " ++ a ++ lit " " ++ b ++ [cr]) := by
    intro a b h1 h2 hl1 hl2
    refine goodLine_kludge (t := lit "INTL " ++ a ++ lit " " ++ b)
      (((hintl.append h1).append hsp).append h2) ?_
    have h5 : (lit "INTL ").length = 5 := rfl
    have h1 : (lit " ").length = 1 := rfl
    simp only [List.length_append, h5, h1]
    omega
  intro x hx
  rw [addrKludges, ha] at hx
  simp only [List.mem_append, List.mem_singleton] at hx
  rcases hx with (rfl | hx) | hx
  · exact htwo _ _ (hbare _) (hbare _) (length_znf1 _) (length_znf1 _)
  · split at hx
    · next h => exact List.mem_singleton.mp hx ▸ hword _ hfmpt rfl _ h hf
    · cases hx
  · split at hx
    · next h => exact List.mem_singleton.mp hx ▸ hword _ htopt rfl _ h ht
    · cases hx

/-- The line of `add_via` is a line, and not a Via line. -/
theorem goodLine_via {ck : Clock} {gate : Node} (htz : ∀ tm, Plain (ck.tzName tm))
    (hg : nul ∉ gate.domain ∧ cr ∉ gate.domain) (ftsVia : Bool) :
    GoodLine (viaText ftsVia ck gate ++ [cr]) := by
  have hdate := plain_dateVia htz ftsVia
  have hlen : (dateVia ftsVia ck).length ≤ 127 := by
    rw [dateVia, dateTz, dateBuf, List.length_take]
    exact Nat.min_le_left _ _
  have hznf := length_znf1 gate
  have hvia : Plain (lit "Via ") := by decide
  have hfido : Plain (lit "Via FIDOGATE/" ++ PROGRAM) := by decide
  have hend : Plain (lit " FIDOGATE/" ++ PROGRAM) := by decide
  have hat : Plain (lit " @") := by decide
  have hmem : ∀ c ∈ viaText ftsVia ck gate, 32 ≤ c ∨ c ∈ gate.domain := by
    intro c hc
    unfold viaText at hc
    split at hc
    · rw [List.append_assoc _ (lit " FIDOGATE/")] at hc
      simp only [List.mem_append] at hc
      rcases hc with (((hc | hc) | hc) | hc) | hc
      · exact .inl (hvia c hc)
      · exact mem_znf1 hc
      · exact .inl (hat c hc)
      · exact .inl (hdate c hc)
      · exact .inl (hend c (List.mem_append.mpr hc))
    · rw [List.append_assoc (lit "Via FIDOGATE/" ++ PROGRAM)] at hc
      rcases List.mem_append.mp hc with hc | hc
      · exact .inl (hfido c hc)
      · rcases List.mem_append.mp hc with hc | hc
        · exact mem_znf1 hc
        · exact .inl (hdate c hc)
  refine goodLine_text ?_ ?_ ?_ ?_ ?_
  · intro h
    rcases hmem nul h with h | h
    · exact absurd h (by decide)
    · exact hg.1 h
  · intro h
    rcases hmem cr h with h | h
    · exact absurd h (by decide)
    · exact hg.2 h
  · intro h
    cases ftsVia <;> cases h
  · -- the text ends with the date or with the name of the program
    intro h
    cases ftsVia with
    | true =>
        have hlast : (viaText true ck gate).getLast? = some 115 := by
          rw [viaText, if_pos rfl, List.getLast?_append]
          rfl
        rw [hlast] at h
        cases h
    | false =>
        have hne : dateVia false ck ≠ [] := by
          intro e
          rcases List.take_eq_nil_iff.mp e with e | e
          · cases e
          · exact List.cons_ne_nil _ _ (List.append_eq_nil_iff.mp e).2
        obtain ⟨c, hc⟩ : ∃ c, (dateVia false ck).getLast? = some c :=
          ⟨_, List.getLast?_eq_some_getLast hne⟩
        have hlast : (viaText false ck gate).getLast? = some c := by
          rw [viaText, if_neg (by decide), List.getLast?_append, hc]
          rfl
        rw [hlast] at h
        cases h
        exact absurd (hdate stx (List.mem_of_getLast? hc)) (by decide)
  · unfold viaText
    split
    · simp [lit, PROGRAM]
      omega
    · simp [lit, PROGRAM]
      omega

/-! ## The trace -/

/-- What the next hop should find: the body as it was, behind the address
kludges, and one Via line more that names our address and the time. -/
structure Traced (o : NetmailOptions) (addr : Str) (msg : Message) (m : MsgBody)
    (r : GotMsgBody) : Prop where
  code : r.code = OK
  kludge : r.msg.kludge = addrKludges msg ++ m.kludge
  body : r.msg.body = m.body
  tear : r.msg.tear = m.tear
  origin : r.msg.origin = m.origin
  via : ∃ v, r.msg.via = m.via ++ [v] ∧ isViaLine v = true ∧ v.getLast? = some cr ∧
    addr <:+: v ∧ dateVia o.ftsVia o.ck <:+: v

theorem countP_eq_zero {f : Str → Bool} {ls : List Str} (h : ∀ x ∈ ls, f x = false) :
    ls.countP f = 0 := by
  rw [List.countP_eq_zero]
  intro x hx e
  rw [h x hx] at e
  cases e

theorem countP_eq_length {f : Str → Bool} {ls : List Str} (h : ∀ x ∈ ls, f x = true) :
    ls.countP f = ls.length := List.countP_eq_length.mpr h

namespace Stages

variable {ls : List Str} (s : Stages ls)

/-- Where no AREA line was found, the Via lines of a body are among its
kludges and in its Via list. -/
theorem countP_lines (ha : s.area = none) (k v : List Str) :
    ({ s.found with kludge := k, via := s.found.via ++ v } : MsgBody).lines.countP isViaLine =
      k.countP isViaLine + s.found.via.length + v.countP isViaLine := by
  have hecho : s.area.isSome = false := by rw [ha]; rfl
  have hk := s.kinds
  rw [hecho] at hk
  obtain ⟨h1, h2⟩ := hk.net_path rfl
  have hrfc : s.found.rfc.countP isViaLine = 0 := by
    refine countP_eq_zero fun x hx => ?_
    rw [s.found_front.2.2] at hx
    rw [Bool.eq_false_iff]
    intro h
    exact s.rfc_rfc x hx (rfcMatches_of_head (head_isViaLine h) (by decide))
  have hbody : s.found.body.countP isViaLine = 0 := by
    refine countP_eq_zero fun x hx => ?_
    have h := bodyRun_body s.clean s.rest x hx
    rw [hecho] at h
    simpa [isControlLine] using h
  have htear : s.found.tear.toList.countP isViaLine = 0 := countP_eq_zero fun x hx =>
    not_of_head head_isViaLine (by decide) (head_isTearLine (hk.tear x (Option.mem_toList.mp hx)))
  have horigin : s.found.origin.toList.countP isViaLine = 0 := countP_eq_zero fun x hx =>
    not_of_head head_isViaLine (by decide)
      (head_isOriginLine (hk.origin x (Option.mem_toList.mp hx)))
  have hvia : s.found.via.countP isViaLine = s.found.via.length := countP_eq_length hk.via
  simp only [MsgBody.lines, s.found_front.1, ha, h1, h2, List.countP_append, hrfc, hbody, htear,
    horigin, hvia, Option.toList_none, List.countP_nil]
  omega

/-- No more Via lines are found than there are. -/
theorem countP_found (ha : s.area = none) :
    s.found.kludge.countP isViaLine + s.found.via.length ≤ ls.countP isViaLine := by
  have hmade : s.madeUp = [] := by
    rw [madeUp, ha]
    rfl
  have hwritten : s.written = s.found := by
    rw [written, ha]
    rfl
  have hperm := s.perm_written.countP_eq isViaLine
  have hcount := s.countP_lines ha s.found.kludge []
  rw [hmade, List.append_nil, List.countP_append, hwritten] at hperm
  rw [List.append_nil, List.countP_nil] at hcount
  have hcount : s.found.lines.countP isViaLine = _ := hcount
  omega

end Stages

/-- A body that is parsed starts with a kludge or an AREA line. -/
theorem headed_of_parse {body : Body} (hk : ∀ l ∈ body.lines, l.Kept) {t : LineType}
    (ht : t = .msgType ∨ t = .msgEnd) {dst : Node} {b rest : Str}
    (h : (pktGetBodyParse dst b
      (body.texts.flatten ++ nul :: endByte t :: nul :: rest)).code = OK) :
    ∃ l ls, body.texts = l :: ls ∧ (isKludgeLine l = true ∨ isAreaLine l = true) := by
  have hsep := body.sep
  cases hb : body.lines with
  | nil =>
      have hnil : body.texts = [] := by rw [Body.texts, hb]; rfl
      rw [hnil] at h
      obtain ⟨b', hp⟩ := pktGetBodyParse_lines ht dst b rest (fun x (hx : x ∈ []) => by cases hx) rfl
      rw [hp] at h
      cases h
  | cons l ls =>
      have hcons : body.texts = l.bytes :: ls.map BodyLine.bytes := by
        rw [Body.texts, hb]
        rfl
      refine ⟨l.bytes, ls.map BodyLine.bytes, hcons, ?_⟩
      by_contra hn
      rw [not_or, Bool.not_eq_true, Bool.not_eq_true] at hn
      have hnone : parseLine .init l.bytes = none := by
        unfold parseLine
        simp [ParseState.init, hn.1, hn.2, ERROR, OK]
      have hhead : ((ls.map BodyLine.bytes).flatten ++ nul :: endByte t :: nul :: rest).head? ≠
          some lf := by
        rw [hb] at hsep
        cases ls with
        | nil => exact (by decide : some nul ≠ some lf)
        | cons l' ls =>
            rw [List.map_cons, List.flatten_cons, List.append_assoc]
            exact l'.head_ne_lf (hsep l' (by simp)) _
      have hl : l.Kept := hk l (by rw [hb]; exact List.mem_cons_self)
      rw [hcons, List.flatten_cons, List.append_assoc, pktGetBodyParse, pktGetBodyParseLoop,
        pktGetLine_kept hl b hhead] at h
      simp only [if_true, cstr_store l.nul_not_mem, hnone] at h
      exact absurd h (by decide)

/-- Our address for a netmail to the node. -/
def gateFor (cf : Config) (msg : Message) : Node :=
  (cfSetBest cf msg.nodeTo.zone msg.nodeTo.net msg.nodeTo.node).curAddr

theorem gateFor_mem (cf : Config) (msg : Message) :
    ∃ a ∈ cf.main :: cf.akas, gateFor cf msg = a.addr := by
  have hfind : ∀ (f : StAddr → Bool) (a : StAddr), (cf.main :: cf.akas).find? f = some a →
      a ∈ cf.main :: cf.akas := fun _ _ h => List.mem_of_find?_eq_some h
  refine ⟨_, ?_, rfl⟩
  unfold cfGetBest
  dsimp only
  cases h1 : (cf.main :: cf.akas).find? fun a => msg.nodeTo.zone == a.zone && -1 == a.addr.net &&
      -1 == a.addr.node with
  | some a => exact hfind _ a h1
  | none =>
      cases h2 : (cf.main :: cf.akas).find? fun a => msg.nodeTo.zone == a.zone &&
          -1 == a.addr.net with
      | some a => exact hfind _ a h2
      | none =>
          cases h3 : (cf.main :: cf.akas).find? fun a => msg.nodeTo.zone == a.zone with
          | some a => exact hfind _ a h3
          | none => exact List.mem_cons_self

/-- What `do_netmail` writes, if it writes. -/
theorem doNetmail_written {o : NetmailOptions} {cf : Config} {msg msg' : Message} {m : MsgBody}
    {text : Str} (h : doNetmail o cf msg m = .written msg' text) :
    msg'.area = msg.area ∧ text = (addrKludges msg').flatten ++
      msgPutMsgbody { m with via := addVia o.ftsVia o.ck (gateFor cf msg') m.via } := by
  have harea : ∀ m' : Message, doRemap o.remaps (doRewrite o.rewrites msg) = some m' →
      m'.area = msg.area := by
    intro m' hm
    have hrw : (doRewrite o.rewrites msg).area = msg.area := by
      unfold doRewrite
      split <;> rfl
    rw [← hrw]
    unfold doRemap at hm
    dsimp only at hm
    split at hm
    · exact Option.some.inj hm ▸ rfl
    · split at hm
      · cases hm
      · exact Option.some.inj hm ▸ rfl
  unfold doNetmail at h
  dsimp only at h
  split at h
  · exact absurd h (by simp)
  · cases hm : doRemap o.remaps (doRewrite o.rewrites msg) with
    | none =>
        rw [hm] at h
        exact absurd h (by simp)
    | some m' =>
        rw [hm] at h
        dsimp only at h
        split at h
        · exact absurd h (by simp)
        · obtain ⟨rfl, rfl⟩ := NetmailResult.written.inj h
          exact ⟨harea _ hm, rfl⟩

/-- The lines a netmail goes out with are good lines. -/
theorem goodLine_lines {ls : List Str} (s : Stages ls) (ha : s.area = none)
    (hls : ∀ x ∈ ls, GoodLine x) {k v : List Str} (hk : k <+ s.found.kludge)
    (hv : ∀ x ∈ v, GoodLine x) :
    ∀ x ∈ ({ s.found with kludge := k, via := s.found.via ++ v } : MsgBody).lines, GoodLine x := by
  have hwritten : s.written = s.found := by
    rw [Stages.written, ha]
    rfl
  have hfound : ∀ x ∈ s.found.lines, GoodLine x := by
    intro x hx
    rw [← hwritten] at hx
    rcases s.mem_written hx with h | rfl
    · exact hls x h
    · exact goodLine_made
  intro x hx
  simp only [MsgBody.lines, List.mem_append] at hx hfound
  rcases hx with (((((((hx | hx) | hx) | hx) | hx) | hx) | hx) | hx) | (hx | hx)
  · exact hfound x (by simp [hx])
  · exact hfound x (by simp [hk.subset hx])
  · exact hfound x (by simp [hx])
  · exact hfound x (by simp [hx])
  · exact hfound x (by simp [hx])
  · exact hfound x (by simp [hx])
  · exact hfound x (by simp [hx])
  · exact hfound x (by simp [hx])
  · exact hfound x (by simp [hx])
  · exact hv x hx

theorem kludgePtIntlBody_kludge (m : MsgBody) : (kludgePtIntlBody m).kludge <+ m.kludge :=
  (List.eraseP_sublist.trans List.eraseP_sublist).trans List.eraseP_sublist

/-- A netmail as the parser delivers it. -/
theorem parsed_netmail {body : Body} (hk : ∀ l ∈ body.lines, l.Kept) {t : LineType}
    (ht : t = .msgType ∨ t = .msgEnd) {dst : Node} {b b' rest : Str} {m : MsgBody}
    (hm : pktGetBodyParse dst b (body.texts.flatten ++ nul :: endByte t :: nul :: rest) =
      ⟨OK, t, m, b', rest⟩) (hnet : m.area = none) :
    (∀ x ∈ body.texts, GoodLine x) ∧ ∃ s : Stages body.texts, s.area = none ∧ m = s.found := by
  obtain ⟨l, ls, hls, hl⟩ := headed_of_parse hk ht (by rw [hm])
  have hgood : ∀ x ∈ body.texts, GoodLine x := by
    intro x hx
    refine goodLine_of_mem hk ?_ hx
    intro y hy
    rw [hls] at hy
    exact Option.some.inj hy ▸ hl
  obtain ⟨s⟩ : Nonempty (Stages body.texts) := hls ▸ parseLines_stages hl
  obtain ⟨b₁, hp⟩ := pktGetBodyParse_lines ht dst b rest hgood s.parse
  have hmsg : m = missingLines dst (store b₁ []) s.found :=
    congrArg GotMsgBody.msg (hm.symm.trans hp)
  have ha : s.area = none := by
    rw [← s.found_front.1]
    rw [hmsg] at hnet
    unfold missingLines at hnet
    split at hnet
    · next h => exact Option.isNone_iff_eq_none.mp h
    · exact hnet
  refine ⟨hgood, s, ha, ?_⟩
  rw [hmsg, missingLines, s.found_front.1, ha]
  rfl

section Hop

variable {o : NetmailOptions} {cf : Config} {msg msg' : Message} {text : Str}

/-- What goes out is a list of lines with the Via lines there were. -/
theorem unpackNetmail_lines {ls : List Str} (s : Stages ls) (ha : s.area = none)
    (hls : ∀ x ∈ ls, GoodLine x) (htz : ∀ tm, Plain (o.ck.tzName tm))
    (hdom : ∀ a ∈ cf.main :: cf.akas, nul ∉ a.addr.domain ∧ cr ∉ a.addr.domain)
    (harea : msg.area = none) (hw : unpackNetmail o cf msg s.found = .written msg' text)
    (hf : msg'.nodeFrom.point < 2 ^ 31) (hto : msg'.nodeTo.point < 2 ^ 31) :
    ∃ y ys, text = (y :: ys).flatten ++ [nul] ∧ (∀ x ∈ y :: ys, GoodLine x) ∧
      isKludgeLine y = true ∧ (addrKludges msg').countP isViaLine = 0 ∧
      (y :: ys).countP isViaLine =
        (kludgePtIntlBody s.found).kludge.countP isViaLine + s.found.via.length := by
  obtain ⟨harea', htext⟩ := doNetmail_written hw
  have harea' : msg'.area = none := harea'.trans harea
  obtain ⟨a, hmem, hgate⟩ := gateFor_mem cf msg'
  obtain ⟨v, hv⟩ : ∃ v, v = viaText o.ftsVia o.ck (gateFor cf msg') ++ [cr] := ⟨_, rfl⟩
  have hvia : GoodLine v := hv ▸ goodLine_via htz (hgate ▸ hdom a hmem) o.ftsVia
  have hviaLine : isViaLine v = false := by
    refine not_of_head head_isViaLine (c := 86) (by decide) ?_
    rw [hv]
    cases o.ftsVia <;> rfl
  have hone : [v].countP isViaLine = 0 :=
    countP_eq_zero fun x hx => List.mem_singleton.mp hx ▸ hviaLine
  obtain ⟨out, hout⟩ : ∃ out : MsgBody, out =
      { s.found with
        kludge := (kludgePtIntlBody s.found).kludge
        via := s.found.via ++ [v] } := ⟨_, rfl⟩
  have haddr : (addrKludges msg').countP isViaLine = 0 := by
    refine countP_eq_zero fun x hx => ?_
    rw [addrKludges, harea'] at hx
    simp only [List.mem_append, List.mem_singleton] at hx
    rcases hx with (rfl | hx) | hx
    · rfl
    · split at hx
      · exact List.mem_singleton.mp hx ▸ rfl
      · cases hx
    · split at hx
      · exact List.mem_singleton.mp hx ▸ rfl
      · cases hx
  obtain ⟨y, ys, hys, hy⟩ : ∃ y ys, addrKludges msg' = y :: ys ∧ isKludgeLine y = true := by
    have hkludge := isKludgeLine_addrKludges harea'
    rw [addrKludges, harea'] at hkludge ⊢
    exact ⟨_, _, rfl, hkludge _ List.mem_cons_self⟩
  refine ⟨y, ys ++ out.lines, ?_, ?_, hy, haddr, ?_⟩
  · rw [← List.cons_append, ← hys, htext, hout, hv, List.flatten_append, List.append_assoc]
    rfl
  · intro x hx
    rw [← List.cons_append, ← hys] at hx
    rcases List.mem_append.mp hx with hx | hx
    · exact goodLine_addrKludges harea' hf hto x hx
    · rw [hout] at hx
      refine goodLine_lines s ha hls (kludgePtIntlBody_kludge _) ?_ x hx
      intro z hz
      exact List.mem_singleton.mp hz ▸ hvia
  · rw [← List.cons_append, ← hys, List.countP_append, haddr, hout, s.countP_lines ha, hone]
    omega

/-- Whatever netmail is tossed, the next hop does not find one Via line more:
the lines written hold as many as before. -/
theorem unpackNetmail_not_traced {body : Body} (hk : ∀ l ∈ body.lines, l.Kept)
    {t t' : LineType} (ht : t = .msgType ∨ t = .msgEnd) (ht' : t' = .msgType ∨ t' = .msgEnd)
    {dst dst' : Node} {b b' d rest rest' : Str} {m : MsgBody}
    (hm : pktGetBodyParse dst b (body.texts.flatten ++ nul :: endByte t :: nul :: rest) =
      ⟨OK, t, m, b', rest⟩) (hnet : m.area = none) (htz : ∀ tm, Plain (o.ck.tzName tm))
    (hdom : ∀ a ∈ cf.main :: cf.akas, nul ∉ a.addr.domain ∧ cr ∉ a.addr.domain)
    (harea : msg.area = none) (hw : unpackNetmail o cf msg m = .written msg' text)
    (hf : msg'.nodeFrom.point < 2 ^ 31) (hto : msg'.nodeTo.point < 2 ^ 31) :
    ¬ Traced o (znf1 (gateFor cf msg')) msg' (kludgePtIntlBody m)
      (pktGetBodyParse dst' d (text ++ endByte t' :: nul :: rest')) := by
  obtain ⟨hls, s, ha, rfl⟩ := parsed_netmail hk ht hm hnet
  obtain ⟨y, ys, htext, hgood, hy, haddr, hcount⟩ :=
    unpackNetmail_lines s ha hls htz hdom harea hw hf hto
  obtain ⟨s'⟩ : Nonempty (Stages (y :: ys)) := parseLines_stages (.inl hy)
  obtain ⟨d', hp⟩ := pktGetBodyParse_lines ht' dst' d rest' hgood s'.parse
  rw [htext, List.append_assoc, List.singleton_append, hp]
  rintro ⟨-, hkludge, -, -, -, v, hvia, -⟩
  have hkludge : (missingLines dst' (store d' []) s'.found).kludge = _ := hkludge
  have hvia : (missingLines dst' (store d' []) s'.found).via = _ := hvia
  cases ha' : s'.area with
  | some x =>
      -- read as an echomail, which has no Via lines
      have hnil : s'.found.via = [] := s'.kinds.echo_via (by rw [ha']; rfl)
      have hnone : (missingLines dst' (store d' []) s'.found).via = [] := by
        unfold missingLines
        split
        · exact hnil
        · exact hnil
      rw [hnone] at hvia
      exact absurd (List.append_eq_nil_iff.mp hvia.symm).2 (List.cons_ne_nil _ _)
  | none =>
      have hsame : missingLines dst' (store d' []) s'.found = s'.found := by
        rw [missingLines, s'.found_front.1, ha']
        rfl
      have hle := s'.countP_found ha'
      rw [hsame] at hkludge hvia
      rw [hcount, hkludge, hvia, List.countP_append, haddr, List.length_append] at hle
      have hsub : (kludgePtIntlBody s.found).via = s.found.via := rfl
      rw [hsub, List.length_singleton] at hle
      omega

end Hop

/-! ## A hop -/

/-- A netmail with a kludge and a text line. -/
def helloBody : Body :=
  ⟨[⟨[soh] ++ lit "MSGID: 2:5020/9 1", 0, by decide, by decide⟩,
    ⟨lit "Hello", 0, by decide, by decide⟩], by decide⟩

def helloMsg : MsgBody :=
  { MsgBody.clear with
    kludge := [[soh] ++ lit "MSGID: 2:5020/9 1" ++ [cr]], body := [lit "Hello" ++ [cr]] }

/-- The node 2:5020/100 at the start of 1970, in UTC. -/
def helloConfig : Config := .read ⟨2, ⟨2, 5020, 100, 0, []⟩, nodeInvalid⟩ [] []

def helloOptions : NetmailOptions :=
  { ftsVia := false
    ck := { time := 0, tzone := 0, localtime := gmtime, tzName := fun _ => lit "UTC" }
    killEmpty := false, rewrites := [], remaps := [], opens := true, writes := true }

/-- From 2:5020/9 to 2:5020/7. -/
def helloHeader : Message :=
  { Message.clear with nodeFrom := ⟨2, 5020, 9, 0, []⟩, nodeTo := ⟨2, 5020, 7, 0, []⟩,
                       nodeOrig := ⟨2, 5020, 9, 0, []⟩ }

def helloText : Str :=
  [soh] ++ lit "INTL 2:5020/7 2:5020/9" ++ [cr] ++ [soh] ++ lit "MSGID: 2:5020/9 1" ++ [cr] ++
    lit "Hello" ++ [cr] ++ lit "Via FIDOGATE/ftntoss2:5020/100Thu Jan 01 1970 at 00:00:00 UTC" ++
    [cr, nul]

/-- What is in the buffer behind it. -/
def helloBuf : Str :=
  store (store (store [] ([soh] ++ lit "MSGID: 2:5020/9 1" ++ [cr])) (lit "Hello" ++ [cr])) []

theorem pktGetBodyParse_hello :
    pktGetBodyParse nodeClear [] (helloBody.texts.flatten ++ [nul, endByte .msgEnd, nul]) =
      ⟨OK, .msgEnd, helloMsg, helloBuf, []⟩ := by
  decide +kernel

theorem unpackNetmail_hello :
    unpackNetmail helloOptions helloConfig helloHeader helloMsg = .written helloHeader helloText := by
  decide +kernel

theorem unpackNetmail_not_traced_hello :
    ¬ Traced helloOptions (znf1 (gateFor helloConfig helloHeader)) helloHeader
      (kludgePtIntlBody helloMsg)
      (pktGetBodyParse nodeClear [] (helloText ++ endByte .msgEnd :: nul :: [])) :=
  unpackNetmail_not_traced (by decide +kernel) (.inr rfl) (.inr rfl) pktGetBodyParse_hello rfl
    (fun _ => plain_utc) (by decide +kernel) rfl unpackNetmail_hello (by decide) (by decide)

/-- The next hop finds no Via line, and the line of `add_via` in the text. -/
theorem unpackNetmail_via_lost :
    ¬ ∀ (body : Body) (o : NetmailOptions) (cf : Config) (msg msg' : Message) (m : MsgBody)
      (b text : Str), (∀ l ∈ body.lines, l.Kept) →
      pktGetBodyParse nodeClear [] (body.texts.flatten ++ [nul, endByte .msgEnd, nul]) =
        ⟨OK, .msgEnd, m, b, []⟩ → m.area = none →
      unpackNetmail o cf msg m = .written msg' text →
      Traced o (znf1 (gateFor cf msg')) msg' (kludgePtIntlBody m)
        (pktGetBodyParse nodeClear [] (text ++ [endByte .msgEnd, nul])) := by
  intro h
  have h := (h helloBody helloOptions helloConfig helloHeader helloHeader helloMsg helloBuf
    helloText (by decide +kernel) pktGetBodyParse_hello rfl unpackNetmail_hello).body
  revert h
  decide +kernel

end Fidogate

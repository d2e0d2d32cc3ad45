/-
# `Fidogate.Areafix.SendRequest` — areafix.c: the requests become netmails

`send_request` goes over the queue once for each uplink: it takes the first
line whose address is not in the text of those done, and puts all lines with
this very address into one netmail.  The text is searched with `strstr`, so an
address is also found in one that only contains it.
-/
import Fidogate.Areafix.Entries
import Fidogate.Common.Msgid
import Fidogate.Common.Outpkt
import Fidogate.Lib.Picks
import Mathlib.Data.List.Dedup
import Mathlib.Data.List.Infix

namespace Fidogate

open Bytes Picks

/-! ## The code -/

/-- `strstr`: whether the text is in the other. -/
def strstr (haystack needle : Str) : Bool := haystack.tails.any (needle.isPrefixOf ·)

/-- `areafix_name` -/
def areafixName (t : Tables) : Str := lit (if t.areafix then "Areafix Daemon" else "Filefix Daemon")

/-- What a scan of the queue has found: the address, the text of all addresses,
and the lines. -/
structure Scan where
  link : Option Str
  links : Str
  out : List Str
  deriving DecidableEq, Repr

/-- One line.  `BUF_APPEND2` puts the 0 byte behind its buffer where the text
fills it: then nothing more can be said (`none`). -/
def scanLine (s : Scan) (line : Str) : Option Scan :=
  match (xstrtok (lit ",") line).head? with
  | none => some s
  | some l =>
      if s.link.isNone && ! strstr s.links l then
        if (s.links ++ l ++ lit ",").length < BUFSIZ then
          some ⟨some l, s.links ++ l ++ lit ",", s.out ++ [line]⟩
        else none
      else if s.link == some l then some { s with out := s.out ++ [line] }
      else some s

def scanRequests (upl : List Str) (links : Str) : Option Scan :=
  upl.foldlM scanLine ⟨none, links, []⟩

/-- What the clock and the sequencer give for the netmail to an address. -/
structure SendClock where
  time : Str → Int
  msgid : Str → Int

/-- The netmail for the lines of an uplink: all but the command is taken from
the first.  Where a field is missing the pointer to it is NULL (`none`). -/
def requestNetmail (t : Tables) (ck : SendClock) (cf : Config) :
    List Str → Option (Netmail × Config)
  | [] => none
  | line :: lines =>
      match xstrtok (lit ",") line with
      | addr :: nameTo :: nameFrom :: subject :: command => do
          let node := ascToNodeStore false cf.defzone addr nodeClear
          let cf := cfSetBest cf node.zone node.net node.node
          let rest ← lines.mapM (afterLast 44)
          let msg : Message :=
            { Message.clear with
              attr := MSG_DIRECT
              date := ck.time addr
              nodeTo := node
              nodeFrom := cf.curAddr
              nameTo := bufCopy NAMEBUFSIZE nameTo
              nameFrom := bufCopy NAMEBUFSIZE nameFrom
              subject := bufCopy SUBJBUFSIZE subject }
          let first := (cr :: lf :: command.head?.getD (lit "(null)")).take 4095
          some (⟨msg, first :: rest, areafixName t, [], none, ck.msgid addr⟩, cf)
      | _ => none

/-- The loop of `send_request`: the netmails for `outpkt_netmail`. -/
def sendLoop (t : Tables) (ck : SendClock) (upl : List Str) :
    Nat → Config → Str → Option (List Netmail × Config)
  | 0, _, _ => none
  | n + 1, cf, links => do
      let s ← scanRequests upl links
      match s.link with
      | none => some ([], cf)
      | some _ =>
          let (m, cf) ← requestNetmail t ck cf s.out
          let (ms, cf) ← sendLoop t ck upl n cf s.links
          some (m :: ms, cf)

/-- `send_request` returns and has written these netmails. -/
def SendRequest (t : Tables) (ck : SendClock) (cf : Config) (upl : List Str) (ms : List Netmail) :
    Prop :=
  ∃ n cf', sendLoop t ck upl n cf [] = some (ms, cf')

/-! ## The text of the addresses -/

theorem strstr_iff {h n : Str} : strstr h n = true ↔ n <:+: h := by
  rw [strstr, List.any_eq_true, List.infix_iff_prefix_suffix]
  simp only [List.mem_tails, List.isPrefixOf_iff_prefix]
  exact ⟨fun ⟨t, hs, hp⟩ => ⟨t, hp, hs⟩, fun ⟨t, hp, hs⟩ => ⟨t, hs, hp⟩⟩

theorem strstr_self (s : Str) : strstr s s = true := strstr_iff.mpr (List.infix_refl s)

/-- The text of the addresses done, each with its comma. -/
def linksOf (done : List Str) : Str := done.flatMap (· ++ lit ",")

theorem linksOf_concat (done : List Str) (l : Str) :
    linksOf (done ++ [l]) = linksOf done ++ l ++ lit "," := by
  simp [linksOf]

/-- A text without a comma is in one of the two. -/
theorem infix_comma {l a s : Str} (hl : 44 ∉ l) (h : l <:+: a ++ 44 :: s) :
    l <:+: a ∨ l <:+: s := by
  obtain ⟨u, v, h⟩ := h
  rcases List.append_eq_append_iff.mp h with ⟨w, ha, hv⟩ | ⟨w, hul, hs⟩
  · exact Or.inl ⟨u, w, ha.symm⟩
  · rcases List.append_eq_append_iff.mp hul with ⟨x, ha, hl'⟩ | ⟨x, hu, hw⟩
    · -- the text goes on behind the comma, or stops in front of it
      cases w with
      | nil => exact Or.inl ⟨u, [], by rw [List.append_nil, hul, List.append_nil]⟩
      | cons c w =>
          have hc : c = 44 := (List.cons.inj hs).1.symm
          exact absurd (hl' ▸ List.mem_append_right _ (hc ▸ List.mem_cons_self)) hl
    · cases x with
      | nil =>
          cases l with
          | nil => exact Or.inr (List.nil_infix)
          | cons d l =>
              rw [List.nil_append] at hw
              rw [hw] at hs
              exact absurd ((List.cons.inj hs).1 ▸ List.mem_cons_self) hl
      | cons c x =>
          rw [hw] at hs
          exact Or.inr ⟨x, v, (List.cons.inj hs).2.symm⟩

theorem strstr_linksOf {l : Str} (hl : 44 ∉ l) (hne : l ≠ []) :
    ∀ done : List Str, strstr (linksOf done) l = shows strstr done l
  | [] => by
      rw [shows, List.any_nil, Bool.eq_false_iff]
      intro h
      exact hne (List.infix_nil.mp (strstr_iff.mp h))
  | a :: done => by
      have hlinks : linksOf (a :: done) = a ++ 44 :: linksOf done := by
        rw [linksOf, List.flatMap_cons, List.append_assoc]
        rfl
      rw [shows, List.any_cons, ← shows, ← strstr_linksOf hl hne done, Bool.eq_iff_iff,
        Bool.or_eq_true, strstr_iff, strstr_iff, strstr_iff, hlinks]
      constructor
      · exact infix_comma hl
      · rintro (h | h)
        · exact h.trans (List.prefix_append _ _).isInfix
        · exact h.trans ⟨a ++ [44], [], by simp⟩

/-! ## The lines of the queue -/

/-- A field of a line: no comma, and no quote in front. -/
structure IsField (f : Str) : Prop where
  comma : 44 ∉ f
  quote : f.head? ≠ some dquote

def UplReq.command (r : UplReq) : Str := lit (if r.add then "+" else "-") ++ r.area

/-- The line before it is put into the buffer of `tl_appendf`. -/
def UplReq.text (r : UplReq) : Str :=
  (lit ",").intercalate [r.addr, r.robotname, r.name, r.password, r.command]

/-- A request whose line has its five fields, of which some may be empty. -/
structure UplReq.Plain (r : UplReq) : Prop where
  link : r.link.Fits
  addr : 44 ∉ r.addr
  robotname : IsField r.robotname
  name : IsField r.name
  password : IsField r.password
  area : 44 ∉ r.area
  short : r.text.length < 4096

theorem IsField.isWord {f : Str} (h : IsField f) (hne : f ≠ []) : IsWord true (lit ",") f := by
  refine ⟨hne, ?_, fun _ => h.quote⟩
  intro c hc
  have hcomma : c ≠ 44 := fun heq => h.comma (heq ▸ hc)
  rw [isDelim, show lit "," = [44] from rfl]
  simpa using hcomma

/-- The fields the commas separate, without the empty ones. -/
theorem xstrtok_commas : ∀ {fs : List Str}, (∀ f ∈ fs, IsField f) →
    xstrtok (lit ",") ((lit ",").intercalate fs) = fs.filter (! ·.isEmpty)
  | [], _ => rfl
  | [f], h => by
      have hf := h f List.mem_cons_self
      rw [List.intercalate_singleton]
      cases f with
      | nil => rfl
      | cons c f => exact words_word (hf.isWord (List.cons_ne_nil c f))
  | f :: g :: fs, h => by
      have hf := h f List.mem_cons_self
      have ih := xstrtok_commas fun f' hf' => h f' (List.mem_cons_of_mem f hf')
      rw [List.intercalate_cons_cons, List.append_assoc]
      cases f with
      | nil => exact (words_cons rfl _).trans ih
      | cons c f =>
          exact (words_append (hf.isWord (List.cons_ne_nil c f)) rfl _).trans
            (congrArg ((c :: f) :: ·) ih)

section

variable {r : UplReq}

theorem UplReq.Plain.line (h : r.Plain) : r.line = r.text :=
  List.take_of_length_le (Nat.le_of_lt_succ h.short)

theorem UplReq.text_eq (r : UplReq) : r.text =
    r.addr ++ lit "," ++ r.robotname ++ lit "," ++ r.name ++ lit "," ++ r.password ++ 44 ::
      r.command := by
  unfold UplReq.text
  simp only [List.intercalate_cons_cons, List.intercalate_singleton, List.append_assoc]
  rfl

theorem UplReq.command_ne (r : UplReq) : ∃ c, (c = 43 ∨ c = 45) ∧ r.command = c :: r.area := by
  unfold UplReq.command
  cases r.add with
  | true => exact ⟨43, Or.inl rfl, rfl⟩
  | false => exact ⟨45, Or.inr rfl, rfl⟩

theorem UplReq.Plain.command_comma (h : r.Plain) : 44 ∉ r.command := by
  obtain ⟨c, hc, hcommand⟩ := r.command_ne
  rw [hcommand, List.mem_cons, not_or]
  refine ⟨?_, h.area⟩
  rcases hc with rfl | rfl
  · decide
  · decide

theorem UplReq.Plain.afterLast (h : r.Plain) : afterLast 44 r.line = some r.command := by
  rw [h.line, r.text_eq]
  exact afterLast_append h.command_comma _

/-- The address is read as the node. -/
theorem UplReq.Plain.read (h : r.Plain) (zone : Int) (old : Node) :
    nodeEq (ascToNodeStore false zone r.addr old) r.link = true := by
  have hread : ∃ domain, ascToNode false zone r.addr = some (r.link.withDomain domain) := by
    unfold UplReq.addr
    split
    · exact ascToNode_znfp1 h.link zone
    · exact ascToNode_znf1 h.link zone
  obtain ⟨domain, hread⟩ := hread
  rw [ascToNodeStore_of_ascToNode hread old]
  exact nodeEq_withDomain r.link domain

theorem UplReq.Plain.addr_cons (h : r.Plain) : ∃ c s, r.addr = c :: s ∧ isDigit c = true := by
  obtain ⟨s, hs⟩ : ∃ s, r.addr = putInt r.link.zone ++ s := by
    unfold UplReq.addr
    split
    · obtain ⟨d, -, -, hprint⟩ := znfp1_eq h.link
      simp only [List.append_assoc] at hprint
      exact ⟨_, hprint⟩
    · obtain ⟨d, -, -, hprint⟩ := znf1_eq h.link
      simp only [List.append_assoc] at hprint
      exact ⟨_, hprint⟩
  obtain ⟨c, t, hput, hc⟩ := putDec_eq_cons r.link.zone.toNat
  rw [putInt_of_nonneg h.link.zone, hput] at hs
  exact ⟨c, t ++ s, hs, hc⟩

theorem UplReq.Plain.addr_ne_nil (h : r.Plain) : r.addr ≠ [] := by
  obtain ⟨c, s, hs, -⟩ := h.addr_cons
  rw [hs]
  exact List.cons_ne_nil c s

theorem UplReq.Plain.tokens (h : r.Plain) : xstrtok (lit ",") r.line =
    r.addr :: [r.robotname, r.name, r.password].filter (! ·.isEmpty) ++ [r.command] := by
  obtain ⟨c, s, haddr, hdigit⟩ := h.addr_cons
  obtain ⟨d, hsign, hcommand⟩ := r.command_ne
  have hfields : ∀ f ∈ [r.addr, r.robotname, r.name, r.password, r.command], IsField f := by
    refine List.forall_mem_cons.mpr ⟨⟨h.addr, ?_⟩, List.forall_mem_cons.mpr ⟨h.robotname,
      List.forall_mem_cons.mpr ⟨h.name, List.forall_mem_cons.mpr ⟨h.password,
        List.forall_mem_singleton.mpr ⟨h.command_comma, ?_⟩⟩⟩⟩⟩
    · rw [haddr]
      rintro ⟨⟩
      cases hdigit
    · rw [hcommand]
      rintro ⟨⟩
      rcases hsign with hsign | hsign
      · cases hsign
      · cases hsign
  have hsplit : [r.addr, r.robotname, r.name, r.password, r.command] =
      [r.addr] ++ [r.robotname, r.name, r.password] ++ [r.command] := rfl
  have haddr1 : [r.addr].filter (! ·.isEmpty) = [r.addr] := by
    rw [haddr]
    rfl
  have hcommand1 : [r.command].filter (! ·.isEmpty) = [r.command] := by
    rw [hcommand]
    rfl
  rw [h.line, UplReq.text, xstrtok_commas hfields, hsplit, List.filter_append, List.filter_append,
    haddr1, hcommand1]
  rfl

end

/-! ## A scan -/

/-- The requests with the address. -/
def group (reqs : List UplReq) (addr : Str) : List UplReq := reqs.filter (·.addr == addr)

theorem UplReq.Plain.scanLine {r : UplReq} (h : r.Plain) (s : Scan) : scanLine s r.line =
    if s.link.isNone && ! strstr s.links r.addr then
      if (s.links ++ r.addr ++ lit ",").length < BUFSIZ then
        some ⟨some r.addr, s.links ++ r.addr ++ lit ",", s.out ++ [r.line]⟩
      else none
    else if s.link == some r.addr then some { s with out := s.out ++ [r.line] }
    else some s := by
  rw [Fidogate.scanLine, h.tokens]
  rfl

/-- Behind the line that was taken, those with the same address follow. -/
theorem scan_linked : ∀ {reqs : List UplReq}, (∀ r ∈ reqs, r.Plain) → ∀ (a links : Str)
    (out : List Str), (reqs.map UplReq.line).foldlM scanLine ⟨some a, links, out⟩ =
      some ⟨some a, links, out ++ (group reqs a).map UplReq.line⟩
  | [], _, a, links, out => by simp [group]
  | r :: reqs, h, a, links, out => by
      have hr := h r List.mem_cons_self
      have ih := @scan_linked reqs fun r hr => h r (List.mem_cons_of_mem _ hr)
      rw [List.map_cons, List.foldlM_cons, hr.scanLine, group, List.filter_cons]
      by_cases ha : r.addr = a
      · rw [if_neg (by simp), if_pos (by simp [ha]), if_pos (by simpa using ha)]
        simp only [Option.bind_eq_bind, Option.bind_some]
        rw [ih, group, List.map_cons, List.append_assoc, List.singleton_append]
      · rw [if_neg (by simp), if_neg (by simpa using Ne.symm ha), if_neg (by simpa using ha)]
        exact ih a links out

/-- The scan takes the first address that is not shown, with all its lines. -/
theorem scanRequests_plain : ∀ {reqs : List UplReq}, (∀ r ∈ reqs, r.Plain) → ∀ done : List Str,
    scanRequests (reqs.map UplReq.line) (linksOf done) =
      match (reqs.map UplReq.addr).find? fun a => ! shows strstr done a with
      | none => some ⟨none, linksOf done, []⟩
      | some a =>
          if (linksOf (done ++ [a])).length < BUFSIZ then
            some ⟨some a, linksOf (done ++ [a]), (group reqs a).map UplReq.line⟩
          else none
  | [], _, _ => rfl
  | r :: reqs, h, done => by
      have hr := h r List.mem_cons_self
      have hreqs : ∀ r ∈ reqs, r.Plain := fun r hr => h r (List.mem_cons_of_mem _ hr)
      have ih := scanRequests_plain hreqs done
      have hstr : strstr (linksOf done) r.addr = shows strstr done r.addr :=
        strstr_linksOf hr.addr hr.addr_ne_nil done
      unfold scanRequests at ih ⊢
      rw [List.map_cons, List.map_cons, List.foldlM_cons, hr.scanLine]
      simp only [Option.isNone_none, Bool.true_and, hstr]
      cases hshown : shows strstr done r.addr with
      | true =>
          rw [if_neg (by decide), if_neg (by simp), List.find?_cons_of_neg (by rw [hshown]; decide)]
          simp only [Option.bind_eq_bind, Option.bind_some]
          rw [ih]
          split
          · rfl
          · next a ha =>
              have hne : r.addr ≠ a := by
                rintro rfl
                have hnot := List.find?_some ha
                rw [hshown] at hnot
                cases hnot
              rw [group, group, List.filter_cons_of_neg (by simpa using hne)]
      | false =>
          rw [if_pos (by decide), List.find?_cons_of_pos (by rw [hshown]; rfl)]
          dsimp only
          rw [linksOf_concat]
          split
          · simp only [Option.bind_eq_bind, Option.bind_some, List.nil_append]
            rw [scan_linked hreqs, group, group, List.filter_cons_of_pos (by simp), List.map_cons,
              List.singleton_append]
          · rfl

/-! ## The netmail of an uplink -/

section

variable {t : Tables} {ck : SendClock} {cf cf' : Config} {r : UplReq} {rest reqs : List UplReq}
  {m : Netmail}

theorem mapM_afterLast : ∀ {rest : List UplReq}, (∀ r ∈ rest, r.Plain) →
    (rest.map UplReq.line).mapM (afterLast 44) = some (rest.map UplReq.command)
  | [], _ => rfl
  | r :: rest, h => by
      have ih := mapM_afterLast fun r hr => h r (List.mem_cons_of_mem _ hr)
      rw [List.map_cons, List.mapM_cons, (h r List.mem_cons_self).afterLast, ih]
      rfl

/-- What a netmail has of the first request, by the fields that are not empty,
and of the others. -/
structure MailOf (r : UplReq) (rest : List UplReq) (m : Netmail) : Prop where
  link : nodeEq m.msg.nodeTo r.link = true
  fields : ∃ nameTo nameFrom subject more,
    [r.robotname, r.name, r.password].filter (! ·.isEmpty) ++ [r.command] =
      nameTo :: nameFrom :: subject :: more ∧
    m.msg.nameTo = bufCopy NAMEBUFSIZE nameTo ∧ m.msg.subject = bufCopy SUBJBUFSIZE subject ∧
    m.body = (cr :: lf :: more.head?.getD (lit "(null)")).take 4095 :: rest.map UplReq.command

theorem requestNetmail_mailOf (hr : r.Plain) (hrest : ∀ r ∈ rest, r.Plain)
    (h : requestNetmail t ck cf ((r :: rest).map UplReq.line) = some (m, cf')) :
    MailOf r rest m := by
  rw [List.map_cons, requestNetmail, hr.tokens, mapM_afterLast hrest] at h
  cases hfields : [r.robotname, r.name, r.password].filter (! ·.isEmpty) ++ [r.command] with
  | nil => rw [List.cons_append, hfields] at h; cases h
  | cons nameTo fs =>
      cases fs with
      | nil => rw [List.cons_append, hfields] at h; cases h
      | cons nameFrom fs =>
          cases fs with
          | nil => rw [List.cons_append, hfields] at h; cases h
          | cons subject more =>
              rw [List.cons_append, hfields] at h
              simp only [Option.bind_eq_bind, Option.bind_some, Option.some.injEq,
                Prod.mk.injEq] at h
              obtain ⟨rfl, -⟩ := h
              exact ⟨hr.read _ _, nameTo, nameFrom, subject, more, hfields, rfl, rfl, rfl⟩

/-- Where the first request has all its fields there is a netmail. -/
theorem requestNetmail_of_given (hr : r.Plain) (hrest : ∀ r ∈ rest, r.Plain)
    (hgiven : r.robotname ≠ [] ∧ r.name ≠ [] ∧ r.password ≠ []) :
    ∃ m cf', requestNetmail t ck cf ((r :: rest).map UplReq.line) = some (m, cf') := by
  obtain ⟨h1, h2, h3⟩ := hgiven
  have hfields : [r.robotname, r.name, r.password].filter (! ·.isEmpty) =
      [r.robotname, r.name, r.password] := by
    simp [h1, h2, h3]
  rw [List.map_cons, requestNetmail, hr.tokens, mapM_afterLast hrest, hfields]
  exact ⟨_, _, rfl⟩

/-! ## All rounds -/

/-- The netmail for an address. -/
def MailFor (reqs : List UplReq) (addr : Str) (m : Netmail) : Prop :=
  ∃ r rest, group reqs addr = r :: rest ∧ MailOf r rest m

theorem group_plain (h : ∀ r ∈ reqs, r.Plain) (addr : Str) : ∀ r ∈ group reqs addr, r.Plain :=
  fun r hr => h r (List.mem_of_mem_filter hr)

theorem requestNetmail_mailFor {addr : Str} (h : ∀ r ∈ reqs, r.Plain)
    (hm : requestNetmail t ck cf ((group reqs addr).map UplReq.line) = some (m, cf')) :
    MailFor reqs addr m := by
  have hplain := group_plain h addr
  cases hg : group reqs addr with
  | nil =>
      rw [hg] at hm
      cases hm
  | cons r rest =>
      rw [hg] at hm hplain
      exact ⟨r, rest, hg, requestNetmail_mailOf (hplain r List.mem_cons_self)
        (fun r hr => hplain r (List.mem_cons_of_mem _ hr)) hm⟩

/-- The rounds make one netmail each; in the end all addresses are shown. -/
theorem sendLoop_rounds (h : ∀ r ∈ reqs, r.Plain) : ∀ {n : Nat} {done : List Str} {cf : Config}
    {ms : List Netmail}, (linksOf done).length < BUFSIZ →
    sendLoop t ck (reqs.map UplReq.line) n cf (linksOf done) = some (ms, cf') →
    ∃ as, as = rounds strstr (reqs.map UplReq.addr) n done ∧ List.Forall₂ (MailFor reqs) as ms ∧
      (linksOf (done ++ as)).length < BUFSIZ ∧
      ∀ r ∈ reqs, shows strstr (done ++ as) r.addr = true
  | 0, _, _, _, _, hs => by cases hs
  | n + 1, done, cf, ms, hroom, hs => by
      rw [sendLoop, scanRequests_plain h] at hs
      rw [rounds]
      cases hfind : (reqs.map UplReq.addr).find? fun a => ! shows strstr done a with
      | none =>
          rw [hfind] at hs
          simp only [Option.bind_eq_bind, Option.bind_some, Option.some.injEq, Prod.mk.injEq] at hs
          refine ⟨[], rfl, hs.1 ▸ List.Forall₂.nil, by rwa [List.append_nil], ?_⟩
          intro r hr
          have hshown := List.find?_eq_none.mp hfind r.addr (List.mem_map_of_mem hr)
          rw [List.append_nil]
          simpa using hshown
      | some a =>
          rw [hfind] at hs
          dsimp only at hs ⊢
          split at hs
          · next hfit =>
              simp only [Option.bind_eq_bind, Option.bind_some] at hs
              obtain ⟨⟨m, cf₁⟩, hm, hs⟩ := Option.bind_eq_some_iff.mp hs
              obtain ⟨⟨ms', cf₂⟩, hrest, hs⟩ := Option.bind_eq_some_iff.mp hs
              simp only [Option.some.injEq, Prod.mk.injEq] at hs
              obtain ⟨rfl, hcf⟩ := hs
              rw [hcf] at hrest
              obtain ⟨as, has, hmails, hroom', hall⟩ := sendLoop_rounds h hfit hrest
              refine ⟨a :: as, by rw [has], .cons (requestNetmail_mailFor h hm) hmails, ?_, ?_⟩
              · rwa [List.append_cons]
              · rwa [List.append_cons]
          · cases hs

/-- Where there is room for all addresses and the first request to each has its
fields, the loop ends. -/
theorem sendLoop_of_rounds (h : ∀ r ∈ reqs, r.Plain) : ∀ {n : Nat} {done : List Str}
    {cf : Config}, (∀ a ∈ rounds strstr (reqs.map UplReq.addr) n done, ∃ r rest,
      group reqs a = r :: rest ∧ r.robotname ≠ [] ∧ r.name ≠ [] ∧ r.password ≠ []) →
    (linksOf (done ++ rounds strstr (reqs.map UplReq.addr) n done)).length < BUFSIZ →
    (∀ r ∈ reqs,
      shows strstr (done ++ rounds strstr (reqs.map UplReq.addr) n done) r.addr = true) →
    ∃ ms cf', sendLoop t ck (reqs.map UplReq.line) (n + 1) cf (linksOf done) = some (ms, cf')
  | n, done, cf, hgiven, hroom, hall => by
      rw [sendLoop, scanRequests_plain h]
      cases hfind : (reqs.map UplReq.addr).find? fun a => ! shows strstr done a with
      | none => exact ⟨[], cf, rfl⟩
      | some a =>
          cases n with
          | zero =>
              obtain ⟨r, hr, hra⟩ := List.mem_map.mp (List.mem_of_find?_eq_some hfind)
              have hshown := hall r hr
              have hnot := List.find?_some hfind
              rw [rounds, List.append_nil, hra] at hshown
              rw [hshown] at hnot
              cases hnot
          | succ n =>
              rw [rounds, hfind] at hgiven hroom hall
              dsimp only at hgiven hroom hall ⊢
              rw [List.append_cons] at hroom hall
              have hfit : (linksOf (done ++ [a])).length < BUFSIZ := by
                refine Nat.lt_of_le_of_lt ?_ hroom
                rw [linksOf, linksOf, @List.flatMap_append _ _ (done ++ [a]), List.length_append]
                exact Nat.le_add_right _ _
              obtain ⟨r, rest, hgroup, hfields⟩ := hgiven a List.mem_cons_self
              have hplain := group_plain h a
              rw [hgroup] at hplain
              obtain ⟨m, cf₁, hm⟩ := @requestNetmail_of_given t ck cf r rest
                (hplain r List.mem_cons_self) (fun x hx => hplain x (List.mem_cons_of_mem _ hx))
                hfields
              obtain ⟨ms, cf₂, hms⟩ := @sendLoop_of_rounds h n (done ++ [a]) cf₁
                (fun b hb => hgiven b (List.mem_cons_of_mem _ hb)) hroom hall
              refine ⟨m :: ms, cf₂, ?_⟩
              rw [if_pos hfit]
              simp only [Option.bind_eq_bind, Option.bind_some]
              rw [hgroup, hm]
              simp only [Option.bind_some]
              rw [hms]
              rfl

end

/-! ## What is to be delivered -/

/-- The text of a netmail with these commands. -/
def requestBody : List Str → List Str
  | [] => []
  | c :: cs => (cr :: lf :: c) :: cs

/-- Every request is in the one netmail to its uplink, with the robot and the
password the request names, in order. -/
structure AllServed (reqs : List UplReq) (ms : List Netmail) : Prop where
  apart : ms.Pairwise fun m m' => nodeEq m.msg.nodeTo m'.msg.nodeTo = false
  asked : ∀ m ∈ ms, ∃ r ∈ reqs, nodeEq m.msg.nodeTo r.link = true
  served : ∀ r ∈ reqs, ∃ m ∈ ms, nodeEq m.msg.nodeTo r.link = true ∧
    (pktMsgSanitizeStrings m.msg).nameTo = r.robotname ∧
    (pktMsgSanitizeStrings m.msg).subject = r.password
  commands : ∀ m ∈ ms,
    m.body = requestBody ((reqs.filter fun r => nodeEq m.msg.nodeTo r.link).map UplReq.command)

/-- The request is the first to its address. -/
def FirstTo (reqs : List UplReq) (r : UplReq) : Prop := ∃ rest, group reqs r.addr = r :: rest

/-- A node has one text, and requests to it one robot and one password, which
are there and fit their fields; no address is part of another before it; and
there is room for all of them. -/
structure Sendable (reqs : List UplReq) : Prop where
  oneText : ∀ r ∈ reqs, ∀ r' ∈ reqs, nodeEq r.link r'.link = true → r.addr = r'.addr
  noneHidden : NoneHidden strstr (reqs.map UplReq.addr)
  room : ((reqs.map UplReq.addr).dedup.map fun a => a.length + 1).sum < BUFSIZ
  same : ∀ r ∈ reqs, ∀ r' ∈ reqs, r.addr = r'.addr →
    r.robotname = r'.robotname ∧ r.password = r'.password
  given : ∀ r ∈ reqs, r.robotname ≠ [] ∧ r.password ≠ []
  sender : ∀ r ∈ reqs, FirstTo reqs r → r.name ≠ []
  fits : ∀ r ∈ reqs, r.robotname.length < MSG_MAXNAME ∧ r.password.length < MSG_MAXSUBJ

section

variable {t : Tables} {ck : SendClock} {cf : Config} {reqs : List UplReq} {ms : List Netmail}
  {m : Netmail} {a : Str}

theorem length_linksOf (l : List Str) : (linksOf l).length = (l.map fun a => a.length + 1).sum := by
  rw [linksOf, List.length_flatMap]
  simp [lit]

theorem length_requestBody (cs : List Str) : (requestBody cs).length = cs.length := by
  cases cs <;> rfl

/-- Requests with one address are for one node. -/
theorem nodeEq_of_addr {r r' : UplReq} (hr : r.Plain) (hr' : r'.Plain) (h : r.addr = r'.addr) :
    nodeEq r.link r'.link = true := by
  have h1 := hr.read 0 nodeClear
  have h2 := hr'.read 0 nodeClear
  rw [← h] at h2
  rw [nodeEq_comm] at h1
  exact nodeEq_trans h1 h2

theorem MailFor.mem (h : MailFor reqs a m) : ∃ r ∈ reqs, r.addr = a ∧
    nodeEq m.msg.nodeTo r.link = true := by
  obtain ⟨r, rest, hg, hmail⟩ := h
  have hr : r ∈ group reqs a := by
    rw [hg]
    exact List.mem_cons_self
  exact ⟨r, List.mem_of_mem_filter hr, by simpa using (List.mem_filter.mp hr).2, hmail.link⟩

/-- The node of the netmail is that of its requests. -/
theorem MailFor.link (hplain : ∀ r ∈ reqs, r.Plain) (h : MailFor reqs a m) {r : UplReq}
    (hr : r ∈ reqs) (ha : r.addr = a) : nodeEq m.msg.nodeTo r.link = true := by
  obtain ⟨r', hr', ha', hlink⟩ := h.mem
  exact nodeEq_trans hlink (nodeEq_of_addr (hplain r' hr') (hplain r hr) (ha'.trans ha.symm))

/-- What a netmail has to hold by its node is what it holds by its address. -/
theorem MailFor.filter (hplain : ∀ r ∈ reqs, r.Plain) (h : MailFor reqs a m) :
    group reqs a =
      (reqs.filter fun r => nodeEq m.msg.nodeTo r.link).filter (·.addr == a) := by
  rw [List.filter_filter, group]
  refine List.filter_congr fun r hr => ?_
  cases ha : r.addr == a with
  | false => rfl
  | true => rw [h.link hplain hr (beq_iff_eq.mp ha)]; rfl

/-- A netmail that holds all requests to its node holds those to one address,
so the node has no other. -/
theorem AllServed.addr (hplain : ∀ r ∈ reqs, r.Plain) (hd : AllServed reqs ms) (hm : m ∈ ms)
    (h : MailFor reqs a m) : ∀ r ∈ reqs, nodeEq m.msg.nodeTo r.link = true → r.addr = a := by
  have hlen : (group reqs a).length =
      (reqs.filter fun r => nodeEq m.msg.nodeTo r.link).length := by
    have hbody := hd.commands m hm
    obtain ⟨r, rest, hg, hmail⟩ := h
    obtain ⟨_, _, _, more, -, -, -, hcode⟩ := hmail.fields
    have hcount := congrArg List.length (hcode.symm.trans hbody)
    rw [length_requestBody, List.length_map, List.length_cons, List.length_map] at hcount
    rw [hg, List.length_cons, hcount]
  rw [h.filter hplain] at hlen
  intro r hr hlink
  have hall := List.length_filter_eq_length_iff.mp hlen r (List.mem_filter.mpr ⟨hr, hlink⟩)
  exact beq_iff_eq.mp hall

theorem AllServed.group_eq (hplain : ∀ r ∈ reqs, r.Plain) (hd : AllServed reqs ms) (hm : m ∈ ms)
    (h : MailFor reqs a m) : reqs.filter (fun r => nodeEq m.msg.nodeTo r.link) = group reqs a := by
  refine List.filter_congr fun r hr => ?_
  rw [Bool.eq_iff_iff, beq_iff_eq]
  exact ⟨hd.addr hplain hm h r hr, h.link hplain hr⟩

/-- Two netmails to one node are one. -/
theorem AllServed.unique (hd : AllServed reqs ms) {m' : Netmail} (hm : m ∈ ms) (hm' : m' ∈ ms)
    (h : nodeEq m.msg.nodeTo m'.msg.nodeTo = true) : m = m' := by
  by_contra hne
  have hsymm : Std.Symm fun m m' : Netmail => nodeEq m.msg.nodeTo m'.msg.nodeTo = false :=
    ⟨fun _ _ h => (nodeEq_comm _ _).trans h⟩
  have hapart := List.Pairwise.forall hd.apart hm hm' hne
  rw [hapart] at h
  cases h

/-- The netmails of a run, one for each address that was taken. -/
theorem SendRequest.mails (h : ∀ r ∈ reqs, r.Plain)
    (hs : SendRequest t ck cf (reqs.map UplReq.line) ms) :
    List.Forall₂ (MailFor reqs) (picks strstr (reqs.map UplReq.addr)) ms ∧
      (linksOf (picks strstr (reqs.map UplReq.addr))).length < BUFSIZ := by
  obtain ⟨n, cf', hs⟩ := hs
  have hempty : (linksOf []).length < BUFSIZ := by decide
  obtain ⟨as, has, hmails, hroom, hall⟩ := sendLoop_rounds h hempty hs
  rw [List.nil_append] at hroom hall
  have hpicks : as = picks strstr (reqs.map UplReq.addr) := by
    rw [has]
    refine rounds_eq_picks strstr_self ?_
    rw [← has]
    intro k hk
    obtain ⟨r, hr, rfl⟩ := List.mem_map.mp hk
    exact hall r hr
  rw [← hpicks]
  exact ⟨hmails, hroom⟩

/-- Every field a netmail is made from has a byte. -/
theorem fields_ne_nil {r : UplReq} {nameTo nameFrom subject : Str} {more : List Str}
    (h : [r.robotname, r.name, r.password].filter (! ·.isEmpty) ++ [r.command] =
      nameTo :: nameFrom :: subject :: more) : nameTo ≠ [] ∧ subject ≠ [] := by
  have hall : ∀ f ∈ [r.robotname, r.name, r.password].filter (! ·.isEmpty) ++ [r.command],
      f ≠ [] := by
    intro f hf
    rcases List.mem_append.mp hf with hf | hf
    · have hne := (List.mem_filter.mp hf).2
      rintro rfl
      cases hne
    · obtain ⟨c, -, hcommand⟩ := r.command_ne
      rw [List.mem_singleton.mp hf, hcommand]
      exact List.cons_ne_nil c _
  rw [h] at hall
  exact ⟨hall _ List.mem_cons_self,
    hall _ (List.mem_cons_of_mem _ (List.mem_cons_of_mem _ List.mem_cons_self))⟩

/-- The addresses taken, where these are all, need the room of all. -/
theorem length_linksOf_picks {ks : List Str} (h : ∀ k ∈ ks, k ∈ picks strstr ks) :
    (linksOf (picks strstr ks)).length = (ks.dedup.map fun a => a.length + 1).sum := by
  have hperm : (picks strstr ks).Perm ks.dedup := by
    refine (List.perm_ext_iff_of_nodup (nodup_picks strstr_self ks) ks.nodup_dedup).mpr ?_
    intro k
    rw [List.mem_dedup]
    exact ⟨fun hk => picks_subset hk, h k⟩
  rw [length_linksOf, (hperm.map _).sum_nat]

/-- What is delivered could be sent. -/
theorem AllServed.sendable (h : ∀ r ∈ reqs, r.Plain)
    (hs : SendRequest t ck cf (reqs.map UplReq.line) ms) (hd : AllServed reqs ms) :
    Sendable reqs := by
  obtain ⟨hmails, hroom⟩ := hs.mails h
  have hmail : ∀ r ∈ reqs, ∃ m ∈ ms, MailFor reqs r.addr m ∧
      r.addr ∈ picks strstr (reqs.map UplReq.addr) ∧ nodeEq m.msg.nodeTo r.link = true ∧
      (pktMsgSanitizeStrings m.msg).nameTo = r.robotname ∧
      (pktMsgSanitizeStrings m.msg).subject = r.password := by
    intro r hr
    obtain ⟨m, hm, hlink, hname, hsubject⟩ := hd.served r hr
    obtain ⟨a, ha, hma⟩ := (exists_of_forall₂ hmails).2 m hm
    have haddr := hd.addr h hm hma r hr hlink
    rw [haddr]
    exact ⟨m, hm, hma, ha, hlink, hname, hsubject⟩
  have hpicked : ∀ a ∈ reqs.map UplReq.addr, a ∈ picks strstr (reqs.map UplReq.addr) := by
    intro a ha
    obtain ⟨r, hr, rfl⟩ := List.mem_map.mp ha
    obtain ⟨m, -, -, hmem, -⟩ := hmail r hr
    exact hmem
  have hone : ∀ r ∈ reqs, ∀ r' ∈ reqs, nodeEq r.link r'.link = true → r.addr = r'.addr := by
    intro r hr r' hr' hlink
    obtain ⟨m, hm, hma, -, hr'', -⟩ := hmail r hr
    exact (hd.addr h hm hma r' hr' (nodeEq_trans hr'' hlink)).symm
  have hsame : ∀ r ∈ reqs, ∀ r' ∈ reqs, r.addr = r'.addr →
      r.robotname = r'.robotname ∧ r.password = r'.password := by
    intro r hr r' hr' haddr
    obtain ⟨m, hm, hma, -, hlink, hname, hsubject⟩ := hmail r hr
    obtain ⟨m', hm', hma', -, hlink', hname', hsubject'⟩ := hmail r' hr'
    have hto : nodeEq m.msg.nodeTo m'.msg.nodeTo = true := by
      rw [nodeEq_comm m.msg.nodeTo]
      exact nodeEq_trans hlink' (by
        rw [nodeEq_comm]
        exact hma.link h hr' haddr.symm)
    obtain rfl := hd.unique hm hm' hto
    exact ⟨hname.symm.trans hname', hsubject.symm.trans hsubject'⟩
  have hgiven : ∀ r ∈ reqs, r.robotname ≠ [] ∧ r.password ≠ [] := by
    intro r hr
    obtain ⟨m, -, ⟨r', rest, -, hmade⟩, -, -, hname, hsubject⟩ := hmail r hr
    obtain ⟨nameTo, nameFrom, subject, more, hfields, hto, hsub, -⟩ := hmade.fields
    obtain ⟨hne, hne'⟩ := fields_ne_nil hfields
    rw [← hname, ← hsubject]
    refine ⟨?_, ?_⟩
    · rw [pktMsgSanitizeStrings, hto, bufCopy]
      cases nameTo with
      | nil => exact absurd rfl hne
      | cons c s => exact List.cons_ne_nil _ _
    · rw [pktMsgSanitizeStrings, hsub, bufCopy]
      cases subject with
      | nil => exact absurd rfl hne'
      | cons c s => exact List.cons_ne_nil _ _
  refine ⟨hone, (forall_mem_picks_iff strstr_self _).mp hpicked, ?_, hsame, hgiven, ?_, ?_⟩
  · rw [← length_linksOf_picks hpicked]
    exact hroom
  · -- without a sender the request is taken for the password, and nothing for it
    rintro r hr ⟨rest, hfirst⟩ hname
    obtain ⟨m, hm, hma, -⟩ := hmail r hr
    have hbody := hd.commands m hm
    rw [hd.group_eq h hm hma, hfirst] at hbody
    obtain ⟨r', rest', hg, hmade⟩ := hma
    obtain ⟨rfl, rfl⟩ := List.cons.inj (hfirst.symm.trans hg)
    obtain ⟨nameTo, nameFrom, subject, more, hfields, -, -, hcode⟩ := hmade.fields
    obtain ⟨hrobot, hpassword⟩ := hgiven r hr
    have hmore : more = [] := by
      have hlen := congrArg List.length hfields
      simp [hname, hrobot, hpassword] at hlen
      exact hlen
    obtain ⟨c, hc, hcommand⟩ := r.command_ne
    rw [hcode, hmore, List.map_cons, requestBody, hcommand] at hbody
    have hhead : (40 : UInt8) = c :=
      (List.cons.inj (List.cons.inj (List.cons.inj (List.cons.inj hbody).1).2).2).1
    rw [← hhead] at hc
    revert hc
    decide
  · intro r hr
    obtain ⟨m, -, -, -, -, hname, hsubject⟩ := hmail r hr
    rw [← hname, ← hsubject]
    exact ⟨Nat.lt_of_le_of_lt (List.length_take_le _ _) (by decide),
      Nat.lt_of_le_of_lt (List.length_take_le _ _) (by decide)⟩

theorem requestBody_take {r : UplReq} (h : r.Plain) :
    (cr :: lf :: r.command).take 4095 = cr :: lf :: r.command := by
  have hshort := h.short
  refine List.take_of_length_le ?_
  rw [r.text_eq] at hshort
  simp only [List.length_append, List.length_cons] at hshort ⊢
  have hcomma : (lit ",").length = 1 := rfl
  have hsplit : ((r.addr ++ lit "," ++ r.robotname ++ lit "," ++ r.name ++ lit "," ++
      r.password) ++ 44 :: r.command).length < 4096 := by
    rw [← r.text_eq]
    exact h.short
  omega

/-- A text that fits is not cut, neither in the buffer nor in the header. -/
theorem take_bufCopy {s : Str} {n k : Nat} (hk : s.length < k) (hn : s.length < n) :
    (bufCopy n s).take (k - 1) = s := by
  rw [bufCopy, List.take_of_length_le (Nat.le_sub_one_of_lt hn),
    List.take_of_length_le (Nat.le_sub_one_of_lt hk)]

/-- What can be sent is sent, and all of it delivered. -/
theorem Sendable.delivered (h : ∀ r ∈ reqs, r.Plain) (hs : Sendable reqs) :
    ∃ ms, SendRequest t ck cf (reqs.map UplReq.line) ms ∧ AllServed reqs ms := by
  have hpicked := (forall_mem_picks_iff strstr_self _).mpr hs.noneHidden
  have hroom : (linksOf (picks strstr (reqs.map UplReq.addr))).length < BUFSIZ := by
    rw [length_linksOf_picks hpicked]
    exact hs.room
  have hfirst : ∀ a ∈ picks strstr (reqs.map UplReq.addr), ∃ r rest, group reqs a = r :: rest ∧
      r ∈ reqs ∧ r.addr = a ∧ FirstTo reqs r := by
    intro a ha
    obtain ⟨x, hx, hxa⟩ := List.mem_map.mp (picks_subset ha)
    have hmem : x ∈ group reqs a := List.mem_filter.mpr ⟨hx, beq_iff_eq.mpr hxa⟩
    cases hg : group reqs a with
    | nil =>
        rw [hg] at hmem
        cases hmem
    | cons r rest =>
        have hr : r ∈ group reqs a := by
          rw [hg]
          exact List.mem_cons_self
        have hra : r.addr = a := beq_iff_eq.mp (List.mem_filter.mp hr).2
        exact ⟨r, rest, rfl, List.mem_of_mem_filter hr, hra, rest, by rw [hra, hg]⟩
  obtain ⟨ms, hsend⟩ : ∃ ms, SendRequest t ck cf (reqs.map UplReq.line) ms := by
    have hrounds := picks_eq_rounds strstr_self
      (Nat.lt_succ_self (reqs.map UplReq.addr).length)
    have hfields : ∀ a ∈ rounds strstr (reqs.map UplReq.addr)
        ((reqs.map UplReq.addr).length + 1) [], ∃ r rest,
          group reqs a = r :: rest ∧ r.robotname ≠ [] ∧ r.name ≠ [] ∧ r.password ≠ [] := by
      intro a ha
      rw [← hrounds] at ha
      obtain ⟨r, rest, hg, hr, -, hone⟩ := hfirst a ha
      obtain ⟨hrobot, hpassword⟩ := hs.given r hr
      exact ⟨r, rest, hg, hrobot, hs.sender r hr hone, hpassword⟩
    have hall : ∀ r ∈ reqs, shows strstr ([] ++ rounds strstr (reqs.map UplReq.addr)
        ((reqs.map UplReq.addr).length + 1) []) r.addr = true := by
      intro r hr
      rw [List.nil_append, ← hrounds]
      exact shows_picks strstr_self (List.mem_map_of_mem hr)
    obtain ⟨ms, cf', hloop⟩ := @sendLoop_of_rounds t ck reqs h _ [] cf hfields
      (by rw [List.nil_append, ← hrounds]; exact hroom) hall
    exact ⟨ms, _, cf', hloop⟩
  refine ⟨ms, hsend, ?_⟩
  obtain ⟨hmails, -⟩ := hsend.mails h
  have hgroup : ∀ {a : Str} {m : Netmail}, MailFor reqs a m →
      reqs.filter (fun r => nodeEq m.msg.nodeTo r.link) = group reqs a := by
    intro a m hma
    refine List.filter_congr fun r hr => ?_
    rw [Bool.eq_iff_iff, beq_iff_eq]
    refine ⟨fun hlink => ?_, hma.link h hr⟩
    obtain ⟨x, hx, hxa, hxlink⟩ := hma.mem
    rw [nodeEq_comm] at hlink
    exact (hs.oneText r hr x hx (nodeEq_trans hlink hxlink)).trans hxa
  have hmade : ∀ {a : Str} {m : Netmail}, MailFor reqs a m → ∀ r ∈ reqs, r.addr = a →
      (pktMsgSanitizeStrings m.msg).nameTo = r.robotname ∧
      (pktMsgSanitizeStrings m.msg).subject = r.password ∧
      m.body = requestBody ((group reqs a).map UplReq.command) := by
    rintro a m ⟨r', rest, hg, hmail⟩ r hr hra
    have hmem : r' ∈ group reqs a := by
      rw [hg]
      exact List.mem_cons_self
    have hr' : r' ∈ reqs := List.mem_of_mem_filter hmem
    have hra' : r'.addr = a := beq_iff_eq.mp (List.mem_filter.mp hmem).2
    obtain ⟨hrobot, hpassword⟩ := hs.given r' hr'
    have hname := hs.sender r' hr' ⟨rest, by rw [hra', hg]⟩
    obtain ⟨hfit, hfit'⟩ := hs.fits r' hr'
    obtain ⟨hsame, hsame'⟩ := hs.same r hr r' hr' (hra.trans hra'.symm)
    obtain ⟨nameTo, nameFrom, subject, more, hfields, hto, hsub, hbody⟩ := hmail.fields
    have hall : [r'.robotname, r'.name, r'.password].filter (! ·.isEmpty) =
        [r'.robotname, r'.name, r'.password] := by
      simp [hrobot, hname, hpassword]
    rw [hall] at hfields
    obtain ⟨rfl, rfl, rfl, rfl⟩ : r'.robotname = nameTo ∧ r'.name = nameFrom ∧
        r'.password = subject ∧ [r'.command] = more := by
      simpa using hfields
    refine ⟨?_, ?_, ?_⟩
    · rw [hsame, pktMsgSanitizeStrings, hto]
      exact take_bufCopy hfit (Nat.lt_of_lt_of_le hfit (by decide))
    · rw [hsame', pktMsgSanitizeStrings, hsub]
      exact take_bufCopy hfit' (Nat.lt_of_lt_of_le hfit' (by decide))
    · rw [hbody, List.head?_cons, Option.getD_some, requestBody_take (h r' hr'), hg, List.map_cons,
        requestBody]
  refine ⟨pairwise_of_forall₂ hmails (nodup_picks strstr_self _) ?_, ?_, ?_, ?_⟩
  · intro a _ a' _ m m' hne hma hma'
    obtain ⟨r, hr, hra, hlink⟩ := hma.mem
    obtain ⟨r', hr', hra', hlink'⟩ := hma'.mem
    rw [Bool.eq_false_iff]
    intro heq
    refine hne (hra.symm.trans ((hs.oneText r hr r' hr' ?_).trans hra'))
    rw [nodeEq_comm] at hlink
    exact nodeEq_trans hlink (nodeEq_trans heq hlink')
  · intro m hm
    obtain ⟨a, -, hma⟩ := (exists_of_forall₂ hmails).2 m hm
    obtain ⟨r, hr, -, hlink⟩ := hma.mem
    exact ⟨r, hr, hlink⟩
  · intro r hr
    obtain ⟨m, hm, hma⟩ := (exists_of_forall₂ hmails).1 r.addr
      (hpicked r.addr (List.mem_map_of_mem hr))
    obtain ⟨hname, hsubject, -⟩ := hmade hma r hr rfl
    exact ⟨m, hm, hma.link h hr rfl, hname, hsubject⟩
  · intro m hm
    obtain ⟨a, -, hma⟩ := (exists_of_forall₂ hmails).2 m hm
    obtain ⟨r, hr, hra, -⟩ := hma.mem
    rw [hgroup hma]
    exact (hmade hma r hr hra).2.2

end

/-- The requests of the queue are delivered just where they can be sent. -/
theorem sendRequest_delivers_iff (t : Tables) (ck : SendClock) (cf : Config) {reqs : List UplReq}
    (h : ∀ r ∈ reqs, r.Plain) :
    (∃ ms, SendRequest t ck cf (reqs.map UplReq.line) ms ∧ AllServed reqs ms) ↔ Sendable reqs :=
  ⟨fun ⟨_, hs, hd⟩ => hd.sendable h hs, fun hs => hs.delivered h⟩

/-- A request for an area. -/
def requestFor (node : Int) (add : Bool) (area : Str) : UplReq :=
  ⟨⟨2, 5020, node, 0, []⟩, false, lit "AreaFix", lit "Areafix Daemon", lit "pw", add, area⟩

theorem requestFor_plain {node : Int} {add : Bool} {area : Str}
    (hlink : (requestFor node add area).link.Fits) (haddr : 44 ∉ (requestFor node add area).addr)
    (harea : 44 ∉ area) (hshort : (requestFor node add area).text.length < 4096) :
    (requestFor node add area).Plain := by
  have hrobot : IsField (lit "AreaFix") := ⟨by decide, by decide⟩
  have hname : IsField (lit "Areafix Daemon") := ⟨by decide, by decide⟩
  have hpassword : IsField (lit "pw") := ⟨by decide, by decide⟩
  exact ⟨hlink, haddr, hrobot, hname, hpassword, harea, hshort⟩

/-- Two requests to one uplink, with one to another between them. -/
theorem sendRequest_delivers_three :
    ∃ ms, SendRequest ⟨true, lit "af", [], []⟩ ⟨fun _ => 0, fun _ => 0⟩
        (Config.read ⟨2, ⟨2, 5020, 9, 0, []⟩, ⟨2, 5020, 9, 0, []⟩⟩ [] [])
        ([requestFor 1 true (lit "A"), requestFor 2 true (lit "B"),
          requestFor 1 false (lit "C")].map UplReq.line) ms ∧
      AllServed [requestFor 1 true (lit "A"), requestFor 2 true (lit "B"),
        requestFor 1 false (lit "C")] ms := by
  have hplain : ∀ r ∈ [requestFor 1 true (lit "A"), requestFor 2 true (lit "B"),
      requestFor 1 false (lit "C")], r.Plain := by
    refine List.forall_mem_cons.mpr ⟨?_, List.forall_mem_cons.mpr ⟨?_,
      List.forall_mem_singleton.mpr ?_⟩⟩
    · exact requestFor_plain (by decide) (by decide +kernel) (by decide) (by decide +kernel)
    · exact requestFor_plain (by decide) (by decide +kernel) (by decide) (by decide +kernel)
    · exact requestFor_plain (by decide) (by decide +kernel) (by decide) (by decide +kernel)
  refine (sendRequest_delivers_iff _ _ _ hplain).mpr ⟨by decide +kernel, ?_, by decide +kernel,
    by decide +kernel, by decide +kernel, ?_, by decide +kernel⟩
  · exact (forall_mem_picks_iff strstr_self _).mp (by decide +kernel)
  · have hname : ∀ r ∈ [requestFor 1 true (lit "A"), requestFor 2 true (lit "B"),
        requestFor 1 false (lit "C")], r.name ≠ [] := by
      decide +kernel
    exact fun r hr _ => hname r hr

/-- The address 2:5020/1 is in 2:5020/100, so nobody is asked for the second
area. -/
theorem sendRequest_hidden :
    ¬ ∃ ms, SendRequest ⟨true, lit "af", [], []⟩ ⟨fun _ => 0, fun _ => 0⟩
        (Config.read ⟨2, ⟨2, 5020, 9, 0, []⟩, ⟨2, 5020, 9, 0, []⟩⟩ [] [])
        ([requestFor 100 true (lit "A"), requestFor 1 true (lit "B")].map UplReq.line) ms ∧
      AllServed [requestFor 100 true (lit "A"), requestFor 1 true (lit "B")] ms := by
  rintro ⟨ms, hs, hd⟩
  have hplain : ∀ r ∈ [requestFor 100 true (lit "A"), requestFor 1 true (lit "B")], r.Plain := by
    refine List.forall_mem_cons.mpr ⟨?_, List.forall_mem_singleton.mpr ?_⟩
    · exact requestFor_plain (by decide) (by decide +kernel) (by decide) (by decide +kernel)
    · exact requestFor_plain (by decide) (by decide +kernel) (by decide) (by decide +kernel)
  have hnone := (hd.sendable hplain hs).noneHidden [lit "2:5020/100"] (lit "2:5020/1") []
    (by decide +kernel) (by decide) _ List.mem_cons_self
  revert hnone
  decide

end Fidogate

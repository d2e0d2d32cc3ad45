/-
# `Fidogate.Areafix.Ftnafpkt` — ftnafpkt.c: the reply of Areafix by netmail

A reply is cut into netmails of some lines each, with an empty line in front of
each.  The line that opens a part is not counted, so a later part takes one
line too many, and one that has no other line is never sent.
-/
import Fidogate.Areafix.SendRequest

namespace Fidogate

open Bytes

/-! ## The program -/

/-- The loop of `do_netmail` over the lines of the reply, with its counter and
the part so far: the parts handed to `outpkt_netmail`, and whether all calls
succeeded (`ok`). -/
def netmailLoop (maxstr : Nat) : (Nat → Bool) → List Str → Nat → List Str → List (List Str) × Bool
  | ok, [], ln, tmp =>
      if ln > 1 then if ok 0 then ([tmp], true) else ([], false)
      else ([], true)
  | ok, l :: ls, ln, tmp =>
      if ln ≤ maxstr then netmailLoop maxstr ok ls (ln + 1) (tmp ++ [l])
      else if ok 0 then
        -- `ln` is 0 in front of the line and counted up behind it
        let r := netmailLoop maxstr (fun i => ok (i + 1)) ls 1 [[], l]
        (tmp :: r.1, r.2)
      else ([], false)

/-- What `do_netmail` meets: its charset tables, the calls of `outpkt_netmail`,
the time and the sequencer. -/
structure ReplyWorld where
  xlat : Str → Str
  ok : Nat → Bool
  now : Int
  msgid : Int

/-- The header of the reply. -/
def replyMsg (t : Tables) (w : ReplyWorld) (msg : Message) : Message :=
  { Message.clear with
    date := w.now
    nodeTo := msg.nodeFrom
    nodeFrom := nodeClear
    nameFrom := bufCopy NAMEBUFSIZE (areafixName t)
    nameTo := bufCopy NAMEBUFSIZE msg.nameFrom
    subject := bufCopy SUBJBUFSIZE (lit "Your " ++ areafixName t ++ lit " Request") }

/-- The netmails for the parts; `outpkt_netmail` puts its own address into the
header, which goes on with the next part. -/
def replyNetmails (e : OutpktEnv) : Int → Message → List (List Str) → List Netmail
  | _, _, [] => []
  | msgid, msg, body :: parts =>
      let m : Netmail := ⟨msg, body, lit "ftnafpkt", [], none, msgid⟩
      m :: replyNetmails e (msgid + 1) (m.addressed e) parts

/-- `do_netmail` with the lines of `areafix_do`: the netmails and whether it
succeeded. -/
def ftnafpktDoNetmail (e : OutpktEnv) (t : Tables) (maxstr : Nat) (w : ReplyWorld) (rFlag : Bool)
    (msg : Message) (reply : List Str) : List Netmail × Bool :=
  if rFlag then ([], true)
  else
    let r := netmailLoop maxstr w.ok (reply.map w.xlat) 1 [[]]
    (replyNetmails e w.msgid (replyMsg t w msg) r.1, r.2)

/-! ## What a reply should be -/

/-- The netmails are for the sender of the request, none has more lines than
allowed behind its empty line, and together they have the lines of the
reply. -/
structure Replied (e : OutpktEnv) (maxstr : Nat) (msg : Message) (reply : List Str)
    (ms : List Netmail) : Prop where
  addressed : ∀ m ∈ ms, (m.addressed e).nodeTo = msg.nodeFrom ∧
    (m.addressed e).nameTo = bufCopy NAMEBUFSIZE msg.nameFrom
  limit : ∀ m ∈ ms, m.body.head? = some [] ∧ m.body.tail.length ≤ maxstr
  complete : ms.flatMap (·.body.tail) = reply

/-- The parts are within the limit and complete. -/
structure PartsOk (maxstr : Nat) (lines : List Str) (parts : List (List Str)) : Prop where
  limit : ∀ b ∈ parts, b.head? = some [] ∧ b.tail.length ≤ maxstr
  complete : parts.flatMap List.tail = lines

section

variable {maxstr : Nat} {ok : Nat → Bool}

/-- Lines that fit all go to the part. -/
theorem netmailLoop_of_le (hok : ok 0 = true) : ∀ {ls : List Str} {ln : Nat} {tmp : List Str},
    ln + ls.length ≤ maxstr + 1 → netmailLoop maxstr ok ls ln tmp =
      (if 1 < ln + ls.length then [tmp ++ ls] else [], true)
  | [], ln, tmp, _ => by
      rw [netmailLoop, hok, List.length_nil, Nat.add_zero, List.append_nil]
      split <;> rfl
  | l :: ls, ln, tmp, h => by
      rw [List.length_cons] at h
      rw [netmailLoop, if_pos (by omega), netmailLoop_of_le hok (by omega), List.append_assoc,
        List.length_cons, Nat.add_right_comm ln, Nat.add_assoc]
      rfl

/-- Lines that do not fit fill the part, and the next one opens another. -/
theorem netmailLoop_full (hok : ok 0 = true) : ∀ {ls : List Str} {ln : Nat} {l : Str}
    {rest tmp : List Str}, ln + ls.length = maxstr + 1 →
    netmailLoop maxstr ok (ls ++ l :: rest) ln tmp =
      ((tmp ++ ls) :: (netmailLoop maxstr (fun i => ok (i + 1)) rest 1 [[], l]).1,
        (netmailLoop maxstr (fun i => ok (i + 1)) rest 1 [[], l]).2)
  | [], ln, l, rest, tmp, h => by
      rw [List.length_nil] at h
      rw [List.nil_append, netmailLoop, if_neg (by omega), if_pos hok, List.append_nil]
  | l' :: ls, ln, l, rest, tmp, h => by
      rw [List.length_cons] at h
      rw [List.cons_append, netmailLoop, if_pos (by omega), netmailLoop_full hok (by omega),
        List.append_assoc]
      rfl

/-- The length of a reply that is sent as it should be: one part takes it, or
the second has at least two lines and no more than allowed. -/
def FitsParts (maxstr n : Nat) : Prop := n ≤ maxstr ∨ maxstr + 2 ≤ n ∧ n ≤ 2 * maxstr

instance (maxstr n : Nat) : Decidable (FitsParts maxstr n) :=
  inferInstanceAs (Decidable (_ ∨ _ ∧ _))

/-- Lines that are too many for a part. -/
theorem exists_full {lines : List Str} {n : Nat} (h : ¬ lines.length ≤ n) :
    ∃ first l rest, lines = first ++ l :: rest ∧ first.length = n := by
  have hdrop : lines.drop n ≠ [] := by
    rw [ne_eq, List.drop_eq_nil_iff]
    exact h
  obtain ⟨l, rest, hd⟩ := List.exists_cons_of_ne_nil hdrop
  refine ⟨lines.take n, l, rest, ?_, ?_⟩
  · rw [← hd, List.take_append_drop]
  · rw [List.length_take]
    omega

/-- A reply longer than a part has a second one. -/
theorem netmailLoop_split (hok : ∀ i, ok i = true) {first rest : List Str} {l : Str}
    (hfirst : first.length = maxstr) : netmailLoop maxstr ok (first ++ l :: rest) 1 [[]] =
      (([] :: first) :: (netmailLoop maxstr (fun i => ok (i + 1)) rest 1 [[], l]).1,
        (netmailLoop maxstr (fun i => ok (i + 1)) rest 1 [[], l]).2) := by
  rw [netmailLoop_full (hok 0) (by omega)]
  rfl

theorem partsOk_iff (hok : ∀ i, ok i = true) (lines : List Str) :
    PartsOk maxstr lines (netmailLoop maxstr ok lines 1 [[]]).1 ↔
      FitsParts maxstr lines.length := by
  by_cases hle : lines.length ≤ maxstr
  · -- one part, or none
    rw [netmailLoop_of_le (hok 0) (by omega)]
    refine ⟨fun _ => Or.inl hle, fun _ => ?_⟩
    cases lines with
    | nil => exact ⟨fun b hb => absurd hb List.not_mem_nil, rfl⟩
    | cons l ls =>
        rw [if_pos (by rw [List.length_cons]; omega)]
        refine ⟨fun b hb => ?_, List.append_nil _⟩
        cases List.mem_singleton.mp hb
        exact ⟨rfl, hle⟩
  · obtain ⟨first, l, rest, rfl, hfirst⟩ := exists_full hle
    have hlen : (first ++ l :: rest).length = maxstr + 1 + rest.length := by
      rw [List.length_append, List.length_cons, hfirst]
      omega
    rw [netmailLoop_split hok hfirst, hlen]
    by_cases hrest : rest.length ≤ maxstr
    · rw [netmailLoop_of_le (hok 1) (by omega)]
      by_cases hnil : rest = []
      · -- the line that opens the second part is lost
        subst hnil
        refine ⟨fun h => ?_, fun h => ?_⟩
        · have hc := congrArg List.length h.complete
          simp at hc
        · unfold FitsParts at h
          rw [List.length_nil] at h
          omega
      · have hpos := List.length_pos_of_ne_nil hnil
        rw [if_pos (by omega)]
        refine ⟨fun h => ?_, fun h => ⟨fun b hb => ?_, ?_⟩⟩
        · have hl := (h.limit _ (List.mem_cons_of_mem _ (List.mem_singleton_self _))).2
          rw [List.cons_append, List.tail_cons, List.length_append, List.length_singleton] at hl
          exact Or.inr ⟨by omega, by omega⟩
        · rcases List.mem_cons.mp hb with rfl | hb
          · exact ⟨rfl, hfirst.le⟩
          · cases List.mem_singleton.mp hb
            refine ⟨rfl, ?_⟩
            rw [List.cons_append, List.tail_cons, List.length_append, List.length_singleton]
            unfold FitsParts at h
            omega
        · simp
    · -- the second part is full, with the line that opens it
      obtain ⟨second, l', rest', rfl, hsecond⟩ := exists_full hrest
      rw [netmailLoop_full (hok 1) (by omega)]
      refine ⟨fun h => ?_, fun h => ?_⟩
      · have hl := (h.limit _ (List.mem_cons_of_mem _ List.mem_cons_self)).2
        rw [List.cons_append, List.tail_cons, List.length_append, List.length_singleton] at hl
        omega
      · unfold FitsParts at h
        rw [List.length_append, List.length_cons] at h
        omega

end

/-! ## The netmails -/

section

variable {e : OutpktEnv}

theorem replyNetmails_body : ∀ (parts : List (List Str)) (msgid : Int) (msg : Message),
    (replyNetmails e msgid msg parts).map (·.body) = parts
  | [], _, _ => rfl
  | body :: parts, msgid, _ => congrArg (body :: ·) (replyNetmails_body parts (msgid + 1) _)

theorem addressed_to (m : Netmail) : (m.addressed e).nodeTo = m.msg.nodeTo ∧
    (m.addressed e).nameTo = m.msg.nameTo := by
  unfold Netmail.addressed
  dsimp only
  split
  · exact ⟨rfl, rfl⟩
  · exact ⟨rfl, rfl⟩

/-- The address put in by one call does not change whom the next one is for. -/
theorem replyNetmails_to (parts : List (List Str)) : ∀ (msgid : Int) (msg : Message),
    ∀ m ∈ replyNetmails e msgid msg parts,
      (m.addressed e).nodeTo = msg.nodeTo ∧ (m.addressed e).nameTo = msg.nameTo := by
  induction parts with
  | nil =>
      intro _ _ m hm
      exact absurd hm List.not_mem_nil
  | cons body parts ih =>
      intro msgid msg m hm
      rcases List.mem_cons.mp hm with h | hm
      · rw [h]
        exact addressed_to ⟨msg, body, lit "ftnafpkt", [], none, msgid⟩
      · obtain ⟨h1, h2⟩ := ih _ _ m hm
        obtain ⟨h3, h4⟩ := addressed_to (e := e) ⟨msg, body, lit "ftnafpkt", [], none, msgid⟩
        exact ⟨h1.trans h3, h2.trans h4⟩

theorem replied_iff {maxstr : Nat} {t : Tables} {w : ReplyWorld} {msg : Message}
    {reply : List Str} (parts : List (List Str)) :
    Replied e maxstr msg reply (replyNetmails e w.msgid (replyMsg t w msg) parts) ↔
      PartsOk maxstr reply parts := by
  have hbody := replyNetmails_body (e := e) parts w.msgid (replyMsg t w msg)
  have hmem : ∀ b, b ∈ parts ↔
      ∃ m ∈ replyNetmails e w.msgid (replyMsg t w msg) parts, m.body = b := by
    intro b
    rw [← List.mem_map, hbody]
  have hflat : (replyNetmails e w.msgid (replyMsg t w msg) parts).flatMap (·.body.tail) =
      parts.flatMap List.tail := by
    rw [← List.flatMap_map, hbody]
  constructor
  · intro h
    refine ⟨fun b hb => ?_, hflat ▸ h.complete⟩
    obtain ⟨m, hm, rfl⟩ := (hmem b).mp hb
    exact h.limit m hm
  · intro h
    exact ⟨replyNetmails_to parts w.msgid _, fun m hm => h.limit _ ((hmem _).mpr ⟨m, hm, rfl⟩),
      hflat.trans h.complete⟩

end

/-- A reply is sent as it should be just if its length fits. -/
theorem ftnafpktDoNetmail_replied_iff (e : OutpktEnv) (t : Tables) (maxstr : Nat)
    (w : ReplyWorld) (hok : ∀ i, w.ok i = true) (msg : Message) (reply : List Str) :
    Replied e maxstr msg (reply.map w.xlat)
        (ftnafpktDoNetmail e t maxstr w false msg reply).1 ↔ FitsParts maxstr reply.length := by
  unfold ftnafpktDoNetmail
  rw [if_neg Bool.false_ne_true]
  dsimp only
  rw [replied_iff, partsOk_iff hok, List.length_map]

/-- ftnafpkt at 2:5020/100, without a charset, and all packets can be written. -/
def replyEnv : OutpktEnv :=
  { ftsVia := false, cf := Config.read ⟨2, ⟨2, 5020, 100, 0, []⟩, ⟨2, 5020, 9, 0, []⟩⟩ [] []
    passwds := [], major := 5, minor := 2, version := lit "5.2", outdir := lit "/out"
    baddir := lit "/bad" }

def replyWorld : ReplyWorld := ⟨id, fun _ => true, 0, 1⟩

/-- A request from 2:5020/9. -/
def requestMsg : Message := { Message.clear with nodeFrom := ⟨2, 5020, 9, 0, []⟩ }

def replyTables : Tables := ⟨true, lit "af", [], []⟩

/-- With the limit as it is configured by default, 300 lines are sent in two
parts. -/
theorem ftnafpktDoNetmail_replied_two :
    Replied replyEnv 150 requestMsg ((List.replicate 300 (lit "x")).map replyWorld.xlat)
        (ftnafpktDoNetmail replyEnv replyTables 150 replyWorld false requestMsg
          (List.replicate 300 (lit "x"))).1 ↔
      FitsParts 150 (List.replicate 300 (lit "x")).length :=
  ftnafpktDoNetmail_replied_iff replyEnv replyTables 150 replyWorld (fun _ => rfl) requestMsg
    (List.replicate 300 (lit "x"))

/-- The last of 151 lines is not sent. -/
theorem ftnafpktDoNetmail_lost : ¬ ∀ (e : OutpktEnv) (t : Tables) (maxstr : Nat)
    (w : ReplyWorld), 1 ≤ maxstr → (∀ i, w.ok i = true) → ∀ (msg : Message) (reply : List Str),
      Replied e maxstr msg (reply.map w.xlat)
        (ftnafpktDoNetmail e t maxstr w false msg reply).1 := by
  intro h
  have hc := (h replyEnv replyTables 150 replyWorld (by decide) (fun _ => rfl) requestMsg
    (List.replicate 151 (lit "x"))).complete
  revert hc
  decide +kernel

end Fidogate

/-
# `Fidogate.Gate.SndMail` — rfc2ftn.c: who may post through the gate

`snd_mail` asks the table of acl.c once for each newsgroup of an article, or
once for the address of a mail.  The patterns that answer are static, and an
article that fails half way leaves them there for the next one.
-/
import Fidogate.Common.Acl
import Fidogate.Common.Areas

namespace Fidogate

open Bytes

def EX_OK : Int := 0

def EX_DATAERR : Int := 65

def EX_UNAVAILABLE : Int := 69

def AREA_LOCALXPOST : Nat := 1

def AREA_NOXPOST : Nat := 2

/-- The configuration `snd_mail` looks at. -/
structure GateCfg where
  areas : List Area
  xlate : Xlate
  checkAreasBbs : Bool
  limitmsgsize : Int

/-- What `snd_mail_prepare` returns, and the sender and the address it finds. -/
structure Prepared where
  rc : Int
  rfcFrom : RFCAddr
  nodeTo : Node

/-- A message, and what the rest of the gate answers for it: `snd_mail_prepare`,
the number of downlinks, whether the sender is local, `snd_message`. -/
structure Mail where
  newsmode : Bool
  control : Option Str
  newsgroups : Option Str
  size : Int
  prepare : Option Area → Prepared
  checkDownlinks : Str → Int
  isLocalXpost : RFCAddr → Bool
  sndMessage : Option Area → Int

/-- The decision on one newsgroup or address; none where the message was
dropped before the table was asked. -/
structure Posting where
  rfcFrom : RFCAddr
  type : AclType
  name : Str
  allowed : Option Bool
  deriving DecidableEq, Repr

/-- "Various checks" -/
def Mail.dropped (m : Mail) (cfg : GateCfg) (xpost : Bool) (pa : Area) (rfcFrom : RFCAddr) : Bool :=
  cfg.checkAreasBbs && m.checkDownlinks pa.area ≤ 0 ||
    xpost && pa.flag AREA_NOXPOST ||
    xpost && pa.flag AREA_LOCALXPOST && ! m.isLocalXpost rfcFrom

/-- "Check message size limit" -/
def Mail.tooBig (m : Mail) (limitsize : Int) : Bool := limitsize > 0 && m.size > limitsize

/-- The state behind `snd_mail`, the decisions it took and what it returns. -/
structure Sent where
  st : AclState
  postings : List Posting
  ret : Int

def Sent.cons (v : Posting) (r : Sent) : Sent := { r with postings := v :: r.postings }

/-- The newsgroups of an article, one after the other. -/
def newsLoop (cfg : GateCfg) (m : Mail) (xpost : Bool) (st : AclState) : List Str → Sent
  | [] => ⟨aclNgrpFree st, [], EX_OK⟩
  | p :: ps =>
      match areasLookup cfg.xlate none (some p) none cfg.areas with
      | none => newsLoop cfg m xpost st ps
      | some pa =>
          let r := m.prepare (some pa)
          -- `goto out` goes past `acl_ngrp_free`
          if r.rc ≠ 0 then ⟨st, [], r.rc⟩
          else
            let rfcFrom := r.rfcFrom
            let st := aclNgrp st rfcFrom .echomail
            if m.dropped cfg xpost pa rfcFrom then
              (newsLoop cfg m xpost st ps).cons ⟨rfcFrom, .echomail, pa.group, none⟩
            else if ! aclNgrpLookup st pa.group then
              (newsLoop cfg m xpost st ps).cons ⟨rfcFrom, .echomail, pa.group, some false⟩
            else if ! m.tooBig pa.limitsize && m.sndMessage (some pa) != 0 then
              ⟨st, [⟨rfcFrom, .echomail, pa.group, some true⟩], m.sndMessage (some pa)⟩
            else (newsLoop cfg m xpost st ps).cons ⟨rfcFrom, .echomail, pa.group, some true⟩

/-- The newsgroups of the Newsgroups header -/
def newsgroupsOf (p : Str) : List Str := strtok (lit ",") (bufCopy BUFSIZ p)

/-- `xpost_flag` -/
def xpostFlag (p : Str) : Bool := (bufCopy BUFSIZ p).contains 44

/-- `snd_mail` -/
def sndMail (cfg : GateCfg) (st : AclState) (m : Mail) : Sent :=
  if m.newsmode then
    if m.control.isSome then ⟨st, [], EX_OK⟩
    else
      match m.newsgroups with
      | none => ⟨st, [], EX_DATAERR⟩
      | some p => newsLoop cfg m (xpostFlag p) st (newsgroupsOf p)
  else
    let r := m.prepare none
    if r.rc ≠ 0 then ⟨st, [], r.rc⟩
    else if m.tooBig cfg.limitmsgsize then ⟨st, [], EX_UNAVAILABLE⟩
    else
      let st := aclNgrp st r.rfcFrom .netmail
      let allowed := aclNgrpLookup st (znf1 r.nodeTo)
      ⟨aclNgrpFree st, [⟨r.rfcFrom, .netmail, znf1 r.nodeTo, some allowed⟩],
        if allowed then m.sndMessage none else EX_OK⟩

/-- The decisions on one message after the other. -/
def sndMails (cfg : GateCfg) (st : AclState) : List Mail → List (List Posting)
  | [] => []
  | m :: ms => (sndMail cfg st m).postings :: sndMails cfg (sndMail cfg st m).st ms

/-! ## What the table says -/

/-- The decisions on the newsgroups of an article, as the table says. -/
def newsRule (cfg : GateCfg) (acl : List Acl) (m : Mail) (xpost : Bool) : List Str → List Posting
  | [] => []
  | p :: ps =>
      match areasLookup cfg.xlate none (some p) none cfg.areas with
      | none => newsRule cfg acl m xpost ps
      | some pa =>
          let r := m.prepare (some pa)
          if r.rc ≠ 0 then []
          else if m.dropped cfg xpost pa r.rfcFrom then
            ⟨r.rfcFrom, .echomail, pa.group, none⟩ :: newsRule cfg acl m xpost ps
          else
            let allowed := aclAllows acl (aclEmail r.rfcFrom) .echomail pa.group
            ⟨r.rfcFrom, .echomail, pa.group, some allowed⟩ ::
              if allowed && ! m.tooBig pa.limitsize && m.sndMessage (some pa) != 0 then []
              else newsRule cfg acl m xpost ps

/-- The decisions on a message, as the table says. -/
def mailRule (cfg : GateCfg) (acl : List Acl) (m : Mail) : List Posting :=
  if m.newsmode then
    if m.control.isSome then []
    else
      match m.newsgroups with
      | none => []
      | some p => newsRule cfg acl m (xpostFlag p) (newsgroupsOf p)
  else
    let r := m.prepare none
    if r.rc ≠ 0 then []
    else if m.tooBig cfg.limitmsgsize then []
    else
      [⟨r.rfcFrom, .netmail, znf1 r.nodeTo,
        some (aclAllows acl (aclEmail r.rfcFrom) .netmail (znf1 r.nodeTo))⟩]

/-- No decision of the list is taken by patterns that were left over: its
sender has patterns of its own, or those in force match none of its names. -/
def NotByLeft (acl : List Acl) : Option (List Str) → List Posting → Prop
  | _, [] => True
  | pats, v :: vs =>
      (v.allowed.isSome → (aclPats acl (aclEmail v.rfcFrom) v.type).isSome ∨
        listMatch pats (listInit v.name) = false) ∧
      NotByLeft acl ((aclPats acl (aclEmail v.rfcFrom) v.type).or pats) vs

/-- `NotByLeft` for the message in the state it arrives in. -/
def MailNotByLeft (cfg : GateCfg) (acl : List Acl) (st : AclState) (m : Mail) : Prop :=
  NotByLeft acl st.ngrpPats (mailRule cfg acl m)

section

variable {cfg : GateCfg} {acl : List Acl} {m : Mail} {xpost : Bool}

/-- One lookup: the patterns in force say what the table says, or were left over. -/
theorem aclNgrpLookup_iff {st : AclState} (h : List.Forall₂ SameRule acl st.acl)
    (rfcFrom : RFCAddr) (type : AclType) (list : Str) :
    aclNgrpLookup (aclNgrp st rfcFrom type) list = aclAllows acl (aclEmail rfcFrom) type list ↔
      ((aclPats acl (aclEmail rfcFrom) type).isSome ∨
        listMatch st.ngrpPats (listInit list) = false) := by
  rw [aclNgrpLookup, aclNgrp_ngrpPats h, aclAllows]
  cases aclPats acl (aclEmail rfcFrom) type with
  | none =>
      rw [Option.none_or, listMatch_none]
      exact ⟨.inr, fun h => h.resolve_left Bool.false_ne_true⟩
  | some pats =>
      rw [Option.some_or]
      exact ⟨fun _ => .inl rfl, fun _ => rfl⟩

theorem newsLoop_same (ps : List Str) {st : AclState} (h : List.Forall₂ SameRule acl st.acl) :
    List.Forall₂ SameRule acl (newsLoop cfg m xpost st ps).st.acl := by
  induction ps generalizing st with
  | nil => exact h
  | cons p ps ih =>
      rw [newsLoop]
      cases areasLookup cfg.xlate none (some p) none cfg.areas with
      | none => exact ih h
      | some pa =>
          dsimp only
          split
          · exact h
          · have hngrp := aclNgrp_same h (m.prepare (some pa)).rfcFrom .echomail
            split
            · exact ih hngrp
            · split
              · exact ih hngrp
              · split
                · exact hngrp
                · exact ih hngrp

/-- One newsgroup that is asked about, and the rest. -/
theorem posting_iff (rfcFrom : RFCAddr) (name : Str) {rest : Sent} {rule : List Posting}
    {pats : Option (List Str)} {found right stop : Bool} {st : AclState} {status : Int}
    (h : rest.postings = rule ↔ NotByLeft acl pats rule) :
    (if (! found) = true then rest.cons ⟨rfcFrom, .echomail, name, some false⟩
      else if stop = true then ⟨st, [⟨rfcFrom, .echomail, name, some true⟩], status⟩
      else rest.cons ⟨rfcFrom, .echomail, name, some true⟩).postings =
        ⟨rfcFrom, .echomail, name, some right⟩ :: (if (right && stop) = true then [] else rule) ↔
      found = right ∧ NotByLeft acl pats (if (right && stop) = true then [] else rule) := by
  cases found with
  | false =>
      rw [if_pos (show (! false) = true from rfl), Sent.cons]
      cases right with
      | false =>
          rw [Bool.false_and, if_neg Bool.false_ne_true, List.cons_eq_cons, h]
          exact ⟨fun h => ⟨rfl, h.2⟩, fun h => ⟨rfl, h.2⟩⟩
      | true => exact ⟨fun h => (nomatch h), fun h => (nomatch h.1)⟩
  | true =>
      rw [if_neg (show ¬ (! true) = true from Bool.false_ne_true)]
      cases right with
      | false =>
          refine ⟨fun h => ?_, fun h => (nomatch h.1)⟩
          cases stop with
          | true => cases h
          | false => cases h
      | true =>
          cases stop with
          | true => exact ⟨fun _ => ⟨rfl, trivial⟩, fun _ => rfl⟩
          | false =>
              rw [if_neg Bool.false_ne_true, Sent.cons, Bool.and_false, if_neg Bool.false_ne_true,
                List.cons_eq_cons, h]
              exact ⟨fun h => ⟨rfl, h.2⟩, fun h => ⟨rfl, h.2⟩⟩

/-- The newsgroups of an article: the decisions are those of the table if and
only if none was taken by patterns left over. -/
theorem newsLoop_rule (ps : List Str) {st : AclState} (h : List.Forall₂ SameRule acl st.acl) :
    (newsLoop cfg m xpost st ps).postings = newsRule cfg acl m xpost ps ↔
      NotByLeft acl st.ngrpPats (newsRule cfg acl m xpost ps) := by
  induction ps generalizing st with
  | nil => exact ⟨fun _ => trivial, fun _ => rfl⟩
  | cons p ps ih =>
      rw [newsLoop, newsRule]
      cases areasLookup cfg.xlate none (some p) none cfg.areas with
      | none => exact ih h
      | some pa =>
          dsimp only
          generalize m.prepare (some pa) = r
          by_cases hrc : r.rc ≠ 0
          · rw [if_pos hrc, if_pos hrc]
            exact ⟨fun _ => trivial, fun _ => rfl⟩
          · rw [if_neg hrc, if_neg hrc]
            have hlook := aclNgrpLookup_iff h r.rfcFrom .echomail pa.group
            have ih := ih (aclNgrp_same h r.rfcFrom .echomail)
            rw [aclNgrp_ngrpPats h] at ih
            cases m.dropped cfg xpost pa r.rfcFrom with
            | true =>
                rw [if_pos rfl, if_pos rfl, Sent.cons, List.cons_eq_cons, NotByLeft, ih]
                exact ⟨fun h => ⟨fun h => (nomatch h), h.2⟩, fun h => ⟨rfl, h.2⟩⟩
            | false =>
                rw [if_neg Bool.false_ne_true, if_neg Bool.false_ne_true, NotByLeft, ← hlook]
                rw [Bool.and_assoc]
                exact (posting_iff r.rfcFrom pa.group ih).trans
                  ⟨fun h => ⟨fun _ => h.1, h.2⟩, fun h => ⟨h.1 rfl, h.2⟩⟩

theorem sndMail_same {st : AclState} (h : List.Forall₂ SameRule acl st.acl) :
    List.Forall₂ SameRule acl (sndMail cfg st m).st.acl := by
  rw [sndMail]
  split
  · split
    · exact h
    · split
      · exact h
      · exact newsLoop_same _ h
  · dsimp only
    split
    · exact h
    · split
      · exact h
      · exact aclNgrp_same h (m.prepare none).rfcFrom .netmail

/-- One message: the decisions are those of the table if and only if none was
taken by patterns left over. -/
theorem sndMail_rule {st : AclState} (h : List.Forall₂ SameRule acl st.acl) :
    (sndMail cfg st m).postings = mailRule cfg acl m ↔ MailNotByLeft cfg acl st m := by
  have hnone : ([] : List Posting) = [] ↔ NotByLeft acl st.ngrpPats [] :=
    ⟨fun _ => trivial, fun _ => rfl⟩
  rw [MailNotByLeft, sndMail, mailRule]
  split
  · split
    · exact hnone
    · split
      · exact hnone
      · exact newsLoop_rule _ h
  · dsimp only
    split
    · exact hnone
    · split
      · exact hnone
      · have hlook := aclNgrpLookup_iff h (m.prepare none).rfcFrom .netmail
          (znf1 (m.prepare none).nodeTo)
        rw [NotByLeft, ← hlook, List.cons_eq_cons, Posting.mk.injEq]
        exact ⟨fun h => ⟨fun _ => Option.some.inj h.1.2.2.2, trivial⟩,
          fun h => ⟨⟨rfl, rfl, rfl, congrArg some (h.1 rfl)⟩, rfl⟩⟩

theorem sndMails_of_same : ∀ {st : AclState} (ms : List Mail), List.Forall₂ SameRule acl st.acl →
    (sndMails cfg st ms = ms.map (mailRule cfg acl) ↔
      Run.Met (fun st m => (sndMail cfg st m).st) (MailNotByLeft cfg acl) st ms)
  | _, [], _ => ⟨fun _ => trivial, fun _ => rfl⟩
  | st, m :: ms, h => by
      rw [sndMails, List.map_cons, List.cons_eq_cons, sndMail_rule h,
        sndMails_of_same ms (sndMail_same h), Run.Met]

end

/-- Over a run of the gate, each message is decided by the table alone if and
only if none meets patterns that others left and that would let it pass. -/
theorem sndMails_rule (cfg : GateCfg) (acl : List Acl) (ms : List Mail) :
    sndMails cfg ⟨acl, none⟩ ms = ms.map (mailRule cfg acl) ↔
      Run.Met (fun st m => (sndMail cfg st m).st) (MailNotByLeft cfg acl) ⟨acl, none⟩ ms :=
  sndMails_of_same ms (List.forall₂_refl acl)

/-- A gate with one newsgroup. -/
def oneGroup : GateCfg :=
  { areas := [⟨lit "TEST", lit "fido.test", 2, nodeInvalid, none, none, 0, -1, 0, 0, [], none, .default⟩]
    xlate := xlateNone, checkAreasBbs := false, limitmsgsize := 0 }

/-- An article for it, and what `snd_message` returns. -/
def article (user : Str) (status : Int) : Mail :=
  { newsmode := true, control := none, newsgroups := some (lit "fido.test"), size := 100
    prepare := fun _ => ⟨EX_OK, ⟨user, lit "example.org", []⟩, nodeClear⟩
    checkDownlinks := fun _ => 1, isLocalXpost := fun _ => false, sndMessage := fun _ => status }

/-- Only one user may post. -/
def oneUser : List Acl := [⟨.rfc2ftn, .echomail, lit "alice@example.org", lit "*"⟩]

/-- Behind an article of that user that cannot be decoded, everybody may. -/
theorem sndMail_history : ¬ ∀ (cfg : GateCfg) (acl : List Acl) (ms : List Mail) (m : Mail),
    (sndMail cfg (Run.run (fun st m => (sndMail cfg st m).st) ⟨acl, none⟩ ms) m).postings =
      (sndMail cfg ⟨acl, none⟩ m).postings := by
  intro h
  have h := h oneGroup oneUser [article (lit "alice") (-1)] (article (lit "bob") EX_OK)
  revert h
  decide +kernel

end Fidogate

/-
# `Fidogate.Common.Msgid` — msgid.c: message identifiers of FidoNet and the Internet

A MSGID becomes a Message-ID `<MSGID_text@domain>`, its text quoted byte by
byte, unless its origin is a Message-ID already; a Message-ID becomes a MSGID
by way of one of its own forms or of a checksum.  The history data base is
what it answers, `fetch`; what is saved to it is not modelled.
-/
import Fidogate.Common.Acl
import Fidogate.Common.Address
import Fidogate.Common.Hex

namespace Fidogate

open Bytes

/-! ## Quoting -/

/-- The loop of `msgid_fts9_quote` with `room` places left. -/
def fts9Loop : Nat → Str → Str
  | _, [] => []
  | 0, _ :: _ => []
  | room + 1, c :: s =>
      if c == dquote then dquote :: c :: fts9Loop (room - 1) s else c :: fts9Loop room s

/-- `msgid_fts9_quote`. -/
def msgidFts9Quote (s : Str) (n : Nat) : Str :=
  if s.contains sp || s.contains dquote then dquote :: fts9Loop (n - 3 - 1) s ++ [dquote]
  else fts9Loop (n - 3) s

/-- `%02X` of a byte. -/
def putHexByte (c : UInt8) : Str :=
  [c.toNat / 16, c.toNat % 16].map fun d => toUpper d.digitChar.toUInt8

/-- What `msgid_mime_quote` makes of a byte. -/
def mimeQuoteByte (c : UInt8) : Str :=
  if c == sp then [95]
  else if (lit "()<>@,;:\\\"[]/=_").contains c || 127 ≤ c || c < 32 then 61 :: putHexByte c
  else [c]

/-- `msgid_mime_quote`, with `i` bytes written. -/
def msgidMimeQuote (n : Nat) : Nat → Str → Str
  | _, [] => []
  | i, c :: s =>
      if i < n - 4 && c != cr then
        mimeQuoteByte c ++ msgidMimeQuote n (i + (mimeQuoteByte c).length) s
      else []

/-- `isxdigit`. -/
def isXDigit (c : UInt8) : Bool := (hexDigit c).isSome

/-- `x2toi`. -/
def x2toi (a b : UInt8) : UInt8 :=
  UInt8.ofNat ((hexDigit a).getD 0 * 16 + (hexDigit b).getD 0)

/-- The loop of `mime_dequote`; `c` is the byte stored last, which a `=` that
quotes nothing stores again. -/
def mimeDequoteLoop : Nat → UInt8 → Str → Str
  | 0, _, _ => []
  | _ + 1, _, [] => []
  | k + 1, c, x :: s =>
      if x == 61 then
        if s.head?.any isXDigit && s.tail.head?.any isXDigit then
          let c := x2toi (s.headD nul) (s.tail.headD nul)
          c :: mimeDequoteLoop k c (s.drop 2)
        else if s.head? == some lf || (s.head? == some cr && s.tail.head? == some lf) then []
        else c :: mimeDequoteLoop k c s
      else if x == 95 then sp :: mimeDequoteLoop k sp s
      else x :: mimeDequoteLoop k x s

/-- `mime_dequote` into a buffer of `n` bytes. -/
def mimeDequote (n : Nat) (s : Str) : Str := cstr (mimeDequoteLoop (n - 1) nul s)

/-! ## From FidoNet -/

/-- `MSGID_FIDONET_DOMAIN` -/
def MSGID_FIDONET_DOMAIN : Str := lit ".fidonet.org"

/-- `msgid_domain`. -/
def msgidDomain (cf : InetConfig) (zone : Int) : Str :=
  let d := if 1 ≤ zone ∧ zone ≤ 6 then MSGID_FIDONET_DOMAIN else cfZonesInetDomain cf zone
  if d.head? == some 46 then d.tail else d

/-- A quoted `origaddr` behind its first quote. -/
def fts9Unquote : Str → Str
  | [] => []
  | [c] => if c == dquote then [] else [c]
  | c :: d :: s =>
      if c == dquote then if d == dquote then c :: fts9Unquote s else []
      else c :: fts9Unquote (d :: s)

/-- The `origaddr` part of a MSGID. -/
def origaddr (msgid : Str) : Str :=
  if msgid.head? == some dquote then fts9Unquote msgid.tail
  else msgid.takeWhile (! isSpace ·)

/-- The zone of the address in `origaddr`, or else the current zone. -/
def origZone (cf : InetConfig) (zone : Int) (addr : Str) : Int :=
  let p := (addr.dropWhile (! isDigit ·)).takeWhile fun c =>
    isDigit c || c == 58 || c == 47 || c == 46
  ((ascToNode true cf.defzone p).map Node.zone).getD zone

/-- The Message-ID with the text of the MSGID in it. -/
def msgidText (cf : InetConfig) (zone : Int) (msgid : Str) : Str :=
  bufCopy (2 * MAXINETADDR)
    (lit "<MSGID_" ++ msgidMimeQuote (2 * MAXINETADDR - 7) 0 msgid ++ lit "@" ++
      msgidDomain cf zone ++ lit ">")

/-- `s_msgid_fido_to_rfc`; `zone` is the current zone, `wantZone` whether the
caller asks for the zone of the MSGID. -/
def sMsgidFidoToRfc (cf : InetConfig) (zone : Int) (fetch : Str → Option Str) (msgid : Str)
    (wantZone mail : Bool) (refLine : Option Str) (noDbcHistory noFidoStyleMsgid : Bool) : Str :=
  let addr := origaddr msgid
  let text :=
    if wildmat addr (lit "<*@*>") then addr else msgidText cf (origZone cf zone addr) msgid
  if ! noDbcHistory && ! noFidoStyleMsgid && ! wantZone && mail && msgid.contains sp then
    (fetch msgid <|> refLine).getD text
  else text

/-! ## From the Internet -/

/-- `strrchr`: the text behind the last such byte. -/
def afterLast (c : UInt8) (s : Str) : Option Str :=
  if s.contains c then some (s.reverse.takeWhile (· != c)).reverse else none

/-- `strchr`: the text in front of the first such byte and behind it. -/
def splitFirst (c : UInt8) (s : Str) : Option (Str × Str) :=
  if s.contains c then some (s.takeWhile (· != c), (s.dropWhile (· != c)).tail) else none

/-- An old-style id: up to eight hexadecimal digits, and a domain behind `%`. -/
def hexId (id : Str) : Option (Str × Str) :=
  let digits := id.tail.takeWhile (· != 37) |>.take 7
  let rest := id.tail.drop digits.length
  if id.head?.any (fun c => isXDigit c && c != 48) && digits.all isXDigit then
    match rest with
    | [] => some (id, [])
    | c :: domain => if c == 37 then some (id.take (digits.length + 1), domain) else none
  else none

/-- `MAX_DOMAIN` -/
def MAX_DOMAIN : Nat := 32

/-- The MSGID of an old-style Message-ID. -/
def oldMsgid (cf : InetConfig) (id host : Str) : Option Str :=
  match hexId id with
  | none => none
  | some (hex, domain) =>
      (inetToFtn cf host).map fun n =>
        znfp1 { n with domain := bufCopy MAX_DOMAIN domain } ++ lit " " ++
          (List.replicate (8 - hex.length) 48 ++ hex)

/-- The options of `s_msgid_rfc_to_fido`. -/
structure MsgidOptions where
  forReply : Bool
  split : Bool
  xFlagsM : Bool
  noFidoStyleMsgid : Bool
  deriving DecidableEq, Repr

/-- The MSGID made of the whole Message-ID and its CRC, in a buffer of 21
bytes more than the Message-ID.  The source writes a byte behind the buffer
where the quoted text fills it. -/
def newMsgid (o : MsgidOptions) (part : Nat) (area : Option Str) (id : Str) : Str :=
  let crc := (crc32Compute (crc32Compute 0xFFFFFFFF id) (area.getD []) ^^^ 0xFFFFFFFF).toNat +
    if o.split then part - 1 else 0
  let hex := (Nat.toDigits 16 crc).map Char.toUInt8
  let len := id.length + 21
  let text :=
    if o.noFidoStyleMsgid && ! o.xFlagsM then
      let q := msgidFts9Quote id len
      if q = [] then [] else q ++ [sp]
    else if o.forReply then id ++ [sp]
    else []
  text ++ (List.replicate (8 - hex.length) 48 ++ hex).take (len - text.length - 1)

/-- The Message-ID of a line, from its last `<` to the first `>` behind. -/
def wholeId (messageId : Str) : Str :=
  let id := match afterLast 60 messageId with
    | some s => 60 :: s
    | none => messageId
  match splitFirst 62 id with
  | some (s, _) => s ++ [62]
  | none => []

/-- `s_msgid_rfc_to_fido`. -/
def sMsgidRfcToFido (cf : InetConfig) (o : MsgidOptions) (messageId : Str) (part : Nat)
    (area : Option Str) : Option Str := do
  let s ← afterLast 60 messageId
  let (id, s) ← splitFirst 64 s
  let (host, _) ← splitFirst 62 s
  if hasPrefix (lit "funpack") id || hasPrefix (lit "NOMSGID_") id then none
  else
    match if o.split then none else oldMsgid cf id host with
    | some msgid => some msgid
    | none =>
        if hasPrefix (lit "MSGID_") id then some (mimeDequote (id.length + 1) (id.drop 6))
        else some (newMsgid o part area (wholeId messageId))

/-! ## MIME quoting -/

theorem isXDigit_putHexByte {d : Nat} (h : d < 16) :
    hexDigit (toUpper d.digitChar.toUInt8) = some d ∧
      isXDigit (toUpper d.digitChar.toUInt8) = true := by
  refine ⟨hexDigit_digitChar h, ?_⟩
  rw [isXDigit, hexDigit_digitChar h]
  rfl

/-- A byte is read from what was written for it. -/
theorem mimeDequoteLoop_byte (k : Nat) (last c : UInt8) (s : Str) :
    mimeDequoteLoop (k + 1) last (mimeQuoteByte c ++ s) = c :: mimeDequoteLoop k c s := by
  unfold mimeQuoteByte
  by_cases hsp : c = sp
  · rw [if_pos (beq_iff_eq.mpr hsp), hsp]
    rfl
  rw [if_neg (by simpa using hsp)]
  split
  · have hlt := c.toNat_lt
    obtain ⟨h1, h1'⟩ := @isXDigit_putHexByte (c.toNat / 16) (by omega)
    obtain ⟨h2, h2'⟩ := @isXDigit_putHexByte (c.toNat % 16) (by omega)
    have hval : x2toi (toUpper (c.toNat / 16).digitChar.toUInt8)
        (toUpper (c.toNat % 16).digitChar.toUInt8) = c := by
      rw [x2toi, h1, h2, Option.getD_some, Option.getD_some,
        show c.toNat / 16 * 16 + c.toNat % 16 = c.toNat by omega]
      exact UInt8.ofNat_toNat
    change mimeDequoteLoop (k + 1) last (61 :: toUpper (c.toNat / 16).digitChar.toUInt8 ::
      toUpper (c.toNat % 16).digitChar.toUInt8 :: s) = _
    rw [mimeDequoteLoop, if_pos (by decide)]
    simp only [List.head?_cons, List.tail_cons, Option.any_some, h1', h2', Bool.and_self, if_true,
      List.headD_cons, hval, List.drop_succ_cons, List.drop_zero]
  · next hplain =>
      have key : ∀ c : UInt8, ¬ ((lit "()<>@,;:\\\"[]/=_").contains c || 127 ≤ c || c < 32) = true →
          c ≠ 61 ∧ c ≠ 95 := forall_byte (by decide +kernel)
      obtain ⟨h1, h2⟩ := key c hplain
      rw [List.singleton_append, mimeDequoteLoop, if_neg (by simpa using h1),
        if_neg (by simpa using h2)]

theorem mimeDequoteLoop_quoted : ∀ (s : Str) (k : Nat) (last : UInt8), s.length ≤ k →
    mimeDequoteLoop k last (s.flatMap mimeQuoteByte) = s
  | [], k, last, _ => by
      cases k with
      | zero => rfl
      | succ k => rfl
  | c :: s, 0, last, h => absurd h (Nat.not_succ_le_zero _)
  | c :: s, k + 1, last, h => by
      rw [List.flatMap_cons, mimeDequoteLoop_byte,
        mimeDequoteLoop_quoted s k c (Nat.le_of_succ_le_succ h)]

theorem length_mimeQuoteByte (c : UInt8) : 1 ≤ (mimeQuoteByte c).length := by
  unfold mimeQuoteByte
  split
  · exact Nat.le_refl 1
  · split
    · exact Nat.le_add_left 1 _
    · exact Nat.le_refl 1

theorem length_le_quoted : ∀ s : Str, s.length ≤ (s.flatMap mimeQuoteByte).length
  | [] => Nat.le_refl 0
  | c :: s => by
      have h := length_mimeQuoteByte c
      have ih := length_le_quoted s
      rw [List.flatMap_cons, List.length_append, List.length_cons]
      omega

/-- A text that fits is quoted as a whole. -/
theorem msgidMimeQuote_fits {n : Nat} : ∀ (s : Str) (i : Nat), cr ∉ s →
    i + (s.flatMap mimeQuoteByte).length ≤ n - 4 → msgidMimeQuote n i s = s.flatMap mimeQuoteByte
  | [], _, _, _ => rfl
  | c :: s, i, hcr, hfit => by
      have hc := length_mimeQuoteByte c
      have hne : (c != cr) = true := bne_iff_ne.mpr fun h => hcr (h ▸ List.mem_cons_self)
      rw [List.flatMap_cons, List.length_append] at hfit
      have hlt : i < n - 4 := by omega
      rw [msgidMimeQuote, hne, decide_eq_true hlt, Bool.and_self, if_pos rfl, List.flatMap_cons,
        msgidMimeQuote_fits s _ (fun h => hcr (List.mem_cons_of_mem _ h)) (by omega)]

/-- Quoted text has none of the bytes that end an id. -/
theorem not_mem_quoted {s : Str} {c : UInt8} (h : c ∈ s.flatMap mimeQuoteByte) :
    c ≠ 60 ∧ c ≠ 62 ∧ c ≠ 64 := by
  obtain ⟨d, -, hc⟩ := List.mem_flatMap.mp h
  have key : ∀ d : UInt8, 60 ∉ mimeQuoteByte d ∧ 62 ∉ mimeQuoteByte d ∧ 64 ∉ mimeQuoteByte d :=
    forall_byte (by decide +kernel)
  obtain ⟨h60, h62, h64⟩ := key d
  exact ⟨fun h => h60 (h ▸ hc), fun h => h62 (h ▸ hc), fun h => h64 (h ▸ hc)⟩

/-! ## Parts of a Message-ID -/

theorem afterLast_append {c : UInt8} {s : Str} (h : c ∉ s) (u : Str) :
    afterLast c (u ++ c :: s) = some s := by
  have hcontains : (u ++ c :: s).contains c = true := by simp
  have hrev : (u ++ c :: s).reverse = s.reverse ++ c :: u.reverse := by simp
  rw [afterLast, if_pos hcontains, hrev, (takeWhile_not_mem (by simpa using h) _).1,
    List.reverse_reverse]

theorem afterLast_cons {c : UInt8} {s : Str} (h : c ∉ s) : afterLast c (c :: s) = some s :=
  afterLast_append h []

theorem splitFirst_append {c : UInt8} {s : Str} (h : c ∉ s) (t : Str) :
    splitFirst c (s ++ c :: t) = some (s, t) := by
  have hcontains : (s ++ c :: t).contains c = true := by simp
  obtain ⟨htake, hdrop⟩ := takeWhile_not_mem h t
  rw [splitFirst, if_pos hcontains, htake, hdrop]
  rfl

/-! ## From FidoNet and back -/

/-- A MSGID that gets through: a line of text with an origin that is no
Message-ID, which fits the buffer with the domain of its zone. -/
structure MsgidFits (cf : InetConfig) (zone : Int) (msgid : Str) : Prop where
  text : cr ∉ msgid ∧ nul ∉ msgid
  plain : wildmat (origaddr msgid) (lit "<*@*>") = false
  domain : msgidDomain cf (origZone cf zone (origaddr msgid)) ≠ [] ∧
    60 ∉ msgidDomain cf (origZone cf zone (origaddr msgid))
  fits : (msgid.flatMap mimeQuoteByte).length +
    (msgidDomain cf (origZone cf zone (origaddr msgid))).length ≤ 246

/-- The Message-ID of a MSGID that fits. -/
theorem msgidText_fits {cf : InetConfig} {zone : Int} {msgid : Str} (h : MsgidFits cf zone msgid) :
    msgidText cf (origZone cf zone (origaddr msgid)) msgid =
      60 :: (lit "MSGID_" ++ msgid.flatMap mimeQuoteByte ++
        64 :: (msgidDomain cf (origZone cf zone (origaddr msgid)) ++ [62])) := by
  obtain ⟨hne, -⟩ := h.domain
  have hfits := h.fits
  have hpos := List.length_pos_of_ne_nil hne
  have hquote : msgidMimeQuote (2 * MAXINETADDR - 7) 0 msgid = msgid.flatMap mimeQuoteByte :=
    msgidMimeQuote_fits msgid 0 h.text.1 (by
      show 0 + (msgid.flatMap mimeQuoteByte).length ≤ 245
      omega)
  have h1 : lit "<MSGID_" = 60 :: lit "MSGID_" := rfl
  have h2 : lit "@" = [64] := rfl
  have h3 : lit ">" = [62] := rfl
  have hlen : (lit "MSGID_").length = 6 := rfl
  rw [msgidText, hquote, h1, h2, h3, bufCopy, List.take_of_length_le]
  · simp only [List.cons_append, List.append_assoc, List.nil_append]
  · simp only [List.length_append, List.length_cons, List.length_nil, hlen]
    show _ ≤ 255
    omega

/-- A MSGID comes back from its Message-ID, and no other MSGID has this
Message-ID. -/
theorem sMsgidRfcToFido_fido {cf : InetConfig} {zone : Int} {msgid : Str}
    (h : MsgidFits cf zone msgid) (fetch : Str → Option Str) (wantZone mail : Bool)
    (refLine : Option Str) (noFidoStyleMsgid : Bool) :
    (∀ (o : MsgidOptions) (part : Nat) (area : Option Str),
      sMsgidRfcToFido cf o (sMsgidFidoToRfc cf zone fetch msgid wantZone mail refLine true
        noFidoStyleMsgid) part area = some msgid) ∧
    ∀ msgid', MsgidFits cf zone msgid' → msgid' ≠ msgid →
      sMsgidFidoToRfc cf zone fetch msgid' wantZone mail refLine true noFidoStyleMsgid ≠
        sMsgidFidoToRfc cf zone fetch msgid wantZone mail refLine true noFidoStyleMsgid := by
  have hback : ∀ {msgid : Str}, MsgidFits cf zone msgid →
      ∀ (o : MsgidOptions) (part : Nat) (area : Option Str),
        sMsgidRfcToFido cf o (sMsgidFidoToRfc cf zone fetch msgid wantZone mail refLine true
          noFidoStyleMsgid) part area = some msgid := by
    intro msgid h o part area
    have hrfc : sMsgidFidoToRfc cf zone fetch msgid wantZone mail refLine true noFidoStyleMsgid =
        msgidText cf (origZone cf zone (origaddr msgid)) msgid := by
      unfold sMsgidFidoToRfc
      dsimp only
      rw [h.plain]
      rfl
    have hfixed : (60 : UInt8) ∉ lit "MSGID_" ∧ (64 : UInt8) ∉ lit "MSGID_" := by decide
    have hat : (64 : UInt8) ∉ lit "MSGID_" ++ msgid.flatMap mimeQuoteByte := by
      intro hm
      rcases List.mem_append.mp hm with hm | hm
      · exact hfixed.2 hm
      · exact (not_mem_quoted hm).2.2 rfl
    have hlt : (60 : UInt8) ∉ lit "MSGID_" ++ msgid.flatMap mimeQuoteByte ++
        64 :: (msgidDomain cf (origZone cf zone (origaddr msgid)) ++ [62]) := by
      intro hm
      rcases List.mem_append.mp hm with hm | hm
      · rcases List.mem_append.mp hm with hm | hm
        · exact hfixed.1 hm
        · exact (not_mem_quoted hm).1 rfl
      · rcases List.mem_cons.mp hm with hm | hm
        · cases hm
        · rcases List.mem_append.mp hm with hm | hm
          · exact h.domain.2 hm
          · exact absurd (List.mem_singleton.mp hm) (by decide)
    obtain ⟨r, hr⟩ : ∃ r, splitFirst 62 (msgidDomain cf (origZone cf zone (origaddr msgid)) ++ [62]) =
        some r := by
      unfold splitFirst
      rw [if_pos (by simp)]
      exact ⟨_, rfl⟩
    have hold : (if o.split then none else
        oldMsgid cf (lit "MSGID_" ++ msgid.flatMap mimeQuoteByte) r.1) = none := by
      split
      · rfl
      · rfl
    have hlen : (msgid.flatMap mimeQuoteByte).length ≤
        (lit "MSGID_" ++ msgid.flatMap mimeQuoteByte).length := by
      rw [List.length_append]
      exact Nat.le_add_left _ _
    have hread : mimeDequote ((lit "MSGID_" ++ msgid.flatMap mimeQuoteByte).length + 1)
        (msgid.flatMap mimeQuoteByte) = msgid := by
      rw [mimeDequote, Nat.add_sub_cancel,
        mimeDequoteLoop_quoted _ _ _ ((length_le_quoted msgid).trans hlen)]
      exact List.takeWhile_eq_self_iff.mpr fun c hc => bne_iff_ne.mpr fun he => h.text.2 (he ▸ hc)
    rw [hrfc, msgidText_fits h]
    unfold sMsgidRfcToFido
    rw [afterLast_cons hlt]
    simp only [Option.bind_eq_bind, Option.bind_some]
    rw [splitFirst_append hat]
    simp only [Option.bind_some]
    rw [hr]
    simp only [Option.bind_some]
    rw [hold]
    exact congrArg some hread
  refine ⟨hback h, ?_⟩
  intro msgid' h' hne heq
  have hback' := hback h' ⟨false, false, false, false⟩ 0 none
  rw [heq, hback h] at hback'
  exact hne (Option.some.inj hback').symm

theorem msgidFits_quoted :
    MsgidFits fidoInet 2 (lit "\"My \"\"board\"\" 2:5020/9\" 1a2b3c4d") :=
  ⟨by decide, by decide +kernel, by decide +kernel, by decide +kernel⟩

theorem sMsgidRfcToFido_quoted :
    sMsgidRfcToFido fidoInet ⟨false, false, false, false⟩ (sMsgidFidoToRfc fidoInet 2
      (fun _ => none) (lit "\"My \"\"board\"\" 2:5020/9\" 1a2b3c4d") false false none true false)
      1 none = some (lit "\"My \"\"board\"\" 2:5020/9\" 1a2b3c4d") :=
  (sMsgidRfcToFido_fido msgidFits_quoted (fun _ => none) false false none false).1 _ 1 none

/-- A Message-ID in a MSGID is passed on as it is, and comes back without its
serial number. -/
theorem sMsgidRfcToFido_origin :
    ¬ ∀ (cf : InetConfig) (zone : Int) (origin serial : Str) (o : MsgidOptions),
      (∀ c ∈ origin, 32 ≤ c) → serial.length = 8 → (∀ c ∈ serial, isXDigit c = true) →
      sMsgidRfcToFido cf o (sMsgidFidoToRfc cf zone (fun _ => none) (origin ++ sp :: serial) false
        false none true o.noFidoStyleMsgid) 1 none = some (origin ++ sp :: serial) := by
  intro h
  have h := h fidoInet 2 (lit "<a@b.org>") (lit "12345678") ⟨false, false, false, false⟩
    (forall_mem_of_all (by decide)) rfl (forall_mem_of_all (by decide))
  revert h
  decide +kernel

/-! ## A Message-ID in a MSGID -/

/-- One byte of the pattern against one of the text. -/
theorem wildmatchLoop_byte {y : UInt8} (hy : plainByte y = true) (n : Nat) (c : UInt8) (s p : Str)
    (saved : Option (Str × Str)) :
    wildmatchLoop false (n + 1) (c :: s) (y :: p) saved =
      if c = y then wildmatchLoop false n s p saved
      else
        match saved with
        | some (_ :: c :: s', p') => wildmatchLoop false n (c :: s') p' (some (c :: s', p'))
        | _ => false := by
  obtain ⟨h1, h2, h3, h4⟩ := plainByte_ne hy
  rw [wildmatchLoop.eq_def]
  dsimp only
  rw [if_neg (by simpa using h1), if_neg (by simpa using h2), if_neg (by simpa using h3)]
  rw [if_neg (by simpa using h4)]
  have heq : charEq c y false = true ↔ c = y := beq_iff_eq
  exact if_congr heq rfl rfl

/-- The last part of the pattern: the text ends with the byte. -/
theorem wildmatchLoop_end {y : UInt8} (hy : plainByte y = true) : ∀ (s : Str) (n : Nat),
    2 * s.length < n →
    wildmatchLoop false n s [y] (some (s, [y])) = decide (s.getLast? = some y)
  | [], n, hn => by
      obtain ⟨n, rfl⟩ : ∃ k, n = k + 1 := ⟨n - 1, by omega⟩
      obtain ⟨h1, h2, h3, h4⟩ := plainByte_ne hy
      rw [wildmatchLoop.eq_def]
      simp [h1, h2, h3, h4]
  | [c], n, hn => by
      obtain ⟨n, rfl⟩ : ∃ k, n = k + 2 := ⟨n - 2, by simp at hn; omega⟩
      rw [wildmatchLoop_byte hy]
      by_cases hc : c = y
      · rw [if_pos hc, wildmatchLoop.eq_def]
        simp [hc]
      · rw [if_neg hc]
        simp [hc]
  | c :: d :: s, n, hn => by
      obtain ⟨n, rfl⟩ : ∃ k, n = k + 2 := ⟨n - 2, by simp at hn; omega⟩
      have hlast : (c :: d :: s).getLast? = (d :: s).getLast? := List.getLast?_cons_cons
      have hlen : 2 * (d :: s).length < n := by
        simp only [List.length_cons] at hn ⊢
        omega
      rw [wildmatchLoop_byte hy, hlast]
      split
      · rw [wildmatchLoop.eq_def]
        exact wildmatchLoop_end hy (d :: s) n hlen
      · exact wildmatchLoop_end hy (d :: s) (n + 1) (Nat.lt_succ_of_lt hlen)

/-- The middle part: somewhere there is a `@`, and the text ends with `>`. -/
theorem wildmatchLoop_at : ∀ (s : Str) (n : Nat), 2 * s.length + 1 < n →
    wildmatchLoop false n s [64, 42, 62] (some (s, [64, 42, 62])) =
      (s.dropWhile (· != 64)).tail.getLast?.any (· == 62)
  | [], n, hn => by
      obtain ⟨n, rfl⟩ : ∃ k, n = k + 1 := ⟨n - 1, by omega⟩
      rw [wildmatchLoop.eq_def]
      rfl
  | c :: s, n, hn => by
      obtain ⟨n, rfl⟩ : ∃ k, n = k + 2 := ⟨n - 2, by simp at hn; omega⟩
      have hlen : 2 * s.length + 1 < n + 1 := by
        simp only [List.length_cons] at hn
        omega
      rw [wildmatchLoop_byte (by decide)]
      by_cases hc : c = 64
      · have hend := @wildmatchLoop_end 62 (by decide) s n (by omega)
        have hdrop : (c :: s).dropWhile (· != 64) = c :: s := by
          rw [hc]
          rfl
        rw [if_pos hc, hdrop, List.tail_cons, wildmatchLoop.eq_def]
        change wildmatchLoop false n s [62] (some (s, [62])) = _
        rw [hend]
        cases s.getLast? with
        | none => rfl
        | some d =>
            rw [Option.any_some, Bool.eq_iff_iff, decide_eq_true_eq, beq_iff_eq, Option.some.injEq]
      · have hdrop : (c :: s).dropWhile (· != 64) = s.dropWhile (· != 64) :=
          List.dropWhile_cons_of_pos (bne_iff_ne.mpr hc)
        rw [if_neg hc, hdrop]
        cases s with
        | nil => rfl
        | cons d s => exact wildmatchLoop_at (d :: s) (n + 1) hlen

/-- A text of the form `<...@...>`. -/
theorem wildmat_messageId {body : Str} (h : 64 ∈ body) :
    wildmat (60 :: (body ++ [62])) (lit "<*@*>") = true := by
  have hpat : lit "<*@*>" = [60, 42, 64, 42, 62] := rfl
  have hfuel : ((60 :: (body ++ [62])).length + 2) * (([60, 42, 64, 42, 62] : Str).length + 2) =
      (7 * body.length + 26) + 2 := by
    simp only [List.length_cons, List.length_append, List.length_nil]
    omega
  obtain ⟨a, b, hab, hno⟩ : ∃ a b, body = a ++ 64 :: b ∧ 64 ∉ a := List.eq_append_cons_of_mem h
  have hdrop : (body ++ [62]).dropWhile (· != 64) = 64 :: (b ++ [62]) := by
    have hall : ∀ d ∈ a, (d != 64) = true := fun d hd => bne_iff_ne.mpr fun he => hno (he ▸ hd)
    rw [hab, List.append_assoc, List.dropWhile_append_of_pos hall]
    rfl
  rw [wildmat, hpat, wildmatch, hfuel, wildmatchLoop_byte (by decide), if_pos rfl,
    wildmatchLoop.eq_def]
  change wildmatchLoop false _ (body ++ [62]) [64, 42, 62] (some (body ++ [62], [64, 42, 62])) = true
  rw [wildmatchLoop_at _ _ (by rw [List.length_append, List.length_singleton]; omega), hdrop,
    List.tail_cons, List.getLast?_concat]
  rfl

/-! ## FTS-9 quoting -/

/-- The text with its quotes doubled. -/
def doubled (s : Str) : Str := s.flatMap fun c => if c == dquote then [dquote, c] else [c]

theorem length_doubled : ∀ s : Str, (doubled s).length = s.length + s.count dquote
  | [] => rfl
  | c :: s => by
      have ih := length_doubled s
      unfold doubled at ih ⊢
      rw [List.flatMap_cons, List.length_append, ih, List.length_cons, List.count_cons]
      split
      · simp only [List.length_cons, List.length_nil]
        omega
      · simp only [List.length_cons, List.length_nil]
        omega

theorem fts9Loop_fits : ∀ (s : Str) (room : Nat), (doubled s).length ≤ room →
    fts9Loop room s = doubled s
  | [], room, _ => by
      cases room with
      | zero => rfl
      | succ room => rfl
  | c :: s, room, h => by
      rw [length_doubled, List.length_cons, List.count_cons] at h
      have ih := fts9Loop_fits s
      rw [length_doubled] at ih
      obtain ⟨room, rfl⟩ : ∃ k, room = k + 1 := ⟨room - 1, by omega⟩
      unfold doubled at ih ⊢
      rw [fts9Loop, List.flatMap_cons]
      split
      · next hc =>
          rw [if_pos hc] at h
          rw [ih (room - 1) (by omega)]
          rfl
      · next hc =>
          rw [if_neg hc] at h
          rw [ih room (by omega)]
          rfl

/-- The quoted text is read up to the quote behind it. -/
theorem fts9Unquote_doubled : ∀ (s rest : Str), rest.head? ≠ some dquote →
    fts9Unquote (doubled s ++ dquote :: rest) = s
  | [], rest, h => by
      cases rest with
      | nil => rfl
      | cons d rest =>
          have hd : (d == dquote) = false := beq_eq_false_iff_ne.mpr fun he => h (he ▸ rfl)
          change fts9Unquote (dquote :: d :: rest) = []
          rw [fts9Unquote, if_pos (by decide), hd]
          rfl
  | c :: s, rest, h => by
      have ih := fts9Unquote_doubled s rest h
      unfold doubled at ih ⊢
      rw [List.flatMap_cons, List.append_assoc]
      split
      · next hc =>
          change fts9Unquote (dquote :: c :: (s.flatMap _ ++ dquote :: rest)) = _
          rw [fts9Unquote, if_pos (by decide), if_pos hc, ih, beq_iff_eq.mp hc]
      · next hc =>
          obtain ⟨d, t, hdt⟩ : ∃ d t, (s.flatMap fun c => if c == dquote then [dquote, c] else [c]) ++
              dquote :: rest = d :: t := by
            cases hs : s.flatMap fun c => if c == dquote then [dquote, c] else [c] with
            | nil => exact ⟨dquote, rest, rfl⟩
            | cons d t => exact ⟨d, t ++ dquote :: rest, rfl⟩
          rw [hdt] at ih ⊢
          change fts9Unquote (c :: d :: t) = _
          rw [fts9Unquote, if_neg hc, ih]

/-! ## From the Internet and back -/

/-- A Message-ID `<body>` that gets through: printable text with a `@`, no
angle brackets inside and at most 17 quotes, and none of FIDOGATE's own
forms. -/
structure RfcFits (cf : InetConfig) (o : MsgidOptions) (body : Str) : Prop where
  text : ∀ c ∈ body, 32 ≤ c ∧ c ≠ 60 ∧ c ≠ 62
  parts : 64 ∈ body
  quotes : body.count dquote ≤ 17
  foreign : ∀ own ∈ [lit "funpack", lit "NOMSGID_", lit "MSGID_"], hasPrefix own body = false
  notOld : o.split = true ∨ ∀ id host, body = id ++ 64 :: host → 64 ∉ id → oldMsgid cf id host = none

section

variable {cf : InetConfig} {o : MsgidOptions} {body : Str}

/-- The Message-ID is not one of the forms that are known. -/
theorem sMsgidRfcToFido_new (h : RfcFits cf o body) (part : Nat) (area : Option Str) :
    sMsgidRfcToFido cf o (60 :: (body ++ [62])) part area =
      some (newMsgid o part area (60 :: (body ++ [62]))) := by
  obtain ⟨id, host, hbody, hid⟩ := List.eq_append_cons_of_mem h.parts
  have hlt : (60 : UInt8) ∉ body ++ [62] := by
    intro hm
    rcases List.mem_append.mp hm with hm | hm
    · exact (h.text _ hm).2.1 rfl
    · exact absurd (List.mem_singleton.mp hm) (by decide)
  have hgt : (62 : UInt8) ∉ 60 :: body := by
    intro hm
    rcases List.mem_cons.mp hm with hm | hm
    · cases hm
    · exact (h.text _ hm).2.2 rfl
  have hgthost : (62 : UInt8) ∉ host := fun hm =>
    (h.text 62 (hbody ▸ List.mem_append_right _ (List.mem_cons_of_mem _ hm))).2.2 rfl
  have hsplit : splitFirst 64 (body ++ [62]) = some (id, host ++ [62]) := by
    rw [hbody, List.append_assoc, List.cons_append]
    exact splitFirst_append hid _
  have hown : ∀ own ∈ [lit "funpack", lit "NOMSGID_", lit "MSGID_"], hasPrefix own id = false := by
    intro own hmem
    rw [Bool.eq_false_iff]
    intro hpre
    obtain ⟨t, ht⟩ := hasPrefix_iff.mp hpre
    have hyes : hasPrefix own body = true := hasPrefix_iff.mpr ⟨t ++ 64 :: host, by
      rw [← List.append_assoc, ht, hbody]⟩
    rw [h.foreign own hmem] at hyes
    cases hyes
  have hold : (if o.split then none else oldMsgid cf id host) = none := by
    rcases h.notOld with hs | hs
    · rw [if_pos hs]
    · rw [hs id host hbody hid, ite_self]
  have hwhole : wholeId (60 :: (body ++ [62])) = 60 :: (body ++ [62]) := by
    have hcut := splitFirst_append hgt []
    rw [List.cons_append] at hcut
    rw [wholeId, afterLast_cons hlt]
    dsimp only
    rw [hcut]
    rfl
  unfold sMsgidRfcToFido
  rw [afterLast_cons hlt]
  simp only [Option.bind_eq_bind, Option.bind_some]
  rw [hsplit]
  simp only [Option.bind_some]
  rw [splitFirst_append hgthost []]
  simp only [Option.bind_some]
  rw [hown (lit "funpack") (by simp), hown (lit "NOMSGID_") (by simp), hold,
    hown (lit "MSGID_") (by simp), hwhole]
  rfl

/-- The origin of the MSGID that was made is the Message-ID. -/
theorem origaddr_newMsgid (h : RfcFits cf o body) (ho : o.noFidoStyleMsgid = true)
    (hx : o.xFlagsM = false) (part : Nat) (area : Option Str) :
    origaddr (newMsgid o part area (60 :: (body ++ [62]))) = 60 :: (body ++ [62]) := by
  obtain ⟨id, hid⟩ : ∃ id, id = 60 :: (body ++ [62]) := ⟨_, rfl⟩
  have hcount : id.count dquote ≤ 17 := by
    have h1 : List.count dquote [62] = 0 := by decide
    have h2 : ((60 : UInt8) == dquote) = false := by decide
    rw [hid, List.count_cons, List.count_append, h1, h2]
    exact h.quotes
  have hprint : ∀ c ∈ id, 32 ≤ c := by
    intro c hc
    rw [hid] at hc
    rcases List.mem_cons.mp hc with rfl | hc
    · decide
    · rcases List.mem_append.mp hc with hc | hc
      · exact (h.text c hc).1
      · rw [List.mem_singleton.mp hc]
        decide
  have hlen := length_doubled id
  rw [← hid]
  obtain ⟨serial, hnew⟩ : ∃ serial, newMsgid o part area id =
      (if msgidFts9Quote id (id.length + 21) = [] then []
        else msgidFts9Quote id (id.length + 21) ++ [sp]) ++ serial := by
    unfold newMsgid
    dsimp only
    rw [ho, hx]
    exact ⟨_, rfl⟩
  by_cases hq : (id.contains sp || id.contains dquote) = true
  · have htext : msgidFts9Quote id (id.length + 21) = dquote :: doubled id ++ [dquote] := by
      rw [msgidFts9Quote, if_pos hq, fts9Loop_fits id _ (by omega)]
    have hhead : (sp :: serial).head? ≠ some dquote := by
      intro he
      exact absurd (Option.some.inj he) (by decide)
    rw [hnew, htext, if_neg (by simp)]
    change fts9Unquote (doubled id ++ [dquote] ++ [sp] ++ serial) = id
    rw [List.append_assoc, List.append_assoc]
    exact fts9Unquote_doubled id (sp :: serial) hhead
  · rw [Bool.not_eq_true, Bool.or_eq_false_iff] at hq
    have hsp : sp ∉ id := by simpa using hq.1
    have hdq : dquote ∉ id := by simpa using hq.2
    have hsame : doubled id = id := by
      have hone : ∀ c ∈ id, (if c == dquote then [dquote, c] else [c]) = [c] := by
        intro c hc
        refine if_neg fun he => ?_
        rw [beq_iff_eq.mp he] at hc
        exact hdq hc
      rw [doubled, List.flatMap_congr hone, List.flatMap_singleton']
    have hcount0 : id.count dquote = 0 := List.count_eq_zero.mpr hdq
    have htext : msgidFts9Quote id (id.length + 21) = id := by
      rw [msgidFts9Quote, if_neg (by rw [hq.1, hq.2]; decide), fts9Loop_fits id _ (by omega), hsame]
    have hspace : ∀ c ∈ id, (! isSpace c) = true := by
      intro c hc
      have key : ∀ c : UInt8, 32 ≤ c → c ≠ sp → (! isSpace c) = true :=
        forall_byte (by decide +kernel)
      exact key c (hprint c hc) fun he => hsp (he ▸ hc)
    have hnil : id ≠ [] := by
      rw [hid]
      exact List.cons_ne_nil _ _
    have hhead : ¬ ((id ++ ([sp] ++ serial)).head? == some dquote) = true := by
      rw [hid]
      intro he
      cases he
    have hstop : (! isSpace sp) = false := rfl
    rw [hnew, htext, if_neg hnil, List.append_assoc, origaddr, if_neg hhead,
      List.takeWhile_append_of_pos hspace, List.singleton_append, List.takeWhile_cons, hstop]
    exact List.append_nil id

/-- A Message-ID comes back from its MSGID, and no other Message-ID has the
origin of this MSGID. -/
theorem sMsgidFidoToRfc_rfc (h : RfcFits cf o body) (ho : o.noFidoStyleMsgid = true)
    (hx : o.xFlagsM = false) (part : Nat) (area : Option Str) :
    ∃ msgid, sMsgidRfcToFido cf o (60 :: (body ++ [62])) part area = some msgid ∧
      (∀ (zone : Int) (fetch : Str → Option Str) (wantZone mail : Bool) (refLine : Option Str)
        (noDbcHistory : Bool),
        sMsgidFidoToRfc cf zone fetch msgid wantZone mail refLine noDbcHistory true =
          60 :: (body ++ [62])) ∧
      ∀ (body' : Str) (part' : Nat) (area' : Option Str) (msgid' : Str), RfcFits cf o body' →
        body' ≠ body → sMsgidRfcToFido cf o (60 :: (body' ++ [62])) part' area' = some msgid' →
        origaddr msgid' ≠ origaddr msgid := by
  refine ⟨_, sMsgidRfcToFido_new h part area, ?_, ?_⟩
  · intro zone fetch wantZone mail refLine noDbcHistory
    unfold sMsgidFidoToRfc
    dsimp only
    rw [origaddr_newMsgid h ho hx, wildmat_messageId h.parts]
    simp
  · intro body' part' area' msgid' h' hne hmsgid heq
    rw [sMsgidRfcToFido_new h' part' area'] at hmsgid
    rw [← Option.some.inj hmsgid, origaddr_newMsgid h' ho hx, origaddr_newMsgid h ho hx] at heq
    exact hne (List.append_cancel_right (List.cons.inj heq).2)

end

def noFidoStyle : MsgidOptions := ⟨false, false, false, true⟩

theorem rfcFits_quoted : RfcFits fidoInet noFidoStyle (lit "\"A Point\"@example.org") := by
  refine ⟨forall_mem_of_all (by decide), by decide, by decide, by decide, .inr ?_⟩
  intro id host hbody hid
  cases id with
  | nil =>
      have hc : some dquote = some (64 : UInt8) := congrArg List.head? hbody
      exact absurd hc (by decide)
  | cons c id =>
      have hc : some dquote = some c := congrArg List.head? hbody
      rw [← Option.some.inj hc]
      rfl

theorem sMsgidFidoToRfc_quoted : ∃ msgid,
    sMsgidRfcToFido fidoInet noFidoStyle (60 :: (lit "\"A Point\"@example.org" ++ [62])) 1 none =
      some msgid ∧
    sMsgidFidoToRfc fidoInet 2 (fun _ => none) msgid false false none false true =
      60 :: (lit "\"A Point\"@example.org" ++ [62]) := by
  obtain ⟨msgid, h1, h2, -⟩ := sMsgidFidoToRfc_rfc rfcFits_quoted rfl rfl 1 none
  exact ⟨msgid, h1, h2 2 (fun _ => none) false false none false⟩

/-- A Message-ID of the form FIDOGATE makes is taken for one of its own. -/
theorem sMsgidFidoToRfc_own :
    ¬ ∀ (cf : InetConfig) (zone : Int) (o : MsgidOptions) (body : Str) (part : Nat)
      (area : Option Str), o.noFidoStyleMsgid = true → o.xFlagsM = false → 64 ∈ body →
      ∃ msgid, sMsgidRfcToFido cf o (60 :: (body ++ [62])) part area = some msgid ∧
        sMsgidFidoToRfc cf zone (fun _ => none) msgid false false none false true =
          60 :: (body ++ [62]) := by
  intro h
  obtain ⟨msgid, h1, h2⟩ := h fidoInet 2 noFidoStyle (lit "MSGID_a@example.org") 1 none rfl rfl
    (by decide)
  have hown : sMsgidRfcToFido fidoInet noFidoStyle (60 :: (lit "MSGID_a@example.org" ++ [62])) 1
      none = some (lit "a") := by decide +kernel
  rw [hown] at h1
  rw [← Option.some.inj h1] at h2
  revert h2
  decide +kernel

end Fidogate

/-
# `Fidogate.Common.Address` — address.c, hosts.c: FTN addresses as Internet hosts

A node is called by its name in HOSTS, else `p.f.n.z` in front of a domain.
The way back looks the name up and then strips one domain after the other
until a `p.f.n.z` address is left, so names and domains that look like a part
of such an address may come in its way (`PfnzName`).
-/
import Fidogate.Common.NodePrint
import Mathlib.Data.List.Pairwise

namespace Fidogate

open Bytes

/-! ## The configuration -/

/-- `HOST_POINT`: points get a name of their own. -/
def HOST_POINT : Nat := 1

/-- `Host`: a line of HOSTS. -/
structure Host where
  node : Node
  flags : Nat
  name : Option Str
  deriving DecidableEq, Repr

/-- What the names are made of; `zones` are the zones with their Internet
domains. -/
structure InetConfig where
  defzone : Int
  hostname : Str
  domainname : Str
  hostsdomain : Str
  zones : List (Int × Str)
  hosts : List Host
  /-- `FTN_INVALID_DOMAIN`, an option of the build. -/
  ftnInvalidDomain : Str
  deriving DecidableEq, Repr

/-- `cf_fqdn`. -/
def InetConfig.fqdn (cf : InetConfig) : Str := bufCopy MAXPATH (cf.hostname ++ cf.domainname)

/-- `cf_zones_inet_domain`: zone 0 is the default. -/
def cfZonesInetDomain (cf : InetConfig) (zone : Int) : Str :=
  let find := fun zone : Int => (cf.zones.find? fun z => z.1 == zone).map Prod.snd
  (find zone <|> find 0).getD cf.ftnInvalidDomain

/-- `hosts_lookup` by the node: an entry without a point is for all points. -/
def hostsLookupNode (hosts : List Host) (n : Node) : Option Host :=
  hosts.find? fun h => n.zone == h.node.zone && n.net == h.node.net && n.node == h.node.node &&
    (n.point == h.node.point || h.node.point == 0)

/-- `hosts_lookup` by the name. -/
def hostsLookupName (hosts : List Host) (name : Str) : Option Host :=
  hosts.find? fun h => h.name.any (strieq name)

/-! ## p.f.n.z -/

/-- `node_to_pfnz`. -/
def nodeToPfnz (n : Node) : Str :=
  bufCopy MAXINETADDR
    ((if 0 < n.point then lit "p" ++ putInt n.point ++ lit "." else []) ++
      lit "f" ++ putInt n.node ++ lit ".n" ++ putInt n.net ++ lit ".z" ++ putInt n.zone)

/-- The value behind one of the letters. -/
def pfnzStore (c : UInt8) (val : Int) (n : Node) : Node :=
  if toLower c == 112 then { n with point := val }
  else if toLower c == 102 then { n with node := val }
  else if toLower c == 110 then { n with net := val }
  else { n with zone := val }

/-- The loop of `pfnz_to_node`; a round takes a letter at least. -/
def pfnzLoop : Nat → Node → Str → Option Node
  | _, n, [] => some n
  | 0, _, _ :: _ => none
  | k + 1, n, c :: s =>
      if (lit "pPfFnNzZ").contains c then
        match znfpGetNumber s with
        | none => none
        | some (val, s) =>
            if val < 0 then none
            else
              match s with
              | [] => some (pfnzStore c val n)
              | d :: s => if d == 46 then pfnzLoop k (pfnzStore c val n) s else none
      else none

/-- `pfnz_to_node`. -/
def pfnzToNode (defzone : Int) (s : Str) : Option Node :=
  (pfnzLoop s.length nodeInvalid s).bind fun n =>
    if n.net == -1 || n.node == -1 then none
    else some { n with
      zone := if n.zone == -1 then defzone else n.zone
      point := if n.point == -1 then 0 else n.point }

/-! ## There and back -/

/-- The text `str_ftn_to_inet` prints. -/
def ftnToInet (cf : InetConfig) (n : Node) (force : Bool) : Str :=
  match hostsLookupNode cf.hosts n with
  | some h =>
      let point := if h.flags &&& HOST_POINT != 0 then true else force
      match h.name with
      | some name =>
          if point && 0 < n.point && h.node.point == 0 then
            lit "p" ++ putInt n.point ++ lit "." ++ name
          else name
      | none => nodeToPfnz n ++ cf.hostsdomain
  | none => nodeToPfnz n ++ cfZonesInetDomain cf n.zone

/-- `str_ftn_to_inet` into a buffer of `len` bytes. -/
def strFtnToInet (cf : InetConfig) (len : Nat) (n : Node) (force : Bool) : Str :=
  bufCopy len (ftnToInet cf n force)

/-- `try_pfnz`. -/
def tryPfnz (defzone : Int) (addr dot domain : Str) : Option Node :=
  let dlen := dot.length + domain.length
  let dom := bufCopy MAXINETADDR (dot ++ domain)
  let adr := bufCopy MAXINETADDR addr
  if dlen < addr.length && strieq (adr.drop (addr.length - dlen)) dom then
    pfnzToNode defzone (adr.take (addr.length - dlen))
  else none

/-- The point in front of a host name, -1 if there is none, and the rest. -/
def pointPrefix (addr : Str) : Int × Str :=
  match addr with
  | c :: pn =>
      if c == 112 || c == 80 then
        match pn.dropWhile isDigit with
        | d :: p => if d == 46 then (atoi pn, p) else (-1, addr)
        | [] => (-1, addr)
      else (-1, addr)
  | [] => (-1, addr)

/-- What `try_pfnz` is tried with. -/
def InetConfig.domains (cf : InetConfig) : List (Str × Str) :=
  [([], []), (lit ".", cf.hostname), (lit ".", cf.fqdn), ([], cf.domainname),
    ([], cf.hostsdomain)] ++ cf.zones.map fun z => ([], z.2)

/-- `inet_to_ftn`; of a `p.f.n.z` address the domain stays what it was for
the call before. -/
def inetToFtn (cf : InetConfig) (addr : Str) : Option Node :=
  let (point, p) := pointPrefix addr
  let host := hostsLookupName cf.hosts p <|>
    hostsLookupName cf.hosts (bufCopy MAXINETADDR (p ++ cf.domainname)) <|>
    hostsLookupName cf.hosts (bufCopy MAXINETADDR (p ++ cf.hostsdomain))
  match host with
  | some h =>
      some (if h.node.point == 0 && point != -1 then { h.node with point := point } else h.node)
  | none =>
      let buf := bufCopy MAXINETADDR addr
      cf.domains.findSome? fun d => tryPfnz cf.defzone buf d.1 d.2

/-! ## Labels -/

/-- The text starts with a letter of a `p.f.n.z` address and a number, if
any, as its first label. -/
def addrLabel : Str → Bool
  | [] => false
  | c :: s => (lit "pPfFnNzZ").contains c && (s.dropWhile isDigit).head?.all (· == 46)

/-- What stands behind a label. -/
def Dotted (s : Str) : Prop := s = [] ∨ ∃ t, s = 46 :: t

theorem Dotted.noDigit {s : Str} (h : Dotted s) : NoDigit s := by
  intro c hc
  rcases h with rfl | ⟨t, rfl⟩
  · cases hc
  · cases hc
    rfl

/-- The labels of an address: a letter and a number each. -/
def labelText : List (UInt8 × Int) → Str
  | [] => []
  | [l] => l.1 :: putInt l.2
  | l :: l' :: ls => l.1 :: putInt l.2 ++ 46 :: labelText (l' :: ls)

def pfnzLabels (n : Node) : List (UInt8 × Int) :=
  (if 0 < n.point then [(112, n.point)] else []) ++ [(102, n.node), (110, n.net), (122, n.zone)]

/-- A label that is read as it was written. -/
def GoodLabel (l : UInt8 × Int) : Prop := (lit "pPfFnNzZ").contains l.1 = true ∧ 0 ≤ l.2

theorem goodLabel {c : UInt8} {val : Int} (hc : (lit "pPfFnNzZ").contains c = true)
    (h : 0 ≤ val) : GoodLabel (c, val) := ⟨hc, h⟩

/-- One round of the loop. -/
theorem pfnzLoop_label {l : UInt8 × Int} (h : GoodLabel l) (k : Nat) (n : Node) (s : Str) :
    pfnzLoop (k + 1) n (l.1 :: (putInt l.2 ++ 46 :: s)) = pfnzLoop k (pfnzStore l.1 l.2 n) s ∧
    pfnzLoop (k + 1) n (l.1 :: putInt l.2) = some (pfnzStore l.1 l.2 n) := by
  have hval : ((l.2.toNat : Nat) : Int) = l.2 := Int.toNat_of_nonneg h.2
  have hneg : ¬ l.2 < 0 := by
    have := h.2
    omega
  have h1 : znfpGetNumber (putInt l.2 ++ 46 :: s) = some (l.2, 46 :: s) := by
    rw [putInt_of_nonneg h.2, znfpGetNumber_putDec _ (Dotted.noDigit (.inr ⟨s, rfl⟩)), hval]
  have h2 : znfpGetNumber (putInt l.2) = some (l.2, []) := by
    have h2 := znfpGetNumber_putDec l.2.toNat noDigit_nil
    rwa [List.append_nil, hval, ← putInt_of_nonneg h.2] at h2
  constructor
  · rw [pfnzLoop, if_pos h.1, h1]
    simp only [if_neg hneg]
    rfl
  · rw [pfnzLoop, if_pos h.1, h2]
    simp only [if_neg hneg]

/-- The node the labels give. -/
def storeLabels (n : Node) (ls : List (UInt8 × Int)) : Node :=
  ls.foldl (fun n l => pfnzStore l.1 l.2 n) n

theorem pfnzLoop_labels : ∀ {ls : List (UInt8 × Int)}, ls ≠ [] → (∀ l ∈ ls, GoodLabel l) →
    ∀ {k : Nat} (n : Node), ls.length ≤ k →
      pfnzLoop k n (labelText ls) = some (storeLabels n ls)
  | [], hne, _, _, _, _ => absurd rfl hne
  | [l], _, h, k, n, hk => by
      obtain ⟨k, rfl⟩ : ∃ j, k = j + 1 := ⟨k - 1, by simp at hk; omega⟩
      exact (pfnzLoop_label (h l List.mem_cons_self) k n []).2
  | l :: l' :: ls, _, h, k, n, hk => by
      obtain ⟨k, rfl⟩ : ∃ j, k = j + 1 := ⟨k - 1, by simp at hk; omega⟩
      have ih := pfnzLoop_labels (List.cons_ne_nil l' ls)
        (fun x hx => h x (List.mem_cons_of_mem _ hx)) (pfnzStore l.1 l.2 n)
        (Nat.le_of_succ_le_succ hk)
      rw [labelText, List.cons_append, (pfnzLoop_label (h l List.mem_cons_self) k n _).1, ih]
      rfl

/-- What can be read starts with a label. -/
theorem addrLabel_of_pfnzLoop {k : Nat} {n m : Node} {s : Str} (hs : s ≠ [])
    (h : pfnzLoop k n s = some m) : addrLabel s = true := by
  cases s with
  | nil => exact absurd rfl hs
  | cons c s =>
      cases k with
      | zero => cases h
      | succ k =>
          rw [pfnzLoop] at h
          split at h
          · next hc =>
              rw [addrLabel, hc, Bool.true_and]
              cases hnum : znfpGetNumber s with
              | none =>
                  rw [hnum] at h
                  cases h
              | some r =>
                  rw [hnum] at h
                  obtain ⟨val, t⟩ := r
                  dsimp only at h
                  split at h
                  · cases h
                  · next hval =>
                      have ht : s.dropWhile isDigit = t := by
                        unfold znfpGetNumber at hnum
                        split at hnum
                        · cases hnum
                          exact absurd (by decide) hval
                        · split at hnum
                          · cases hnum
                            exact absurd (by decide) hval
                          · split at hnum
                            · exact (Prod.mk.inj (Option.some.inj hnum)).2
                            · cases hnum
                      rw [ht]
                      cases t with
                      | nil => rfl
                      | cons d t =>
                          dsimp only at h
                          split at h
                          · next hd => exact hd
                          · cases h
          · cases h

/-- Behind the labels only a dot, or labels again, can be read. -/
theorem pfnzLoop_behind : ∀ {ls : List (UInt8 × Int)}, ls ≠ [] → (∀ l ∈ ls, GoodLabel l) →
    ∀ {k : Nat} {n m : Node} {s : Str}, pfnzLoop k n (labelText ls ++ 46 :: s) = some m →
      ∃ k', pfnzLoop k' (storeLabels n ls) s = some m
  | [], hne, _, _, _, _, _, _ => absurd rfl hne
  | [l], _, h, k, n, m, s, hr => by
      cases k with
      | zero => cases hr
      | succ k =>
          rw [labelText, List.cons_append, (pfnzLoop_label (h l List.mem_cons_self) k n s).1] at hr
          exact ⟨k, hr⟩
  | l :: l' :: ls, _, h, k, n, m, s, hr => by
      cases k with
      | zero => cases hr
      | succ k =>
          rw [labelText, List.cons_append, List.cons_append, List.append_assoc, List.cons_append,
            (pfnzLoop_label (h l List.mem_cons_self) k n _).1] at hr
          exact pfnzLoop_behind (List.cons_ne_nil l' ls)
            (fun x hx => h x (List.mem_cons_of_mem _ hx)) hr

theorem labelText_cons (l : UInt8 × Int) {ls : List (UInt8 × Int)} (h : ls ≠ []) :
    labelText (l :: ls) = l.1 :: putInt l.2 ++ 46 :: labelText ls := by
  cases ls with
  | nil => exact absurd rfl h
  | cons l' ls => rfl

/-- A dot in the text of the labels stands between two labels. -/
theorem labelText_split : ∀ {ls : List (UInt8 × Int)}, (∀ l ∈ ls, GoodLabel l) →
    ∀ {x u : Str}, labelText ls = x ++ 46 :: u →
      ∃ l₁ l₂, ls = l₁ ++ l₂ ∧ l₁ ≠ [] ∧ l₂ ≠ [] ∧ x = labelText l₁ ∧ u = labelText l₂
  | [], _, x, u, he => by
      have := congrArg List.length he
      simp [labelText] at this
  | l :: ls, h, x, u, he => by
      have hl := h l List.mem_cons_self
      have hno : (46 : UInt8) ∉ l.1 :: putInt l.2 := by
        intro hm
        rcases List.mem_cons.mp hm with he | hm
        · have := hl.1
          rw [← he] at this
          revert this
          decide
        · rw [putInt_of_nonneg hl.2] at hm
          exact absurd (isDigit_of_mem_putDec hm) (by decide)
      cases ls with
      | nil =>
          rw [labelText] at he
          exact absurd (he ▸ List.mem_append_right x List.mem_cons_self) hno
      | cons l' ls =>
          rw [labelText] at he
          rcases List.append_eq_append_iff.mp he with ⟨a, hx, ha⟩ | ⟨a, hw, ha⟩
          · cases a with
            | nil =>
                rw [List.append_nil] at hx
                exact ⟨[l], l' :: ls, rfl, List.cons_ne_nil _ _, List.cons_ne_nil _ _, hx,
                  (List.cons.inj ha).2.symm⟩
            | cons d a =>
                obtain ⟨l₁, l₂, h1, h2, h3, h4, h5⟩ := labelText_split
                  (fun y hy => h y (List.mem_cons_of_mem _ hy)) (List.cons.inj ha).2
                refine ⟨l :: l₁, l₂, congrArg (l :: ·) h1, List.cons_ne_nil _ _, h3, ?_, h5⟩
                rw [labelText_cons l h2, hx, ← h4, (List.cons.inj ha).1]
          · cases a with
            | nil =>
                rw [List.append_nil] at hw
                exact ⟨[l], l' :: ls, rfl, List.cons_ne_nil _ _, List.cons_ne_nil _ _, hw.symm,
                  (List.cons.inj ha).2⟩
            | cons d a =>
                have hd : d = 46 := (List.cons.inj ha).1.symm
                exact absurd (hw ▸ List.mem_append_right x (hd ▸ List.mem_cons_self)) hno

/-! ## The address of a node -/

theorem length_labelText : ∀ ls : List (UInt8 × Int), ls.length ≤ (labelText ls).length
  | [] => Nat.le_refl 0
  | [l] => by simp [labelText]
  | l :: l' :: ls => by
      have ih := length_labelText (l' :: ls)
      simp only [labelText, List.length_append, List.length_cons] at ih ⊢
      omega

theorem pfnzLabels_ne_nil (n : Node) : pfnzLabels n ≠ [] := by
  unfold pfnzLabels
  simp

section

variable {n : Node} (hn : n.Full)

include hn

theorem goodLabel_pfnzLabels : ∀ l ∈ pfnzLabels n, GoodLabel l := by
  intro l hl
  rcases List.mem_append.mp hl with hl | hl
  · split at hl
    · rw [List.mem_singleton.mp hl]
      exact goodLabel (by decide) hn.point
    · cases hl
  · simp only [List.mem_cons, List.not_mem_nil, or_false] at hl
    rcases hl with rfl | rfl | rfl
    · exact goodLabel (by decide) hn.node
    · exact goodLabel (by decide) hn.net
    · exact goodLabel (by decide) hn.zone

theorem nodeToPfnz_eq : nodeToPfnz n = labelText (pfnzLabels n) := by
  have h1 : (putInt n.zone).length ≤ 10 := length_putInt hn.zone hn.zone_int
  have h2 : (putInt n.net).length ≤ 10 := length_putInt hn.net hn.net_int
  have h3 : (putInt n.node).length ≤ 10 := length_putInt hn.node hn.node_int
  have h4 : (putInt n.point).length ≤ 10 := length_putInt hn.point hn.point_int
  have htext : (if 0 < n.point then lit "p" ++ putInt n.point ++ lit "." else []) ++
      lit "f" ++ putInt n.node ++ lit ".n" ++ putInt n.net ++ lit ".z" ++ putInt n.zone =
      labelText (pfnzLabels n) := by
    have hp : lit "p" = [112] := rfl
    have hf : lit "f" = [102] := rfl
    have hnet : lit ".n" = [46, 110] := rfl
    have hz : lit ".z" = [46, 122] := rfl
    have hdot : lit "." = [46] := rfl
    unfold pfnzLabels
    rw [hp, hf, hnet, hz, hdot]
    split
    · simp only [labelText, List.cons_append, List.nil_append, List.append_assoc]
    · simp only [labelText, List.cons_append, List.nil_append, List.append_assoc]
  have hlen : (labelText (pfnzLabels n)).length ≤ 127 := by
    unfold pfnzLabels
    split
    · simp only [List.cons_append, List.nil_append, labelText, List.length_cons, List.length_append]
      omega
    · simp only [List.nil_append, labelText, List.length_cons, List.length_append]
      omega
  rw [nodeToPfnz, htext]
  exact List.take_of_length_le hlen

/-- What the labels give is the node. -/
theorem storeLabels_pfnzLabels : storeLabels nodeInvalid (pfnzLabels n) =
    { n with point := if n.point = 0 then -1 else n.point, domain := [] } := by
  have hp : 0 ≤ n.point := hn.point
  unfold pfnzLabels
  by_cases h : 0 < n.point
  · rw [if_pos h, if_neg (by omega)]
    rfl
  · rw [if_neg h, if_pos (by omega)]
    rfl

/-- `pfnz_to_node` with a node stored already. -/
theorem pfnzToNode_stored {s : Str} {defzone : Int}
    (h : pfnzLoop s.length nodeInvalid s = some (storeLabels nodeInvalid (pfnzLabels n))) :
    pfnzToNode defzone s = some (n.withDomain []) := by
  have hz : n.zone ≠ -1 := ne_empty_of_nonneg hn.zone
  have ht : n.net ≠ -1 := ne_empty_of_nonneg hn.net
  have hm : n.node ≠ -1 := ne_empty_of_nonneg hn.node
  have hp : n.point ≠ -1 := ne_empty_of_nonneg hn.point
  rw [pfnzToNode, h, Option.bind_some, storeLabels_pfnzLabels hn]
  by_cases h0 : n.point = 0
  · simp [hz, ht, hm, h0, Node.withDomain]
  · simp [hz, ht, hm, hp, h0, Node.withDomain]

/-- `pfnz_to_node` on what `node_to_pfnz` made. -/
theorem pfnzToNode_nodeToPfnz (defzone : Int) :
    pfnzToNode defzone (nodeToPfnz n) = some (n.withDomain []) := by
  rw [nodeToPfnz_eq hn]
  exact pfnzToNode_stored hn (pfnzLoop_labels (pfnzLabels_ne_nil n) (goodLabel_pfnzLabels hn) _
    (length_labelText _))

end

/-! ## Names that do not come in the way -/

/-- A domain with a dot in front, not of a label of an address. -/
def PlainDomain (s : Str) : Prop := s = [] ∨ ∃ t, s = 46 :: t ∧ addrLabel t = false

instance (s : Str) : Decidable (PlainDomain s) :=
  decidable_of_iff (s = [] ∨ s.head? = some 46 ∧ addrLabel s.tail = false) <| by
    cases s with
    | nil => exact ⟨fun _ => .inl rfl, fun _ => .inl rfl⟩
    | cons c s =>
        refine ⟨?_, ?_⟩
        · rintro (h | ⟨h, ht⟩)
          · cases h
          · exact .inr ⟨s, by rw [Option.some.inj h], ht⟩
        · rintro (h | ⟨t, h, ht⟩)
          · cases h
          · obtain ⟨rfl, rfl⟩ := List.cons.inj h
            exact .inr ⟨rfl, ht⟩

theorem addrLabel_append {s : Str} (h : addrLabel s = true) (t : Str) :
    addrLabel (s ++ 46 :: t) = true := by
  cases s with
  | nil => cases h
  | cons c s =>
      rw [addrLabel, Bool.and_eq_true] at h
      rw [List.cons_append, addrLabel, h.1, Bool.true_and]
      by_cases hs : ∀ d ∈ s, isDigit d = true
      · rw [List.dropWhile_append_of_pos hs]
        rfl
      · have hne : s.dropWhile isDigit ≠ [] := fun he => hs (List.dropWhile_eq_nil_iff.mp he)
        have happ : (s ++ 46 :: t).dropWhile isDigit = s.dropWhile isDigit ++ 46 :: t := by
          rw [List.dropWhile_append, if_neg (by simpa using hne)]
        rw [happ, List.head?_append_of_ne_nil _ hne]
        exact h.2

/-- An address without its zone, and without more. -/
theorem pfnzToNode_front {n m : Node} (hn : n.Full) {l₁ l₂ : List (UInt8 × Int)}
    (hls : pfnzLabels n = l₁ ++ l₂) (h1 : l₁ ≠ []) (h2 : l₂ ≠ []) {defzone : Int}
    (hm : pfnzToNode defzone (labelText l₁) = some m) :
    l₂ = [(122, n.zone)] ∧ m = { n with zone := defzone, domain := [] } := by
  have hgood : ∀ l ∈ l₁, GoodLabel l := fun l hl =>
    goodLabel_pfnzLabels hn l (hls ▸ List.mem_append_left _ hl)
  have hnet : n.net ≠ -1 := ne_empty_of_nonneg hn.net
  have hnode : n.node ≠ -1 := ne_empty_of_nonneg hn.node
  have hpoint : n.point ≠ -1 := ne_empty_of_nonneg hn.point
  rw [pfnzToNode, pfnzLoop_labels h1 hgood nodeInvalid (length_labelText _), Option.bind_some] at hm
  unfold pfnzLabels at hls
  by_cases h : 0 < n.point
  · rw [if_pos h] at hls
    rcases l₁ with _ | ⟨a, _ | ⟨b, _ | ⟨c, _ | ⟨d, l₁⟩⟩⟩⟩
    · exact absurd rfl h1
    · simp only [List.cons_append, List.nil_append, List.cons.injEq] at hls
      obtain ⟨rfl, rfl⟩ := hls
      cases hm
    · simp only [List.cons_append, List.nil_append, List.cons.injEq] at hls
      obtain ⟨rfl, rfl, rfl⟩ := hls
      cases hm
    · simp only [List.cons_append, List.nil_append, List.cons.injEq] at hls
      obtain ⟨rfl, rfl, rfl, rfl⟩ := hls
      refine ⟨rfl, ?_⟩
      simp [storeLabels, pfnzStore, toLower, isUpper, nodeInvalid, hnet, hnode, hpoint] at hm
      exact hm.symm
    · simp only [List.cons_append, List.nil_append, List.cons.injEq] at hls
      exact absurd (List.append_eq_nil_iff.mp hls.2.2.2.2.symm).2 h2
  · rw [if_neg h] at hls
    have h0 : n.point = 0 := by
      have := hn.point
      have : 0 ≤ n.point := this
      omega
    rcases l₁ with _ | ⟨a, _ | ⟨b, _ | ⟨c, l₁⟩⟩⟩
    · exact absurd rfl h1
    · simp only [List.cons_append, List.nil_append, List.cons.injEq] at hls
      obtain ⟨rfl, rfl⟩ := hls
      cases hm
    · simp only [List.cons_append, List.nil_append, List.cons.injEq] at hls
      obtain ⟨rfl, rfl, rfl⟩ := hls
      refine ⟨rfl, ?_⟩
      simp [storeLabels, pfnzStore, toLower, isUpper, nodeInvalid, hnet, hnode] at hm
      rw [← hm, h0]
    · simp only [List.cons_append, List.nil_append, List.cons.injEq] at hls
      exact absurd (List.append_eq_nil_iff.mp hls.2.2.2.symm).2 h2

/-- Whatever domain is stripped, what is left is the address or none. -/
theorem pfnzToNode_stripped {n m : Node} (hn : n.Full) {dom d x s : Str} (hdom : PlainDomain dom)
    (hd : Dotted d) {defzone : Int}
    (hzone : n.zone = defzone ∨ strieq (46 :: 122 :: putInt n.zone ++ dom) d = false)
    (heq : x ++ s = nodeToPfnz n ++ dom) (hs : strieq s d = true)
    (hx : pfnzToNode defzone x = some m) : m = n.withDomain [] := by
  have hwhole : x = nodeToPfnz n → m = n.withDomain [] := by
    intro h
    rw [h, pfnzToNode_nodeToPfnz hn] at hx
    exact (Option.some.inj hx).symm
  have hdot : ∀ {c : UInt8} {s' : Str}, s = c :: s' → c = 46 := by
    intro c s' hcs
    rcases hd with rfl | ⟨t, rfl⟩
    · rw [hcs] at hs
      cases hs
    · rw [hcs, strieq_iff, List.map_cons, List.map_cons] at hs
      have key : ∀ c : UInt8, toLower c = toLower 46 → c = 46 := forall_byte (by decide +kernel)
      exact key c (List.cons.inj hs).1
  have hgood := goodLabel_pfnzLabels hn
  rw [nodeToPfnz_eq hn] at heq hwhole
  rcases List.append_eq_append_iff.mp heq with ⟨a, ha, has⟩ | ⟨a, ha, has⟩
  · -- more than the domain is stripped
    cases a with
    | nil => exact hwhole (by rw [ha, List.append_nil])
    | cons c a =>
        obtain ⟨l₁, l₂, hls, h1, h2, hxl, hal⟩ := labelText_split hgood (hdot has ▸ ha)
        rw [hxl] at hx
        obtain ⟨hl₂, hm⟩ := pfnzToNode_front hn hls h1 h2 hx
        rcases hzone with hz | hz
        · rw [hm, ← hz]
          rfl
        · rw [has, hdot has, hal, hl₂] at hs
          have hs : strieq (46 :: 122 :: putInt n.zone ++ dom) d = true := hs
          rw [hz] at hs
          cases hs
  · cases a with
    | nil => exact hwhole (by rw [ha, List.append_nil])
    | cons c a =>
        -- the front of the domain is left
        rcases hdom with rfl | ⟨t, rfl, ht⟩
        · cases has
        · obtain ⟨rfl, rfl⟩ := List.cons.inj has
          obtain ⟨m', hm', -⟩ := Option.bind_eq_some_iff.mp (pfnzToNode.eq_def defzone x ▸ hx)
          obtain ⟨k, hk⟩ := pfnzLoop_behind (pfnzLabels_ne_nil n) hgood (ha ▸ hm')
          cases a with
          | nil =>
              have hstored : m' = storeLabels nodeInvalid (pfnzLabels n) := by
                cases k with
                | zero => exact (Option.some.inj hk).symm
                | succ k => exact (Option.some.inj hk).symm
              rw [pfnzToNode_stored hn (hm'.trans (congrArg some hstored))] at hx
              exact (Option.some.inj hx).symm
          | cons e a =>
              have hlabel := addrLabel_of_pfnzLoop (List.cons_ne_nil e a) hk
              cases s with
              | nil =>
                  have ht : addrLabel (e :: a ++ []) = false := ht
                  rw [List.append_nil, hlabel] at ht
                  cases ht
              | cons c s =>
                  obtain rfl := hdot rfl
                  have ht : addrLabel (e :: a ++ 46 :: s) = false := ht
                  rw [addrLabel_append hlabel] at ht
                  cases ht

/-- Two entries that have not the same name. -/
def Host.Apart (a b : Host) : Prop := ∀ x ∈ a.name, ∀ y ∈ b.name, strieq x y = false

instance (a b : Host) : Decidable (a.Apart b) :=
  inferInstanceAs (Decidable (∀ x ∈ a.name, ∀ y ∈ b.name, strieq x y = false))

instance : Std.Symm Host.Apart where
  symm a b hab x hx y hy := by
    rw [Bool.eq_false_iff]
    intro hxy
    have := hab y hy x hx
    rw [strieq_symm hxy] at this
    cases this

/-- No two names of HOSTS are the same, and the domains start with a dot. -/
structure InetConfig.Plain (cf : InetConfig) : Prop where
  unique : cf.hosts.Pairwise Host.Apart
  domain : ∀ d ∈ cf.domains, Dotted (d.1 ++ d.2)

/-- The node without its point. -/
def Node.boss (n : Node) : Node := { n with point := 0 }

/-- The `p.f.n.z` name of a node in the domain `dom` is taken for nothing
else: the domain is known and does not start like an address, the name is not
in HOSTS, and if no other domain has the zone in it the zone may be told. -/
structure PfnzName (cf : InetConfig) (n : Node) (dom : Str) : Prop where
  known : ([], dom) ∈ cf.domains
  plain : PlainDomain dom
  hosts : ∀ y ∈ [[], cf.domainname, cf.hostsdomain],
    hostsLookupName cf.hosts (bufCopy MAXINETADDR (nodeToPfnz n.boss ++ dom ++ y)) = none
  zone : n.zone = cf.defzone ∨
    ∀ d ∈ cf.domains, strieq (46 :: 122 :: putInt n.zone ++ dom) (d.1 ++ d.2) = false

/-- The name of a node says its point and fits the buffers; a name of HOSTS
does not start with a point of its own. -/
structure HasName (cf : InetConfig) (len : Nat) (n : Node) (force : Bool) : Prop where
  point : ∀ h, hostsLookupNode cf.hosts n = some h → h.name.isSome →
    force = true ∨ h.flags &&& HOST_POINT ≠ 0 ∨ n.point = 0 ∨ h.node.point ≠ 0
  name : ∀ h, hostsLookupNode cf.hosts n = some h → ∀ name ∈ h.name,
    n.point = 0 ∨ h.node.point ≠ 0 → pointPrefix name = (-1, name)
  unnamed : ∀ h, hostsLookupNode cf.hosts n = some h → h.name = none →
    PfnzName cf n cf.hostsdomain
  unlisted : hostsLookupNode cf.hosts n = none → PfnzName cf n (cfZonesInetDomain cf n.zone)
  fits : (ftnToInet cf n force).length < min len MAXINETADDR

section

variable {cf : InetConfig} {n : Node}

theorem ftnToInet_none (h : hostsLookupNode cf.hosts n = none) (force : Bool) :
    ftnToInet cf n force = nodeToPfnz n ++ cfZonesInetDomain cf n.zone := by
  unfold ftnToInet
  rw [h]

theorem ftnToInet_unnamed {h : Host} (hh : hostsLookupNode cf.hosts n = some h) (hn : h.name = none)
    (force : Bool) : ftnToInet cf n force = nodeToPfnz n ++ cf.hostsdomain := by
  unfold ftnToInet
  rw [hh]
  dsimp only
  rw [hn]

theorem ftnToInet_named {h : Host} (hh : hostsLookupNode cf.hosts n = some h) {name : Str}
    (hn : h.name = some name) (force : Bool) : ftnToInet cf n force =
      if (force = true ∨ h.flags &&& HOST_POINT ≠ 0) ∧ 0 < n.point ∧ h.node.point = 0 then
        112 :: (putInt n.point ++ 46 :: name)
      else name := by
  have hp : lit "p" = [112] := rfl
  have hdot : lit "." = [46] := rfl
  unfold ftnToInet
  rw [hh]
  dsimp only
  rw [hn, hp, hdot]
  dsimp only
  refine if_congr ?_ (by simp) rfl
  by_cases hf : h.flags &&& HOST_POINT = 0
  · simp [hf, and_assoc]
  · simp [hf]

end

theorem pointPrefix_label {v : Int} (h : 0 ≤ v) (s : Str) :
    pointPrefix (112 :: (putInt v ++ 46 :: s)) = (v, s) := by
  have hno : NoDigit (46 :: s) := Dotted.noDigit (.inr ⟨s, rfl⟩)
  have hdrop : (putInt v ++ 46 :: s).dropWhile isDigit = 46 :: s := by
    rw [putInt_of_nonneg h, dropWhile_putDec _ hno]
  rw [pointPrefix, if_pos (by decide), hdrop]
  simp only [BEq.rfl, if_true, atoi_putInt_append h hno]

theorem pointPrefix_of_head {c : UInt8} (hc : (c == 112 || c == 80) = false) (s : Str) :
    pointPrefix (c :: s) = (-1, c :: s) := by
  rw [pointPrefix, hc]
  rfl

section

variable {cf : InetConfig} (hcf : cf.Plain)

include hcf

/-- A name of HOSTS is the name of its entry only. -/
theorem hostsLookupName_mem {h : Host} (hh : h ∈ cf.hosts) {name : Str}
    (hname : h.name = some name) :
    hostsLookupName cf.hosts name = some h := by
  have hself : h.name.any (strieq name) = true := by
    rw [hname]
    exact strieq_refl name
  cases hfind : hostsLookupName cf.hosts name with
  | none =>
      rw [hostsLookupName, List.find?_eq_none] at hfind
      exact absurd hself (hfind h hh)
  | some h' =>
      have hmem : h' ∈ cf.hosts := List.mem_of_find?_eq_some hfind
      have hsame : h'.name.any (strieq name) = true := by
        unfold hostsLookupName at hfind
        have hfound := List.find?_some hfind
        exact hfound
      by_contra hne
      have hne : h ≠ h' := fun he => hne (congrArg some he.symm)
      cases hn : h'.name with
      | none =>
          rw [hn] at hsame
          cases hsame
      | some name' =>
          rw [hn] at hsame
          have hdiff := hcf.unique.forall hh hmem hne name hname name' hn
          rw [show strieq name name' = true from hsame] at hdiff
          cases hdiff

/-- No domain can be stripped from the name but its own. -/
theorem findSome_tryPfnz {n : Node} (hn : n.Full) {dom : Str} (hp : PfnzName cf n dom)
    (hlen : (nodeToPfnz n ++ dom).length < MAXINETADDR) :
    cf.domains.findSome? (fun d => tryPfnz cf.defzone (nodeToPfnz n ++ dom) d.1 d.2) =
      some (n.withDomain []) := by
  have hfit : ∀ s : Str, s.length < MAXINETADDR → bufCopy MAXINETADDR s = s :=
    fun s hs => List.take_of_length_le (Nat.le_pred_of_lt hs)
  have honly : ∀ d ∈ cf.domains, ∀ m, tryPfnz cf.defzone (nodeToPfnz n ++ dom) d.1 d.2 =
      some m → m = n.withDomain [] := by
    intro d hd m hm
    unfold tryPfnz at hm
    dsimp only at hm
    rw [hfit _ hlen] at hm
    split at hm
    · next hs =>
        rw [Bool.and_eq_true, decide_eq_true_eq] at hs
        obtain ⟨hlt, hs⟩ := hs
        have hshort : (d.1 ++ d.2).length < MAXINETADDR := by
          rw [List.length_append]
          exact hlt.trans hlen
        rw [hfit _ hshort] at hs
        exact pfnzToNode_stripped hn hp.plain (hcf.domain d hd)
          (hp.zone.imp_right fun h => h d hd) (List.take_append_drop _ _) hs hm
    · cases hm
  have hown : tryPfnz cf.defzone (nodeToPfnz n ++ dom) [] dom = some (n.withDomain []) := by
    have hpos : 0 < (nodeToPfnz n).length := by
      rw [nodeToPfnz_eq hn]
      exact Nat.lt_of_lt_of_le (List.length_pos_of_ne_nil (pfnzLabels_ne_nil n)) (length_labelText _)
    have hlt : dom.length < (nodeToPfnz n ++ dom).length := by
      rw [List.length_append]
      omega
    have hcut : (nodeToPfnz n ++ dom).length - dom.length = (nodeToPfnz n).length := by
      rw [List.length_append]
      omega
    unfold tryPfnz
    dsimp only
    rw [hfit _ hlen, List.nil_append, List.length_nil, Nat.zero_add, hcut, List.drop_left,
      List.take_left, hfit dom (hlt.trans hlen), strieq_refl, pfnzToNode_nodeToPfnz hn,
      decide_eq_true hlt]
    rfl
  cases hfind : cf.domains.findSome? fun d => tryPfnz cf.defzone (nodeToPfnz n ++ dom) d.1
      d.2 with
  | none =>
      rw [List.findSome?_eq_none_iff] at hfind
      rw [hfind _ hp.known] at hown
      cases hown
  | some m =>
      obtain ⟨d, hd, hm⟩ := List.exists_of_findSome?_eq_some hfind
      rw [honly d hd m hm]

/-- A `p.f.n.z` name is read. -/
theorem inetToFtn_pfnz {n : Node} (hn : n.Full) {dom : Str} (hp : PfnzName cf n dom)
    (hlen : (nodeToPfnz n ++ dom).length < MAXINETADDR) :
    inetToFtn cf (nodeToPfnz n ++ dom) = some (n.withDomain []) := by
  have hboss : n.boss.Full :=
    ⟨⟨hn.net, hn.node, Int.le_refl 0, hn.net_int, hn.node_int, (by decide : (0 : Int) < 2 ^ 31)⟩,
      hn.zone, hn.zone_int, fun _ hc => nomatch hc⟩
  have hlabels : nodeToPfnz n.boss = labelText [(102, n.node), (110, n.net), (122, n.zone)] :=
    nodeToPfnz_eq hboss
  obtain ⟨point, hcut, hshort⟩ : ∃ point, pointPrefix (nodeToPfnz n ++ dom) =
      (point, nodeToPfnz n.boss ++ dom) ∧
      (nodeToPfnz n.boss ++ dom).length ≤ (nodeToPfnz n ++ dom).length := by
    rw [nodeToPfnz_eq hn, hlabels]
    by_cases h : 0 < n.point
    · refine ⟨n.point, ?_, ?_⟩
      · rw [pfnzLabels, if_pos h, List.singleton_append, labelText_cons _ (List.cons_ne_nil _ _),
          List.cons_append, List.cons_append, List.append_assoc, List.cons_append]
        exact @pointPrefix_label n.point hn.point _
      · rw [pfnzLabels, if_pos h, List.singleton_append,
          labelText_cons (112, n.point) (List.cons_ne_nil _ _)]
        simp only [List.length_append, List.length_cons]
        omega
    · have hc : ((102 : UInt8) == 112 || (102 : UInt8) == 80) = false := by decide
      rw [pfnzLabels, if_neg h, List.nil_append]
      exact ⟨-1, pointPrefix_of_head hc _, Nat.le_refl _⟩
  have hbuf : ∀ {s : Str}, s.length < MAXINETADDR → bufCopy MAXINETADDR s = s :=
    fun hs => List.take_of_length_le (Nat.le_pred_of_lt hs)
  have hself := hp.hosts [] (by simp)
  rw [List.append_nil, hbuf (Nat.lt_of_le_of_lt hshort hlen)] at hself
  have hnone : (hostsLookupName cf.hosts (nodeToPfnz n.boss ++ dom) <|>
      hostsLookupName cf.hosts (bufCopy MAXINETADDR (nodeToPfnz n.boss ++ dom ++ cf.domainname)) <|>
      hostsLookupName cf.hosts (bufCopy MAXINETADDR (nodeToPfnz n.boss ++ dom ++ cf.hostsdomain))) =
        none := by
    rw [hself, hp.hosts cf.domainname (by simp), hp.hosts cf.hostsdomain (by simp)]
    rfl
  unfold inetToFtn
  rw [hcut]
  dsimp only
  rw [hnone]
  dsimp only
  rw [hbuf hlen]
  exact findSome_tryPfnz hcf hn hp hlen

/-- A name of HOSTS is read, with the point in front of it. -/
theorem inetToFtn_host {h : Host} (hh : h ∈ cf.hosts) {name : Str} (hname : h.name = some name) :
    (pointPrefix name = (-1, name) → inetToFtn cf name = some h.node) ∧
    ∀ v : Int, 0 ≤ v → h.node.point = 0 →
      inetToFtn cf (112 :: (putInt v ++ 46 :: name)) = some { h.node with point := v } := by
  have hlookup := hostsLookupName_mem hcf hh hname
  constructor
  · intro hcut
    unfold inetToFtn
    rw [hcut]
    dsimp only
    rw [hlookup]
    show some (if _ && false then _ else h.node) = some h.node
    rw [Bool.and_false]
    rfl
  · intro v hv h0
    have hne : (v != -1) = true := by
      rw [bne_iff_ne]
      omega
    unfold inetToFtn
    rw [pointPrefix_label hv]
    dsimp only
    rw [hlookup, hne]
    show some (if (h.node.point == 0 && true) = true then _ else h.node) = _
    rw [h0]
    rfl

/-- The name of a node is read as the node. -/
theorem inetToFtn_ftnToInet {n : Node} (hn : n.Full) {force : Bool} {len : Nat}
    (hname : HasName cf len n force) :
    ∃ m, inetToFtn cf (strFtnToInet cf len n force) = some m ∧ nodeEq m n = true := by
  have hfits := hname.fits
  have hbuf : strFtnToInet cf len n force = ftnToInet cf n force :=
    List.take_of_length_le (by omega)
  rw [hbuf]
  have hmax : (ftnToInet cf n force).length < MAXINETADDR := by omega
  have hpfnz : ∀ {dom : Str}, PfnzName cf n dom → ftnToInet cf n force = nodeToPfnz n ++ dom →
      ∃ m, inetToFtn cf (ftnToInet cf n force) = some m ∧ nodeEq m n = true := by
    intro dom hdom heq
    rw [heq] at hmax ⊢
    exact ⟨_, inetToFtn_pfnz hcf hn hdom hmax, nodeEq_withDomain n []⟩
  cases hlook : hostsLookupNode cf.hosts n with
  | none => exact hpfnz (hname.unlisted hlook) (ftnToInet_none hlook force)
  | some h =>
      have hmem : h ∈ cf.hosts := List.mem_of_find?_eq_some hlook
      have hsame := hlook
      unfold hostsLookupNode at hsame
      have hsame := List.find?_some hsame
      simp only [Bool.and_eq_true, Bool.or_eq_true, beq_iff_eq] at hsame
      obtain ⟨⟨⟨hz, ht⟩, hm⟩, hp⟩ := hsame
      cases hn' : h.name with
      | none => exact hpfnz (hname.unnamed h hlook hn') (ftnToInet_unnamed hlook hn' force)
      | some name =>
          obtain ⟨hplain, hpoint⟩ := inetToFtn_host hcf hmem hn'
          have hkeep := hname.point h hlook (by rw [hn']; rfl)
          have hn0 : 0 ≤ n.point := hn.point
          rw [ftnToInet_named hlook hn']
          split
          · next hpref =>
              refine ⟨_, hpoint n.point hn0 hpref.2.2, ?_⟩
              simp only [nodeEq, hz, ht, hm, BEq.rfl, Bool.and_self]
          · next hpref =>
              have hown : n.point = 0 ∨ h.node.point ≠ 0 := by
                by_contra hboth
                rw [not_or, not_not] at hboth
                have hpos : 0 < n.point := by omega
                rcases hkeep with h1 | h1 | h1 | h1
                · exact hpref ⟨.inl h1, hpos, hboth.2⟩
                · exact hpref ⟨.inr h1, hpos, hboth.2⟩
                · exact hboth.1 h1
                · exact h1 hboth.2
              have hpt : n.point = h.node.point := by omega
              refine ⟨_, hplain (hname.name h hlook name hn' hown), ?_⟩
              simp only [nodeEq, hz, ht, hm, hpt, BEq.rfl, Bool.and_self]

/-- A node comes back from its name, and no other node has this name. -/
theorem inetToFtn_strFtnToInet {n : Node} (hn : n.Full) {force : Bool} {len : Nat}
    (hname : HasName cf len n force) :
    (∃ m, inetToFtn cf (strFtnToInet cf len n force) = some m ∧ nodeEq m n = true) ∧
    ∀ {n' : Node}, n'.Full → HasName cf len n' force → nodeEq n' n = false →
      strFtnToInet cf len n' force ≠ strFtnToInet cf len n force := by
  obtain ⟨m, hm, hmn⟩ := inetToFtn_ftnToInet hcf hn hname
  refine ⟨⟨m, hm, hmn⟩, ?_⟩
  intro n' hn' hname' hne heq
  obtain ⟨m', hm', hmn'⟩ := inetToFtn_ftnToInet hcf hn' hname'
  rw [heq, hm] at hm'
  obtain rfl := Option.some.inj hm'
  simp only [nodeEq, Bool.and_eq_true, beq_iff_eq] at hmn hmn'
  obtain ⟨⟨⟨h1, h2⟩, h3⟩, h4⟩ := hmn
  obtain ⟨⟨⟨h1', h2'⟩, h3'⟩, h4'⟩ := hmn'
  simp only [nodeEq, ← h1, ← h2, ← h3, ← h4, ← h1', ← h2', ← h3', ← h4', BEq.rfl, Bool.and_self] at hne
  cases hne

end

/-- FidoNet, and a host that is in HOSTS without `-p`. -/
def fidoInet : InetConfig :=
  { defzone := 2
    hostname := lit "f1"
    domainname := lit ".n4500.z2.fidonet.by"
    hostsdomain := lit ".n4500.z2.fidonet.by"
    zones := [(2, lit ".fidonet.by")]
    hosts := [⟨⟨2, 5020, 9, 0, []⟩, 0, some (lit "orthanc.n4500.z2.fidonet.by")⟩]
    ftnInvalidDomain := lit "INVALID_FTN_ADDRESS" }

theorem fidoInet_plain : fidoInet.Plain := by
  refine ⟨by decide +kernel, ?_⟩
  intro d hd
  have hdot : ∀ d ∈ fidoInet.domains, d.1 ++ d.2 = [] ∨ (d.1 ++ d.2).head? = some 46 := by
    decide +kernel
  refine (hdot d hd).imp_right fun h => ?_
  obtain ⟨t, ht⟩ := List.head?_eq_some_iff.mp h
  exact ⟨t, ht⟩

theorem inetToFtn_strFtnToInet_point :
    ∃ m, inetToFtn fidoInet (strFtnToInet fidoInet MAXINETADDR ⟨2, 5020, 7, 3, []⟩ true) = some m ∧
      nodeEq m ⟨2, 5020, 7, 3, []⟩ = true := by
  have hnone : hostsLookupNode fidoInet.hosts ⟨2, 5020, 7, 3, []⟩ = none := by decide
  refine (inetToFtn_strFtnToInet fidoInet_plain (by decide)
    ⟨?_, ?_, ?_, fun _ => ⟨?_, ?_, ?_, .inl rfl⟩, ?_⟩).1
  · intro h hh
    rw [hnone] at hh
    cases hh
  · intro h hh
    rw [hnone] at hh
    cases hh
  · intro h hh
    rw [hnone] at hh
    cases hh
  · decide +kernel
  · decide +kernel
  · decide +kernel
  · decide +kernel

/-- Without `-p` and without force a point has the name of its boss. -/
theorem inetToFtn_noPoint :
    ¬ ∀ (cf : InetConfig) (n : Node) (force : Bool), cf.hosts.Pairwise Host.Apart →
      cf.hosts.Pairwise (fun a b => nodeEq a.node b.node = false) →
      cf.zones.Pairwise (fun a b => a.1 ≠ b.1 ∧ strieq a.2 b.2 = false) → n.Full →
      ∃ m, inetToFtn cf (strFtnToInet cf MAXINETADDR n force) = some m ∧ nodeEq m n = true := by
  intro h
  obtain ⟨m, hm, heq⟩ := h fidoInet ⟨2, 5020, 9, 3, []⟩ false (by decide) (by decide) (by decide)
    (by decide)
  have hboss : inetToFtn fidoInet (strFtnToInet fidoInet MAXINETADDR ⟨2, 5020, 9, 3, []⟩ false) =
      some ⟨2, 5020, 9, 0, []⟩ := by decide +kernel
  rw [hboss] at hm
  rw [← Option.some.inj hm] at heq
  revert heq
  decide

end Fidogate

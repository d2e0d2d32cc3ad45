/-
# `Fidogate.Common.Outbound` — binkley.c: the files of a node

The outbound of a node is found by the base of a name.  What is put behind it
tells whether a file holds packets, names of files, or that some program is
busy with the node.
-/
import Fidogate.Common.Config
import Fidogate.Lib.Files
import Mathlib.Data.List.Find

namespace Fidogate

open Bytes

/-- Where the outbound is: `AmigaStyleOutbound`, the directories of the zones
and the base directory. -/
structure Outbound where
  aso : Bool
  zones : List (Int × Str)
  btbasedir : Option Str

/-- `cf_zones_out`. -/
def cfZonesOut (ob : Outbound) (zone : Int) : Option Str :=
  (ob.zones.find? fun z => z.1 == zone).map Prod.snd

/-- `%04x` of an `int`. -/
def putHex4 (n : Int) : Str :=
  let ds := (Nat.toDigits 16 (n % 2 ^ 32).toNat).map Char.toUInt8
  List.replicate (4 - ds.length) 48 ++ ds

/-- `bink_out_name`: the name up to its last dot. -/
def binkOutName (ob : Outbound) (n : Node) : Option Str := do
  let out ← cfZonesOut ob (if ob.aso then 0 else n.zone)
  let outbound ← ob.btbasedir
  let base := outbound ++ lit "/" ++ out ++ lit "/"
  some ((if ob.aso then
      base ++ putInt n.zone ++ lit "." ++ putInt n.net ++ lit "." ++ putInt n.node ++ lit "." ++
        putInt n.point ++ lit "."
    else if 0 < n.point then
      base ++ putHex4 n.net ++ putHex4 n.node ++ lit ".pnt/0000" ++ putHex4 n.point ++ lit "."
    else base ++ putHex4 n.net ++ putHex4 n.node ++ lit ".").take (MAXPATH - 1))

/-- A flavour: what the names of its FLO and OUT files end in, and what it is
called. -/
structure OutbType where
  flo : Str
  out : Str
  flav : Str
  shrt : Str
  deriving DecidableEq

/-- `outb_types` behind `FLAV_NONE`. -/
def outbTypes : List OutbType :=
  [⟨lit "hlo", lit "hut", lit "Hold", lit "H"⟩, ⟨lit "flo", lit "out", lit "Normal", lit "N"⟩,
   ⟨lit "dlo", lit "dut", lit "Direct", lit "D"⟩, ⟨lit "clo", lit "cut", lit "Crash", lit "C"⟩]

/-- `BUF_COPY2` of the base and an ending. -/
def outbFile (outb ext : Str) : Str := (outb ++ ext).take (MAXPATH - 1)

/-- `bink_bsy_name`. -/
def binkBsyName (ob : Outbound) (n : Node) : Option Str :=
  (binkOutName ob n).map (outbFile · (lit "bsy"))

/-- A file of one of the endings, the first that exists; else a new one of the
flavour, the last in the table that has the name. -/
def binkFind (d : Files.Dir Str Str) (ext : OutbType → Str) (outb : Str) (flav : Option Str) :
    Option Str :=
  match outbTypes.find? fun t => (d (outbFile outb (ext t))).isSome with
  | some t => some (outbFile outb (ext t))
  | none => do
      let flav ← flav
      let t ← (outbTypes.filter fun t =>
        strieq t.flav flav || strieq t.shrt flav || strieq (ext t) flav).getLast?
      some (outbFile outb (ext t))

/-- `bink_find_flo`. -/
def binkFindFlo (ob : Outbound) (d : Files.Dir Str Str) (n : Node) (flav : Option Str) :
    Option Str := do
  let outb ← binkOutName ob n
  binkFind d OutbType.flo outb flav

/-- `bink_find_out`. -/
def binkFindOut (ob : Outbound) (d : Files.Dir Str Str) (n : Node) (flav : Option Str) :
    Option Str := do
  let outb ← binkOutName ob n
  binkFind d OutbType.out outb flav

/-! ## The file that is found -/

section

variable {d d' : Files.Dir Str Str} {ext : OutbType → Str} {outb f : Str} {flav : Option Str}

theorem binkFind_of_exists {t : OutbType}
    (h : outbTypes.find? (fun t => (d (outbFile outb (ext t))).isSome) = some t) :
    binkFind d ext outb flav = some (outbFile outb (ext t)) := by
  rw [binkFind, h]

/-- A file of the table is found where no other exists. -/
theorem binkFind_only {t : OutbType} (ht : t ∈ outbTypes) (hf : outbFile outb (ext t) = f)
    (hd : (d f).isSome)
    (honly : ∀ t ∈ outbTypes, (d (outbFile outb (ext t))).isSome → outbFile outb (ext t) = f) :
    binkFind d ext outb flav = some f := by
  cases h : outbTypes.find? (fun t => (d (outbFile outb (ext t))).isSome) with
  | none => exact absurd (hf ▸ hd) (List.find?_eq_none.mp h t ht)
  | some t' =>
      have hs := List.find?_some h
      rw [binkFind_of_exists h]
      exact congrArg some (honly t' (List.mem_of_find?_eq_some h) hs)

/-- What was found is found again, as long as it exists and no other file of
the table comes or goes. -/
theorem binkFind_again (h : binkFind d ext outb flav = some f) (hf : (d' f).isSome)
    (hd : ∀ t ∈ outbTypes, outbFile outb (ext t) ≠ f →
      d' (outbFile outb (ext t)) = d (outbFile outb (ext t)))
    (flav' : Option Str) : binkFind d' ext outb flav' = some f := by
  unfold binkFind at h
  split at h
  · next t ht =>
      have he : outbFile outb (ext t) = f := Option.some.inj h
      have hs := List.find?_some ht
      have hdf : (d f).isSome := he ▸ hs
      have hsame : ∀ t ∈ outbTypes, (d' (outbFile outb (ext t))).isSome =
          (d (outbFile outb (ext t))).isSome := by
        intro t ht
        by_cases heq : outbFile outb (ext t) = f
        · rw [heq, hf, hdf]
        · rw [hd t ht heq]
      have hfind : outbTypes.find? (fun t => (d' (outbFile outb (ext t))).isSome) = some t := by
        rw [← ht]
        exact List.find?_congr hsame
      rw [binkFind_of_exists hfind, he]
  · next hnone =>
      obtain ⟨flav₀, hflav⟩ := Option.bind_eq_some_iff.mp h
      obtain ⟨t, ht, he⟩ := Option.bind_eq_some_iff.mp hflav.2
      have hmem : t ∈ outbTypes := (List.mem_filter.mp (List.mem_of_getLast? ht)).1
      refine binkFind_only hmem (Option.some.inj he) hf ?_
      intro t' ht' hs
      by_contra hne
      rw [hd t' ht' hne] at hs
      exact List.find?_eq_none.mp hnone t' ht' hs

end

/-- Where names fit their buffer, what is put behind the base tells them
apart. -/
theorem outbFile_ne {outb a b : Str} (ha : outb.length + a.length < MAXPATH)
    (hb : outb.length + b.length < MAXPATH) (h : a ≠ b) : outbFile outb a ≠ outbFile outb b := by
  intro he
  rw [outbFile, outbFile, List.take_of_length_le, List.take_of_length_le] at he
  · exact h (List.append_cancel_left he)
  · rw [List.length_append]
    omega
  · rw [List.length_append]
    omega

end Fidogate

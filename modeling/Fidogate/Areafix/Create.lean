/-
# `Fidogate.Areafix.Create` — areas created by a received name

`cmd_new` tokenizes the received name together with the configured options,
and the lines of the nodes to subscribe where they stand in the configuration.
Here is what it does as long as the name is a word, and how those lines change
from one creation to the next (`Cuts`).
-/
import Mathlib.Logic.Function.Iterate
import Fidogate.Areafix.Commands

namespace Fidogate

open Bytes

/-! ## Strings that are cut in place -/

theorem strtokCut_ne_nil {s : Str} (h : s ≠ []) : strtokCut blanks s ≠ [] := by
  unfold strtokCut
  split
  · exact h
  · split <;> simp

section

variable {key name : Str}

/-- The lines of the keyword, each cut behind its first word. -/
theorem loopStrings_cut : ∀ es : List (Str × Str),
    (((cutStrings key blanks es).filter fun e => strieq e.1 key).map Prod.snd).takeWhile
      (· != []) =
    (((es.filter fun e => strieq e.1 key).map Prod.snd).takeWhile (· != [])).map
      (strtokCut blanks)
  | [] => rfl
  | e :: es => by
      have ih := loopStrings_cut es
      rw [cutStrings]
      cases hk : strieq e.1 key with
      | false =>
          rw [if_neg (by decide), List.filter_cons_of_neg (by simp [hk]),
            List.filter_cons_of_neg (by simp [hk])]
          exact ih
      | true =>
          rw [if_pos rfl]
          by_cases he : e.2 = []
          · rw [if_pos (by simp [he]), List.filter_cons_of_pos (by simpa using hk)]
            simp [he]
          · rw [if_neg (by simp [he]), List.filter_cons_of_pos (by simpa using hk),
              List.filter_cons_of_pos (by simpa using hk), List.map_cons, List.map_cons,
              List.takeWhile_cons_of_pos (by simpa using strtokCut_ne_nil he),
              List.takeWhile_cons_of_pos (by simpa using he), List.map_cons, ih]

/-- The strings of another keyword stay. -/
theorem strings_cut (h : strieq key name = false) : ∀ es : List (Str × Str),
    ((cutStrings key blanks es).filter fun e => strieq e.1 name).map Prod.snd =
      (es.filter fun e => strieq e.1 name).map Prod.snd
  | [] => rfl
  | e :: es => by
      have ih := strings_cut h es
      rw [cutStrings]
      cases hk : strieq e.1 key with
      | false =>
          rw [if_neg (by decide), List.filter_cons, List.filter_cons]
          split
          · rw [List.map_cons, List.map_cons, ih]
          · exact ih
      | true =>
          have hn : strieq e.1 name = false := by
            refine Bool.eq_false_iff.mpr ?_
            intro hn
            rw [strieq_comm] at hk
            rw [strieq_trans hk hn] at h
            cases h
          rw [if_pos rfl]
          split
          · rfl
          · rw [List.filter_cons_of_neg (by simp [hn]), List.filter_cons_of_neg (by simp [hn]), ih]

end

/-- A configuration that only creations have changed, `n` of them. -/
structure Cuts (key : Str) (cf₀ cf : Config) (n : Nat) : Prop where
  main : cf.main = cf₀.main
  strings : cf.strings = (cutStrings key blanks)^[n] cf₀.strings

section

variable {key : Str} {cf₀ cf : Config} {n : Nat}

theorem Cuts.cut (h : Cuts key cf₀ cf n) : Cuts key cf₀ (cf.cut key blanks) (n + 1) :=
  ⟨h.main, by
    rw [Function.iterate_succ_apply', ← h.strings]
    rfl⟩

theorem Cuts.defzone (h : Cuts key cf₀ cf n) : cf.defzone = cf₀.defzone :=
  congrArg StAddr.zone h.main

theorem Cuts.loopStrings (h : Cuts key cf₀ cf n) :
    cfLoopStrings cf key = (cfLoopStrings cf₀ key).map (strtokCut blanks)^[n] := by
  have hiter : ∀ n : Nat,
      ((((cutStrings key blanks)^[n] cf₀.strings).filter fun e => strieq e.1 key).map
        Prod.snd).takeWhile (· != []) = (cfLoopStrings cf₀ key).map (strtokCut blanks)^[n] := by
    intro n
    induction n with
    | zero => exact (List.map_id _).symm
    | succ n ih =>
        rw [Function.iterate_succ_apply', loopStrings_cut, ih, List.map_map,
          Function.iterate_succ']
  unfold cfLoopStrings cfGetStrings
  rw [h.strings]
  exact hiter n

theorem Cuts.getStrings (h : Cuts key cf₀ cf n) {name : Str} (hn : strieq key name = false) :
    cfGetStrings cf name = cfGetStrings cf₀ name := by
  have hiter : ∀ n : Nat, (((cutStrings key blanks)^[n] cf₀.strings).filter
      fun e => strieq e.1 name).map Prod.snd =
      (cf₀.strings.filter fun e => strieq e.1 name).map Prod.snd := by
    intro n
    induction n with
    | zero => rfl
    | succ n ih => rw [Function.iterate_succ_apply', strings_cut hn, ih]
  unfold cfGetStrings
  rw [h.strings]
  exact hiter n

end

/-! ## The nodes to subscribe -/

/-- The nodes of one line, the first of them read in a zone. -/
def subscribeLine (zone : Int) (line : Str) : List Node :=
  ascToNodes (nodeOld zone) ((xstrtok blanks line).takeWhile (· != []))

/-- The lines of the nodes to subscribe still name the nodes they named at the
start `cf₀`: they are uncut or have nothing to lose behind their first word,
and they are read in the same zone or each names its own. -/
structure SubscribeOk (t : Tables) (cf₀ cf : Config) : Prop where
  lines : cf.strings = cf₀.strings ∨ ∀ line ∈ cfLoopStrings cf₀ (subscribeKey t), ∀ n zone,
    subscribeLine zone ((strtokCut blanks)^[n] line) = subscribeLine zone line
  zone : cf.curZone = cf₀.curZone ∨ ∀ line ∈ cfLoopStrings cf₀ (subscribeKey t), ∀ zone,
    subscribeLine zone line = subscribeLine cf₀.curZone line

theorem subscribeNodes_eq (t : Tables) (cf : Config) : subscribeNodes t cf =
    (cfLoopStrings cf (subscribeKey t)).flatMap (subscribeLine cf.curZone) := rfl

theorem subscribeNodes_of_ok {t : Tables} {cf₀ cf : Config} {n : Nat}
    (hc : Cuts (subscribeKey t) cf₀ cf n) (h : SubscribeOk t cf₀ cf) :
    subscribeNodes t cf = subscribeNodes t cf₀ := by
  have hlines : (cfLoopStrings cf (subscribeKey t)).flatMap (subscribeLine cf.curZone) =
      (cfLoopStrings cf₀ (subscribeKey t)).flatMap (subscribeLine cf.curZone) := by
    rcases h.lines with h | h
    · unfold cfLoopStrings cfGetStrings
      rw [h]
    · rw [hc.loopStrings, List.flatMap_map]
      exact List.flatMap_congr fun line hl => h line hl n cf.curZone
  rw [subscribeNodes_eq, hlines, subscribeNodes_eq]
  rcases h.zone with h | h
  · rw [h]
  · exact List.flatMap_congr fun line hl => h line hl cf.curZone

/-! ## NEW -/

/-- Either nothing was created, or just the area of that name, by the options
and nodes configured. -/
def CreatedExactly (t : Tables) (w : World) (cf₀ : Config) (node : Node) (name opts : Str)
    (dwnl : Bool) (areas areas' : List AreasBBS) : Prop :=
  areas' = areas ∨ checkForbiddenArea t w cf₀ name = false ∧ ∃ dir p,
    p = { newArea w cf₀ node name (xstrtok blanks opts) dwnl true with
      dir := dir, nodes := node :: subscribeNodes t cf₀ } ∧
    p.area = strUpper name ∧ areas' = areas ++ [p]

/-- No option changes the name. -/
theorem newOptions_area (zone : Int) (prl pass : Bool) : ∀ (ts : List Str) (p : AreasBBS),
    (newOptions zone prl pass ts p).area = p.area
  | [], _ => rfl
  | [o], p => by
      rw [newOptions]
      simp only [apply_ite AreasBBS.area, newOptions, ite_self]
  | o :: v :: ts, p => by
      rw [newOptions]
      simp only [apply_ite AreasBBS.area, newOptions_area zone prl pass ts,
        newOptions_area zone prl pass (v :: ts), ite_self]

section

variable {t : Tables} {w : World} {cf₀ cf : Config} {n : Nat}

theorem Cuts.getString (h : Cuts (subscribeKey t) cf₀ cf n) {name : Str}
    (hn : strieq (subscribeKey t) name = false) : cfGetString cf name = cfGetString cf₀ name := by
  unfold cfGetString
  rw [h.getStrings hn]

theorem Cuts.newArea (h : Cuts (subscribeKey t) cf₀ cf n) (node : Node) (name : Str)
    (opts : List Str) (dwnl inter : Bool) :
    newArea w cf node name opts dwnl inter = newArea w cf₀ node name opts dwnl inter := by
  have hkey : strieq (subscribeKey t) (lit "IgnorePRLKey") = false := by
    unfold subscribeKey
    split <;> decide +kernel
  unfold Fidogate.newArea
  rw [h.getString hkey, h.defzone]

theorem Cuts.checkForbiddenArea (h : Cuts (subscribeKey t) cf₀ cf n) (name : Str) :
    checkForbiddenArea t w cf name = checkForbiddenArea t w cf₀ name := by
  have hkey : ∀ suffix : Str, suffix = [] ∨ suffix = lit "File" →
      strieq (subscribeKey t) ((if t.areafix then lit "AreaFixCreateForbiddenAreas"
        else lit "FileFixCreateForbiddenAreas") ++ suffix) = false := by
    intro suffix hs
    unfold subscribeKey
    rcases hs with rfl | rfl <;> cases t.areafix <;> decide +kernel
  have h1 := h.getStrings (hkey [] (Or.inl rfl))
  have h2 := h.getStrings (hkey (lit "File") (Or.inr rfl))
  rw [List.append_nil] at h1
  unfold Fidogate.checkForbiddenArea cfLoopStrings
  dsimp only
  rw [h1, h2]

/-- `cmd_new` cuts the lines once more, or leaves them. -/
theorem cmdNew_cuts {st : Areafix} (h : Cuts (subscribeKey t) cf₀ st.cf n) (node : Node)
    (line : Str) (dwnl inter : Bool) :
    ∃ n', Cuts (subscribeKey t) cf₀ (cmdNew t w node line dwnl inter st).2.cf n' := by
  unfold cmdNew
  split
  · exact ⟨n, h⟩
  · split
    · exact ⟨n, h⟩
    · split
      · exact ⟨n, h⟩
      · split
        · exact ⟨n, h⟩
        · split
          · exact ⟨n, h⟩
          · dsimp only
            split
            · exact ⟨n, h⟩
            · exact ⟨n + 1, h.cut⟩

theorem newArea_area (node : Node) (name : Str) (opts : List Str) (dwnl inter : Bool) :
    (newArea w cf node name opts dwnl inter).area = strUpper name := by
  unfold newArea
  exact newOptions_area _ _ _ _ _

/-- A name that is a word is the name of the area, and everything else comes
from the configuration. -/
theorem cmdNewInt_exact {st : Areafix} (h : Cuts (subscribeKey t) cf₀ st.cf n)
    (hs : SubscribeOk t cf₀ st.cf) (hauth : st.auth.cmdline = false) {name : Str}
    (hw : IsWord true blanks name) (node : Node) (opts : Str) (dwnl : Bool) :
    CreatedExactly t w cf₀ node name opts dwnl st.areas
      (cmdNewInt t w node (name ++ lit " " ++ opts) dwnl st).2.areas := by
  have hwords : xstrtok blanks (name ++ lit " " ++ opts) = name :: xstrtok blanks opts := by
    rw [List.append_assoc]
    exact words_append hw (by decide) opts
  unfold cmdNewInt cmdNew
  rw [hwords, hauth]
  split
  · exact Or.inl rfl
  · dsimp only
    split
    · exact Or.inl rfl
    · split
      · exact Or.inl rfl
      · split
        · exact Or.inl rfl
        · next hf =>
            rw [h.newArea, h.checkForbiddenArea] at *
            split
            · exact Or.inl rfl
            · next dir _ =>
                rw [subscribeNodes_of_ok h hs]
                exact Or.inr ⟨by simpa using hf, dir, _, rfl, newArea_area _ _ _ _ _, rfl⟩

end

end Fidogate

/-
# `Fidogate.Common.DbzRecords` — dbz.c: what a data base holds

A record is a key, a tab and a text in the base file.  `Dbz.Holds` says which
records a data base has been given, in their order.  Fetching a key finds the
first of them whose key is the same up to the letter case that does not count,
and storing one adds it behind the others, whatever the hash of the keys.
-/
import Fidogate.Common.Dbz

namespace Fidogate

open Bytes

/-- A record of the base file, and its offset. -/
structure DbzRecord where
  key : Str
  rest : Str
  place : Nat
  deriving DecidableEq, Repr

/-- The text of a record. -/
def DbzRecord.text (r : DbzRecord) : Str := r.key ++ tab :: r.rest

/-- Keys that are the same up to the letter case that does not count. -/
def sameKey (casemap : UInt8) (k k' : Str) : Bool := mapcase casemap k == mapcase casemap k'

/-- The hash of a key, with the NUL at its end. -/
def DbzConfig.keyHash (c : DbzConfig) (key : Str) : Nat :=
  dbzHash (mapcase c.casemap (key ++ [nul]))

/-- The hash and the word of a record. -/
def DbzConfig.entry (c : DbzConfig) (r : DbzRecord) : Nat × Nat :=
  (c.keyHash r.key, c.tagged (c.mkTag (c.keyHash r.key)) r.place)

/-- The record is one that can be stored. -/
structure DbzRecord.Storable (c : DbzConfig) (r : DbzRecord) : Prop where
  short : r.key.length + 1 < DBZMAXKEY
  okay : c.okayvalue r.place = true
  clean : tab ∉ r.key

/-- The search has stopped at the vacant place where it would again. -/
def Dbz.Resumes (d : Dbz) (sp : Searcher) : Prop :=
  ∃ n, Probe.Vacant d.table (d.conf.seq sp.hash) n ∧ { sp with seen := true } = d.conf.at sp.hash n

/-- The data base has been given the records, and its base file has them. -/
structure Dbz.Holds (d : Dbz) (rs : List DbzRecord) : Prop where
  good : d.conf.Good
  built : Probe.Built d.conf.seq d.table (rs.map d.conf.entry)
  storable : ∀ r ∈ rs, r.Storable d.conf
  text : ∀ r ∈ rs, r.text <+: d.basef.drop r.place
  noNul : nul ∉ d.basef
  order : rs.Pairwise (·.place < ·.place)
  core : ∀ core ∈ d.corepag, core.length = d.conf.tsize
  prevp : ∀ sp ∈ d.prevp, d.Resumes sp

/-! ## Trying a key -/

/-- The last byte is as it was, or in lower case. -/
theorem mapcase_concat (casemap : UInt8) (w : Str) (b : UInt8) :
    ∃ v b', mapcase casemap (w ++ [b]) = v ++ [b'] ∧ (b' = b ∨ b' = toLower b) := by
  rw [mapcase]
  cases h : cipoint casemap (w ++ [b]) with
  | none => exact ⟨w, b, rfl, .inl rfl⟩
  | some p =>
      have hp := cipoint_le h
      rw [List.length_append, List.length_singleton] at hp
      dsimp only
      obtain rfl | hlt := Nat.eq_or_lt_of_le hp
      · rw [List.take_of_length_le (by simp), List.drop_of_length_le (by simp), List.map_nil,
          List.append_nil]
        exact ⟨w, b, rfl, .inl rfl⟩
      · have hle : p ≤ w.length := by omega
        rw [List.drop_append_of_le_length hle, List.map_append, ← List.append_assoc]
        exact ⟨_, _, rfl, .inr rfl⟩

/-- Up to a tab that is the first one. -/
theorem eq_of_prefix_tab {w key rest : Str} (hw : tab ∉ w) (hkey : tab ∉ key)
    (h : w ++ [tab] <+: key ++ tab :: rest) : w = key := by
  obtain ⟨t, ht⟩ := h
  rw [List.append_assoc, List.singleton_append] at ht
  have := congrArg (List.takeWhile (· != tab)) ht
  rwa [(takeWhile_not_mem hw t).1, (takeWhile_not_mem hkey rest).1] at this

theorem mapcase_tab (casemap : UInt8) (k : Str) :
    mapcase casemap (k ++ [tab]) = mapcase casemap k ++ [tab] :=
  mapcase_append casemap (by decide) (by decide) k

theorem mapcase_key (casemap : UInt8) (k : Str) :
    mapcase casemap (k ++ [nul]) = mapcase casemap k ++ [nul] :=
  mapcase_append casemap (by decide) (by decide) k

section Try

variable {d : Dbz} {r : DbzRecord} (hsep : d.conf.fieldsep = tab)
  (htext : r.text <+: d.basef.drop r.place)

include hsep htext

/-- A key is found at the record of a key that is the same. -/
theorem Dbz.tryKey_of_same {k : Str} (h : sameKey d.conf.casemap k r.key = true) :
    d.tryKey (mapcase d.conf.casemap (k ++ [nul])) r.place = some true := by
  have hmap : mapcase d.conf.casemap k = mapcase d.conf.casemap r.key := beq_iff_eq.mp h
  have hlen : k.length = r.key.length := by
    have := congrArg List.length hmap
    rwa [length_mapcase, length_mapcase] at this
  have hwin : (d.basef.drop r.place).take (k ++ [nul]).length = r.key ++ [tab] := by
    obtain ⟨t, ht⟩ := htext
    rw [← ht, List.length_append, List.length_singleton, hlen, DbzRecord.text,
      show r.key ++ tab :: r.rest ++ t = (r.key ++ [tab]) ++ (r.rest ++ t) by simp,
      List.take_append_of_le_length (by simp), List.take_of_length_le (by simp)]
  rw [Dbz.tryKey, length_mapcase]
  dsimp only
  rw [hwin, if_neg (by simp [hlen]), mapcase_tab, mapcase_key, hmap,
    List.getLast?_concat, List.dropLast_concat, List.dropLast_concat, if_pos rfl, hsep,
    List.getLast?_concat]
  simp

/-- A key that is found at a record is the same as the key there. -/
theorem Dbz.same_of_tryKey (hclean : tab ∉ r.key) (hnul : nul ∉ d.basef) {k : Str} (hk : tab ∉ k)
    (h : d.tryKey (mapcase d.conf.casemap (k ++ [nul])) r.place = some true) :
    sameKey d.conf.casemap k r.key = true := by
  rw [Dbz.tryKey, length_mapcase] at h
  dsimp only at h
  split at h
  · cases h
  · next hlen =>
      rw [not_not] at hlen
      generalize hbuf : (d.basef.drop r.place).take (k ++ [nul]).length = buffer at h hlen
      obtain ⟨w, b, rfl⟩ : ∃ w b, buffer = w ++ [b] := by
        obtain rfl | ⟨w, b, rfl⟩ := List.eq_nil_or_concat buffer
        · rw [List.length_append, List.length_singleton] at hlen
          cases hlen
        · exact ⟨w, b, List.concat_eq_append⟩
      obtain ⟨v, b', hmap, hb'⟩ := mapcase_concat d.conf.casemap w b
      rw [hmap, mapcase_key, List.getLast?_concat, List.dropLast_concat, List.dropLast_concat,
        if_pos rfl, hsep, List.getLast?_concat] at h
      simp only [Option.some.injEq, Bool.and_eq_true, Bool.or_eq_true, beq_iff_eq] at h
      obtain ⟨hkv, hlast⟩ := h
      have hbmem : b ∈ d.basef := by
        have : b ∈ (d.basef.drop r.place).take (k ++ [nul]).length := by
          rw [hbuf]
          exact List.mem_append_right _ List.mem_cons_self
        exact List.mem_of_mem_drop (List.mem_of_mem_take this)
      have hbtab : b = tab := by
        have hcase : b = tab ∨ b = nul := by
          rcases hb' with rfl | rfl
          · exact hlast
          · rcases hlast with hl | hl
            · exact .inl (toLower_eq_of_not_alpha (by decide) (hl.trans (by decide)))
            · exact .inr (toLower_eq_of_not_alpha (by decide) (hl.trans (by decide)))
        exact hcase.resolve_right fun he => hnul (he ▸ hbmem)
      subst hbtab
      rw [mapcase_tab] at hmap
      have hv : mapcase d.conf.casemap w = mapcase d.conf.casemap k :=
        (List.append_inj_left' hmap rfl).trans hkv.symm
      have hw : tab ∉ w := by
        rw [← mem_mapcase_iff d.conf.casemap (by decide), hv, mem_mapcase_iff _ (by decide)]
        exact hk
      have hpre : w ++ [tab] <+: r.key ++ tab :: r.rest := by
        have h1 : w ++ [tab] <+: d.basef.drop r.place := hbuf ▸ List.take_prefix _ _
        rcases List.prefix_or_prefix_of_prefix h1 htext with hp | hp
        · exact hp
        · obtain ⟨t, ht⟩ := hp
          rw [DbzRecord.text, List.append_assoc] at ht
          have hrw := congrArg (List.takeWhile (· != tab)) ht
          rw [List.cons_append, (takeWhile_not_mem hclean _).1, (takeWhile_not_mem hw _).1] at hrw
          rw [← hrw]
          exact ⟨r.rest, by simp⟩
      rw [sameKey, ← eq_of_prefix_tab hw hclean hpre, hv, beq_self_eq_true]

end Try

/-- Where one record is, a key of its length can be read at any place in front
of it. -/
theorem Dbz.tryKey_ne_none {d : Dbz} {r : DbzRecord} (htext : r.text <+: d.basef.drop r.place)
    {key : Str} (hlen : key.length ≤ r.text.length) {place : Nat} (hle : place ≤ r.place) :
    d.tryKey key place ≠ none := by
  have h := htext.length_le
  rw [List.length_drop] at h
  have hbuf : ((d.basef.drop place).take key.length).length = key.length := by
    rw [List.length_take, List.length_drop]
    omega
  rw [Dbz.tryKey]
  dsimp only
  rw [if_neg (by rw [hbuf]; exact fun h => h rfl)]
  split <;> exact Option.some_ne_none _

/-- A key that fills the buffer is found at no record. -/
theorem Dbz.tryKey_long {d : Dbz} {r : DbzRecord} (htext : r.text <+: d.basef.drop r.place)
    (hshort : r.key.length + 1 < DBZMAXKEY) {k : Str} (hlen : k.length = DBZMAXKEY) (htab : tab ∉ k)
    (hnul : nul ∉ k) : d.tryKey (mapcase d.conf.casemap k) r.place ≠ some true := by
  intro h
  rw [Dbz.tryKey, length_mapcase, hlen] at h
  dsimp only at h
  split at h
  · cases h
  · have hlast : (mapcase d.conf.casemap k).getLast? ≠ some nul := by
      intro hl
      exact hnul ((mem_mapcase_iff _ (by decide) k).mp (List.mem_of_getLast? hl))
    rw [if_neg hlast, Option.some.injEq, beq_iff_eq] at h
    have hmem : tab ∈ (d.basef.drop r.place).take DBZMAXKEY := by
      obtain ⟨t, ht⟩ := htext
      rw [← ht, DbzRecord.text, List.append_assoc, List.take_append, List.mem_append]
      right
      rw [show DBZMAXKEY - r.key.length = (DBZMAXKEY - r.key.length - 1) + 1 by omega]
      exact List.mem_cons_self
    rw [← mem_mapcase_iff d.conf.casemap (by decide), ← h, mem_mapcase_iff _ (by decide)] at hmem
    exact htab hmem

/-! ## Fetching -/

theorem sameKey_length {casemap : UInt8} {k k' : Str} (h : sameKey casemap k k' = true) :
    k.length = k'.length := by
  have := congrArg List.length (beq_iff_eq.mp h)
  rwa [length_mapcase, length_mapcase] at this

theorem DbzConfig.keyHash_of_same {c : DbzConfig} {k k' : Str}
    (h : sameKey c.casemap k k' = true) : c.keyHash k = c.keyHash k' := by
  rw [keyHash, keyHash, mapcase_key, mapcase_key, beq_iff_eq.mp h]

/-- A value that a search stops at is the offset of a record. -/
theorem Dbz.Holds.place_of_word {d : Dbz} {rs : List DbzRecord} (h : d.Holds rs) {hash v : Nat}
    {r : DbzRecord} (hr : r ∈ rs)
    (hv : d.conf.checkTag (d.conf.mkTag hash) (d.conf.entry r).2 = some v) : v = r.place := by
  rcases h.good.checkTag_tagged (h.storable r hr).okay hash (d.conf.keyHash r.key) with hs | ⟨-, hs⟩
  · rw [DbzConfig.entry, hs] at hv
    exact (Option.some.inj hv).symm
  · rw [DbzConfig.entry, hs] at hv
    cases hv

/-- The first record with the key. -/
def firstRecord (casemap : UInt8) (key : Str) (rs : List DbzRecord) : Option DbzRecord :=
  rs.find? fun r => sameKey casemap key r.key

theorem Dbz.Holds.mem_candidates {d : Dbz} {rs : List DbzRecord} (h : d.Holds rs) {hash n v : Nat}
    (hv : v ∈ d.candidates hash 0 n) : ∃ r ∈ rs, v = r.place := by
  obtain ⟨w, hw, hwv⟩ := List.mem_filterMap.mp hv
  have hmem := h.built.mem_of_mem_path hw
  rw [List.map_map, List.mem_map] at hmem
  obtain ⟨r, hr, rfl⟩ := hmem
  exact ⟨r, hr, h.place_of_word hr hwv⟩

/-- Where no record is the key's, nothing is found. -/
theorem Dbz.Holds.fetched_none {d : Dbz} {rs : List DbzRecord} (h : d.Holds rs) {key : Str}
    {hash n : Nat} (hno : ∀ r ∈ rs, d.tryKey key r.place ≠ some true) :
    (d.fetched key hash n (d.candidates hash 0 n)).1 = none := by
  rw [Dbz.fetched]
  split
  · rfl
  · next v hv =>
      obtain ⟨r, hr, rfl⟩ := h.mem_candidates (List.mem_of_find?_eq_some hv)
      rw [if_neg (hno r hr)]

/-- The first record with the key is the first value where the search for it
does not go on. -/
theorem Dbz.Holds.fetched_first {d : Dbz} {rs : List DbzRecord} (h : d.Holds rs) {k : Str}
    (hk : tab ∉ k) {r : DbzRecord} (hfirst : firstRecord d.conf.casemap k rs = some r) {n : Nat}
    (hn : Probe.Vacant d.table (d.conf.seq (d.conf.keyHash k)) n) :
    d.fetched (mapcase d.conf.casemap (k ++ [nul])) (d.conf.keyHash k) n
      (d.candidates (d.conf.keyHash k) 0 n) = (some r.place, none) := by
  obtain ⟨hsame, before, after, hrs, hbefore⟩ := List.find?_eq_some_iff_append.mp hfirst
  have hr : r ∈ rs := hrs ▸ List.mem_append_right _ List.mem_cons_self
  have htry := Dbz.tryKey_of_same h.good.fieldsep (h.text r hr) hsame
  have hhash := DbzConfig.keyHash_of_same hsame
  have hword : d.conf.checkTag (d.conf.mkTag (d.conf.keyHash k)) (d.conf.entry r).2 =
      some r.place := by
    rcases h.good.checkTag_tagged (h.storable r hr).okay (d.conf.keyHash k)
      (d.conf.keyHash r.key) with hs | ⟨hne, -⟩
    · exact hs
    · exact absurd hhash hne
  have hentries : rs.map d.conf.entry = before.map d.conf.entry ++
      (d.conf.keyHash k, (d.conf.entry r).2) :: after.map d.conf.entry := by
    rw [hrs, List.map_append, List.map_cons, hhash]
    rfl
  have hfind := h.built.find?_path hentries hn (h.good.spread _)
    (p := fun w => (d.conf.checkTag (d.conf.mkTag (d.conf.keyHash k)) w).any
      fun v => d.tryKey (mapcase d.conf.casemap (k ++ [nul])) v != some false)
    (by rw [hword, Option.any_some, htry]; rfl) (fun w hw => ?_)
  · rw [Dbz.fetched, Dbz.candidates, List.find?_filterMap, hfind, Option.bind_some, hword]
    dsimp only
    rw [if_pos htry]
  · rw [List.map_map, List.mem_map] at hw
    obtain ⟨r', hr', rfl⟩ := hw
    have hmem : r' ∈ rs := hrs ▸ List.mem_append_left _ hr'
    rw [Function.comp_apply]
    cases hv : d.conf.checkTag (d.conf.mkTag (d.conf.keyHash k)) (d.conf.entry r').2 with
    | none => rfl
    | some v =>
        obtain rfl := h.place_of_word hmem hv
        have hlt : r'.place < r.place := by
          have := h.order
          rw [hrs, List.pairwise_append] at this
          exact this.2.2 r' hr' r List.mem_cons_self
        have hlen : (mapcase d.conf.casemap (k ++ [nul])).length ≤ r.text.length := by
          rw [length_mapcase, List.length_append, sameKey_length hsame, DbzRecord.text,
            List.length_append]
          simp
        have hsome := Dbz.tryKey_ne_none (h.text r hr) hlen hlt.le
        have hno : d.tryKey (mapcase d.conf.casemap (k ++ [nul])) r'.place ≠ some true := by
          intro ht
          have := Dbz.same_of_tryKey h.good.fieldsep (h.text r' hmem) (h.storable r' hmem).clean
            h.noNul hk ht
          exact absurd this (by simpa using hbefore r' hr')
        rw [Option.any_some]
        obtain ⟨b, hb⟩ := Option.ne_none_iff_exists'.mp hsome
        cases b with
        | true => exact absurd hb hno
        | false => rw [hb]; rfl

theorem Searcher.with_seen {sp : Searcher} (h : sp.seen = true) : { sp with seen := true } = sp := by
  cases sp
  cases h
  rfl

theorem Dbz.resumes_at {d : Dbz} {hash n : Nat}
    (hn : Probe.Vacant d.table (d.conf.seq hash) n) : d.Resumes (d.conf.at hash n) := by
  obtain ⟨hseen, hhash, -⟩ := d.conf.at_fixed hash n
  refine ⟨n, by rwa [hhash], ?_⟩
  rw [Searcher.with_seen hseen, hhash]

/-- `dbzfetch` gives the offset of the first record with the key, and changes
nothing but `prevp`. -/
theorem Dbz.Holds.dbzfetch {d : Dbz} {rs : List DbzRecord} (h : d.Holds rs) {k : Str}
    (hk : tab ∉ k) (hnul : nul ∉ k) : ∃ prevp,
    d.dbzfetch (k ++ [nul]) = some ((firstRecord d.conf.casemap k rs).map (·.place),
      { d with prevp := prevp }) ∧ Dbz.Holds { d with prevp := prevp } rs := by
  have hholds : ∀ {prevp : Option Searcher}, (∀ sp ∈ prevp, d.Resumes sp) →
      Dbz.Holds { d with prevp := prevp } rs := fun hp =>
    ⟨h.good, h.built, h.storable, h.text, h.noNul, h.order, h.core, hp⟩
  rw [Dbz.dbzfetch]
  generalize hmk : mapcase d.conf.casemap ((k ++ [nul]).take DBZMAXKEY) = mk
  have hmklen : mk.take DBZMAXKEY = mk := by
    refine List.take_of_length_le ?_
    rw [← hmk, length_mapcase, List.length_take]
    exact Nat.min_le_left _ _
  obtain ⟨n, hlt, hn⟩ := d.exists_vacant h.good (dbzHash mk)
  have hloop : d.fetchLoop mk d.rounds (d.conf.start mk none) =
      some (d.fetched mk (dbzHash mk) n (d.candidates (dbzHash mk) 0 n)) :=
    Dbz.fetchLoop_eq hn hlt rfl (Nat.zero_le n) (by omega)
  have hprevp : ∀ sp ∈ (d.fetched mk (dbzHash mk) n (d.candidates (dbzHash mk) 0 n)).2,
      d.Resumes sp := by
    intro sp hsp
    rw [Dbz.fetched] at hsp
    split at hsp
    · obtain rfl := Option.some.inj hsp
      exact Dbz.resumes_at hn
    · split at hsp <;> cases hsp
  refine ⟨_, ?_, hholds hprevp⟩
  rw [Dbz.fetch, hmklen, hloop, Option.map_some]
  congr 2
  by_cases hlong : DBZMAXKEY ≤ k.length
  · have hk' : (k ++ [nul]).take DBZMAXKEY = k.take DBZMAXKEY :=
      List.take_append_of_le_length hlong
    have hlen : (k.take DBZMAXKEY).length = DBZMAXKEY := List.length_take_of_le hlong
    have hnone : firstRecord d.conf.casemap k rs = none := by
      rw [firstRecord, List.find?_eq_none]
      intro r hr hsame
      have := sameKey_length hsame
      have := (h.storable r hr).short
      omega
    rw [hnone, Option.map_none, h.fetched_none fun r hr => ?_]
    rw [← hmk, hk']
    exact Dbz.tryKey_long (h.text r hr) (h.storable r hr).short hlen
      (fun hm => hk (List.mem_of_mem_take hm)) (fun hm => hnul (List.mem_of_mem_take hm))
  · have hk' : (k ++ [nul]).take DBZMAXKEY = k ++ [nul] :=
      List.take_of_length_le (by simp; omega)
    rw [hk'] at hmk
    subst hmk
    cases hfirst : firstRecord d.conf.casemap k rs with
    | some r =>
        have := h.fetched_first hk hfirst hn
        rw [DbzConfig.keyHash] at this
        rw [this, Option.map_some]
    | none =>
        rw [Option.map_none]
        refine h.fetched_none fun r hr ht => ?_
        have hsame := Dbz.same_of_tryKey h.good.fieldsep (h.text r hr) (h.storable r hr).clean
          h.noNul hk ht
        exact List.find?_eq_none.mp hfirst r hr hsame

/-! ## Storing -/

theorem getD_setWord (words : List Nat) (place word q : Nat) :
    (setWord words place word).getD q 0 = if q = place then word else words.getD q 0 := by
  rw [setWord, List.getD_eq_getElem?_getD, List.getD_eq_getElem?_getD]
  by_cases hq : q = place
  · subst hq
    rw [if_pos rfl]
    split
    · next hlt => rw [List.getElem?_set_self hlt, Option.getD_some]
    · rw [List.getElem?_append_right (by simp; omega)]
      simp [show q - (words.length + (q - words.length)) = 0 by omega]
  · rw [if_neg hq]
    split
    · rw [List.getElem?_set_ne (Ne.symm hq)]
    · next hge =>
        by_cases hlt : q < words.length
        · rw [List.append_assoc, List.getElem?_append_left hlt]
        · rw [List.getElem?_eq_none (Nat.not_lt.mp hlt), Option.getD_none]
          by_cases hpad : q < place
          · rw [List.getElem?_append_left (by simp; omega),
              List.getElem?_append_right (Nat.not_lt.mp hlt),
              List.getElem?_replicate_of_lt (by omega), Option.getD_some]
          · rw [List.getElem?_eq_none (by simp; omega), Option.getD_none]

theorem length_setWord {words : List Nat} {place : Nat} (h : place < words.length) (word : Nat) :
    (setWord words place word).length = words.length := by
  rw [setWord, if_pos h, List.length_set]

theorem Dbz.slot_core {d : Dbz} {core : List Nat} (h : d.corepag = some core) (q : Nat) :
    d.slot q = if q < d.conf.tsize then core.getD q 0 else d.pagf.getD q 0 := by
  rw [Dbz.slot, h]

theorem Dbz.slot_file {d : Dbz} (h : d.corepag = none) (q : Nat) :
    d.slot q = d.pagf.getD q 0 := by
  rw [Dbz.slot, h]

/-- Writing a word, in core or in the file. -/
theorem Dbz.set_cases (d : Dbz) (sp : Searcher) (value : Nat) :
    (∃ core, d.corepag = some core ∧ sp.place < d.conf.tsize ∧ d.set sp value =
      { d with corepag := some (setWord core sp.place (d.conf.tagged sp.tag value + 1)) }) ∨
    ((d.corepag ≠ none → d.conf.tsize ≤ sp.place) ∧ d.set sp value =
      { d with pagf := setWord d.pagf sp.place (d.conf.tagged sp.tag value + 1) }) := by
  rw [Dbz.set]
  cases hcore : d.corepag with
  | none => exact .inr ⟨fun h => absurd rfl h, rfl⟩
  | some core =>
      by_cases hp : sp.place < d.conf.tsize
      · exact .inl ⟨core, rfl, hp, if_pos hp⟩
      · exact .inr ⟨fun _ => Nat.not_lt.mp hp, if_neg hp⟩

theorem Dbz.slot_set (d : Dbz) (sp : Searcher) (value q : Nat) : (d.set sp value).slot q =
    if q = sp.place then d.conf.tagged sp.tag value + 1 else d.slot q := by
  rcases d.set_cases sp value with ⟨core, hcore, hp, hset⟩ | ⟨hp, hset⟩
  · rw [hset, Dbz.slot_core rfl, Dbz.slot_core hcore, getD_setWord]
    dsimp only
    by_cases hq : q < d.conf.tsize
    · rw [if_pos hq, if_pos hq]
    · rw [if_neg hq, if_neg hq, if_neg (by omega)]
  · rw [hset]
    cases hcore : d.corepag with
    | none => rw [Dbz.slot_file rfl, Dbz.slot_file hcore, getD_setWord]
    | some core =>
        have hle := hp (by rw [hcore]; exact Option.some_ne_none core)
        rw [Dbz.slot_core rfl, Dbz.slot_core hcore, getD_setWord]
        dsimp only
        by_cases hq : q < d.conf.tsize
        · rw [if_pos hq, if_pos hq, if_neg (by omega)]
        · rw [if_neg hq, if_neg hq]

/-- Writing a word puts it into the table. -/
theorem Dbz.table_set (d : Dbz) (sp : Searcher) (value : Nat) :
    (d.set sp value).table =
      Function.update d.table sp.place (some (d.conf.tagged sp.tag value)) := by
  funext q
  simp only [Dbz.table, Dbz.slot_set]
  by_cases hq : q = sp.place
  · rw [if_pos hq, if_neg (Nat.succ_ne_zero _), hq, Function.update_self, Nat.add_sub_cancel]
  · rw [if_neg hq, Function.update_of_ne hq, Dbz.table]

theorem DbzConfig.seq_used (c : DbzConfig) (used : List Nat) :
    DbzConfig.seq { c with used := used } = c.seq := by
  have hat : ∀ hash i, DbzConfig.at { c with used := used } hash i = c.at hash i := by
    intro hash i
    induction i with
    | zero => rfl
    | succ i ih => exact congrArg (Searcher.next c) ih
  funext hash i
  exact congrArg Searcher.place (hat hash i)

theorem Dbz.set_fields (d : Dbz) (sp : Searcher) (value : Nat) :
    (d.set sp value).conf = d.conf ∧ (d.set sp value).basef = d.basef ∧
      (d.set sp value).dirf = d.dirf ∧ (d.set sp value).prevp = d.prevp ∧
      (d.set sp value).written = d.written ∧
      ((∀ core ∈ d.corepag, core.length = d.conf.tsize) →
        ∀ core ∈ (d.set sp value).corepag, core.length = d.conf.tsize) := by
  rcases d.set_cases sp value with ⟨core, hcore, hp, hset⟩ | ⟨hp, hset⟩
  · rw [hset]
    refine ⟨rfl, rfl, rfl, rfl, rfl, fun h core' hc => ?_⟩
    obtain rfl := Option.some.inj hc
    have hlen := h core hcore
    rw [length_setWord (hlen.symm ▸ hp), hlen]
  · rw [hset]
    exact ⟨rfl, rfl, rfl, rfl, rfl, fun h => h⟩

/-- What a store does besides: the count of entries goes up. -/
structure Dbz.Stored (d d' : Dbz) : Prop where
  conf : d'.conf = { d.conf with used := d.conf.used.modifyHead (· + 1) }
  basef : d'.basef = d.basef
  dirf : d'.dirf = d.dirf
  written : d'.written = true

/-- `dbzstore` adds a record behind the others. -/
theorem Dbz.Holds.dbzstore {d : Dbz} {rs : List DbzRecord} (h : d.Holds rs) {r : DbzRecord}
    (hr : r.Storable d.conf) (htext : r.text <+: d.basef.drop r.place)
    (hlast : ∀ r' ∈ rs, r'.place < r.place) : ∃ d',
    d.dbzstore (r.key ++ [nul]) r.place = some (true, d') ∧ d'.Holds (rs ++ [r]) ∧
      d.Stored d' := by
  have hlen : ¬ DBZMAXKEY ≤ (r.key ++ [nul]).length := by
    have := hr.short
    rw [List.length_append, List.length_singleton]
    omega
  generalize hmk : mapcase d.conf.casemap (r.key ++ [nul]) = mk
  have hhash : dbzHash mk = d.conf.keyHash r.key := by rw [← hmk, DbzConfig.keyHash]
  -- A search that goes on behind the one of a fetch comes to the same place.
  obtain ⟨n, hlt, hn⟩ := d.exists_vacant h.good (dbzHash mk)
  obtain ⟨i, hi, hlook⟩ : ∃ i ≤ n,
      (d.conf.start mk d.prevp).look d.conf = d.conf.at (dbzHash mk) i := by
    cases hp : d.prevp with
    | none => exact ⟨0, Nat.zero_le n, rfl⟩
    | some o =>
        rw [DbzConfig.start]
        split
        · next he =>
            obtain ⟨m, hm, hat⟩ := h.prevp o hp
            exact ⟨m, (hm.unique (he ▸ hn)).le, hat.trans (congrArg (d.conf.at · m) he)⟩
        · exact ⟨0, Nat.zero_le n, rfl⟩
  have hloop : d.storeLoop d.rounds (d.conf.start mk d.prevp) = some (d.conf.at (dbzHash mk) n) :=
    Dbz.storeLoop_eq hn hlt hlook hi (by omega)
  generalize hd₁ : ({ d with
    prevp := none
    conf := { d.conf with used := d.conf.used.modifyHead (· + 1) }
    written := true } : Dbz) = d₁
  obtain ⟨hconf, hbasef, hdirf, hprevp, hwritten, hcore⟩ :=
    d₁.set_fields (d.conf.at (dbzHash mk) n) r.place
  have hseq : d₁.conf.seq = d.conf.seq := by rw [← hd₁, DbzConfig.seq_used]
  have htable : (d₁.set (d.conf.at (dbzHash mk) n) r.place).table =
      Function.update d.table (d.conf.seq (d.conf.keyHash r.key) n) (some (d.conf.entry r).2) := by
    rw [Dbz.table_set, (d.conf.at_fixed _ _).2.2, DbzConfig.entry, ← hhash, ← hd₁]
    rfl
  refine ⟨d₁.set (d.conf.at (dbzHash mk) n) r.place, ?_, ?_, ?_⟩
  · rw [Dbz.dbzstore, if_neg hlen, hmk, Dbz.store, if_neg, hloop, ← hd₁]
    · rfl
    · rw [← hmk, length_mapcase, hr.okay]
      exact fun hh => hh.elim hlen (fun he => Bool.noConfusion he)
  · subst hd₁
    refine ⟨?_, ?_, ?_, ?_, ?_, ?_, ?_, ?_⟩
    · rw [hconf]
      exact ⟨h.good.tsize, h.good.apart, h.good.enabled, h.good.fieldsep⟩
    · rw [hconf, hseq, htable, List.map_append, List.map_singleton]
      exact Probe.Built.insert _ h.built (hhash ▸ hn)
    · rw [hconf]
      intro r' hr'
      rcases List.mem_append.mp hr' with hm | hm
      · exact ⟨(h.storable r' hm).short, (h.storable r' hm).okay, (h.storable r' hm).clean⟩
      · rw [List.mem_singleton.mp hm]
        exact ⟨hr.short, hr.okay, hr.clean⟩
    · rw [hbasef]
      intro r' hr'
      rcases List.mem_append.mp hr' with hm | hm
      · exact h.text r' hm
      · rw [List.mem_singleton.mp hm]
        exact htext
    · rw [hbasef]
      exact h.noNul
    · rw [List.pairwise_append]
      refine ⟨h.order, List.pairwise_singleton _ _, fun a ha b hb => ?_⟩
      rw [List.mem_singleton.mp hb]
      exact hlast a ha
    · rw [hconf]
      exact hcore h.core
    · rw [hprevp]
      exact fun sp hsp => absurd hsp (Option.not_mem_none sp)
  · subst hd₁
    exact ⟨hconf, hbasef, hdirf, hwritten⟩

/-- A key that is too long, or an offset that uses the bit of the tag, is
refused. -/
theorem Dbz.dbzstore_refused {d : Dbz} {key : Str} {place : Nat}
    (h : ¬ (key.length + 1 < DBZMAXKEY ∧ d.conf.okayvalue place = true)) :
    d.dbzstore (key ++ [nul]) place = some (false, d) := by
  rw [Dbz.dbzstore]
  split
  · rfl
  · next hlen =>
      rw [List.length_append, List.length_singleton] at hlen
      have hok : d.conf.okayvalue place = false :=
        Bool.eq_false_iff.mpr fun hok => h ⟨by omega, hok⟩
      rw [Dbz.store, if_pos (.inr hok)]

end Fidogate

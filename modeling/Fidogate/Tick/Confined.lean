/-
# `Fidogate.Tick.Confined` — ftntick.c: where the files of a TIC go

The names in a TIC are put behind a directory, and the file lies directly in
it as long as the name is one.  `File` is looked up in the inbound; `Replaces`
is taken as it comes, and the file it names is the one that may lie anywhere.
-/
import Fidogate.Areafix.Autocreate
import Fidogate.Tick.DoTic

namespace Fidogate

open Bytes Paths

/-- A name of a file: no slash, and neither `.` nor `..`. -/
abbrev FileName (n : Str) : Prop := IsName 47 46 n

/-- The file lies directly in the directory. -/
abbrev InDir (d p : Str) : Prop := Directly 47 46 d p

/-- A directory whose files have names in a buffer for a path. -/
def Short (d : Str) : Prop := d.length + 10 < MAXPATH

instance (d : Str) : Decidable (Short d) := inferInstanceAs (Decidable (_ < _))

/-! ## The directories -/

/-- The files an effect creates, overwrites or removes. -/
def Effect.files : Effect → List Str
  | .copy _ new => [new]
  | .unlink name => [name]
  | .utime name _ => [name]
  | .chmod name => [name]
  | .describe file _ => [file]
  | .link _ new => [new]
  | .tic name _ => [name]
  | .area _ | .mkdir _ | .request _ | .run _ => []

/-- The directories it makes. -/
def Effect.dirs : Effect → List Str
  | .mkdir d => [d]
  | _ => []

def TicCall.files : TicCall → List Str
  | .rename old new => [old, new]
  | .unlink name => [name]
  | .effect e => e.files
  | .rewrite | .history _ | .script _ => []

def TicCall.dirs : TicCall → List Str
  | .effect e => e.dirs
  | _ => []

/-- The area of a TIC, the place for its file or the area created for it. -/
def ticEntry (o : TickOptions) (t : Tables) (w : World) (tic : Tick) (st : Areafix) :
    Option AreasBBS :=
  tic.area.bind fun area =>
    match ticPlace o st.areas area with
    | some bbs => some bbs
    | none => (ticCreate o t w tic area st).1

/-- The directories for the files of a TIC: the inbound, the one of its area,
the one for replaced files, and the boxes of the downlinks with the directory
they are in. -/
inductive TicDir (o : TickOptions) (w : TickWorld) (cf : Config) (bbs : Option AreasBBS) :
    Str → Prop
  | inbound : TicDir o w cf bbs o.inDir
  | area {b : AreasBBS} : bbs = some b → TicDir o w cf bbs b.dir
  | replaced {dir : Str} : cfGetString cf (lit "TickReplacedDir") = some dir →
      TicDir o w cf bbs (w.expand dir)
  | pass : TicDir o w cf bbs o.passPath
  | box (n : Node) : TicDir o w cf bbs (makeDirName o cf n)

/-- One of them, or the one for the descriptions in the area. -/
inductive TicHome (o : TickOptions) (w : TickWorld) (cf : Config) (bbs : Option AreasBBS) :
    Str → Prop
  | dir {d : Str} : TicDir o w cf bbs d → TicHome o w cf bbs d
  | desc {b : AreasBBS} : bbs = some b → TicHome o w cf bbs (b.dir ++ lit "/.desc")

/-- What is made where it is missing: one of these, AutoCreateFechoPath, or a
directory in it. -/
inductive TicMade (o : TickOptions) (w : TickWorld) (cf : Config) (bbs : Option AreasBBS) :
    Str → Prop
  | home {d : Str} : TicHome o w cf bbs d → TicMade o w cf bbs d
  | path {d : Str} : cfGetString cf (lit "AutoCreateFechoPath") = some d → TicMade o w cf bbs d
  | area {path d : Str} : cfGetString cf (lit "AutoCreateFechoPath") = some path →
      InDir path d → TicMade o w cf bbs d

/-- The file a TIC replaces: its name is not looked at, and for an area that
was just created its directory is whatever the buffer holds. -/
inductive TicStray (w : TickWorld) (cf : Config) (bbs : Option AreasBBS) (created : Bool)
    (replaces : Option Str) : Str → Prop
  | area {b : AreasBBS} {old : Str} : bbs = some b → replaces = some old → ¬ FileName old →
      TicStray w cf bbs created replaces (pathOf b.dir old)
  | copy {dir old : Str} : cfGetString cf (lit "TickReplacedDir") = some dir →
      replaces = some old → ¬ FileName old →
      TicStray w cf bbs created replaces (pathOf (w.expand dir) old)
  | created {old : Str} : created = true → replaces = some old →
      TicStray w cf bbs created replaces (pathOf w.fareaDir old)

/-- Files lie directly in the directories `D` or are paths `X`, and `M` are the
directories that may be made. -/
def Effect.Within (D M X : Str → Prop) (e : Effect) : Prop :=
  (∀ p ∈ e.files, (∃ d, D d ∧ InDir d p) ∨ X p) ∧ ∀ d ∈ e.dirs, M d

def TicCall.Within (D M X : Str → Prop) (c : TicCall) : Prop :=
  (∀ p ∈ c.files, (∃ d, D d ∧ InDir d p) ∨ X p) ∧ ∀ d ∈ c.dirs, M d

/-! ## Names and paths -/

theorem toLower_eq_slash (c : UInt8) : toLower c = 47 ↔ c = 47 := by
  have key : ∀ c : UInt8, toLower c = 47 ↔ c = 47 := forall_byte (by decide +kernel)
  exact key c

theorem toLower_eq_dot (c : UInt8) : toLower c = 46 ↔ c = 46 := by
  have key : ∀ c : UInt8, toLower c = 46 ↔ c = 46 := forall_byte (by decide +kernel)
  exact key c

theorem fileName_strLower {n : Str} : FileName (strLower n) ↔ FileName n :=
  IsName.map toLower_eq_slash toLower_eq_dot

theorem inDir_slash {d n : Str} (hn : FileName n) : InDir d (d ++ lit "/" ++ n) := by
  rw [List.append_assoc]
  exact hn.directly d

theorem pathOf_eq {d : Str} (hd : Short d) (n : Str) :
    pathOf d n = d ++ 47 :: n.take (MAXPATH - 2 - d.length) := by
  unfold Short at hd
  obtain ⟨j, hj⟩ : ∃ j, MAXPATH - 1 - d.length = j + 1 := ⟨MAXPATH - 2 - d.length, by omega⟩
  have hrest : (lit "/" ++ n).take (MAXPATH - 1 - d.length) =
      47 :: n.take (MAXPATH - 2 - d.length) := by
    rw [hj, show MAXPATH - 2 - d.length = j by omega]
    rfl
  unfold pathOf bufCopy
  rw [List.append_assoc, List.take_append, List.take_of_length_le (by omega), hrest]

theorem inDir_pathOf {d n : Str} (hd : Short d) (hn : FileName n) : InDir d (pathOf d n) := by
  rw [pathOf_eq hd]
  unfold Short at hd
  exact (hn.take (by omega)).directly d

/-- An entry found for a name that is none of the two is a name. -/
theorem fileName_entry {e : DirEntry} {file : Str} (h : strieq e.name file = true)
    (hfile : file ≠ lit "." ∧ file ≠ lit "..") : FileName e.name := by
  have hback : ∀ {n : Str}, strLower n = n → (∀ c ∈ n, c = 46) → e.name = n → file = n := by
    intro n hn hdots he
    have hlow : file.map toLower = n := by
      rw [← strieq_iff.mp h, he]
      exact hn
    refine List.ext_getElem (by rw [← hlow, List.length_map]) ?_
    intro i hi hi'
    have hc : toLower file[i] = n[i] := by
      simp only [← hlow, List.getElem_map]
    rw [hdots _ (List.getElem_mem hi')] at hc ⊢
    exact (toLower_eq_dot _).mp hc
  exact ⟨e.ne_nil, e.noSlash,
    fun he => hfile.1 (hback (n := lit ".") rfl (forall_mem_of_all (by decide)) he),
    fun he => hfile.2 (hback (n := lit "..") rfl (forall_mem_of_all (by decide)) he)⟩

/-- The name of a TIC file has four bytes at least. -/
theorem length_entry (f : TicFile) : 4 ≤ f.entry.name.length :=
  wildmatch_length (forall_mem_of_all (by decide)) f.isTic

theorem fileName_tic (f : TicFile) : FileName f.entry.name :=
  isName_of_length (Nat.le_of_succ_le (length_entry f)) f.entry.noSlash

/-- The sequencer's names. -/
theorem fileName_seq (k : Int) : FileName (lit "tk" ++ putIntZ 6 k ++ lit ".tic") := by
  refine isName_of_length ?_ ?_
  · rw [List.length_append, List.length_append]
    exact Nat.le_trans (by decide) (Nat.add_le_add_right (Nat.le_add_right _ _) _)
  · have hdigit : ∀ n : Nat, (47 : UInt8) ∉ putDec n := by
      intro n hmem
      exact absurd (isDigit_of_mem_putDec hmem) (by decide)
    have hint : (47 : UInt8) ∉ putIntZ 6 k := by
      unfold putIntZ
      split
      · simp [hdigit]
      · simp [hdigit]
    intro hmem
    rcases List.mem_append.mp hmem with hmem | hmem
    · rcases List.mem_append.mp hmem with hmem | hmem
      · revert hmem
        decide
      · exact hint hmem
    · revert hmem
      decide

/-- The configurations name the same directories. -/
structure SameTicDirs (cf cf' : Config) : Prop where
  replaced : cfGetString cf' (lit "TickReplacedDir") = cfGetString cf (lit "TickReplacedDir")
  flav : cfGetString cf' (lit "TickFlav") = cfGetString cf (lit "TickFlav")
  boxes : cfGetString cf' (lit "PassthroughtBoxesFlavours") =
    cfGetString cf (lit "PassthroughtBoxesFlavours")
  path : cfGetString cf' (lit "AutoCreateFechoPath") = cfGetString cf (lit "AutoCreateFechoPath")

section

variable {o : TickOptions} {w : TickWorld} {cf cf' : Config} {bbs : Option AreasBBS} {d : Str}
  {X : Str → Prop}

theorem SameTicDirs.makeDirName (h : SameTicDirs cf cf') (n : Node) :
    makeDirName o cf' n = makeDirName o cf n := by
  unfold Fidogate.makeDirName ticFlav
  rw [h.flav, h.boxes]

theorem SameTicDirs.home (h : SameTicDirs cf cf') (hd : TicHome o w cf' bbs d) :
    TicHome o w cf bbs d := by
  cases hd with
  | desc hb => exact .desc hb
  | dir hd =>
      refine .dir ?_
      cases hd with
      | inbound => exact .inbound
      | area hb => exact .area hb
      | replaced hr => exact .replaced (h.replaced ▸ hr)
      | pass => exact .pass
      | box n => exact h.makeDirName n ▸ .box n

theorem SameTicDirs.made (h : SameTicDirs cf cf') (hd : TicMade o w cf' bbs d) :
    TicMade o w cf bbs d := by
  cases hd with
  | home hd => exact .home (h.home hd)
  | path hp => exact .path (h.path ▸ hp)
  | area hp hd => exact .area (h.path ▸ hp) hd

theorem SameTicDirs.stray (h : SameTicDirs cf cf') {created : Bool} {replaces : Option Str}
    {p : Str} (hp : TicStray w cf' bbs created replaces p) :
    TicStray w cf bbs created replaces p := by
  cases hp with
  | area hb hold hname => exact .area hb hold hname
  | copy hdir hold hname => exact .copy (h.replaced ▸ hdir) hold hname
  | created hc hold => exact .created hc hold

theorem SameTicDirs.within (h : SameTicDirs cf cf') {es : List Effect}
    (hes : ∀ e ∈ es, e.Within (TicHome o w cf' bbs) (TicMade o w cf' bbs) X) :
    ∀ e ∈ es, e.Within (TicHome o w cf bbs) (TicMade o w cf bbs) X := by
  intro e he
  obtain ⟨hfiles, hdirs⟩ := hes e he
  refine ⟨fun p hp => ?_, fun d hd => h.made (hdirs d hd)⟩
  rcases hfiles p hp with ⟨d, hd, hdp⟩ | hx
  · exact .inl ⟨d, h.home hd, hdp⟩
  · exact .inr hx

end

/-! ## What is done for an area -/

section

variable {D M X : Str → Prop} {e : Effect} {p : Str}

theorem Effect.within_file (hf : e.files = [p]) (hd : e.dirs = [])
    (h : (∃ d, D d ∧ InDir d p) ∨ X p) : e.Within D M X := by
  refine ⟨?_, ?_⟩
  · intro q hq
    rw [hf] at hq
    rw [List.mem_singleton.mp hq]
    exact h
  · intro d hmem
    rw [hd] at hmem
    cases hmem

theorem Effect.within_single (hf : e.files = [p]) (hd : e.dirs = [])
    (h : (∃ d, D d ∧ InDir d p) ∨ X p) : ∀ e' ∈ [e], e'.Within D M X :=
  List.forall_mem_singleton.mpr (Effect.within_file hf hd h)

theorem Effect.within_nothing (hf : e.files = []) (hd : e.dirs = []) : e.Within D M X := by
  refine ⟨?_, ?_⟩
  · intro q hq
    rw [hf] at hq
    cases hq
  · intro d hmem
    rw [hd] at hmem
    cases hmem

theorem Effect.within_map {α : Type*} {x : Option α} {f : α → Effect}
    (h : ∀ a, (f a).files = [] ∧ (f a).dirs = []) : ∀ e ∈ (x.map f).toList, e.Within D M X := by
  intro e he
  rw [Option.toList_map] at he
  obtain ⟨a, -, rfl⟩ := List.mem_map.mp he
  exact Effect.within_nothing (h a).1 (h a).2

theorem Effect.within_mkdir {d : Str} (h : M d) : (Effect.mkdir d).Within D M X :=
  ⟨fun _ hp => absurd hp List.not_mem_nil, fun _ hd => by rwa [List.mem_singleton.mp hd]⟩

end

section

variable {o : TickOptions} {t : Tables} {w : TickWorld} {cf : Config} {tic : Tick}
  {bbs : AreasBBS} {X : Str → Prop}

/-- What is done with a file of a TIC stays in the directories of its area. -/
abbrev WithinArea (o : TickOptions) (w : TickWorld) (cf : Config) (bbs : AreasBBS)
    (X : Str → Prop) (es : List Effect) : Prop :=
  ∀ e ∈ es, e.Within (TicHome o w cf (some bbs)) (TicMade o w cf (some bbs)) X

/-- A file of the TIC in one of the directories, or one of the paths `X`. -/
abbrev FileOf (o : TickOptions) (w : TickWorld) (cf : Config) (bbs : AreasBBS)
    (X : Str → Prop) (p : Str) : Prop :=
  (∃ d, TicHome o w cf (some bbs) d ∧ InDir d p) ∨ X p

theorem copyFile_within {old new : Str} (h : FileOf o w cf bbs X new) :
    WithinArea o w cf bbs X (copyFile w old new).2 := by
  unfold copyFile
  split
  · exact Effect.within_single rfl rfl h
  · exact List.forall_mem_nil _
  · exact Effect.within_single rfl rfl h

theorem moveFile_within {cf' : Config} {old new : Str} (hold : FileOf o w cf bbs X old)
    (hnew : FileOf o w cf bbs X new) : WithinArea o w cf bbs X (moveFile w cf' tic old new).2 := by
  have hcopy : WithinArea o w cf bbs X (copyFile w old new).2 := copyFile_within hnew
  unfold moveFile
  dsimp only
  split
  · exact hcopy
  · split
    · exact hcopy
    · refine List.forall_mem_append.mpr ⟨List.forall_mem_append.mpr ⟨hcopy, ?_⟩, ?_⟩
      · exact Effect.within_single rfl rfl hold
      · split
        · exact Effect.within_single rfl rfl hnew
        · exact List.forall_mem_nil _

section

variable (hdir : Short bbs.dir) (hfile : FileName tic.file)

include hdir hfile

theorem addFilesBbs_within : WithinArea o w cf bbs X (addFilesBbs o w tic bbs.dir) := by
  have hshort : (bbs.dir ++ lit "/.desc").length + 4 ≤ MAXPATH - 1 := by
    have hlen : (bbs.dir ++ lit "/.desc").length = bbs.dir.length + 6 := List.length_append
    unfold Short at hdir
    omega
  have hname : FileName (tic.file ++ lit ".desc") := by
    refine isName_of_length ?_ ?_
    · rw [List.length_append]
      exact Nat.le_trans (by decide) (Nat.le_add_left _ _)
    · intro hmem
      rcases List.mem_append.mp hmem with hmem | hmem
      · exact hfile.noSep hmem
      · revert hmem
        decide
  have hdesc : bufCopy MAXPATH (bbs.dir ++ lit "/.desc") = bbs.dir ++ lit "/.desc" :=
    List.take_of_length_le (by omega)
  have hentry : FileOf o w cf bbs X
      (bufCopy MAXPATH (bbs.dir ++ lit "/.desc/" ++ tic.file ++ lit ".desc")) := by
    refine .inl ⟨_, .desc rfl, ?_⟩
    have h := hname.directly_take hshort
    have hslash : lit "/.desc/" = lit "/.desc" ++ [47] := rfl
    rw [bufCopy, hslash]
    simpa only [List.append_assoc, List.cons_append, List.nil_append] using h
  unfold addFilesBbs
  dsimp only
  split
  · refine List.forall_mem_append.mpr ⟨List.forall_mem_cons.mpr ⟨?_, ?_⟩, ?_⟩
    · rw [hdesc]
      exact Effect.within_mkdir (.home (.desc rfl))
    · exact Effect.within_single rfl rfl hentry
    · split
      · exact Effect.within_single rfl rfl hentry
      · exact List.forall_mem_nil _
  · exact List.forall_mem_nil _

theorem ticStore_within {cf' : Config} (hin : Short o.inDir) :
    WithinArea o w cf bbs X (ticStore o w cf' tic bbs).2 := by
  have hold : FileOf o w cf bbs X (pathOf o.inDir tic.file) :=
    .inl ⟨_, .dir .inbound, inDir_pathOf hin hfile⟩
  have hnew : FileOf o w cf bbs X (pathOf bbs.dir tic.file) :=
    .inl ⟨_, .dir (.area rfl), inDir_pathOf hdir hfile⟩
  have hmade : WithinArea o w cf bbs X
      (if w.isDir bbs.dir then [] else [Effect.mkdir bbs.dir]) := by
    split
    · exact List.forall_mem_nil _
    · exact List.forall_mem_singleton.mpr (Effect.within_mkdir (.home (.dir (.area rfl))))
  have hmove : WithinArea o w cf bbs X
      (moveFile w cf' tic (pathOf o.inDir tic.file) (pathOf bbs.dir tic.file)).2 :=
    moveFile_within hold hnew
  unfold ticStore
  dsimp only
  split
  · exact List.forall_mem_nil _
  · split
    · exact List.forall_mem_nil _
    · split
      · exact List.forall_mem_append.mpr ⟨hmade, hmove⟩
      · refine List.forall_mem_append.mpr ⟨List.forall_mem_append.mpr
          ⟨List.forall_mem_append.mpr ⟨hmade, hmove⟩, ?_⟩, addFilesBbs_within hdir hfile⟩
        split
        · exact Effect.within_single rfl rfl hnew
        · exact List.forall_mem_nil _

end

/-- The file that is replaced. -/
theorem ticReplaces_within {created : Bool} (hdir : Short bbs.dir)
    (hreplaced : ∀ dir ∈ cfGetString cf (lit "TickReplacedDir"), Short (w.expand dir))
    (hX : ∀ p, TicStray w cf (some bbs) created tic.replaces p → X p) :
    WithinArea o w cf bbs X (ticReplaces w cf tic bbs created).2 := by
  unfold ticReplaces
  cases hold : tic.replaces with
  | none => exact List.forall_mem_nil _
  | some old =>
      rw [hold] at hX
      have hfile : FileOf o w cf bbs X (pathOf (if created then w.fareaDir else bbs.dir) old) := by
        cases created with
        | true => exact .inr (hX _ (.created rfl rfl))
        | false =>
            by_cases hname : FileName old
            · exact .inl ⟨_, .dir (.area rfl), inDir_pathOf hdir hname⟩
            · exact .inr (hX _ (.area rfl rfl hname))
      dsimp only
      generalize pathOf (if created then w.fareaDir else bbs.dir) old = oldName at hfile ⊢
      split
      · exact List.forall_mem_nil _
      · cases hdir' : cfGetString cf (lit "TickReplacedDir") with
        | none => exact Effect.within_single rfl rfl hfile
        | some dir =>
            have hcopy : FileOf o w cf bbs X (pathOf (w.expand dir) old) := by
              by_cases hname : FileName old
              · exact .inl ⟨_, .dir (.replaced hdir'), inDir_pathOf (hreplaced dir hdir') hname⟩
              · exact .inr (hX _ (.copy hdir' rfl hname))
            refine List.forall_mem_append.mpr ⟨copyFile_within hcopy, ?_⟩
            split
            · exact Effect.within_single rfl rfl hfile
            · exact List.forall_mem_nil _

/-! ## What is done for the downlinks -/

theorem ticLink_within {name box : Str} (hbox : FileOf o w cf bbs X box) :
    WithinArea o w cf bbs X (ticLink w name box).2 := by
  have hlink : (Effect.link name box).Within (TicHome o w cf (some bbs))
      (TicMade o w cf (some bbs)) X :=
    Effect.within_file rfl rfl hbox
  have hunlink : (Effect.unlink box).Within (TicHome o w cf (some bbs))
      (TicMade o w cf (some bbs)) X :=
    Effect.within_file rfl rfl hbox
  unfold ticLink
  split
  · exact List.forall_mem_singleton.mpr hlink
  · exact copyFile_within hbox
  · split
    · exact List.forall_mem_cons.mpr ⟨hunlink, List.forall_mem_singleton.mpr hlink⟩
    · exact List.forall_mem_singleton.mpr hunlink
  · exact List.forall_mem_nil _

section

variable (hfile : FileName tic.file)
  (hseq : ∀ n, ∃ k, w.seq n = lit "tk" ++ putIntZ 6 k ++ lit ".tic")

include hfile hseq

theorem tickSend_within (n : Node) (name : Str) :
    WithinArea o w cf bbs X (tickSend o t w cf tic n name).2 := by
  have hbox : TicHome o w cf (some bbs) (makeDirName o cf n) := .dir (.box n)
  have hmkdir : (Effect.mkdir (makeDirName o cf n)).Within (TicHome o w cf (some bbs))
      (TicMade o w cf (some bbs)) X := Effect.within_mkdir (.home hbox)
  have hlink : WithinArea o w cf bbs X
      (ticLink w name (makeDirName o cf n ++ lit "/" ++ tic.file)).2 :=
    ticLink_within (.inl ⟨_, hbox, inDir_slash hfile⟩)
  obtain ⟨k, hk⟩ := hseq n
  have htic : FileOf o w cf bbs X (makeDirName o cf n ++ lit "/" ++ w.seq n) :=
    .inl ⟨_, hbox, inDir_slash (hk ▸ fileName_seq k)⟩
  unfold tickSend
  dsimp only
  split
  · exact List.forall_mem_nil _
  · split
    · exact List.forall_mem_cons.mpr ⟨hmkdir, hlink⟩
    · split
      · exact List.forall_mem_cons.mpr ⟨hmkdir, hlink⟩
      · exact List.forall_mem_cons.mpr ⟨hmkdir, List.forall_mem_append.mpr
          ⟨hlink, Effect.within_single rfl rfl htic⟩⟩

theorem ticSendAll_within (name : Str) (ns : List Node) :
    WithinArea o w cf bbs X (ticSendAll o t w cf tic name ns).2 := by
  induction ns with
  | nil => exact List.forall_mem_nil _
  | cons n ns ih =>
      have hone := @tickSend_within o t w cf tic bbs X hfile hseq n name
      unfold ticSendAll
      dsimp only
      split
      · exact hone
      · exact List.forall_mem_append.mpr ⟨hone, ih⟩

end

theorem ticPass_within {old new : Str} (hnew : FileOf o w cf bbs X new) :
    WithinArea o w cf bbs X (ticPass w old new).2 := by
  unfold ticPass
  split
  · exact Effect.within_single rfl rfl hnew
  · exact copyFile_within hnew

theorem ticFinish_within {cf' : Config} {area file old new : Str} {passthru : Bool}
    (hold : passthru = true → FileOf o w cf bbs X old) (hnew : FileOf o w cf bbs X new) :
    WithinArea o w cf bbs X (ticFinish cf' area file old new passthru) := by
  have hunlink : WithinArea o w cf bbs X [.unlink new] :=
    Effect.within_single rfl rfl hnew
  unfold ticFinish
  refine List.forall_mem_append.mpr ⟨List.forall_mem_append.mpr
    ⟨List.forall_mem_append.mpr ⟨hunlink, ?_⟩, ?_⟩, ?_⟩
  · split
    · next hp => exact Effect.within_single rfl rfl (hold hp)
    · exact List.forall_mem_nil _
  · exact Effect.within_map fun cmd => ⟨rfl, rfl⟩
  · split
    · exact hunlink
    · exact List.forall_mem_nil _

/-! ## process_tic -/

theorem ticWithdraw_within {st : Ftntick} {area old : Str}
    (hold : FileOf o w st.af.cf bbs X old)
    (hdone : WithinArea o w st.af.cf bbs X st.done) :
    WithinArea o w st.af.cf bbs X (ticWithdraw t w.toWorld tic area old st).2.done := by
  unfold ticWithdraw
  dsimp only
  generalize (if st.af.auth.new then st.af.auth
    else areafixAuthCheck t w.stale tic.src tic.pw true) = auth
  split
  · exact hdone
  · exact List.forall_mem_append.mpr ⟨hdone, List.forall_mem_append.mpr
      ⟨Effect.within_map fun a => ⟨rfl, rfl⟩,
        Effect.within_single rfl rfl hold⟩⟩

section

variable {st : Ftntick} (hfile : FileName tic.file)
  (hseq : ∀ n, ∃ k, w.seq n = lit "tk" ++ putIntZ 6 k ++ lit ".tic")
  (hpass : Short o.passPath)

include hfile hseq hpass

theorem ticSendOn_within {area old : Str} {passthru : Bool} {nodes : List Node}
    (hold : passthru = true → FileOf o w st.af.cf bbs X old)
    (hdone : WithinArea o w st.af.cf bbs X st.done) :
    WithinArea o w st.af.cf bbs X (ticSendOn o t w tic area old passthru nodes st).2.done := by
  have hnew : FileOf o w st.af.cf bbs X (pathOf o.passPath tic.file) :=
    .inl ⟨_, .dir .pass, inDir_pathOf hpass hfile⟩
  have hlink : WithinArea o w st.af.cf bbs X (ticPass w old (pathOf o.passPath tic.file)).2 :=
    ticPass_within hnew
  have hsend := @ticSendAll_within o t w st.af.cf tic bbs X hfile hseq (pathOf o.passPath tic.file)
    nodes
  unfold ticSendOn
  dsimp only
  split
  · exact hdone
  · split
    · exact List.forall_mem_append.mpr ⟨hdone, hlink⟩
    · split
      · exact List.forall_mem_append.mpr ⟨hdone, List.forall_mem_append.mpr ⟨hlink, hsend⟩⟩
      · exact List.forall_mem_append.mpr ⟨hdone, List.forall_mem_append.mpr
          ⟨List.forall_mem_append.mpr ⟨hlink, hsend⟩, ticFinish_within hold hnew⟩⟩

theorem ticDistribute_within {area : Str} {created : Bool} (hin : Short o.inDir)
    (hdone : WithinArea o w st.af.cf bbs X st.done) :
    WithinArea o w st.af.cf bbs X (ticDistribute o t w tic area bbs created st).2.done := by
  have hold : bbs.passthru = true → FileOf o w st.af.cf bbs X (ticFile o tic bbs) := by
    intro hp
    unfold ticFile
    rw [if_pos hp]
    exact .inl ⟨_, .dir .inbound, inDir_pathOf hin hfile⟩
  unfold ticDistribute
  dsimp only
  split
  · next h =>
      have hp : bbs.passthru = true := by
        simp only [Bool.and_eq_true] at h
        exact h.2
      exact ticWithdraw_within (hold hp) hdone
  · have hroute : FileName (ticRoute w st.af.cf tic bbs).1.file := hfile
    exact ticSendOn_within hroute hseq hpass hold hdone

variable (hin : Short o.inDir) (hdir : Short bbs.dir)
  (hreplaced : ∀ dir ∈ cfGetString st.af.cf (lit "TickReplacedDir"), Short (w.expand dir))

include hin hdir hreplaced

theorem ticAccept_within {area : Str} {created : Bool}
    (hX : ∀ p, TicStray w st.af.cf (some bbs) created tic.replaces p → X p)
    (hdone : WithinArea o w st.af.cf bbs X st.done) :
    WithinArea o w st.af.cf bbs X (ticAccept o t w tic area bbs created st).2.done := by
  have hr := ticReplaces_within (o := o) hdir hreplaced hX
  have hs := @ticStore_within o w st.af.cf tic bbs X hdir hfile st.af.cf hin
  unfold ticAccept
  dsimp only
  split
  · exact List.forall_mem_append.mpr ⟨hdone, hr⟩
  · split
    · exact List.forall_mem_append.mpr ⟨hdone, List.forall_mem_append.mpr ⟨hr, hs⟩⟩
    · have hall := List.forall_mem_append.mpr ⟨hdone, List.forall_mem_append.mpr ⟨hr, hs⟩⟩
      exact @ticDistribute_within o t w tic bbs X (st.did _) hfile hseq hpass area created hin hall

theorem ticKnown_within {area : Str} {created : Bool}
    (hX : ∀ p, TicStray w st.af.cf (some bbs) created tic.replaces p → X p)
    (hdone : WithinArea o w st.af.cf bbs X st.done) :
    WithinArea o w st.af.cf bbs X (ticKnown o t w tic area bbs created st).2.done := by
  have hzone : SameTicDirs (st.zoned bbs).af.cf st.af.cf := ⟨rfl, rfl, rfl, rfl⟩
  have hback : SameTicDirs st.af.cf (st.zoned bbs).af.cf := ⟨rfl, rfl, rfl, rfl⟩
  unfold ticKnown
  dsimp only
  split
  · exact hdone
  · refine hback.within (@ticAccept_within o t w { tic with dst := (st.zoned bbs).af.cf.curAddr }
      bbs X ((st.zoned bbs).arrived w.toWorld area) hfile hseq hpass hin hdir hreplaced area created
      (fun p hp => hX p (hback.stray hp)) ?_)
    exact List.forall_mem_append.mpr ⟨hzone.within hdone,
      List.forall_mem_singleton.mpr (Effect.within_nothing rfl rfl)⟩

omit hseq hpass hreplaced in
theorem ticUnknown_within (hdone : WithinArea o w st.af.cf bbs X st.done) :
    WithinArea o w st.af.cf bbs X (ticUnknown o w tic bbs st).2.done :=
  List.forall_mem_append.mpr ⟨hdone, @ticStore_within o w st.af.cf
    { tic with dst := (st.zoned bbs).af.cf.curAddr } bbs X hdir hfile _ hin⟩

end

end

/-! ## A new area -/

section

variable {o : TickOptions} {t : Tables} {w : World} {tic : Tick} {st : Areafix} {path name : Str}

/-- The directory of a new area lies directly in AutoCreateFechoPath. -/
theorem newDir_inDir {cf : Config} {passthru : Bool} {dir : Str}
    (hpath : cfGetString cf (lit "AutoCreateFechoPath") = some path) (hshort : Short path)
    (hname : FileName name) (h : newDir t w cf passthru name = some dir) :
    dir = lit "-" ∨ InDir path dir := by
  have hin : InDir path ((path ++ lit "/" ++ strLower name).take 4095) :=
    inDir_pathOf hshort (fileName_strLower.mpr hname)
  unfold newDir at h
  split at h
  · exact Or.inl (Option.some.inj h).symm
  · rw [hpath] at h
    dsimp only [Option.getD_some] at h
    split at h
    · exact Or.inr (Option.some.inj h ▸ hin)
    · split at h
      · exact Or.inr (Option.some.inj h ▸ hin)
      · cases h

theorem cmdNewInt_dir {node : Node} {line : Str} {dwnl : Bool}
    (hpath : cfGetString st.cf (lit "AutoCreateFechoPath") = some path) (hshort : Short path)
    (hname : ∀ name opts, xstrtok blanks line = name :: opts → FileName name) :
    (cmdNewInt t w node line dwnl st).2.areas = st.areas ∨
      ∃ p, (cmdNewInt t w node line dwnl st).2.areas = st.areas ++ [p] ∧
        (p.dir = lit "-" ∨ InDir path p.dir) := by
  unfold cmdNewInt cmdNew
  split
  · exact Or.inl rfl
  · split
    · exact Or.inl rfl
    · next name opts hwords =>
        split
        · exact Or.inl rfl
        · split
          · exact Or.inl rfl
          · split
            · exact Or.inl rfl
            · dsimp only
              split
              · exact Or.inl rfl
              · next dir hdir =>
                  exact Or.inr ⟨_, rfl, newDir_inDir hpath hshort (hname _ _ hwords) hdir⟩

/-- An area that is found once it was created is the new one. -/
theorem ticCreate_dir {area : Str} {b : AreasBBS} (hnone : areasbbsLookup st.areas area = none)
    (hpath : cfGetString st.cf (lit "AutoCreateFechoPath") = some path) (hshort : Short path)
    (hname : ∀ name opts, xstrtok blanks (ticAutocreate o t tic.src area) = name :: opts →
      FileName name) (h : (ticCreate o t w tic area st).1 = some b) :
    b.dir = lit "-" ∨ InDir path b.dir := by
  unfold ticCreate at h
  split at h
  · cases h
  · split at h
    · cases h
    · dsimp only at h
      split at h
      · cases h
      · split at h
        · cases h
        · rcases @cmdNewInt_dir t w
            { st with auth := areafixAuthCheck t w.stale tic.src tic.pw true } path tic.src
            (ticAutocreate o t tic.src area) true hpath hshort hname with hsame | ⟨p, hp, hdir⟩
          · rw [hsame, hnone] at h
            cases h
          · have hlast : areasbbsLookup [p] area = some b := by
              rw [hp, areasbbsLookup, List.find?_append] at h
              rw [areasbbsLookup] at hnone
              rwa [hnone, Option.none_or] at h
            rw [areasbbsLookup] at hlast
            rw [← List.mem_singleton.mp (List.mem_of_find?_eq_some hlast)] at hdir
            exact hdir

/-- The directories made for it. -/
theorem newDirs_within {D M X : Str → Prop} {cf : Config} {passthru : Bool}
    (hM : ∀ p ∈ cfGetString cf (lit "AutoCreateFechoPath"), M p ∧ ∀ d, InDir p d → M d)
    (hshort : ∀ p ∈ cfGetString cf (lit "AutoCreateFechoPath"), Short p) (hname : FileName name) :
    ∀ e ∈ newDirs t w cf passthru name, e.Within D M X := by
  unfold newDirs
  split
  · exact List.forall_mem_nil _
  · dsimp only
    split
    · exact List.forall_mem_nil _
    · cases hpath : cfGetString cf (lit "AutoCreateFechoPath") with
      | none => exact List.forall_mem_nil _
      | some path =>
          obtain ⟨hpathM, hinM⟩ := hM path hpath
          refine List.forall_mem_append.mpr ⟨?_, ?_⟩
          · intro e he
            obtain ⟨p, hp, rfl⟩ := List.mem_map.mp he
            have hp : p ∈ [path] := (List.mem_filter.mp hp).1
            rw [List.mem_singleton.mp hp]
            exact Effect.within_mkdir hpathM
          · split
            · exact List.forall_mem_singleton.mpr (Effect.within_mkdir (hinM _
                (inDir_pathOf (hshort path hpath) (fileName_strLower.mpr hname))))
            · exact List.forall_mem_nil _

theorem ticCreateDirs_within {D M X : Str → Prop} {area : Str}
    (hM : ∀ p ∈ cfGetString st.cf (lit "AutoCreateFechoPath"), M p ∧ ∀ d, InDir p d → M d)
    (hshort : ∀ p ∈ cfGetString st.cf (lit "AutoCreateFechoPath"), Short p)
    (hname : ∀ name opts, xstrtok blanks (ticAutocreate o t tic.src area) = name :: opts →
      FileName name) : ∀ e ∈ ticCreateDirs o t w tic area st, e.Within D M X := by
  unfold ticCreateDirs
  split
  · exact List.forall_mem_nil _
  · split
    · exact List.forall_mem_nil _
    · dsimp only
      split
      · exact List.forall_mem_nil _
      · unfold cmdNewDirs
        split
        · exact List.forall_mem_nil _
        · split
          · exact List.forall_mem_nil _
          · next name opts hwords =>
              split
              · exact List.forall_mem_nil _
              · split
                · exact List.forall_mem_nil _
                · split
                  · exact List.forall_mem_nil _
                  · exact newDirs_within hM hshort (hname _ _ hwords)

end

/-! ## The conditions -/

/-- Whether the area of a TIC has to be created. -/
def ticCreated (o : TickOptions) (areas : List AreasBBS) (tic : Tick) : Bool :=
  tic.area.any fun area => (ticPlace o areas area).isNone

/-- The directories leave room for a name. -/
structure ShortDirs (o : TickOptions) (w : TickWorld) (cf : Config) : Prop where
  inbound : Short o.inDir
  pass : Short o.passPath
  replaced : ∀ dir ∈ cfGetString cf (lit "TickReplacedDir"), Short (w.expand dir)
  path : ∀ path ∈ cfGetString cf (lit "AutoCreateFechoPath"), Short path

/-- An area that is created has a name for its directory, and the area's
directory leaves room for a name. -/
structure TicNames (o : TickOptions) (t : Tables) (w : World) (st : Areafix) (tic : Tick) :
    Prop where
  created : ∀ area ∈ tic.area, ticPlace o st.areas area = none → ∀ name opts,
    xstrtok blanks (ticAutocreate o t tic.src area) = name :: opts → FileName name
  areaDir : ∀ b ∈ ticEntry o t w tic st, Short b.dir

section

variable {o : TickOptions} {t : Tables} {w : TickWorld} {tic : Tick} {st : Areafix}

theorem ticCreate_sameTicDirs (area : Str) :
    SameTicDirs st.cf (ticCreate o t w.toWorld tic area st).2.cf := by
  obtain ⟨n, h⟩ := ticCreate_cuts (o := o) (SomeCuts.refl t st.cf) w.toWorld tic area
  have hkey : ∀ key ∈ [lit "TickReplacedDir", lit "TickFlav", lit "PassthroughtBoxesFlavours",
      lit "AutoCreateFechoPath"], strieq (subscribeKey t) key = false := by
    unfold subscribeKey
    cases t.areafix <;> decide +kernel
  exact ⟨h.getString (hkey _ (by simp)), h.getString (hkey _ (by simp)),
    h.getString (hkey _ (by simp)), h.getString (hkey _ (by simp))⟩

/-- A TIC that meets the conditions stays in the directories of its area, but
for the file it replaces. -/
theorem processTic_within (hd : ShortDirs o w st.cf)
    (hseq : ∀ n, ∃ k, w.seq n = lit "tk" ++ putIntZ 6 k ++ lit ".tic")
    (hfile : FileName tic.file) (hn : TicNames o t w.toWorld st tic) :
    ∀ e ∈ (processTic o t w tic ⟨st, []⟩).2.done,
      e.Within (TicHome o w st.cf (ticEntry o t w.toWorld tic st))
        (TicMade o w st.cf (ticEntry o t w.toWorld tic st))
        (TicStray w st.cf (ticEntry o t w.toWorld tic st) (ticCreated o st.areas tic)
          tic.replaces) := by
  have hdir := hn.areaDir
  unfold processTic
  unfold ticEntry ticCreated at *
  cases harea : tic.area with
  | none => exact List.forall_mem_nil _
  | some area =>
      rw [harea] at hdir
      dsimp only [Option.bind_some, Option.any_some] at hdir ⊢
      unfold ticPlace at *
      cases hknown : areasbbsLookup st.areas area with
      | some bbs =>
          rw [hknown] at hdir
          exact @ticKnown_within o t w tic bbs _ ⟨st, []⟩ hfile hseq hd.pass hd.inbound
            (hdir bbs rfl) hd.replaced area false (fun _ hp => hp) (List.forall_mem_nil _)
      | none =>
          rw [hknown] at hdir
          dsimp only at hdir ⊢
          cases hplace : o.unknownTickArea.bind (areasbbsLookup st.areas) with
          | some bbs =>
              rw [hplace] at hdir
              exact @ticUnknown_within o w tic bbs _ ⟨st, []⟩ hfile hd.inbound (hdir bbs rfl)
                (List.forall_mem_nil _)
          | none =>
              rw [hplace] at hdir
              dsimp only at hdir ⊢
              have hsame : SameTicDirs st.cf (ticCreate o t w.toWorld tic area st).2.cf :=
                ticCreate_sameTicDirs area
              cases hc : ticCreate o t w.toWorld tic area st with
              | mk entry af =>
                  rw [hc] at hdir hsame
                  cases entry with
                  | none => exact List.forall_mem_nil _
                  | some bbs =>
                      refine hsame.within (@ticKnown_within o t w tic bbs _ ⟨af, []⟩ hfile hseq
                        hd.pass hd.inbound (hdir bbs rfl) ?_ area true ?_ (List.forall_mem_nil _))
                      · intro dir h
                        exact hd.replaced dir (hsame.replaced ▸ h)
                      · exact fun p hp => hsame.stray hp

/-- The directories made for a new area. -/
theorem processDirs_within {D X : Str → Prop} {bbs : Option AreasBBS} (hd : ShortDirs o w st.cf)
    (hn : TicNames o t w.toWorld st tic) :
    ∀ e ∈ processDirs o t w.toWorld tic st, e.Within D (TicMade o w st.cf bbs) X := by
  have hcreated := hn.created
  unfold processDirs
  cases harea : tic.area with
  | none => exact List.forall_mem_nil _
  | some area =>
      dsimp only
      split
      · exact List.forall_mem_nil _
      · next hplace =>
          exact ticCreateDirs_within (fun p hp => ⟨.path hp, fun d h => .area hp h⟩) hd.path
            (hcreated area harea hplace)

/-- The directory of an area that is created for a TIC. -/
theorem ticEntry_created (hd : ShortDirs o w st.cf) (hn : TicNames o t w.toWorld st tic)
    {area path : Str} {b : AreasBBS} (harea : tic.area = some area)
    (hplace : ticPlace o st.areas area = none)
    (hpath : cfGetString st.cf (lit "AutoCreateFechoPath") = some path)
    (hb : ticEntry o t w.toWorld tic st = some b) : b.dir = lit "-" ∨ InDir path b.dir := by
  unfold ticEntry at hb
  rw [harea, Option.bind_some, hplace] at hb
  have hnone : areasbbsLookup st.areas area = none := by
    unfold ticPlace at hplace
    cases h : areasbbsLookup st.areas area with
    | none => rfl
    | some bbs =>
        rw [h] at hplace
        cases hplace
  exact ticCreate_dir hnone hpath (hd.path path hpath) (hn.created area harea hplace) hb

end

/-! ## do_tic -/

/-- The TIC as it is read. -/
def TicFile.tic (f : TicFile) (cf : Config) : Option Tick :=
  f.text.map (tickGet cf.curZone cf.defzone)

/-- The area of a TIC file. -/
def TicFile.area (o : DoTicOptions) (t : Tables) (d : DoTic) (f : TicFile) : Option AreasBBS :=
  (f.tic d.af.cf).bind fun tic => ticEntry o.toTickOptions t f.w.toWorld tic d.af

/-- The condition on a TIC file: the directories leave room for a name, the
names of the sequencer are as it prints them, TickWaitAction is one of the two
there are, and `File` is neither `.` nor `..`. -/
structure TicOk (o : DoTicOptions) (t : Tables) (d : DoTic) (f : TicFile) : Prop where
  dirs : ShortDirs o.toTickOptions f.w d.af.cf
  seq : ∀ n, ∃ k, f.w.seq n = lit "tk" ++ putIntZ 6 k ++ lit ".tic"
  wait : ∀ p ∈ cfGetString d.af.cf (lit "TickWaitAction"), p = lit "bad" ∨ p = lit "delete"
  file : ∀ tic ∈ f.tic d.af.cf, tic.file ≠ lit "." ∧ tic.file ≠ lit ".."
  names : ∀ tic ∈ f.tic d.af.cf, TicNames o.toTickOptions t f.w.toWorld d.af tic

/-- The paths of the file that a TIC file replaces, where they may lead
anywhere. -/
def TicFile.Stray (o : DoTicOptions) (t : Tables) (d : DoTic) (f : TicFile) : Str → Prop :=
  TicStray f.w d.af.cf (f.area o t d)
    ((f.tic d.af.cf).any (ticCreated o.toTickOptions d.af.areas))
    ((f.tic d.af.cf).bind (·.replaces))

/-- The call stays in the directories of the TIC file, but for the file that
is replaced. -/
def TicCall.Confined (o : DoTicOptions) (t : Tables) (d : DoTic) (f : TicFile) (c : TicCall) :
    Prop :=
  c.Within (TicHome o.toTickOptions f.w d.af.cf (f.area o t d))
    (TicMade o.toTickOptions f.w d.af.cf (f.area o t d)) (f.Stray o t d)

section

variable {D M X : Str → Prop}

theorem TicCall.within_unlink {p : Str} (h : ∃ d, D d ∧ InDir d p) :
    (TicCall.unlink p).Within D M X := by
  refine ⟨?_, fun _ hd => absurd hd List.not_mem_nil⟩
  intro q hq
  rw [List.mem_singleton.mp hq]
  exact .inl h

theorem TicCall.within_rename {p q : Str} (hp : ∃ d, D d ∧ InDir d p) (hq : ∃ d, D d ∧ InDir d q) :
    (TicCall.rename p q).Within D M X :=
  ⟨List.forall_mem_cons.mpr ⟨.inl hp, List.forall_mem_singleton.mpr (.inl hq)⟩,
    fun _ hd => absurd hd List.not_mem_nil⟩

theorem TicCall.within_nothing {c : TicCall} (hf : c.files = []) (hd : c.dirs = []) :
    c.Within D M X := by
  refine ⟨?_, ?_⟩
  · intro p hp
    rw [hf] at hp
    cases hp
  · intro d hmem
    rw [hd] at hmem
    cases hmem

/-- The name of the TIC file with another extension. -/
theorem inDir_bad {d n : Str} (hd : Short d) (hn : 4 ≤ n.length) (hsep : 47 ∉ n) :
    InDir d (strChangeExt MAXPATH (pathOf d n) (lit "bad")) := by
  have hname := pathOf_eq hd n
  generalize hm : n.take (MAXPATH - 2 - d.length) = m at hname
  have hmlen : 4 ≤ m.length ∧ d.length + m.length + 1 ≤ MAXPATH - 1 := by
    unfold Short at hd
    rw [← hm, List.length_take]
    omega
  have hmsep : 47 ∉ m := fun h => hsep (List.mem_of_mem_take (hm ▸ h))
  have hcopy : ∀ {s : Str}, s.length ≤ MAXPATH - 1 → bufCopy MAXPATH s = s :=
    fun h => List.take_of_length_le h
  have hlen : (d ++ 47 :: m).length = d.length + m.length + 1 := by
    rw [List.length_append, List.length_cons]
    rfl
  have hcut : (d ++ 47 :: m).take ((d ++ 47 :: m).length - (lit "bad").length) =
      d ++ 47 :: m.take (m.length - 3) := by
    obtain ⟨j, hj⟩ : ∃ j, m.length = j + 3 := ⟨m.length - 3, by omega⟩
    rw [hlen, hj, show d.length + (j + 3) + 1 - (lit "bad").length = d.length + (j + 1) from by
      have hbad : (lit "bad").length = 3 := rfl
      omega, List.take_length_add_append, List.take_succ_cons, Nat.add_sub_cancel]
  have hnew : FileName (m.take (m.length - 3) ++ lit "bad") := by
    refine isName_of_length ?_ ?_
    · rw [List.length_append]
      exact Nat.le_add_left 3 _
    · intro hmem
      rcases List.mem_append.mp hmem with hmem | hmem
      · exact hmsep (List.mem_of_mem_take hmem)
      · revert hmem
        decide
  have hfit : (d ++ 47 :: m.take (m.length - 3) ++ lit "bad").length ≤ MAXPATH - 1 := by
    have hbad : (lit "bad").length = 3 := rfl
    rw [List.length_append, List.length_append, List.length_cons, List.length_take, hbad]
    omega
  have hwhole : bufCopy MAXPATH (d ++ 47 :: m) = d ++ 47 :: m := hcopy (by omega)
  have hpath : d ++ 47 :: m.take (m.length - 3) ++ lit "bad" =
      d ++ 47 :: (m.take (m.length - 3) ++ lit "bad") := by
    rw [List.append_assoc, List.cons_append]
  unfold strChangeExt
  dsimp only
  rw [hname, hwhole, hcut, hcopy hfit, hpath]
  exact hnew.directly d

end

section

variable {o : DoTicOptions} {t : Tables} {d : DoTic} {f : TicFile} {tic : Tick}

/-- What `check_file` does to the TIC. -/
def FoundIn (tic tic' : Tick) : Prop :=
  ∃ file size date, tic' = { tic with file := file, size := size, date := date }

theorem FoundIn.trans {tic' tic'' : Tick} (h : FoundIn tic tic') (h' : FoundIn tic' tic'') :
    FoundIn tic tic'' := by
  obtain ⟨_, _, _, rfl⟩ := h
  obtain ⟨file, size, date, rfl⟩ := h'
  exact ⟨file, size, date, rfl⟩

theorem FoundIn.names {tic' : Tick} (h : FoundIn tic tic') {w : World} {st : Areafix}
    (hn : TicNames o.toTickOptions t w st tic) : TicNames o.toTickOptions t w st tic' := by
  obtain ⟨_, _, _, rfl⟩ := h
  exact ⟨hn.created, hn.areaDir⟩

theorem FoundIn.entry {tic' : Tick} (h : FoundIn tic tic') (w : World) (st : Areafix) :
    ticEntry o.toTickOptions t w tic' st = ticEntry o.toTickOptions t w tic st := by
  obtain ⟨_, _, _, rfl⟩ := h
  rfl

/-- Unless it is missing, the file is one of the inbound's; renaming it stays
there. -/
theorem checkFile_found {D M X : Str → Prop} (hd : Short o.inDir) (hD : D o.inDir)
    {dir : List DirEntry} {stat : Str → Option (Nat × Int)} {named : Bool}
    (hfile : tic.file ≠ lit "." ∧ tic.file ≠ lit "..") :
    FoundIn tic (checkFile o.toTickOptions dir stat named tic).2.1 ∧
      ((checkFile o.toTickOptions dir stat named tic).1 ≠ .missing → named = true →
        FileName (checkFile o.toTickOptions dir stat named tic).2.1.file) ∧
      ∀ c ∈ (checkFile o.toTickOptions dir stat named tic).2.2, c.Within D M X := by
  have hsame : FoundIn tic tic := ⟨tic.file, tic.size, tic.date, rfl⟩
  unfold checkFile
  cases named with
  | false => exact ⟨hsame, fun _ h => (nomatch h), List.forall_mem_nil _⟩
  | true =>
      rw [if_neg (by decide)]
      cases hs : dirSearch dir tic.file with
      | none => exact ⟨hsame, fun h => absurd rfl h, List.forall_mem_nil _⟩
      | some e =>
          have hmatch := List.find?_some hs
          have hname : FileName e.name := fileName_entry hmatch hfile
          have hlower : FileName (strLower e.name) := fileName_strLower.mpr hname
          have hcalls : ∀ c ∈ (if pathOf o.inDir (strLower e.name) == pathOf o.inDir e.name then []
              else [TicCall.rename (pathOf o.inDir e.name) (pathOf o.inDir (strLower e.name))]),
              c.Within D M X := by
            split
            · exact List.forall_mem_nil _
            · exact List.forall_mem_singleton.mpr (TicCall.within_rename
                ⟨_, hD, inDir_pathOf hd hname⟩ ⟨_, hD, inDir_pathOf hd hlower⟩)
          dsimp only
          split
          · exact ⟨⟨_, tic.size, tic.date, rfl⟩, fun _ _ => hlower, hcalls⟩
          · split
            · exact ⟨⟨_, tic.size, tic.date, rfl⟩, fun _ _ => hlower, hcalls⟩
            · exact ⟨⟨_, _, _, rfl⟩, fun _ _ => hlower, hcalls⟩

/-- A file that is missing leaves the TIC as it is. -/
theorem checkFile_missing {dir : List DirEntry} {stat : Str → Option (Nat × Int)} {named : Bool}
    (h : (checkFile o.toTickOptions dir stat named tic).1 = .missing) :
    tic = (checkFile o.toTickOptions dir stat named tic).2.1 := by
  unfold checkFile at *
  split
  · rfl
  · next hnamed =>
      rw [if_neg hnamed] at h
      split
      · rfl
      · next e he =>
          rw [he] at h
          dsimp only at h
          split at h
          · cases h
          · split at h
            · cases h
            · cases h

theorem confined_inbound (hd : Short o.inDir) {n : Str} (hn : FileName n) :
    ∃ dir, TicHome o.toTickOptions f.w d.af.cf (f.area o t d) dir ∧ InDir dir (pathOf o.inDir n) :=
  ⟨_, .dir .inbound, inDir_pathOf hd hn⟩

theorem renameToBad_confined (hd : Short o.inDir) :
    (renameToBad (pathOf o.inDir f.entry.name)).Confined o t d f :=
  TicCall.within_rename (confined_inbound hd (fileName_tic f))
    ⟨_, .dir .inbound, inDir_bad hd (length_entry f) f.entry.noSlash⟩

theorem unlinkTic_confined (hd : Short o.inDir) :
    (TicCall.unlink (pathOf o.inDir f.entry.name)).Confined o t d f :=
  TicCall.within_unlink (confined_inbound hd (fileName_tic f))

/-- A TIC that goes on stays in its directories. -/
theorem ticGoOn_confined (hok : TicOk o t d f) (hfile : FileName tic.file)
    (hn : TicNames o.toTickOptions t f.w.toWorld d.af tic)
    (harea : ticEntry o.toTickOptions t f.w.toWorld tic d.af = f.area o t d)
    (hstray : TicStray f.w d.af.cf (f.area o t d) (ticCreated o.toTickOptions d.af.areas tic)
      tic.replaces = f.Stray o t d) :
    ∀ c ∈ (ticGoOn o t f (pathOf o.inDir f.entry.name) tic d).1, c.Confined o t d f := by
  have hin := hok.dirs.inbound
  have hbad : (renameToBad (pathOf o.inDir f.entry.name)).Confined o t d f :=
    renameToBad_confined hin
  have hunlink : (TicCall.unlink (pathOf o.inDir f.entry.name)).Confined o t d f :=
    unlinkTic_confined hin
  have hdupe : InDir o.inDir (bufCopy BUFFERSIZE (o.inDir ++ lit "/" ++ tic.file)) := by
    have hlen : o.inDir.length + 4 ≤ BUFFERSIZE - 1 := by
      have hin := hin
      unfold Short at hin
      have hmax : MAXPATH ≤ BUFFERSIZE := by decide
      omega
    unfold bufCopy
    rw [List.append_assoc]
    exact hfile.directly_take hlen
  have hcalls : ∀ c ∈ (processDirs o.toTickOptions t f.w.toWorld tic d.af ++
      (processTic o.toTickOptions t f.w tic ⟨d.af, []⟩).2.done).map TicCall.effect,
      c.Confined o t d f := by
    intro c hc
    obtain ⟨e, he, rfl⟩ := List.mem_map.mp hc
    rcases List.mem_append.mp he with he | he
    · exact processDirs_within hok.dirs hn e he
    · have h := processTic_within hok.dirs hok.seq hfile hn e he
      rw [harea, hstray] at h
      exact h
  unfold ticGoOn
  split
  · split
    · exact List.forall_mem_singleton.mpr hbad
    · exact List.forall_mem_cons.mpr ⟨TicCall.within_unlink ⟨_, .dir .inbound, hdupe⟩,
        List.forall_mem_singleton.mpr hunlink⟩
  · dsimp only
    have hrewrite : TicCall.rewrite.Confined o t d f := TicCall.within_nothing rfl rfl
    split
    · exact List.forall_mem_append.mpr ⟨hcalls,
        List.forall_mem_cons.mpr ⟨hrewrite, List.forall_mem_singleton.mpr hbad⟩⟩
    · split
      · exact hcalls
      · refine List.forall_mem_append.mpr ⟨List.forall_mem_append.mpr ⟨List.forall_mem_append.mpr
          ⟨List.forall_mem_append.mpr ⟨hcalls, ?_⟩, List.forall_mem_singleton.mpr hrewrite⟩, ?_⟩,
          List.forall_mem_singleton.mpr hunlink⟩
        · split
          · exact List.forall_mem_nil _
          · exact List.forall_mem_singleton.mpr (TicCall.within_nothing rfl rfl)
        · intro c hc
          rw [Option.toList_map] at hc
          obtain ⟨script, -, rfl⟩ := List.mem_map.mp hc
          exact TicCall.within_nothing rfl rfl

/-- The wait for a file ends with the TIC file, where TickWaitAction says how. -/
theorem ticWait_ne_goOn (hok : TicOk o t d f) (now : Int) (mtime : Option Int) :
    ticWait d.af.cf now mtime ≠ .goOn := by
  unfold ticWait
  split
  · decide
  · dsimp only
    split
    · decide
    · split
      · decide
      · next p hp =>
          rcases hok.wait p hp with rfl | rfl
          · rw [if_pos (by decide)]
            decide
          · rw [if_neg (by decide), if_pos (by decide)]
            decide

theorem ticRead_confined (hok : TicOk o t d f) {named : Bool} (htic : f.tic d.af.cf = some tic) :
    ∀ c ∈ (ticRead o t f (pathOf o.inDir f.entry.name) named tic d).1, c.Confined o t d f := by
  have hin := hok.dirs.inbound
  have hbad : (renameToBad (pathOf o.inDir f.entry.name)).Confined o t d f :=
    renameToBad_confined hin
  have harea : ticEntry o.toTickOptions t f.w.toWorld tic d.af = f.area o t d := by
    rw [TicFile.area, htic]
    rfl
  have hhome : TicHome o.toTickOptions f.w d.af.cf (f.area o t d) o.inDir := .dir .inbound
  obtain ⟨hsame, hname, hcalls⟩ := @checkFile_found o tic _
    (TicMade o.toTickOptions f.w d.af.cf (f.area o t d)) (f.Stray o t d) hin hhome f.dir f.stat
    named (hok.file tic htic)
  unfold ticRead
  dsimp only
  generalize hr : checkFile o.toTickOptions f.dir f.stat named tic = r at hsame hname hcalls ⊢
  split
  · -- nobody goes on without the file
    have hwait := ticWait_ne_goOn hok f.w.now
      ((f.stat (pathOf o.inDir f.entry.name)).map Prod.snd)
    split
    · exact hcalls
    · exact hcalls
    · exact List.forall_mem_append.mpr ⟨hcalls, List.forall_mem_singleton.mpr hbad⟩
    · exact List.forall_mem_append.mpr ⟨hcalls,
        List.forall_mem_singleton.mpr (unlinkTic_confined hin)⟩
    · next hgo => exact absurd hgo hwait
  · next hfound =>
      have hfound : r.1 ≠ .missing := by simpa using hfound
      cases hnamed : named with
      | false =>
          have hr : r = (.failed, tic, []) := by
            rw [← hr, hnamed]
            rfl
          rw [hr]
          exact List.forall_mem_singleton.mpr hbad
      | true =>
          have hfile : FileName r.2.1.file := hname hfound hnamed
          obtain ⟨hsame', hname', hcalls'⟩ := @checkFile_found o r.2.1 _
            (TicMade o.toTickOptions f.w d.af.cf (f.area o t d)) (f.Stray o t d) hin hhome
            f.dirAgain f.statAgain true ⟨hfile.notHere, hfile.notUp⟩
          generalize hr' : checkFile o.toTickOptions f.dirAgain f.statAgain true r.2.1 = r'
            at hsame' hname' hcalls' ⊢
          have hboth : ∀ c ∈ r.2.2 ++ r'.2.2, c.Confined o t d f :=
            List.forall_mem_append.mpr ⟨hcalls, hcalls'⟩
          split
          · exact List.forall_mem_append.mpr ⟨hboth, List.forall_mem_singleton.mpr hbad⟩
          · have hfile' : FileName r'.2.1.file := by
              by_cases hmissing : r'.1 = .missing
              · have hsame := checkFile_missing (hr'.symm ▸ hmissing)
                rw [hr'] at hsame
                rw [← hsame]
                exact hfile
              · exact hname' hmissing rfl
            have hread := hsame.trans hsame'
            have hstray : TicStray f.w d.af.cf (f.area o t d)
                (ticCreated o.toTickOptions d.af.areas r'.2.1) r'.2.1.replaces = f.Stray o t d := by
              rw [TicFile.Stray, htic]
              obtain ⟨_, _, _, hr'⟩ := hread
              rw [hr']
              rfl
            exact List.forall_mem_append.mpr ⟨hboth, ticGoOn_confined hok hfile'
              (hread.names (hok.names tic htic)) ((hread.entry _ _).trans harea) hstray⟩

theorem doTicFile_confined (hok : TicOk o t d f) :
    ∀ c ∈ (doTicFile o t d f).1, c.Confined o t d f := by
  unfold doTicFile
  split
  · exact List.forall_mem_nil _
  · dsimp only
    cases htext : f.text with
    | none => exact List.forall_mem_singleton.mpr (renameToBad_confined hok.dirs.inbound)
    | some text =>
        refine ticRead_confined hok ?_
        rw [TicFile.tic, htext]
        rfl

/-- A call is made for one of the TIC files, in the state it is met in. -/
theorem mem_doTic {c : TicCall} : ∀ {d : DoTic} {fs : List TicFile}, c ∈ doTic o t d fs →
    ∃ fs₁ f fs₂, fs = fs₁ ++ f :: fs₂ ∧ c ∈ (doTicFile o t (Run.run (doTicStep o t) d fs₁) f).1
  | _, [], h => by cases h
  | d, f :: fs, h => by
      rcases List.mem_append.mp h with h | h
      · exact ⟨[], f, fs, rfl, h⟩
      · obtain ⟨fs₁, g, fs₂, hfs, hc⟩ := mem_doTic h
        exact ⟨f :: fs₁, g, fs₂, congrArg (f :: ·) hfs, hc⟩

end

/-- An area with the sender, a configuration and no history. -/
def oneFarea (strings : List (Str × Str)) : DoTic :=
  ⟨{ noAreas with
      areas := [{ areasbbsNew with
        area := lit "FA", dir := lit "/fa/a", zone := 2, nodes := [⟨2, 5020, 9, 0, []⟩] }]
      cf := Config.read ⟨2, ⟨2, 5020, 100, 0, []⟩, ⟨2, 5020, 9, 0, []⟩⟩ [] strings }, [], false⟩

/-- A TIC file of these lines, with `a.zip` in the inbound. -/
def ticOf (lines : List String) : TicFile :=
  { entry := ⟨lit "1.tic", by decide, by decide⟩
    isTic := by decide +kernel
    text := some (lines.flatMap fun l => lit l ++ [cr, lf])
    dir := [⟨lit "a.zip", by decide, by decide⟩]
    dirAgain := [⟨lit "a.zip", by decide, by decide⟩]
    stat := fun _ => some (1, 0)
    statAgain := fun _ => some (1, 0)
    w := { (ticFor "").w with isFile := fun _ => true, isDir := fun d => d == lit "/fa" }
    histWrites := true }

def oneTicOptions : DoTicOptions :=
  { createOptions with execScript := none, killDupe := false, noTicHistory := true }

/-- Every path of the call lies directly in one of the directories, those that
are made as well. -/
def TicCall.Directly (o : DoTicOptions) (t : Tables) (d : DoTic) (f : TicFile) (c : TicCall) :
    Prop :=
  ∀ p ∈ c.files ++ c.dirs, ∃ dir,
    (TicDir o.toTickOptions f.w d.af.cf (f.area o t d) dir ∨
      cfGetString d.af.cf (lit "AutoCreateFechoPath") = some dir) ∧ InDir dir p

/-- A directory that fills the buffer is cut off, and so is the name. -/
theorem not_inDir_pathOf {d : Str} (hd : MAXPATH - 1 ≤ d.length) (n : Str) :
    ¬ InDir d (pathOf d n) := by
  rintro ⟨m, -, hm⟩
  have hcut : (pathOf d n).length ≤ MAXPATH - 1 := List.length_take_le _ _
  rw [hm, List.length_append, List.length_cons] at hcut
  exact absurd (hcut.trans hd) (Nat.not_le.mpr (Nat.lt_add_of_pos_right (Nat.succ_pos _)))

/-- The directory of the path is none of them. -/
theorem not_directly {o : DoTicOptions} {t : Tables} {d : DoTic} {f : TicFile} {c : TicCall}
    (dir : Str) {p : Str} (hp : p ∈ c.files ++ c.dirs) (hdir : InDir dir p) (hin : o.inDir ≠ dir)
    (harea : ∀ b ∈ f.area o t d, b.dir ≠ dir)
    (hreplaced : ∀ r ∈ cfGetString d.af.cf (lit "TickReplacedDir"), f.w.expand r ≠ dir)
    (hpath : cfGetString d.af.cf (lit "AutoCreateFechoPath") ≠ some dir)
    (hpass : ¬ o.passPath <+: dir) : ¬ c.Directly o t d f := by
  intro h
  obtain ⟨dir', hd, hp'⟩ := h p hp
  have heq : dir' = dir := hp'.unique hdir
  subst heq
  rcases hd with hd | hd
  · cases hd with
    | inbound => exact hin rfl
    | area hb => exact harea _ hb rfl
    | replaced hr => exact hreplaced _ hr rfl
    | pass => exact hpass (List.prefix_refl _)
    | box n =>
        refine hpass ?_
        unfold makeDirName
        simp only [List.append_assoc]
        exact List.prefix_append _ _
  · exact hpath hd

end Fidogate

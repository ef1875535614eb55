import CorpusQuery.Proofs.Files
import CorpusQuery.Proofs.Restoring
import CorpusQuery.Settings.Storage

/-! Saved settings loaded again. The file that was saved spells the settings, and a corpus that they do not
describe themselves is looked up anew among files that stayed as they were. -/
namespace CorpusQuery

namespace Settings

open FileTree

variable {tree later : FileTree} {e : Environment} {s : Settings} {path : Text}

/-- Settings were saved at a place: there they are read, and what is elsewhere is as it was. -/
structure Saved (tree later : FileTree) (s : Settings) (path : Text) (place : Place) : Prop where
  located : later.locate path = .ok place
  reads : later.read path = .ok s.written
  leads : Leads tree later
  elsewhere : ∀ other ≠ place, ∀ node, tree.node? other = some node → later.node? other = some node

theorem saved_of_save (saved : save tree s path = .ok later) : ∃ place, Saved tree later s path place := by
  obtain ⟨between,made,written⟩ := bind_eq_ok.mp saved
  have grows := makeDirectories_grows made
  obtain ⟨place,locates,noDirectory,rfl⟩ := write_eq_ok written
  have leads := leads_put noDirectory (.file (String.ofList s.written).toUTF8)
  have named : place ≠ [] := by
    rintro rfl
    exact noDirectory rfl
  refine ⟨place,locate_of_leads leads locates,?_,?_,?_⟩
  · rw [read_file place (locate_of_leads leads locates) (node?_put_same between named _),String.toList_ofList]
  · exact ⟨leads.workingDirectory.trans grows.workingDirectory,
      fun other present => leads.directories other (grows.nodes other _ present)⟩
  · intro other apart node present
    rw [node?_put_other between apart]
    exact grows.nodes other node present

theorem load_of_read {t : Text} (reads : tree.read path = .ok t) (spells : Settings.read? t = some s)
    (e : Environment) : load tree e path = (loadCorpus tree (s.expandPath e)).map some := by
  simp only [load,has_of_read reads,reads,spells]
  rfl

theorem load_eq_of_save (saved : save tree s path = .ok later) (e : Environment) :
    load later e path =
      (loadCorpus later (expandPath e { s with corpusRead := none })).map some := by
  obtain ⟨place,-,reads,-,-⟩ := saved_of_save saved
  exact load_of_read reads (read?_written s) e

theorem loadCorpus_inside (inside : s.corpus.isSome ∨ s.corpusPath = none) :
    loadCorpus tree s = .ok s := by
  unfold loadCorpus
  split
  next path noCorpus hasPath =>
    rw [noCorpus,hasPath] at inside
    simp at inside
  next => rfl

theorem ofText_plain {t : Text} (plain : '$' ∉ t) : PathPart.ofText t = t.map .plain := by
  induction t with
  | nil => rw [PathPart.ofText,List.map_nil]
  | cons c t ih =>
    rw [List.mem_cons,not_or] at plain
    rw [PathPart.ofText,if_pos (Ne.symm plain.1),ih plain.2,List.map_cons]

theorem values_plain (e : Environment) (t : Text) :
    ∃ parts, (t.map PathPart.plain).mapM e.value? = some parts ∧ parts.flatten = t := by
  induction t with
  | nil => exact ⟨[],rfl,rfl⟩
  | cons c t ih =>
    obtain ⟨parts,valued,joined⟩ := ih
    refine ⟨[c] :: parts,?_,by rw [List.flatten_cons,joined,List.singleton_append]⟩
    simp [Environment.value?,valued]

theorem expand?_plain (e : Environment) {file : Text} (plain : '$' ∉ file)
    (elsewhere : file.head? ≠ some '~') : e.expand? file = some file := by
  obtain ⟨parts,valued,joined⟩ := values_plain e file
  have unchanged : e.expandVariables? file = some file := by
    rw [Environment.expandVariables?,ofText_plain plain,valued,Option.map_some,joined]
  have stays : e.expandHome file = file := by
    unfold Environment.expandHome
    split
    · exact absurd rfl elsewhere
    · exact absurd rfl elsewhere
    · rfl
  simp [Environment.expand?,unchanged,stays]

theorem expandPath_of_none (noPath : s.corpusPath = none) : s.expandPath e = s := by
  cases s
  cases noPath
  rfl

theorem expandPath_eq_self {file : Text} (hasPath : s.corpusPath = some file) :
    s.expandPath e = s ↔ (e.expand? file).getD file = file := by
  obtain ⟨corpusPath,dialect,wrapLines,wording,corpus,corpusRead⟩ := s
  obtain rfl : corpusPath = some file := hasPath
  simp [expandPath]

theorem expandPath_plain {file : Text} (e : Environment) (hasPath : s.corpusPath = some file)
    (plain : '$' ∉ file) (elsewhere : file.head? ≠ some '~') : s.expandPath e = s :=
  (expandPath_eq_self hasPath).mpr (by rw [expand?_plain e plain elsewhere,Option.getD_some])

theorem forget_read (unread : s.corpusRead = none) : { s with corpusRead := none } = s := by
  cases s
  cases unread
  rfl

/-- The settings come back as they were saved when no other file matters: none is named, or there is a corpus
that comes before it and the path means itself. What was read from a file earlier is not kept. -/
theorem load_saved {tree later : FileTree} {s : Settings} {path : Text} (e : Environment)
    (stays : s.corpusPath = none ∨ s.corpus.isSome ∧ s.expandPath e = s)
    (saved : save tree s path = .ok later) :
    load later e path = .ok (some { s with corpusRead := none }) ∧
      (s.corpusRead = none → load later e path = .ok (some s)) := by
  have inside : s.corpus.isSome ∨ s.corpusPath = none := stays.symm.imp_left And.left
  have same : s.expandPath e = s := stays.elim expandPath_of_none And.right
  have expands : expandPath e { s with corpusRead := none } = { s with corpusRead := none } := by
    rw [show expandPath e { s with corpusRead := none } =
      { s.expandPath e with corpusRead := none } from rfl,same]
  have loaded : load later e path = .ok (some { s with corpusRead := none }) := by
    rw [load_eq_of_save saved e,expands,
      loadCorpus_inside (s := { s with corpusRead := none }) inside]
    rfl
  exact ⟨loaded,fun unread => by rw [loaded,forget_read unread]⟩

/-- Quotes, line breaks and an empty name survive in a directory that was not there before. -/
theorem load_saved_names :
    let s : Settings := {
      corpusPath := some "names.toml".toList
      dialect := .wordForm
      wording := { column := "\"\\\n" }
      corpus := some { attributes := .ofNames ["","a'b\"c"], tagAttribute := some "\t" } }
    let tree : FileTree := { workingDirectory := [], nodes := [] }
    let later := (tree.put ["new".toList] .directory).put ["new".toList,"config.toml".toList]
      (.file (String.ofList s.written).toUTF8)
    save tree s "new/config.toml".toList = .ok later ∧
      load later { home := "home".toList } "new/config.toml".toList = .ok (some s) := by
  intro s tree later
  have saved : save tree s "new/config.toml".toList = .ok later := rfl
  have stays : s.expandPath { home := "home".toList } = s := expandPath_plain _ rfl (by simp) (by simp)
  exact ⟨saved,(load_saved _ (.inr ⟨rfl,stays⟩) saved).2 rfl⟩

/-! ### Saving what was loaded -/

theorem unread_of_read? {t : Text} (reads : Settings.read? t = some s) : s.corpusRead = none := by
  simp only [Settings.read?,Format.settings?,Option.bind_eq_bind,Option.bind_eq_some_iff,
    Option.pure_def,Option.some.injEq] at reads
  obtain ⟨_,-,_,-,_,-,_,-,_,-,_,-,rfl⟩ := reads
  rfl

theorem loadCorpus_outside (file : Text) (noCorpus : s.corpus = none) (hasPath : s.corpusPath = some file) :
    loadCorpus tree s = (Corpus.load tree file).map fun k => { s with corpusRead := some k } := by
  unfold loadCorpus
  rw [noCorpus,hasPath]

/-- Settings name no other file that matters, or they have the corpus that it describes. -/
inductive Loaded (tree : FileTree) (c : Settings) : Prop where
  | inside (unread : c.corpusRead = none) (alone : c.corpus.isSome ∨ c.corpusPath = none)
  | outside (noCorpus : c.corpus = none) {file : Text} (hasPath : c.corpusPath = some file) {k : Corpus}
    (described : Corpus.load tree file = .ok k) (hasRead : c.corpusRead = some k)

theorem loaded_of_loadCorpus {c : Settings} (unread : s.corpusRead = none)
    (looked : loadCorpus tree s = .ok c) : Loaded tree c := by
  by_cases inside : s.corpus.isSome ∨ s.corpusPath = none
  · rw [loadCorpus_inside inside] at looked
    obtain rfl := Except.ok.inj looked
    exact .inside unread inside
  · rw [not_or,Option.not_isSome_iff_eq_none] at inside
    obtain ⟨noCorpus,named⟩ := inside
    obtain ⟨file,hasPath⟩ := Option.ne_none_iff_exists'.mp named
    rw [loadCorpus_outside file noCorpus hasPath] at looked
    cases described : Corpus.load tree file with
    | error error =>
      rw [described] at looked
      cases looked
    | ok k =>
      rw [described] at looked
      obtain rfl := Except.ok.inj looked
      exact .outside noCorpus hasPath described rfl

theorem loaded_of_load {c : Settings} (loaded : load tree e path = .ok (some c)) :
    (∃ t, tree.read path = .ok t) ∧ Loaded tree c := by
  unfold load at loaded
  split at loaded
  next => cases loaded
  next =>
    split at loaded
    next => cases loaded
    next t present =>
      split at loaded
      next => cases loaded
      next s reads =>
        have unread := unread_of_read? reads
        cases looked : loadCorpus tree (s.expandPath e) with
        | error error =>
          rw [looked] at loaded
          cases loaded
        | ok found =>
          rw [looked] at loaded
          obtain rfl : found = c := Option.some.inj (Except.ok.inj loaded)
          exact ⟨⟨t,present⟩,loaded_of_loadCorpus (s := s.expandPath e) unread looked⟩

theorem corpusLoad_eq_ok {file : Text} {k : Corpus} : Corpus.load tree file = .ok k ↔
    ∃ t, tree.read file = .ok t ∧ Corpus.read? t = some k := by
  unfold Corpus.load
  cases tree.read file with
  | error e => simp
  | ok t => cases h : Corpus.read? t <;> simp [h]

/-- A file other than the one that was saved still describes the same corpus. The one that was saved describes
a corpus without names. -/
theorem corpusLoad_of_save {file t : Text} {k : Corpus} (saved : save tree s path = .ok later)
    (present : tree.read path = .ok t) (described : Corpus.load tree file = .ok k) :
    Corpus.load later file = .ok k ↔ (tree.locate file = tree.locate path → k = {}) := by
  obtain ⟨place,located,reads,leads,elsewhere⟩ := saved_of_save saved
  obtain ⟨same,locates,-⟩ := read_eq_ok.mp present
  obtain rfl := Except.ok.inj ((locate_of_leads leads locates).symm.trans located)
  obtain ⟨found,readsFile,isCorpus⟩ := corpusLoad_eq_ok.mp described
  obtain ⟨other,locatesFile,content,isFile,decodes⟩ := read_eq_ok.mp readsFile
  have locatesLater := locate_of_leads leads locatesFile
  rw [locates,locatesFile]
  by_cases here : other = same
  · subst here
    have written : later.read file = .ok s.written := by
      rw [← reads]
      unfold FileTree.read
      rw [locatesLater,located]
    have empty : Corpus.load later file = .ok {} :=
      corpusLoad_eq_ok.mpr ⟨s.written,written,Corpus.read?_written s⟩
    rw [empty]
    simp [eq_comm]
  · have kept : later.read file = .ok found :=
      read_eq_ok.mpr ⟨other,locatesLater,content,elsewhere other here _ isFile,decodes⟩
    simp [corpusLoad_eq_ok.mpr ⟨found,kept,isCorpus⟩,here]

theorem load_outside_of_save (file : Text) (saved : save tree s path = .ok later)
    (noCorpus : s.corpus = none) (hasPath : s.corpusPath = some file) (e : Environment) :
    load later e path = (Corpus.load later ((e.expand? file).getD file)).map fun k =>
      some { s.expandPath e with corpusRead := some k } := by
  have again : (s.expandPath e).corpusPath = some ((e.expand? file).getD file) := by
    simp [expandPath,hasPath]
  rw [load_eq_of_save saved e,
    loadCorpus_outside (s := expandPath e { s with corpusRead := none }) _ noCorpus again]
  cases Corpus.load later ((e.expand? file).getD file) <;> rfl

/-- Settings that were loaded and saved are loaded as they were just when their path means itself once more and,
where it names the very file that was saved, no names came from there. -/
theorem load_resaved {tree later : FileTree} {e : Environment} {c : Settings} {path : Text}
    (loaded : load tree e path = .ok (some c)) (saved : save tree c path = .ok later) :
    load later e path = .ok (some c) ↔ c.expandPath e = c ∧
      ∀ file, c.corpusPath = some file → tree.locate file = tree.locate path →
        c.corpus.isSome ∨ c.corpusRead = some {} := by
  obtain ⟨⟨t,present⟩,loaded⟩ := loaded_of_load loaded
  cases loaded with
  | inside unread alone =>
    have stays : (c.expandPath e).corpus.isSome ∨ (c.expandPath e).corpusPath = none :=
      alone.imp_right fun noPath => by rw [expandPath_of_none noPath,noPath]
    have reloaded : load later e path = .ok (some (c.expandPath e)) := by
      rw [load_eq_of_save saved e,forget_read unread,loadCorpus_inside stays]
      rfl
    rw [reloaded]
    refine ⟨fun same => ⟨Option.some.inj (Except.ok.inj same),fun file hasPath _ => .inl ?_⟩,
      fun ⟨same,_⟩ => by rw [same]⟩
    exact alone.resolve_right (by simp [hasPath])
  | @outside noCorpus file hasPath k described hasRead =>
    have condition : (∀ other, c.corpusPath = some other → tree.locate other = tree.locate path →
        c.corpus.isSome ∨ c.corpusRead = some {}) ↔ (tree.locate file = tree.locate path → k = {}) := by
      simp [hasPath,noCorpus,hasRead]
    rw [condition,← corpusLoad_of_save saved present described,expandPath_eq_self hasPath,
      load_outside_of_save file saved noCorpus hasPath e]
    constructor
    · intro same
      cases found : Corpus.load later ((e.expand? file).getD file) with
      | error error =>
        rw [found] at same
        cases same
      | ok other =>
        rw [found] at same
        have same := Option.some.inj (Except.ok.inj same)
        have samePath : (e.expand? file).getD file = file := by
          simpa [expandPath,hasPath] using congrArg corpusPath same
        have sameCorpus : other = k := Option.some.inj ((congrArg corpusRead same).trans hasRead)
        rw [samePath,sameCorpus] at found
        exact ⟨samePath,found⟩
    · rintro ⟨samePath,kept⟩
      rw [(expandPath_eq_self hasPath).mpr samePath,samePath,kept]
      change Except.ok (some { c with corpusRead := some k }) = _
      rw [← hasRead]

/-- A corpus in another file is found again. -/
theorem load_resaved_names :
    let path := "config.toml".toList
    let e : Environment := { home := "home".toList }
    let s : Settings := { corpusPath := some "names.toml".toList }
    let c : Settings := { s with corpusRead := some { attributes := .ofNames ["word"] } }
    let tree : FileTree := {
      workingDirectory := []
      nodes := [([path],.file (String.ofList s.written).toUTF8),
        (["names.toml".toList],.file "attributes = [\"word\"]\n".toUTF8)] }
    let later := tree.put [path] (.file (String.ofList c.written).toUTF8)
    load tree e path = .ok (some c) ∧ save tree c path = .ok later ∧
      load later e path = .ok (some c) := by
  intro path e s c tree later
  have described : Corpus.load tree "names.toml".toList = .ok { attributes := .ofNames ["word"] } :=
    corpusLoad_eq_ok.mpr ⟨_,read_file ["names.toml".toList] rfl rfl,by decide +kernel⟩
  have spells : Settings.read? (String.ofList s.written).toList = some s := by
    rw [String.toList_ofList,read?_written]
  have loaded : load tree e path = .ok (some c) := by
    rw [load_of_read (read_file [path] rfl rfl) spells,expandPath_plain e rfl (by simp) (by simp),
      loadCorpus_outside "names.toml".toList rfl rfl,described]
    rfl
  have saved : save tree c path = .ok later := rfl
  refine ⟨loaded,saved,(load_resaved loaded saved).mpr
    ⟨expandPath_plain e rfl (by simp) (by simp),?_⟩⟩
  rintro file ⟨⟩ same
  exact absurd same (by decide +kernel)

/-- Loading, saving over the same file and loading again is the same as loading. -/
def Survives (tree : FileTree) (e : Environment) (path : Text) : Prop :=
  ∀ c later, load tree e path = .ok (some c) → save tree c path = .ok later →
    load later e path = .ok (some c)

/-- A dollar sign that is written as two is taken for that of a variable the second time. Names beside the
settings in their own file are not written. -/
theorem not_survives :
    let path := "config.toml".toList
    let e : Environment := { home := "home".toList }
    let single (t : Text) : FileTree := {
      workingDirectory := []
      nodes := [([path],.file (String.ofList t).toUTF8)] }
    ¬Survives (single (written { corpusPath := some "$$HOME".toList, corpus := some {} })) e path ∧
      ¬Survives (single "schema_path = \"config.toml\"\nattributes = [\"word\"]\n".toList) e path := by
  intro path e single
  have saves (t : Text) (c : Settings) : save (single t) c path =
      .ok ((single t).put [path] (.file (String.ofList c.written).toUTF8)) := rfl
  have reads (t : Text) : (single t).read path = .ok t := by
    rw [read_file [path] (show (single t).locate path = .ok [path] from rfl) rfl,String.toList_ofList]
  constructor
  · intro survives
    let s : Settings := { corpusPath := some "$$HOME".toList, corpus := some {} }
    let c : Settings := { s with corpusPath := some "$HOME".toList }
    have once : e.expand? "$$HOME".toList = some "$HOME".toList := by decide +kernel
    have twice : e.expand? "$HOME".toList = some "home".toList := by decide +kernel
    have expanded : expandPath e { s with corpusRead := none } = c := by
      change { s with corpusPath := some ((e.expand? "$$HOME".toList).getD _) } = c
      rw [once]
      rfl
    have loaded : load (single s.written) e path = .ok (some c) := by
      rw [load_of_read (reads _) (read?_written s),expanded,loadCorpus_inside (.inl rfl)]
      rfl
    have again := survives c _ loaded (saves _ c)
    rw [load_eq_of_save (saves _ c) e,loadCorpus_inside (.inl rfl)] at again
    have same : (e.expand? "$HOME".toList).getD "$HOME".toList = "$HOME".toList :=
      Option.some.inj (congrArg corpusPath (Option.some.inj (Except.ok.inj again)))
    rw [twice] at same
    exact absurd same (by simp)
  · intro survives
    let s : Settings := { corpusPath := some path }
    let c : Settings := { s with corpusRead := some { attributes := .ofNames ["word"] } }
    have described : Corpus.load (single "schema_path = \"config.toml\"\nattributes = [\"word\"]\n".toList)
        path = .ok { attributes := .ofNames ["word"] } :=
      corpusLoad_eq_ok.mpr ⟨_,reads _,by decide +kernel⟩
    have loaded : load (single "schema_path = \"config.toml\"\nattributes = [\"word\"]\n".toList) e path =
        .ok (some c) := by
      rw [load_of_read (s := s) (reads _) (by decide +kernel),
        expandPath_plain e rfl (by simp [path]) (by simp [path]),loadCorpus_outside path rfl rfl,described]
      rfl
    have again := survives c _ loaded (saves _ c)
    obtain ⟨_,-,written,-,-⟩ := saved_of_save (saves _ c)
    rw [load_outside_of_save path (saves _ c) rfl rfl e,
      expand?_plain e (by simp [path]) (by simp [path]),Option.getD_some,
      corpusLoad_eq_ok.mpr ⟨_,written,Corpus.read?_written c⟩] at again
    have same : some {} = c.corpusRead := congrArg corpusRead (Option.some.inj (Except.ok.inj again))
    exact absurd same (by decide)

end Settings

end CorpusQuery

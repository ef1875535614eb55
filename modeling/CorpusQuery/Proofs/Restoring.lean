import CorpusQuery.Proofs.Assembly
import CorpusQuery.Settings.Format

/-! Written settings read back: no section is lost, and every text, name and flag is found under its key. -/
namespace CorpusQuery

/-! ### Sorted maps -/

namespace SortedMap

variable {κ α : Type} [LT κ]

theorem ext {m n : SortedMap κ α} (same : m.entries = n.entries) : m = n := by
  cases m
  cases n
  cases same
  rfl

variable [StrictOrder κ]

theorem nodup_keys (m : SortedMap κ α) : m.keys.Nodup := by
  rw [keys,List.Nodup,List.pairwise_map]
  refine m.sorted.imp fun {a b} less same => ?_
  rw [same] at less
  exact StrictOrder.irrefl _ less

variable [DecidableLT κ]

theorem insertEntry_last {key : κ} {value : α} {entries : List (κ × α)}
    (above : ∀ e ∈ entries, e.1 < key) : insertEntry key value entries = entries ++ [(key,value)] := by
  induction entries with
  | nil => rfl
  | cons head entries ih =>
    obtain ⟨first,above⟩ := List.forall_mem_cons.mp above
    have notBefore : ¬key < head.1 := fun before =>
      StrictOrder.irrefl _ (StrictOrder.trans first before)
    rw [insertEntry,if_neg notBefore,if_pos first,ih above,List.cons_append]

theorem foldl_insert (rest : List (κ × α)) (start : SortedMap κ α)
    (sorted : (start.entries ++ rest).Pairwise fun a b => a.1 < b.1) :
    (rest.foldl (fun m e => m.insert e.1 e.2) start).entries = start.entries ++ rest := by
  induction rest generalizing start with
  | nil => simp
  | cons e rest ih =>
    have above : ∀ old ∈ start.entries, old.1 < e.1 := fun old member =>
      (List.pairwise_append.mp sorted).2.2 old member e List.mem_cons_self
    have next : (start.insert e.1 e.2).entries = start.entries ++ [e] := insertEntry_last above
    rw [List.foldl_cons,ih _ (by simpa [next] using sorted),next]
    simp

theorem ofList_entries (m : SortedMap κ α) : ofList m.entries = m :=
  ext (foldl_insert m.entries empty m.sorted)

end SortedMap

theorem NameSet.ofNames_keys (set : NameSet) : NameSet.ofNames set.keys = set := by
  have same : set.keys.map (·,()) = set.entries := by
    rw [SortedMap.keys,List.map_map]
    exact List.map_id _
  rw [NameSet.ofNames,same,SortedMap.ofList_entries]

namespace Settings.Format

open Toml

/-! ### Values -/

theorem mapM_map {α β : Type} {write : α → β} {read : β → Option α}
    (reads : ∀ a, read (write a) = some a) (items : List α) :
    (items.map write).mapM read = some items := by
  induction items with
  | nil => rfl
  | cons a items ih =>
    simp only [List.map_cons,List.mapM_cons,reads,ih,Option.bind_eq_bind,Option.bind_some,
      Option.pure_def]

@[simp] theorem string?_string (s : String) : string? (.string s.toList) = some s := by
  simp [string?,text?]

@[simp] theorem names?_names (set : NameSet) : names? (names set).value = some set := by
  have items : ((set.keys.map String.toList).map Value.string).mapM string? = some set.keys := by
    rw [List.map_map]
    exact mapM_map string?_string set.keys
  simp only [names,Item.value,names?,items,Option.map_some,NameSet.ofNames_keys]

@[simp] theorem dialect?_name (d : Dialect) : dialect? (.string d.name.toList) = some d := by
  cases d <;> rfl

theorem structures?_entries (m : SortedMap String NameSet) (origin : Origin) :
    structures? (.table origin (Section.entries (m.entries.map fun e => pair e.1 (names e.2)))) =
      some m := by
  have each (e : String × NameSet) :
      (fun (name,v) => (names? v).map (String.ofList name,·))
        ((pair e.1 (names e.2)).1,(pair e.1 (names e.2)).2.value) = some e := by
    simp [pair]
  rw [structures?,Section.entries,List.map_map]
  simp only [Function.comp_def]
  rw [mapM_map each,Option.map_some,SortedMap.ofList_entries]

@[simp] theorem orDefault_some {α : Type} (read : Value → Option α) (default : α) (v : Value) :
    orDefault read default (some v) = read v := by
  rw [orDefault]

theorem orDefault_map {α : Type} {read : Value → Option α} {write : α → Value}
    (reads : ∀ a, read (write a) = some a) (o : Option α) :
    orDefault (fun v => (read v).map some) none (o.map write) = some o := by
  cases o with
  | none => rfl
  | some a => simp [reads]

/-! ### Records -/

theorem fits_string (t : Text) : (Value.string t).fits = true := rfl

@[simp] theorem fits_table (origin : Origin) (entries : Entries) :
    (Value.table origin entries).fits = entriesFit entries := rfl

theorem itemsFit_strings (items : List Text) : itemsFit (items.map Value.string) = true := by
  induction items with
  | nil => rfl
  | cons t items ih => simpa [itemsFit,fits_string] using ih

theorem fits_value (item : Item) : item.value.fits = true := by
  cases item with
  | boolean b => rfl
  | text t => exact fits_string t
  | texts items => exact itemsFit_strings items

@[simp] theorem fits_entries (pairs : List (Text × Item)) :
    entriesFit (Section.entries pairs) = true := by
  induction pairs with
  | nil => rfl
  | cons p pairs ih => simpa [Section.entries,entriesFit,fits_value] using ih

@[simp] theorem entriesFit_append (first later : Entries) :
    entriesFit (first ++ later) = (entriesFit first && entriesFit later) := by
  induction first with
  | nil => rfl
  | cons e first ih => rw [List.cons_append,entriesFit,entriesFit,ih,Bool.and_assoc]

theorem entriesFit_filter {entries : Entries} (fit : entriesFit entries = true) (p : Text × Value → Bool) :
    entriesFit (entries.filter p) = true := by
  induction entries with
  | nil => rfl
  | cons e entries ih =>
    obtain ⟨head,rest⟩ := Bool.and_eq_true_iff.mp fit
    rw [List.filter_cons]
    split
    · exact Bool.and_eq_true_iff.mpr ⟨head,ih rest⟩
    · exact ih rest

theorem record?_table (keys : List String) (origin : Origin) {entries : Entries}
    (fit : entriesFit entries = true) :
    record? keys (.table origin entries) = some fun key => entries.find? key.toList :=
  if_pos (entriesFit_filter fit _)

theorem find?_nil (key : Text) : Entries.find? [] key = none := rfl

/-- Keys are compared as they are written. -/
theorem find?_cons (k key : String) (v : Value) (rest : Entries) :
    Entries.find? ((k.toList,v) :: rest) key.toList =
      if key = k then some v else Entries.find? rest key.toList := by
  rw [Entries.find?,List.lookup_cons]
  split
  next same => rw [if_pos (String.toList_inj.mp (eq_of_beq same))]
  next other =>
    rw [if_neg (by rintro rfl; simp at other)]
    rfl

def highlightPairs (s : Settings) : List (Text × Item) :=
  [pair "dialect" (.text s.dialect.name.toList),pair "long_wrap" (.boolean s.wrapLines)]

def wordingPairs (w : Wording) : List (Text × Item) :=
  Wording.fields.map fun part => pair part.key (.text (part.get w).toList)

theorem highlight?_entries (s : Settings) :
    highlight? (.table .header (Section.entries (highlightPairs s))) = some (s.dialect,s.wrapLines) := by
  have dialect : (Section.entries (highlightPairs s)).find? "dialect".toList =
      some (.string s.dialect.name.toList) := by
    simp only [Section.entries,highlightPairs,pair,List.map_cons,find?_cons,if_true,Item.value_text]
  have wrapLines : (Section.entries (highlightPairs s)).find? "long_wrap".toList =
      some (.boolean s.wrapLines) := by
    simp only [Section.entries,highlightPairs,pair,List.map_cons,find?_cons,String.reduceEq,if_true,
      if_false,Item.value_boolean]
  rw [highlight?,record?_table _ _ (fits_entries _)]
  simp only [dialect,wrapLines,orDefault_some,dialect?_name,boolean?,Option.bind_eq_bind,
    Option.bind_some,Option.pure_def]

theorem find?_of_mem {entries : Entries} (distinct : (entries.map Prod.fst).Nodup) {key : Text}
    {v : Value} (member : (key,v) ∈ entries) : entries.find? key = some v := by
  obtain ⟨before,rest,rfl⟩ := List.append_of_mem member
  rw [List.map_append,List.nodup_append] at distinct
  exact Entries.find?_first (fun earlier => distinct.2.2 key earlier key List.mem_cons_self rfl) v rest

theorem nodup_wording (w : Wording) : ((Section.entries (wordingPairs w)).map Prod.fst).Nodup := by
  have keys : (Section.entries (wordingPairs w)).map Prod.fst =
      (Wording.fields.map (·.key)).map String.toList := rfl
  have apart : (Wording.fields.map (·.key)).Nodup := by
    simp [Wording.fields]
  rw [keys,List.Nodup,List.pairwise_map]
  exact apart.imp fun other same => other (String.toList_inj.mp same)

theorem foldlM_set (field : String → Option Value) {w : Wording} {parts : List WordingField}
    (found : ∀ part ∈ parts, field part.key = some (.string (part.get w).toList)) (start : Wording) :
    parts.foldlM (fun acc part =>
      orDefault (fun v => (string? v).map fun s => part.set s acc) acc (field part.key)) start =
    some (parts.foldl (fun acc part => part.set (part.get w) acc) start) := by
  induction parts generalizing start with
  | nil => rfl
  | cons part parts ih =>
    obtain ⟨head,found⟩ := List.forall_mem_cons.mp found
    rw [List.foldlM_cons,head,orDefault_some,string?_string]
    exact ih found (part.set (part.get w) start)

/-- Wording whose parts are all those of another one is that one. -/
theorem foldl_set (w start : Wording) :
    Wording.fields.foldl (fun acc part => part.set (part.get w) acc) start = w := by
  cases w
  simp only [Wording.fields,List.foldl_cons,List.foldl_nil]

theorem wording?_entries (w : Wording) :
    wording? (.table .header (Section.entries (wordingPairs w))) = some w := by
  have found : ∀ part ∈ Wording.fields, (Section.entries (wordingPairs w)).find? part.key.toList =
      some (.string (part.get w).toList) := fun part member =>
    find?_of_mem (nodup_wording w) (by
      simpa [Section.entries,wordingPairs,pair,Item.value] using ⟨part,member,rfl,rfl⟩)
  rw [wording?,record?_table _ _ (fits_entries _),Option.bind_eq_bind,Option.bind_some,
    foldlM_set (fun key => (Section.entries (wordingPairs w)).find? key.toList) found,foldl_set]

def corpusPairs (c : Corpus) : List (Text × Item) :=
  pair "attributes" (names c.attributes) ::
    c.tagAttribute.toList.map fun name => pair "tag_attribute" (.text name.toList)

def structurePairs (c : Corpus) : List (Text × Item) :=
  c.structures.entries.map fun e => pair e.1 (names e.2)

def corpusEntries (c : Corpus) : Entries :=
  Section.entries (corpusPairs c) ++
    [("structures".toList,Value.table .header (Section.entries (structurePairs c)))]

theorem fits_corpus (c : Corpus) : entriesFit (corpusEntries c) = true := by
  simp [corpusEntries,entriesFit]

theorem find?_corpus (c : Corpus) :
    (corpusEntries c).find? "attributes".toList = some (names c.attributes).value ∧
    (corpusEntries c).find? "tag_attribute".toList =
      c.tagAttribute.map (fun name => .string name.toList) ∧
    (corpusEntries c).find? "structures".toList =
      some (.table .header (Section.entries (structurePairs c))) := by
  cases h : c.tagAttribute <;>
    simp only [corpusEntries,corpusPairs,Section.entries,pair,h,Option.toList_none,Option.toList_some,
      Option.map_none,Option.map_some,List.map_cons,List.map_nil,List.cons_append,List.nil_append,
      find?_cons,find?_nil,String.reduceEq,if_true,if_false,Item.value_text,and_self]

theorem corpus?_entries (c : Corpus) : corpus? (.table .header (corpusEntries c)) = some c := by
  obtain ⟨attributes,tagAttribute,structures⟩ := find?_corpus c
  rw [corpus?,record?_table _ _ (fits_corpus c)]
  simp only [attributes,tagAttribute,structures,orDefault_some,orDefault_map string?_string,names?_names,
    structurePairs,structures?_entries,Option.bind_eq_bind,Option.bind_some,Option.pure_def]

def settingsEntries (s : Settings) : Entries :=
  Section.entries (s.corpusPath.toList.map fun path => pair "schema_path" (.text path)) ++
  [("highlight".toList,Value.table .header (Section.entries (highlightPairs s))),
    ("labels".toList,Value.table .header (Section.entries (wordingPairs s.wording)))] ++
  s.corpus.toList.map fun c => ("corpus".toList,Value.table .header (corpusEntries c))

theorem fits_settings (s : Settings) : entriesFit (settingsEntries s) = true := by
  cases h : s.corpus <;> simp [settingsEntries,entriesFit,fits_corpus,h]

theorem find?_settings (s : Settings) :
    (settingsEntries s).find? "schema_path".toList = s.corpusPath.map (.string ·) ∧
    (settingsEntries s).find? "highlight".toList =
      some (.table .header (Section.entries (highlightPairs s))) ∧
    (settingsEntries s).find? "labels".toList =
      some (.table .header (Section.entries (wordingPairs s.wording))) ∧
    (settingsEntries s).find? "corpus".toList =
      s.corpus.map fun c => .table .header (corpusEntries c) := by
  cases h : s.corpusPath <;> cases k : s.corpus <;>
    simp only [settingsEntries,Section.entries,pair,h,k,Option.toList_none,Option.toList_some,
      Option.map_none,Option.map_some,List.map_cons,List.map_nil,List.cons_append,List.nil_append,
      find?_cons,find?_nil,String.reduceEq,if_true,if_false,Item.value_text,and_self]

/-- What was read from a file of its own is no part of written settings. -/
theorem settings?_entries (s : Settings) :
    settings? (.table .header (settingsEntries s)) = some { s with corpusRead := none } := by
  obtain ⟨corpusPath,highlight,labels,corpus⟩ := find?_settings s
  have isText (path : Text) : text? (.string path) = some path := rfl
  rw [settings?,record?_table _ _ (fits_settings s)]
  simp only [corpusPath,highlight,labels,corpus,orDefault_some,orDefault_map isText,
    orDefault_map corpus?_entries,highlight?_entries,wording?_entries,Option.bind_eq_bind,
    Option.bind_some,Option.pure_def]

/-! ### Documents -/

theorem nodup_structures (c : Corpus) : ((structurePairs c).map Prod.fst).Nodup := by
  have keys : (structurePairs c).map Prod.fst = c.structures.keys.map String.toList := by
    simp [structurePairs,SortedMap.keys,pair]
  rw [keys,List.Nodup,List.pairwise_map]
  exact c.structures.nodup_keys.imp fun apart same => apart (String.toList_inj.mp same)

theorem nodup_corpus (c : Corpus) : ((corpusPairs c).map Prod.fst).Nodup := by
  cases h : c.tagAttribute <;> (rw [corpusPairs,h]; simp [pair])

theorem assemble_corpus (opened : List Text) (c : Corpus) {entries : Entries}
    (fresh : "corpus".toList ∉ entries.map Prod.fst) :
    Document.assemble opened entries ((corpusSections c).flatMap Section.lines) =
      some (entries ++ [("corpus".toList,Value.table .header (corpusEntries c))]) := by
  have single : "structures".toList ∉ (Section.entries (corpusPairs c)).map Prod.fst := by
    cases h : c.tagAttribute <;> (rw [corpusPairs,h]; simp [pair,Section.entries])
  have sections : (corpusSections c).flatMap Section.lines =
      Section.lines ⟨["corpus".toList],corpusPairs c⟩ ++
        (Section.lines ⟨["corpus".toList] ++ ["structures".toList],structurePairs c⟩ ++ []) := rfl
  rw [sections,Document.assemble_top opened _ fresh (nodup_corpus c)]
  exact Document.assemble_section (focus_root.header fresh) ["corpus".toList] [] single
    (nodup_structures c)

theorem assemble_tables (s : Settings) {path : Entries}
    (only : ∀ key ∈ path.map Prod.fst, key = "schema_path".toList) :
    Document.assemble [] path
      (Section.lines ⟨["highlight".toList],highlightPairs s⟩ ++
        (Section.lines ⟨["labels".toList],wordingPairs s.wording⟩ ++
          (s.corpus.toList.flatMap corpusSections).flatMap Section.lines)) =
      some (path ++
        [("highlight".toList,Value.table .header (Section.entries (highlightPairs s))),
          ("labels".toList,Value.table .header (Section.entries (wordingPairs s.wording)))] ++
        s.corpus.toList.map fun c => ("corpus".toList,Value.table .header (corpusEntries c))) := by
  have fresh (key : Text) (other : key ≠ "schema_path".toList) : key ∉ path.map Prod.fst :=
    fun member => other (only key member)
  have nodup : ((wordingPairs s.wording).map Prod.fst).Nodup := nodup_wording s.wording
  rw [Document.assemble_top [] _ (fresh _ (by simp)) (by simp [highlightPairs,pair]),
    Document.assemble_top _ _ (by simpa using fresh "labels".toList (by simp)) nodup]
  cases s.corpus with
  | none => simp [Document.assemble]
  | some c =>
    simp only [Option.toList_some,List.flatMap_cons,List.flatMap_nil,List.append_nil]
    rw [assemble_corpus _ c (by simpa using fresh "corpus".toList (by simp))]
    simp

theorem assemble_sections (s : Settings) :
    Document.assemble [] [] ((sections s).flatMap Section.lines) = some (settingsEntries s) := by
  have written : (sections s).flatMap Section.lines =
      (s.corpusPath.toList.flatMap fun path => Section.lines { pairs := [pair "schema_path" (.text path)] }) ++
      (Section.lines ⟨["highlight".toList],highlightPairs s⟩ ++
        (Section.lines ⟨["labels".toList],wordingPairs s.wording⟩ ++
          (s.corpus.toList.flatMap corpusSections).flatMap Section.lines)) := by
    simp [sections,highlightPairs,wordingPairs,List.flatMap_append,List.flatMap_map]
  rw [written,settingsEntries]
  cases s.corpusPath with
  | none => exact assemble_tables s (by simp)
  | some path =>
    have root := Document.assemble_root (Section.lines ⟨["highlight".toList],highlightPairs s⟩ ++
        (Section.lines ⟨["labels".toList],wordingPairs s.wording⟩ ++
          (s.corpus.toList.flatMap corpusSections).flatMap Section.lines))
      (show ([pair "schema_path" (.text path)].map Prod.fst).Nodup by simp)
    simp only [Option.toList_some,List.flatMap_cons,List.flatMap_nil,List.append_nil,List.map_cons,
      List.map_nil]
    exact root.trans (assemble_tables s (by simp [Section.entries,pair]))

theorem length_path_le {s : Settings} {t : Section} (member : t ∈ sections s) : t.path.length ≤ 2 := by
  simp only [sections,List.mem_append,List.mem_map,List.mem_flatMap,List.mem_cons,List.not_mem_nil,
    or_false,corpusSections] at member
  rcases member with (⟨path,-,rfl⟩ | rfl | rfl) | ⟨c,-,rfl | rfl⟩ <;> simp

theorem document_cons (t : Section) (rest : List Section) :
    ∃ more, Section.document (t :: rest) = t.written ++ more := by
  cases rest with
  | nil => exact ⟨[],by simp [Section.document,List.intercalate]⟩
  | cons next rest =>
    exact ⟨'\n' :: Section.document (next :: rest),by simp [Section.document,List.intercalate]⟩

theorem skipMark_written (s : Settings) : Document.skipMark s.written = s.written := by
  have begins : ∃ c rest, s.written = c :: rest ∧ (c = '[' ∨ c = 's') := by
    rw [Settings.written,sections]
    cases s.corpusPath with
    | none =>
      obtain ⟨more,same⟩ := document_cons ⟨["highlight".toList],highlightPairs s⟩ _
      exact ⟨'[',_,same,.inl rfl⟩
    | some path =>
      obtain ⟨more,same⟩ := document_cons ⟨[],[pair "schema_path" (.text path)]⟩ _
      exact ⟨'s',_,same,.inr rfl⟩
  obtain ⟨c,rest,same,rfl | rfl⟩ := begins <;> rw [same] <;> rfl

theorem read_written (s : Settings) : Toml.read s.written = some (settingsEntries s) := by
  have lines := lines_document fun t (member : t ∈ sections s) =>
    (length_path_le member).trans (by decide)
  rw [Toml.read,skipMark_written]
  simp only [Settings.written,lines,Option.bind_some,assemble_sections]

theorem corpus?_settings (s : Settings) : corpus? (.table .header (settingsEntries s)) = some {} := by
  have keys : ∀ key ∈ (settingsEntries s).map Prod.fst,
      ∃ k ∈ ["schema_path","highlight","labels","corpus"], k.toList = key := by
    cases h : s.corpusPath <;> cases k : s.corpus <;> simp [settingsEntries,Section.entries,pair,h,k]
  have missing (key : String) (other : key ∉ ["schema_path","highlight","labels","corpus"]) :
      (settingsEntries s).find? key.toList = none := by
    refine Entries.find?_eq_none fun member => ?_
    obtain ⟨k,isKey,same⟩ := keys _ member
    exact other (String.toList_inj.mp same ▸ isKey)
  have attributes := missing "attributes" (by simp)
  have tagAttribute := missing "tag_attribute" (by simp)
  have structures := missing "structures" (by simp)
  rw [corpus?,record?_table _ _ (fits_settings s)]
  simp only [attributes,tagAttribute,structures,orDefault,Option.bind_eq_bind,Option.bind_some,
    Option.pure_def]

end Settings.Format

open Settings.Format in
theorem Settings.read?_written (s : Settings) :
    Settings.read? s.written = some { s with corpusRead := none } := by
  rw [Settings.read?,read_written,Option.bind_some,settings?_entries]

open Settings.Format in
theorem Corpus.read?_written (s : Settings) : Corpus.read? s.written = some {} := by
  rw [Corpus.read?,read_written,Option.bind_some,corpus?_settings]

end CorpusQuery

import CorpusQuery.Proofs.Lines

/-! The table that the lines of written sections amount to. The table opened last is changed inside those
around it, which stay as they are. -/
namespace CorpusQuery.Toml

def Section.entries (pairs : List (Text × Item)) : Entries := pairs.map fun p => (p.1,p.2.value)

namespace Entries

theorem find?_eq_none {entries : Entries} {key : Text} (fresh : key ∉ entries.map Prod.fst) :
    entries.find? key = none := by
  rw [find?,List.lookup_eq_none_iff]
  rintro ⟨other,v⟩ member
  simpa using fun same : key = other => fresh (same ▸ List.mem_map_of_mem member)

theorem find?_first {entries : Entries} {key : Text} (fresh : key ∉ entries.map Prod.fst) (v : Value)
    (rest : Entries) : (entries ++ (key,v) :: rest).find? key = some v := by
  have missing := find?_eq_none fresh
  rw [find?] at missing ⊢
  rw [List.lookup_append,missing]
  simp

theorem replace_last {entries : Entries} {key : Text} (fresh : key ∉ entries.map Prod.fst)
    (v w : Value) : (entries ++ [(key,v)]).replace key w = entries ++ [(key,w)] := by
  have same : entries.map (fun entry => if entry.1 = key then (key,w) else entry) = entries := by
    refine (List.map_congr_left fun entry member => ?_).trans entries.map_id
    exact if_neg fun (same : entry.1 = key) => fresh (same ▸ List.mem_map_of_mem member)
  simp [replace,same]

theorem within_append (change : Entries → Option Entries) (path more : List Text) (entries : Entries) :
    within change (path ++ more) entries = within (within change more) path entries := by
  induction path generalizing entries with
  | nil => rw [List.nil_append,within]
  | cons key path ih =>
    rw [List.cons_append,within.eq_def,within.eq_def (within change more)]
    simp only [ih]

end Entries

/-- What is at a path is changed in its place, whatever is there. -/
def Focus (path : List Text) (place : Entries → Entries) : Prop :=
  ∀ change sub, Entries.within change path (place sub) = (change sub).map place

theorem focus_root : Focus [] id := fun change sub => by simp [Entries.within]

theorem Focus.header {path : List Text} {place : Entries → Entries} (focus : Focus path place)
    {entries : Entries} {key : Text} (fresh : key ∉ entries.map Prod.fst) :
    Focus (path ++ [key]) fun sub => place (entries ++ [(key,Value.table .header sub)]) := by
  intro change sub
  rw [Entries.within_append,focus,Entries.within,Entries.find?_first fresh]
  simp only [Entries.within,Entries.replace_last fresh,Option.map_map]
  rfl

namespace Document

variable {path : List Text} {place : Entries → Entries}

theorem assemble_pairs (focus : Focus path place) (rest : List Line) {pairs : List (Text × Item)}
    {sub : Entries} (distinct : (sub.map Prod.fst ++ pairs.map Prod.fst).Nodup) :
    assemble path (place sub) (pairs.map (fun p => Line.pair [] p.1 p.2.value) ++ rest) =
      assemble path (place (sub ++ Section.entries pairs)) rest := by
  induction pairs generalizing sub with
  | nil => simp [Section.entries]
  | cons p pairs ih =>
    have fresh : p.1 ∉ sub.map Prod.fst := fun member =>
      (List.nodup_append.mp distinct).2.2 _ member p.1 List.mem_cons_self rfl
    have step : sub.add p.1 p.2.value [] = some (sub ++ [(p.1,p.2.value)]) := by
      simp [Entries.add,Entries.find?_eq_none fresh]
    rw [List.map_cons,List.cons_append,assemble,focus,step]
    have later : ((sub ++ [(p.1,p.2.value)]).map Prod.fst ++ pairs.map Prod.fst).Nodup := by
      simpa using distinct
    simpa [Section.entries] using ih later

theorem assemble_section (focus : Focus path place) (opened : List Text) (rest : List Line)
    {entries : Entries} {key : Text} {pairs : List (Text × Item)}
    (fresh : key ∉ entries.map Prod.fst) (distinct : (pairs.map Prod.fst).Nodup) :
    assemble opened (place entries) (Section.lines ⟨path ++ [key],pairs⟩ ++ rest) =
      assemble (path ++ [key])
        (place (entries ++ [(key,Value.table .header (Section.entries pairs))])) rest := by
  have step : entries.openTable key = some (entries ++ [(key,Value.table .header [])]) := by
    simp [Entries.openTable,Entries.find?_eq_none fresh]
  have filled := assemble_pairs (focus.header fresh) rest
    (show (List.map Prod.fst ([] : Entries) ++ pairs.map Prod.fst).Nodup from distinct)
  have opens := focus (Entries.openTable key) entries
  rw [step] at opens
  simp only [Section.lines,List.getLast?_concat,List.dropLast_concat,Option.toList_some,
    List.map_cons,List.map_nil,List.cons_append,List.nil_append,assemble]
  rw [opens]
  exact filled

theorem assemble_top (opened : List Text) (rest : List Line) {entries : Entries} {key : Text}
    {pairs : List (Text × Item)} (fresh : key ∉ entries.map Prod.fst)
    (distinct : (pairs.map Prod.fst).Nodup) :
    assemble opened entries (Section.lines ⟨[key],pairs⟩ ++ rest) =
      assemble [key] (entries ++ [(key,Value.table .header (Section.entries pairs))]) rest :=
  assemble_section focus_root opened rest fresh distinct

theorem assemble_root (rest : List Line) {pairs : List (Text × Item)}
    (distinct : (pairs.map Prod.fst).Nodup) :
    assemble [] [] (Section.lines { pairs } ++ rest) =
      assemble [] (Section.entries pairs) rest :=
  assemble_pairs focus_root rest (show (List.map Prod.fst ([] : Entries) ++ _).Nodup from distinct)

end Document

end CorpusQuery.Toml

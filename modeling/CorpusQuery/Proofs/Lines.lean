import CorpusQuery.Proofs.Quotation
import CorpusQuery.Toml.Document
import CorpusQuery.Toml.Section

/-! The lines of a written document read back: headers, and pairs of a key and a value. A reader goes from the
start of one line to the start of the next, whatever stands on the lines behind. -/
namespace CorpusQuery.Toml

open Document

def Item.value : Item → Value
  | .boolean b => .boolean b
  | .text t => .string t
  | .texts items => .array false (items.map .string)

@[simp] theorem Item.value_text (t : Text) : (Item.text t).value = .string t := rfl

@[simp] theorem Item.value_boolean (b : Bool) : (Item.boolean b).value = .boolean b := rfl

def Section.lines (s : Section) : List Line :=
  (s.path.getLast?.toList.map (.openTable s.path.dropLast)) ++
    s.pairs.map fun p => Line.pair [] p.1 p.2.value

/-! ### Between elements -/

/-- Something begins here that is no spacing, no comment and no line break. -/
def Begins (t : Text) : Prop :=
  ∃ c rest, t = c :: rest ∧ isSpacing c = false ∧ c ≠ '#' ∧ c ≠ '\n' ∧ c ≠ '\r'

theorem Begins.append {t : Text} (begins : Begins t) (rest : Text) : Begins (t ++ rest) := by
  obtain ⟨c,more,rfl,plain⟩ := begins
  exact ⟨c,more ++ rest,rfl,plain⟩

variable {t : Text}

theorem skipBlanks_begins (begins : Begins t) : skipBlanks t = t := by
  obtain ⟨c,rest,rfl,plain,-⟩ := begins
  exact List.dropWhile_cons_of_neg (by simp [plain])

theorem skipComment?_begins (begins : Begins t) : skipComment? t = some t := by
  obtain ⟨c,rest,rfl,-,noComment,-⟩ := begins
  unfold skipComment?
  split
  next same => exact absurd (List.cons.inj same).1 noComment
  next => rfl

theorem newline?_begins (begins : Begins t) : Quoted.newline? t = none := by
  obtain ⟨c,rest,rfl,-,-,noBreak,noReturn⟩ := begins
  unfold Quoted.newline?
  split
  next same => exact absurd (List.cons.inj same).1 noBreak
  next same => exact absurd (List.cons.inj same).1 noReturn
  next => rfl

theorem skipLines_begins (begins : Begins t) (fuel : Nat) : skipLines fuel t = some t := by
  cases fuel with
  | zero => rfl
  | succ fuel =>
    simp only [skipLines,skipBlanks_begins begins,skipComment?_begins begins,
      newline?_begins begins,Option.bind_eq_bind,Option.bind_some]

theorem skipAll?_begins (begins : Begins t) : skipAll? t = some t := skipLines_begins begins _

theorem skipAll?_newline (t : Text) : skipAll? ('\n' :: t) = skipAll? t := rfl

theorem skipAll?_indented (begins : Begins t) : skipAll? ("    ".toList ++ t) = some t := by
  have indent : "    ".toList = [' ',' ',' ',' '] := by decide
  have blanks : skipBlanks ([' ',' ',' ',' '] ++ t) = t := by
    rw [skipBlanks,List.dropWhile_append_of_pos (by simp [isSpacing])]
    exact skipBlanks_begins begins
  rw [indent]
  change skipLines (t.length + 3 + 1) _ = _
  simp only [skipLines,blanks,skipComment?_begins begins,newline?_begins begins,
    Option.bind_eq_bind,Option.bind_some]

theorem endLine?_newline (t : Text) : endLine? ('\n' :: t) = some t := rfl

/-! ### Keys -/

theorem unquoted_of_head? {c : Char} (plain : c ≠ '"' ∧ c ≠ '\x27') (rest : Text) :
    Unquoted (c :: rest) := by
  rintro d ⟨⟩
  exact plain

/-- A key begins with a character of bare keys or with a quote. -/
theorem key_cases (k : Text) :
    (k ≠ [] ∧ (∀ c ∈ k, isBareKeyChar c = true) ∧ Spelling.key k = k) ∨
    (Spelling.key k = ['"'] ++ Spelling.basic k ++ ['"']) ∨
    ((∀ c ∈ k, isPlain c = true) ∧ '\x27' ∉ k ∧ Spelling.key k = ['\x27'] ++ k ++ ['\x27']) := by
  unfold Spelling.key
  split
  next bare => exact .inl ⟨bare.1,by simpa using bare.2,rfl⟩
  next =>
    cases way : Spelling.onOneLine? k with
    | none => exact .inr (.inl rfl)
    | some q =>
      obtain ⟨suits,rfl | rfl⟩ := suits_onOneLine? way
      · exact .inr (.inl rfl)
      · exact .inr (.inr ⟨suits.1,suits.2,rfl⟩)

theorem key_begins (k : Text) : Begins (Spelling.key k) ∧ (Spelling.key k).head? ≠ some '[' := by
  have bare {c : Char} {w : Text} (same : Spelling.key k = c :: w) (isBare : isBareKeyChar c = true) :
      Begins (Spelling.key k) ∧ (Spelling.key k).head? ≠ some '[' := by
    have ne {d : Char} (other : isBareKeyChar d = false) : c ≠ d := by
      rintro rfl
      simp [isBare] at other
    rw [same]
    refine ⟨⟨c,w,rfl,?_,ne rfl,ne rfl,ne rfl⟩,?_⟩
    · simp [isSpacing,ne (d := ' ') rfl,ne (d := '\t') rfl]
    · simpa using ne rfl
  rcases key_cases k with ⟨nonempty,isBare,same⟩ | same | ⟨-,-,same⟩
  · obtain ⟨c,w,rfl⟩ := List.exists_cons_of_ne_nil nonempty
    exact bare same (isBare c List.mem_cons_self)
  · rw [same]
    exact ⟨⟨'"',_,rfl,by decide⟩,by simp⟩
  · rw [same]
    exact ⟨⟨'\x27',_,rfl,by decide⟩,by simp⟩

theorem keyPart?_key (k : Text) {rest : Text} (ends : ∀ c ∈ rest.head?, isBareKeyChar c = false) :
    keyPart? (Spelling.key k ++ rest) = some (k,rest) := by
  rcases key_cases k with ⟨nonempty,bare,same⟩ | same | ⟨plain,noQuote,same⟩
  · have stops : rest.takeWhile isBareKeyChar = [] := by
      cases rest with
      | nil => rfl
      | cons c rest => exact List.takeWhile_cons_of_neg (by simpa using ends c rfl)
    have taken : (k ++ rest).takeWhile isBareKeyChar = k := by
      rw [List.takeWhile_append_of_pos bare,stops,List.append_nil]
    rw [same]
    unfold keyPart?
    split
    next begins =>
      rw [begins] at taken
      obtain rfl : [] = k := taken
      exact absurd rfl nonempty
    next begins =>
      rw [begins] at taken
      obtain rfl : [] = k := taken
      exact absurd rfl nonempty
    next =>
      simp only [taken,if_neg nonempty,List.drop_left]
  · rw [same,List.append_assoc,List.append_assoc]
    exact basic_append k rest
  · rw [same,List.append_assoc,List.append_assoc]
    exact literal_append plain noQuote rest

theorem dotted_cons (k next : Text) (path : List Text) :
    ['.'].intercalate ((k :: next :: path).map Spelling.key) =
      Spelling.key k ++ '.' :: ['.'].intercalate ((next :: path).map Spelling.key) := by
  simp [List.intercalate]

theorem dotted_begins {path : List Text} (parts : path ≠ []) :
    Begins (['.'].intercalate (path.map Spelling.key)) ∧
      (['.'].intercalate (path.map Spelling.key)).head? ≠ some '[' := by
  obtain ⟨k,path,rfl⟩ := List.exists_cons_of_ne_nil parts
  obtain ⟨begins,noBracket⟩ := key_begins k
  cases path with
  | nil => simpa [List.intercalate] using ⟨begins,noBracket⟩
  | cons next path =>
    rw [dotted_cons]
    refine ⟨begins.append _,?_⟩
    obtain ⟨c,more,same,-⟩ := begins
    rw [same] at noBracket ⊢
    exact noBracket

theorem keyParts_path {path : List Text} (parts : path ≠ []) {count : Nat} (few : path.length ≤ count)
    {rest : Text} (ends : ∀ c ∈ rest.head?, isBareKeyChar c = false)
    (last : ∀ more, skipBlanks rest ≠ '.' :: more) :
    keyParts count (['.'].intercalate (path.map Spelling.key) ++ rest) =
      some (path,skipBlanks rest) := by
  induction path generalizing count with
  | nil => exact absurd rfl parts
  | cons k path ih =>
    obtain ⟨count,rfl⟩ : ∃ n, count = n + 1 := ⟨count - 1,by rw [List.length_cons] at few; omega⟩
    cases path with
    | nil =>
      have single : ['.'].intercalate ([k].map Spelling.key) = Spelling.key k := by
        simp [List.intercalate]
      rw [single,keyParts,keyPart?_key k ends]
      simp only [Option.bind_eq_bind,Option.bind_some]
      rfl
    | cons next path =>
      have more := ih (List.cons_ne_nil next path) (Nat.le_of_succ_le_succ few)
      have begins := (dotted_begins (List.cons_ne_nil next path)).1.append rest
      rw [dotted_cons,List.append_assoc,List.cons_append,keyParts,
        keyPart?_key k (by rintro c ⟨⟩; decide)]
      simp only [Option.bind_eq_bind,Option.bind_some]
      rw [show skipBlanks ('.' :: (_ ++ rest)) = '.' :: (_ ++ rest) from rfl]
      simp only [skipBlanks_begins begins,more,Option.bind_some,Option.pure_def]

/-! ### Values -/

theorem text_begins (t : Text) : Begins (Spelling.text t) ∧
    ((Spelling.text t).head? = some '"' ∨ (Spelling.text t).head? = some '\x27') := by
  unfold Spelling.text
  cases Spelling.quotes t with
  | basic | basicLines => exact ⟨⟨'"',_,rfl,by decide⟩,.inl rfl⟩
  | literal | literalLines => exact ⟨⟨'\x27',_,rfl,by decide⟩,.inr rfl⟩

theorem value_text (t : Text) (fuel depth : Nat) {rest : Text} (ends : Unquoted rest) :
    value (fuel + 1) depth (Spelling.text t ++ rest) = some (.string t,rest) := by
  have reads := read_text t ends
  obtain ⟨⟨c,more,same,-⟩,isQuote⟩ := text_begins t
  rw [same] at reads isQuote ⊢
  rw [List.cons_append] at reads ⊢
  rcases isQuote with isQuote | isQuote
  · obtain rfl := Option.some.inj isQuote
    rw [value,reads]
    rfl
  · obtain rfl := Option.some.inj isQuote
    rw [value,reads]
    rfl

theorem split_scalar {word : Text} (scalar : ∀ c ∈ word, Scalar.isScalarChar c = true) (rest : Text) :
    Scalar.split (word ++ '\n' :: rest) = (word,'\n' :: rest) := by
  induction word with
  | nil => rfl
  | cons c word ih =>
    obtain ⟨scalarHead,scalar⟩ := List.forall_mem_cons.mp scalar
    rw [List.cons_append,Scalar.split,scalarHead,ih scalar]
    rfl

theorem value_word {word : Text} {v : Value} (scalar : ∀ c ∈ word, Scalar.isScalarChar c = true)
    (starts : ∃ c ∈ word.head?, c ∉ ['[','{','"','\x27']) (spells : Scalar.ofSpelling? word = some v)
    (fuel depth : Nat) (rest : Text) :
    value (fuel + 1) depth (word ++ '\n' :: rest) = some (v,'\n' :: rest) := by
  have split := split_scalar scalar rest
  obtain ⟨c,isHead,other⟩ := starts
  obtain ⟨more,rfl⟩ := List.head?_eq_some_iff.mp isHead
  rw [List.cons_append] at split ⊢
  rw [value]
  · simp only [split,spells]
    rfl
  -- no other kind of value begins with this character
  all_goals grind

theorem value_boolean (b : Bool) (fuel depth : Nat) (rest : Text) :
    value (fuel + 1) depth ((Item.boolean b).written ++ '\n' :: rest) =
      some (.boolean b,'\n' :: rest) := by
  have no : (Item.boolean false).written = ['f','a','l','s','e'] := by decide
  have yes : (Item.boolean true).written = ['t','r','u','e'] := by decide
  cases b
  · rw [no]
    exact value_word (by simp [Scalar.isScalarChar,isSpacing]) ⟨'f',rfl,by decide⟩ rfl fuel depth rest
  · rw [yes]
    exact value_word (by simp [Scalar.isScalarChar,isSpacing]) ⟨'t',rfl,by decide⟩ rfl fuel depth rest

/-! ### Arrays -/

theorem bracket_begins (rest : Text) : Begins (']' :: rest) := ⟨']',rest,rfl,by decide⟩

theorem comma_begins (rest : Text) : Begins (',' :: rest) := ⟨',',rest,rfl,by decide⟩

theorem arrayItems_nil (fuel depth : Nat) (rest : Text) :
    arrayItems (fuel + 1) depth (']' :: rest) = some ([],rest) := rfl

theorem arrayItems_text (t : Text) (fuel depth : Nat) {mark : Char} {rest : Text}
    (isMark : mark = ',' ∨ mark = ']') :
    arrayItems (fuel + 2) depth (Spelling.text t ++ mark :: rest) =
      if mark = ',' then
        (skipAll? rest).bind fun left =>
          (arrayItems (fuel + 1) depth left).map fun (items,left) => (.string t :: items,left)
      else some ([.string t],rest) := by
  have ends : Unquoted (mark :: rest) := by
    rintro c ⟨⟩
    rcases isMark with rfl | rfl <;> decide
  have reads := value_text t fuel depth ends
  obtain ⟨⟨c,more,same,-⟩,isQuote⟩ := text_begins t
  have noBracket : c ≠ ']' := by
    rintro rfl
    simp [same] at isQuote
  rw [same,List.cons_append] at reads ⊢
  rw [arrayItems]
  · rcases isMark with rfl | rfl
    · simp only [reads,skipAll?_begins (comma_begins rest),Option.bind_eq_bind,Option.bind_some,
        if_true,Option.map_eq_bind]
      rfl
    · simp only [reads,skipAll?_begins (bracket_begins rest),Option.bind_eq_bind,Option.bind_some]
      rfl
  · rintro left ⟨⟩
    exact noBracket rfl

theorem arrayItems_lines (items : List Text) {fuel : Nat} (depth : Nat) (enough : items.length < fuel)
    (rest : Text) : ∃ start, skipAll? (items.flatMap Item.line ++ ']' :: rest) = some start ∧
      arrayItems fuel depth start = some (items.map .string,rest) := by
  induction items generalizing fuel with
  | nil =>
    obtain ⟨fuel,rfl⟩ : ∃ n, fuel = n + 1 := ⟨fuel - 1,by omega⟩
    exact ⟨_,skipAll?_begins (bracket_begins rest),arrayItems_nil fuel depth rest⟩
  | cons t items ih =>
    rw [List.length_cons] at enough
    obtain ⟨fuel,rfl⟩ : ∃ n, fuel = n + 2 := ⟨fuel - 2,by omega⟩
    obtain ⟨start,skips,reads⟩ := ih (show items.length < fuel + 1 by omega)
    refine ⟨Spelling.text t ++ ',' :: '\n' :: (items.flatMap Item.line ++ ']' :: rest),?_,?_⟩
    · rw [List.flatMap_cons,Item.line]
      simp only [List.append_assoc,List.cons_append,List.nil_append]
      exact skipAll?_indented ((text_begins t).1.append _)
    · rw [arrayItems_text t fuel depth (.inl rfl),if_pos rfl,skipAll?_newline,skips,Option.bind_some,
        reads]
      rfl

theorem value_texts (items : List Text) {fuel : Nat} (depth : Nat) (enough : items.length + 1 < fuel)
    (rest : Text) : value fuel (depth + 1) ((Item.texts items).written ++ rest) =
      some (.array false (items.map .string),rest) := by
  obtain ⟨fuel,rfl⟩ : ∃ n, fuel = n + 2 := ⟨fuel - 2,by omega⟩
  match items with
  | [] => rfl
  | [t] =>
    have begins := (text_begins t).1.append (']' :: rest)
    rw [Item.written,List.append_assoc,List.append_assoc]
    change value (fuel + 2) (depth + 1) ('[' :: (Spelling.text t ++ ']' :: rest)) = _
    obtain ⟨fuel,rfl⟩ : ∃ n, fuel = n + 1 := ⟨fuel - 1,by simp at enough; omega⟩
    rw [value,skipAll?_begins begins,Option.bind_eq_bind,Option.bind_some,
      arrayItems_text t fuel depth (.inr rfl)]
    rfl
  | t :: next :: items =>
    obtain ⟨start,skips,reads⟩ :=
      arrayItems_lines _ depth (show (t :: next :: items).length < fuel + 1 by omega) rest
    rw [Item.written,List.append_assoc,List.append_assoc]
    · change value (fuel + 2) (depth + 1)
        ('[' :: '\n' :: ((t :: next :: items).flatMap Item.line ++ ']' :: rest)) = _
      rw [value,skipAll?_newline,skips,Option.bind_eq_bind,Option.bind_some,reads]
      rfl
    all_goals simp

/-! ### Items -/

theorem item_begins (item : Item) : Begins item.written := by
  match item with
  | .boolean true => exact ⟨'t',_,rfl,by decide⟩
  | .boolean false => exact ⟨'f',_,rfl,by decide⟩
  | .text t => exact (text_begins t).1
  | .texts [] => exact ⟨'[',_,rfl,by decide⟩
  | .texts [t] => exact ⟨'[',_,rfl,by decide⟩
  | .texts (t :: next :: items) => exact ⟨'[',_,rfl,by decide⟩

theorem length_le_lines (items : List Text) : items.length ≤ (items.flatMap Item.line).length := by
  induction items with
  | nil => exact Nat.le_refl 0
  | cons t items ih =>
    have : 0 < (Item.line t).length := by simp [Item.line]
    rw [List.length_cons,List.flatMap_cons,List.length_append]
    omega

theorem length_lt_written (items : List Text) : items.length < (Item.texts items).written.length := by
  have lines := length_le_lines items
  match items with
  | [] => decide
  | [t] => simp [Item.written]
  | t :: next :: items =>
    rw [Item.written]
    · simp only [List.length_append,List.length_cons] at lines ⊢
      omega
    all_goals simp

theorem value_item (item : Item) {fuel : Nat} (depth : Nat) (enough : item.written.length < fuel)
    (rest : Text) : value fuel (depth + 1) (item.written ++ '\n' :: rest) =
      some (item.value,'\n' :: rest) := by
  cases item with
  | boolean b =>
    obtain ⟨fuel,rfl⟩ : ∃ n, fuel = n + 1 := ⟨fuel - 1,by omega⟩
    exact value_boolean b fuel (depth + 1) rest
  | text t =>
    obtain ⟨fuel,rfl⟩ : ∃ n, fuel = n + 1 := ⟨fuel - 1,by omega⟩
    exact value_text t fuel (depth + 1) (unquoted_of_head? (by decide) rest)
  | texts items =>
    have longer := length_lt_written items
    exact value_texts items depth (by omega) _

/-! ### Lines -/

theorem key?_path {path : List Text} (key : Text) (parts : path.length < maxDepth) (rest : Text)
    (ends : ∀ c ∈ rest.head?, isBareKeyChar c = false) (last : ∀ more, skipBlanks rest ≠ '.' :: more) :
    key? (['.'].intercalate ((path ++ [key]).map Spelling.key) ++ rest) =
      some ((path,key),skipBlanks rest) := by
  have few : (path ++ [key]).length ≤ maxDepth := by
    rw [List.length_append]
    exact parts
  rw [key?,keyParts_path (by simp) few ends last]
  simp

theorem line?_of_key {t left more : Text} {path : List Text} {key : Text} {v : Value}
    (noHeader : t.head? ≠ some '[') (isKey : key? t = some ((path,key),'=' :: left))
    (isValue : value (t.length + 1) maxDepth (skipBlanks left) = some (v,more)) :
    line? t = some (.pair path key v,more) := by
  have equals : Scalar.skip? '=' (skipBlanks ('=' :: left)) = some left := rfl
  unfold line?
  split
  · exact absurd rfl noHeader
  · exact absurd rfl noHeader
  · simp only [isKey,equals,isValue,Option.bind_eq_bind,Option.bind_some,Option.pure_def]

theorem line?_pair (p : Text × Item) (rest : Text) :
    line? (Section.pair p ++ rest) = some (.pair [] p.1 p.2.value,'\n' :: rest) := by
  obtain ⟨k,item⟩ := p
  have equals : " = ".toList = [' ','=',' '] := by decide
  have written : Section.pair (k,item) ++ rest =
      Spelling.key k ++ (' ' :: '=' :: ' ' :: (item.written ++ '\n' :: rest)) := by
    simp [Section.pair,equals]
  have single : ['.'].intercalate (([] ++ [k]).map Spelling.key) = Spelling.key k := by
    simp [List.intercalate]
  have isKey := key?_path k (show List.length [] < maxDepth by decide)
    (' ' :: '=' :: ' ' :: (item.written ++ '\n' :: rest)) (by rintro c ⟨⟩; decide)
    (by rintro more ⟨⟩)
  rw [single,← written] at isKey
  refine line?_of_key ?_ isKey ?_
  · obtain ⟨⟨c,more,same,-⟩,noBracket⟩ := key_begins k
    rw [written,same]
    rwa [same] at noBracket
  · have enough : item.written.length < (Section.pair (k,item) ++ rest).length + 1 := by
      simp only [written,List.length_append,List.length_cons]
      omega
    have blank : skipBlanks (' ' :: (item.written ++ '\n' :: rest)) = item.written ++ '\n' :: rest :=
      skipBlanks_begins ((item_begins item).append _)
    rw [blank]
    exact value_item item 79 enough rest

theorem line?_header {path : List Text} (key : Text) (parts : path.length < maxDepth) (rest : Text) :
    line? (Section.header (path ++ [key]) ++ rest) = some (.openTable path key,'\n' :: rest) := by
  obtain ⟨begins,noBracket⟩ := dotted_begins (List.concat_ne_nil key path)
  have isKey := key?_path key parts (']' :: '\n' :: rest) (by rintro c ⟨⟩; decide) (by rintro more ⟨⟩)
  have blank := skipBlanks_begins (begins.append (']' :: '\n' :: rest))
  have written : Section.header (path ++ [key]) ++ rest =
      '[' :: (['.'].intercalate ((path ++ [key]).map Spelling.key) ++ ']' :: '\n' :: rest) := by
    rw [Section.header]
    · simp
    · simp
  obtain ⟨c,more,same,-⟩ := begins
  rw [same] at noBracket
  rw [written,line?]
  · rw [blank,isKey]
    rfl
  · rintro left again
    rw [same] at again
    exact noBracket (congrArg Option.some (List.cons.inj again).1)

/-! ### Documents -/

/-- A text that begins and ends with a line is read as these lines, before those of the text behind it. -/
structure Spells (t : Text) (spelled : List Line) : Prop where
  few : spelled.length ≤ t.length
  reads : ∀ fuel rest,
    lines (fuel + spelled.length) (t ++ rest) = (lines fuel rest).map (spelled ++ ·)

theorem Spells.nil : Spells [] [] := ⟨Nat.le_refl 0,fun fuel rest => by simp⟩

theorem Spells.append {t u : Text} {first later : List Line} (h : Spells t first) (k : Spells u later) :
    Spells (t ++ u) (first ++ later) where
  few := by
    rw [List.length_append,List.length_append]
    exact Nat.add_le_add h.few k.few
  reads fuel rest := by
    have count : fuel + (first ++ later).length = fuel + later.length + first.length := by
      rw [List.length_append]
      omega
    rw [count,List.append_assoc,h.reads,k.reads,Option.map_map]
    congr 1
    funext found
    simp

theorem Spells.flatMap {α : Type} {write : α → Text} {spell : α → List Line} {items : List α}
    (each : ∀ a ∈ items, Spells (write a) (spell a)) :
    Spells (items.flatMap write) (items.flatMap spell) := by
  induction items with
  | nil => exact .nil
  | cons a items ih =>
    obtain ⟨head,each⟩ := List.forall_mem_cons.mp each
    exact head.append (ih each)

theorem spells_blank : Spells ['\n'] [] where
  few := Nat.zero_le _
  reads fuel rest := by
    cases fuel with
    | zero => rfl
    | succ fuel =>
      have skip : skipAll? (['\n'] ++ rest) = skipAll? rest := skipAll?_newline rest
      rw [List.length_nil,Nat.add_zero,lines,lines,skip]
      simp

theorem spells_line {t : Text} {line : Line} (begins : Begins t)
    (reads : ∀ rest, line? (t ++ rest) = some (line,'\n' :: rest)) : Spells t [line] where
  few := by
    obtain ⟨c,more,rfl,-⟩ := begins
    simp
  reads fuel rest := by
    have start := skipAll?_begins (begins.append rest)
    obtain ⟨c,more,same,-⟩ := begins
    rw [List.length_singleton,lines,start]
    simp only [Option.bind_eq_bind,Option.bind_some,Option.pure_def]
    split
    next empty => simp [same] at empty
    next =>
      simp only [reads,Option.bind_some,endLine?_newline,Option.map_eq_bind]
      rfl

theorem spells_pair (p : Text × Item) : Spells (Section.pair p) [.pair [] p.1 p.2.value] := by
  refine spells_line ?_ (line?_pair p)
  rw [Section.pair,List.append_assoc,List.append_assoc]
  exact (key_begins p.1).1.append _

theorem spells_header {path : List Text} (key : Text) (parts : path.length < maxDepth) :
    Spells (Section.header (path ++ [key])) [.openTable path key] := by
  refine spells_line ?_ (line?_header key parts)
  rw [Section.header]
  · exact ⟨'[',_,rfl,by decide⟩
  · simp

theorem spells_section {s : Section} (parts : s.path.length ≤ maxDepth) : Spells s.written s.lines := by
  have pairs : Spells (s.pairs.flatMap Section.pair) (s.pairs.flatMap fun p => [.pair [] p.1 p.2.value]) :=
    .flatMap fun p _ => spells_pair p
  rw [← List.map_eq_flatMap] at pairs
  refine Spells.append ?_ pairs
  rcases List.eq_nil_or_concat s.path with empty | ⟨path,key,same⟩
  · rw [empty]
    exact .nil
  · rw [same] at parts ⊢
    rw [List.length_concat] at parts
    simpa using spells_header key parts

theorem spells_document {sections : List Section} (parts : ∀ s ∈ sections, s.path.length ≤ maxDepth) :
    Spells (Section.document sections) (sections.flatMap Section.lines) := by
  induction sections with
  | nil => exact .nil
  | cons s sections ih =>
    obtain ⟨head,parts⟩ := List.forall_mem_cons.mp parts
    cases sections with
    | nil => simpa [Section.document,List.intercalate] using spells_section head
    | cons next sections =>
      have written : Section.document (s :: next :: sections) =
          s.written ++ (['\n'] ++ Section.document (next :: sections)) := by
        simp [Section.document,List.intercalate]
      rw [written,List.flatMap_cons]
      exact (spells_section head).append (spells_blank.append (ih parts))

theorem lines_document {sections : List Section} (parts : ∀ s ∈ sections, s.path.length ≤ maxDepth) :
    lines ((Section.document sections).length + 1) (Section.document sections) =
      some (sections.flatMap Section.lines) := by
  obtain ⟨few,reads⟩ := spells_document parts
  have all := reads ((Section.document sections).length + 1 - (sections.flatMap Section.lines).length) []
  have finish (fuel : Nat) : lines fuel [] = some [] := by cases fuel <;> rfl
  rw [Nat.sub_add_cancel (by omega),List.append_nil,finish] at all
  simpa using all

end CorpusQuery.Toml

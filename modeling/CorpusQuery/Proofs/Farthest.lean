import CorpusQuery.Proofs.Bracketed
import CorpusQuery.Proofs.Diagnosis

/-! What is said of a text that is refused. Each thing that would have been welcome is said once, the place
is where the last terminal ends that was matched, and a text that is accepted is matched to its end. -/
namespace CorpusQuery

namespace Terminal

/-- May be looked for as itself. The other two go by the name of one that may, in a message. -/
def isSought : Terminal → Bool
  | .attrChars | .regExpEscape => false
  | _ => true

/-- A message has different words for the terminals that may be looked for. -/
theorem eq_of_description {s t : Terminal} (sought : s.isSought = true) (sought' : t.isSought = true)
    (same : s.description = t.description) : s = t := by
  have differ : ((all.filter isSought).map description).Nodup := by decide +kernel
  have member {t : Terminal} (sought : t.isSought = true) : t ∈ all.filter isSought :=
    List.mem_filter.mpr ⟨t.mem_all,sought⟩
  exact List.inj_on_of_nodup_map differ (member sought) (member sought') same

theorem description_ne_endOfInput (t : Terminal) :
    t.description ≠ Expected.endOfInput.description := by
  cases t <;> decide

end Terminal

namespace Expected

def isSought : Expected → Bool
  | .terminal t => t.isSought
  | .endOfInput => true

theorem eq_of_description {x y : Expected} (sought : x.isSought = true) (sought' : y.isSought = true)
    (same : x.description = y.description) : x = y := by
  cases x with
  | terminal s =>
    cases y with
    | terminal t => exact congrArg terminal (Terminal.eq_of_description sought sought' same)
    | endOfInput => exact absurd same s.description_ne_endOfInput
  | endOfInput =>
    cases y with
    | terminal t => exact absurd same.symm t.description_ne_endOfInput
    | endOfInput => rfl

end Expected

namespace Grammar

def Expr.sought : Expr → List Terminal
  | .reject kinds => kinds
  | .token kind _ => [kind]
  | .andThen first second | .orElse first second | .next _ first second => first.sought ++ second.sought
  | .optional body | .attempt body | .many body => body.sought
  | .done | .trivia | .escape | .run _ | .call _ => []

theorem isSought_of_body (r : NonTerminal) : ∀ k ∈ (body r).sought, k.isSought = true := by
  cases r <;> decide

theorem misses_take (tag : Terminal) (n : Nat) (c : Cursor) : (Recognizer.take tag n c).misses = [] := by
  unfold Recognizer.take
  split <;> rfl

theorem misses_token (kind tag : Terminal) (c : Cursor) : (Recognizer.token kind tag c).misses =
    if c.isAt kind then [] else [⟨c.offset,.terminal kind⟩] := by
  unfold Recognizer.token
  split
  · exact misses_take ..
  · rfl

theorem misses_trivia (c : Cursor) : (Recognizer.trivia c).misses = [] := by
  unfold Recognizer.trivia
  split
  next white => rw [misses_token,if_pos white]
  next => rfl

theorem misses_escape (c : Cursor) : (Recognizer.escape c).misses = [] := by
  unfold Recognizer.escape
  split
  · exact misses_take ..
  · rfl

theorem misses_run (stop : Terminal) (c : Cursor) : (Recognizer.run stop c).misses = [] := by
  unfold Recognizer.run
  split
  · rfl
  · exact misses_take ..

theorem misses_reject (kinds : List Terminal) (c : Cursor) :
    ((Recognizer.miss kinds).andThen .reject c).misses = kinds.map fun k => ⟨c.offset,.terminal k⟩ := by
  simp [Recognizer.andThen,Recognizer.miss,Recognizer.reject,Outcome.followedBy]

theorem misses_rule (r : NonTerminal) (p : Recognizer) (c : Cursor) :
    (Recognizer.rule r p c).misses = (p c).misses := by
  simp only [Recognizer.rule]
  split <;> rfl

theorem misses_attempt (p : Recognizer) (c : Cursor) :
    (Recognizer.attempt p c).misses = (p c).misses := by
  simp only [Recognizer.attempt]
  split <;> rfl

theorem Runs.sought {e : Expr} {c : Cursor} {o : Outcome} (h : Runs e c o)
    (sought : ∀ k ∈ e.sought, k.isSought = true) : ∀ m ∈ o.misses, m.expected.isSought = true := by
  have followedBy {o p : Outcome} (first : ∀ m ∈ o.misses, m.expected.isSought = true)
      (second : ∀ m ∈ p.misses, m.expected.isSought = true) :
      ∀ m ∈ (o.followedBy p).misses, m.expected.isSought = true :=
    List.forall_mem_append.mpr ⟨first,second⟩
  induction h with
  | done => simp [Recognizer.done]
  | trivia => simp [misses_trivia]
  | escape => simp [misses_escape]
  | run => simp [misses_run]
  | reject =>
    rw [misses_reject]
    intro m member
    obtain ⟨k,among,rfl⟩ := List.mem_map.mp member
    exact sought k among
  | token =>
    rw [misses_token]
    intro m member
    split at member
    · simp at member
    · rw [List.mem_singleton.mp member]
      exact sought _ List.mem_cons_self
  | call _ ih =>
    rw [misses_rule]
    exact ih (isSought_of_body _)
  | attempt _ ih =>
    rw [misses_attempt]
    exact ih sought
  | andThen _ _ _ ihFirst ihSecond | orElseSecond _ _ _ ihFirst ihSecond =>
    obtain ⟨first,second⟩ := List.forall_mem_append.mp sought
    exact followedBy (ihFirst first) (ihSecond second)
  | manyMore _ _ _ _ ihFirst ihSecond => exact followedBy (ihFirst sought) (ihSecond sought)
  | andThenFails _ _ ih | orElse _ _ ih | nextYes _ _ ih =>
    exact ih (List.forall_mem_append.mp sought).1
  | nextNo _ _ ih => exact ih (List.forall_mem_append.mp sought).2
  | optional _ ih | manyStays _ _ _ ih | manyEnds _ _ ih => exact ih sought

end Grammar

/-! ### The farthest misses -/

namespace SyntaxError

theorem mem_farther {far : Nat × List Expected} {miss : Miss} {n : Nat} (le : far.1 ≤ n)
    (le' : miss.offset ≤ n) (x : Expected) :
    x ∈ (farther far miss).2 ∧ (farther far miss).1 = n ↔
      x ∈ far.2 ∧ far.1 = n ∨ miss.offset = n ∧ miss.expected = x := by
  unfold farther
  split
  next less =>
    have behind : far.1 ≠ n := by omega
    simp [behind,eq_comm,and_comm]
  next notLess =>
    split
    next new =>
      rw [new.1]
      simp only [List.mem_append,List.mem_singleton,or_and_right]
      exact or_congr_right ⟨fun h => ⟨h.2,h.1.symm⟩,fun h => ⟨h.2.symm,h.1⟩⟩
    next old =>
      refine ⟨.inl,fun h => h.elim id fun ⟨here,same⟩ => ?_⟩
      have here : miss.offset = far.1 := by omega
      exact ⟨same ▸ by_contra fun new => old ⟨here,new⟩,by omega⟩

/-- What is welcome at the farthest place is what was missed there. -/
theorem mem_foldl_farther (far : Nat × List Expected) (misses : List Miss) (x : Expected) :
    x ∈ (misses.foldl farther far).2 ↔ x ∈ far.2 ∧ far.1 = (misses.foldl farther far).1 ∨
      ∃ m ∈ misses, m.offset = (misses.foldl farther far).1 ∧ m.expected = x := by
  induction misses generalizing far with
  | nil => simp
  | cons m rest ih =>
    have bounds := (foldl_farther_le_iff far (m :: rest) _).mp (Nat.le_refl _)
    rw [List.foldl_cons] at bounds ⊢
    rw [ih,mem_farther bounds.1 (bounds.2 m List.mem_cons_self)]
    simp only [List.mem_cons,exists_eq_or_imp,or_assoc]

theorem nodup_foldl_farther {far : Nat × List Expected} (nodup : far.2.Nodup) (misses : List Miss) :
    (misses.foldl farther far).2.Nodup := by
  induction misses generalizing far with
  | nil => exact nodup
  | cons m rest ih =>
    apply ih
    unfold farther
    split
    · exact List.nodup_singleton _
    · split
      next new =>
        refine List.nodup_append.mpr ⟨nodup,List.nodup_singleton _,fun x member y last same => ?_⟩
        rw [same,List.mem_singleton.mp last] at member
        exact new.2 member
      next => exact nodup

def enumeration : List String → String
  | [] => "nothing"
  | [name] => name
  | names => "one of " ++ ", ".intercalate names

/-- How a person is told what is expected. -/
def words (e : SyntaxError) : List String := e.expected.map Expected.description

theorem squeeze_of_nodup {names : List String} (nodup : names.Nodup) : squeeze names = names := by
  fun_induction squeeze names with
  | case1 a rest =>
    obtain ⟨new,-⟩ := List.nodup_cons.mp nodup
    exact absurd List.mem_cons_self new
  | case2 a b rest _ ih => rw [ih (List.nodup_cons.mp nodup).2]
  | case3 => rfl

end SyntaxError

/-! ### The error of a parse -/

theorem Text.charAt?_middle {before after t : Text} (split : t = before ++ after) :
    t.charAt? before.byteLength = after.head? := by
  rw [split,charAt?,dropBytes?_append]
  rfl

/-- The misses that decide about the error, with the end of the text where a match ends before it. -/
def Outcome.wishes (o : Outcome) : List Miss :=
  if o.matched then o.misses ++ [⟨o.cursor.offset,.endOfInput⟩] else o.misses

theorem eq_of_error {source : Text} {start : StartRule} {e : SyntaxError}
    (fails : (parse source start).error = some e) :
    e = .ofMisses source (start.recognizer ⟨0,tokenize source⟩).wishes := by
  simp only [parse,Option.ite_none_left_eq_some,Option.some.injEq] at fails
  exact fails.2.symm

theorem mem_expected_of_error {source : Text} {start : StartRule} {e : SyntaxError}
    (fails : (parse source start).error = some e) (x : Expected) : x ∈ e.expected ↔
      ∃ m ∈ (start.recognizer ⟨0,tokenize source⟩).wishes, m.offset = e.offset ∧ m.expected = x := by
  rw [eq_of_error fails]
  exact (SyntaxError.mem_foldl_farther ..).trans (or_iff_right fun h => List.not_mem_nil h.1)

theorem nodup_of_error {source : Text} {start : StartRule} {e : SyntaxError}
    (fails : (parse source start).error = some e) : e.expected.Nodup := by
  rw [eq_of_error fails]
  exact SyntaxError.nodup_foldl_farther List.nodup_nil _

theorem Outcome.Tells.exists_wish {o : Outcome} {c : Cursor} (tells : o.Tells c) :
    ∃ m ∈ o.wishes, m.offset = o.farthest c := by
  unfold wishes
  rcases tells with ⟨matched,stops⟩ | ⟨m,member,last⟩
  · exact ⟨⟨o.cursor.offset,.endOfInput⟩,by simp [matched],stops⟩
  · refine ⟨m,?_,last⟩
    split
    · exact List.mem_append_left _ member
    · exact member

theorem StartRule.isSought_of_wishes (start : StartRule) (c : Cursor) :
    ∀ m ∈ (start.recognizer c).wishes, m.expected.isSought = true := by
  have sought : ∀ k ∈ start.expr.sought, k.isSought = true := by simp [expr,Grammar.Expr.sought]
  have misses := (start.runs_expr c).sought sought
  unfold Outcome.wishes
  split
  · exact List.forall_mem_append.mpr ⟨misses,by simp [Expected.isSought]⟩
  · exact misses

def Event.lastEnd (events : List Event) : Nat :=
  ((Entry.terminals (matched [] events)).map (·.1.stop)).foldr max 0

theorem Event.lastEnd_le_iff (events : List Event) (n : Nat) :
    lastEnd events ≤ n ↔ ∀ x ∈ Entry.terminals (matched [] events), x.1.stop ≤ n := by
  unfold lastEnd
  induction Entry.terminals (matched [] events) with
  | nil => simp
  | cons x rest ih => rw [List.map_cons,List.foldr_cons,Nat.max_le,ih,List.forall_mem_cons]

/-- What is matched ends where the trail has read to. -/
theorem Reading.lastEnd_eq {full : Text} {start : StartRule} (x : Reading full start) :
    Event.lastEnd (parse full start).events = x.ending.reach.offset := by
  have le_iff (n : Nat) : Event.lastEnd (parse full start).events ≤ n ↔
      x.ending.reach.offset ≤ n := by
    rw [Event.lastEnd_le_iff,x.matched_eq,
      ← x.tiles.stop_le_iff (Cursor.in_tokenize full) n (Nat.zero_le n)]
    exact forall_congr' fun y => imp_congr_left (x.mem_terminals y)
  exact Nat.le_antisymm ((le_iff _).mpr (Nat.le_refl _)) ((le_iff _).mp (Nat.le_refl _))

/-- A text is refused where the last terminal ends that was matched. -/
theorem offset_eq_lastEnd {source : Text} {start : StartRule} {e : SyntaxError}
    (fails : (parse source start).error = some e) :
    e.offset = Event.lastEnd (parse source start).events := by
  obtain ⟨x⟩ := reading source start
  rw [offset_of_error fails,x.farthest_eq,x.lastEnd_eq]

theorem Reading.reach_of_accepted {full : Text} {start : StartRule} (x : Reading full start)
    (accepted : (parse full start).error = none) : x.ending.reach.offset = full.byteLength := by
  have matches_ : (start.recognizer ⟨0,tokenize full⟩).matched = true ∧
      (start.recognizer ⟨0,tokenize full⟩).cursor.rest = [] := by
    simpa [parse,Cursor.atEnd] using accepted
  have stops := x.stops
  rw [if_pos matches_.1] at stops
  cases same : x.ending with
  | complete d =>
    rw [same] at stops
    obtain rfl := Option.some.inj stops
    exact x.offset_of_atEnd same matches_.2
  | broken resting f =>
    rw [same] at stops
    exact absurd matches_.2 (x.waits _ f (same.trans (congrArg (Grammar.Ending.broken · f) stops)))

/-- What the error of a refused text says, when the matched terminals of the text end at `place`. -/
structure SyntaxError.PointsAt (e : SyntaxError) (source : Text) (place : Nat) : Prop where
  offset : e.offset = place
  /-- The place is between two characters, or at an end; what is found is the character behind it. -/
  found : ∃ before after, source = before ++ after ∧ e.offset = before.byteLength ∧
    e.found = after.head?
  atEnd : e.found = none ↔ e.offset = source.byteLength
  expects : e.expected ≠ []
  nodup : e.expected.Nodup
  /-- The message has words for each thing that is expected, and repeats none. -/
  message : e.message =
    s!"unexpected {foundMessage e.found} at offset {e.offset}, expected {enumeration e.words}"
  words : e.words.Nodup

/-- The farthest failure of a parse is where the farthest match ends, and a text that is accepted is
matched up to its end. -/
theorem parse_farthest (source : Text) (start : StartRule) :
    match (parse source start).error with
    | some e => e.PointsAt source (Event.lastEnd (parse source start).events)
    | none => Event.lastEnd (parse source start).events = source.byteLength := by
  obtain ⟨x⟩ := reading source start
  cases fails : (parse source start).error with
  | none => exact x.lastEnd_eq.trans (x.reach_of_accepted fails)
  | some e =>
    have offset := offset_eq_lastEnd fails
    obtain ⟨before,split,place⟩ := (x.trail.reach.inside (Cursor.in_tokenize source)).place
    rw [← x.lastEnd_eq,← offset] at place
    generalize Cursor.text x.ending.reach = after at split
    have found : e.found = after.head? := by
      have looked : e.found = source.charAt? e.offset := by rw [eq_of_error fails]; rfl
      rw [looked,place,Text.charAt?_middle split]
    have words : e.words.Nodup := by
      have sought : ∀ y ∈ e.expected, y.isSought = true := by
        intro y member
        obtain ⟨m,among,-,rfl⟩ := (mem_expected_of_error fails y).mp member
        exact start.isSought_of_wishes _ m among
      refine (nodup_of_error fails).map_on fun y inY z inZ same => ?_
      exact Expected.eq_of_description (sought y inY) (sought z inZ) same
    constructor
    · exact offset
    · exact ⟨before,after,split,place,found⟩
    · have size := congrArg Text.byteLength split
      rw [Text.byteLength_append] at size
      rw [found,List.head?_eq_none_iff,place,size,Nat.left_eq_add,Text.byteLength_eq_zero_iff]
    · obtain ⟨m,among,last⟩ :=
        ((start.runs_expr ⟨0,tokenize source⟩).reports.tells start.tells_expr).exists_wish
      have here : m.offset = e.offset := last.trans (CorpusQuery.offset_of_error fails).symm
      exact List.ne_nil_of_mem ((mem_expected_of_error fails _).mpr ⟨m,among,here,rfl⟩)
    · exact nodup_of_error fails
    · have kept : SyntaxError.expectedMessage e.expected = SyntaxError.enumeration e.words :=
        congrArg SyntaxError.enumeration (SyntaxError.squeeze_of_nodup words)
      rw [SyntaxError.message,kept]
    · exact words

end CorpusQuery

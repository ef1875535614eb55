import CorpusQuery.Proofs.Extension
import CorpusQuery.Proofs.Pairs

/-! What is read of an accepted list of pairs when it is put in brackets. Closed it is a position, and that
is the whole query; open it breaks off at the semicolon behind it. Either way the pairs are those of the
list. -/
namespace CorpusQuery

namespace Grammar.Trail

variable {c d f : Cursor} {ending : Ending} {T : List Entry}

theorem not_rBracket_of_attValList (h : Trail (.call .attValList) c (.complete d) T)
    (spaced : c.Spaced) : c.kind?.any [Terminal.rBracket].contains = false := by
  have dark := h.not_blank_of_some rfl rfl rfl
  obtain ⟨k,ahead,starts,-⟩ := h.starts spaced rfl dark (by decide)
  by_contra closes
  have at_ : c.isAt .rBracket = true := by
    unfold Cursor.isAt
    cases kind : c.kind? with
    | none => simp [kind] at closes
    | some k => simpa [kind] using closes
  rw [Cursor.ahead?_of_isAt at_ (by decide)] at ahead
  obtain rfl := Option.some.inj ahead
  revert starts
  decide

/-- In a position, a list of pairs with white space around it is followed by the closing bracket. -/
theorem position (h : Trail StartRule.attValList.expr (c.advance 1) (.complete d) T)
    (spaced : c.Spaced) (opens : c.isAt .lBracket = true) {U : List Entry}
    (closes : Trail (.andThen (Expr.mark .rBracket) .done) d ending U) :
    Trail (body .position) c ending (c.leaf .lBracket 1 :: T ++ U) := by
  obtain ⟨m,T₁,_,white,fromList,rfl⟩ := h.parts_of_andThen
  obtain ⟨k,T₂,T₃,list,white',rfl⟩ := fromList.parts_of_andThen
  have notEmpty := not_rBracket_of_attValList list (white.reach.spaced (spaced.advance 1))
  have path : c.leaf .lBracket 1 :: (T₁ ++ (T₂ ++ T₃)) ++ U =
      [c.leaf .lBracket 1] ++ (T₁ ++ (T₂ ++ (T₃ ++ U))) := by simp
  rw [path]
  exact .andThen (.token opens) <| .andThen white <|
    .andThen (.nextNo notEmpty (.optional list rfl)) <| .andThen white' closes

theorem query_of_broken (h : Trail (body .position) c (.broken none f) T)
    (opens : c.isAt .lBracket = true) : Trail StartRule.query.expr c (.broken none f) T := by
  have dark : c.isAt .whitespace = false := Cursor.not_isAt_of_isAt opens (by decide)
  have ahead : c.kind?.any [Terminal.lBracket].contains = true := by
    simp [Cursor.isAt_iff.mp opens]
  have atom : Trail (.call .atomQuery) c (.broken none f) T :=
    .callBroken (.nextYes ahead (.callBroken h))
  have seq : Trail (.call .seq) c (.broken none f) T :=
    .callBroken (.andThenBroken (.callBroken (.andThenBroken atom)))
  have sequence : Trail (.call .sequence) c (.broken none f) T := .callBroken (.andThenBroken seq)
  exact .andThen (.noTrivia dark) <| .andThenBroken <| .callBroken <|
    .andThen (.noTrivia dark) <| .andThenBroken sequence

theorem query_of_complete (h : Trail (body .position) c (.complete d) T)
    (opens : c.isAt .lBracket = true) (ends : d.isAt .semicolon = true)
    (last : (d.advance 1).isAt .whitespace = false) :
    Trail StartRule.query.expr c (.complete (d.advance 1)) (T ++
      [NonTerminal.position,.atomQuery,.repetition,.seq,.sequence].map (c.branch · d) ++
        [d.leaf .semicolon 1,c.branch .query (d.advance 1)]) := by
  have dark : c.isAt .whitespace = false := Cursor.not_isAt_of_isAt opens (by decide)
  have ahead : c.kind?.any [Terminal.lBracket].contains = true := by
    simp [Cursor.isAt_iff.mp opens]
  have kind : d.kind? = some .semicolon := Cursor.isAt_iff.mp ends
  have white : Trail .trivia d (.complete d) [] :=
    .noTrivia (Cursor.not_isAt_of_isAt ends (by decide))
  -- Nothing goes on at a semicolon.
  have noMore {r : NonTerminal} (broken : Trail (body r) d (.broken none d) []) (e : Grammar.Expr) :
      Trail (.many (.andThen .trivia (.andThen (.call r) e))) d (.complete d) [] :=
    .manyNone (.andThen white (.andThenBroken (.callBroken broken))) blank_nil
  have noAtom : Trail (body .atomQuery) d (.broken none d) [] :=
    .nextNo (by simp [kind]) <| .nextNo (by simp [kind]) <| .nextNo (by simp [kind]) <|
      .nextNo (by simp [kind]) .reject
  have noRepetition : Trail (body .repetition) d (.broken none d) [] :=
    .andThenBroken (.callBroken noAtom)
  have noSeparator (e : Grammar.Expr) : Trail (.many (.andThen .trivia
      (.andThen (Expr.mark .pipe) e))) d (.complete d) [] :=
    .manyNone (.andThen white (.andThenBroken (.noToken (Cursor.not_isAt_of_isAt ends (by decide)))))
      blank_nil
  have noWithin : Trail (body .withinOrContaining) d (.broken none d) [] :=
    .andThen (.nextNo (by simp [kind]) .done) <| .andThenBroken <|
      .orElseSecond (.noToken (Cursor.not_isAt_of_isAt ends (by decide)))
        (.noToken (Cursor.not_isAt_of_isAt ends (by decide)))
  have atom := Trail.call (r := .atomQuery) (.nextYes ahead (.call h))
  have repetition := Trail.call (r := .repetition) (.andThen atom (.nextNo (by simp [kind]) .done))
  have seq := Trail.call (r := .seq) (.andThen repetition (noMore noRepetition .done))
  have sequence := Trail.call (r := .sequence) (.andThen seq (noSeparator _))
  have query := Trail.call (r := .query) (.andThen (.noTrivia dark) <| .andThen sequence <|
    .andThen (noMore noWithin .done) <| .andThen white <| .andThen (.token ends) .done)
  have whole : Trail StartRule.query.expr c (.complete (d.advance 1)) _ :=
    .andThen (.noTrivia dark) (.andThen query (.noTrivia last))
  simpa using whole

end Grammar.Trail

theorem tokenize_lBracket (t : Text) : tokenize ('[' :: t) = ⟨.lBracket,['[']⟩ :: tokenize t := by
  have mark : Token.opening '[' t = .mark := by
    have : isBlank '[' = false ∧ isNameStart '[' = false ∧ Char.isDigit '[' = false ∧
        isForeign '[' = false := by decide
    simp [Token.opening,this]
  rw [tokenize]
  simp only [Token.first,Token.tail,mark]
  rfl

def opened (list : List Entry) : List Entry :=
  (.terminal .lBracket,⟨0,1⟩) :: list.map (Entry.shift · 1)

def closing (n : Nat) : List Entry :=
  (.terminal .rBracket,⟨n,n + 1⟩) ::
    [NonTerminal.position,.atomQuery,.repetition,.seq,.sequence].map
      (fun r => (.nonTerminal r,⟨0,n + 1⟩)) ++
    [(.terminal .semicolon,⟨n + 1,n + 2⟩),(.nonTerminal .query,⟨0,n + 2⟩)]

open Grammar

namespace Reading

theorem offset_of_atEnd {full : Text} {start : StartRule} (x : Reading full start) {d : Cursor}
    (complete : x.ending = .complete d) (atEnd : d.rest = []) : d.offset = full.byteLength := by
  have reaches : Cursor.Reaches ⟨0,tokenize full⟩ d := by simpa [complete] using x.trail.reach
  obtain ⟨before,whole,offset⟩ := (reaches.inside (Cursor.in_tokenize full)).place
  rw [Cursor.text,atEnd,List.flatMap_nil,List.append_nil] at whole
  rw [offset,whole]

variable {t : Text} (x : Reading t .attValList)

include x in
/-- Between a bracket and further tokens, an accepted list is read up to its end. -/
theorem exists_trail (accepted : (parse t .attValList).error = none) {more : List Token}
    (ends : Ends more) (spaced : Cursor.Spaced ⟨0,⟨.lBracket,['[']⟩ :: (tokenize t ++ more)⟩) :
    Trail StartRule.attValList.expr
      (Cursor.advance ⟨0,⟨.lBracket,['[']⟩ :: (tokenize t ++ more)⟩ 1)
      (.complete ⟨t.byteLength + 1,more⟩) (x.path.map (Entry.shift · 1)) := by
  have behind : (Cursor.embed ⟨0,tokenize t⟩ 1 more).Spaced := spaced.advance 1
  obtain ⟨d,atEnd,complete,trail⟩ := x.trail_embed accepted ends behind
  have stop : d.embed 1 more = ⟨t.byteLength + 1,more⟩ := by
    rw [Cursor.embed,atEnd,x.offset_of_atEnd complete atEnd,List.nil_append]
  exact stop ▸ trail

include x in
theorem opened_of_accepted (accepted : (parse t .attValList).error = none)
    (y : Reading ('[' :: t ++ StartRule.query.ending) .query) :
    y.path = opened x.path ∧ y.ending = .broken none ⟨t.byteLength + 1,[⟨.semicolon,[';']⟩]⟩ := by
  have tokens : tokenize ('[' :: t ++ StartRule.query.ending) =
      ⟨.lBracket,['[']⟩ :: (tokenize t ++ [⟨.semicolon,[';']⟩]) := by
    change tokenize ('[' :: (t ++ [';'])) = _
    rw [tokenize_lBracket,Token.tokenize_concat (by decide)]
    rfl
  have spaced := Cursor.spaced_tokenize ('[' :: t ++ StartRule.query.ending)
  have trail := y.trail
  rw [tokens] at spaced trail
  have list := x.exists_trail accepted (by simp [Ends,Terminal.enders]) spaced
  have broken := (list.position spaced rfl (.andThenBroken (.noToken rfl))).query_of_broken rfl
  obtain ⟨ending,path⟩ := broken.unique trail
  refine ⟨path.trans ?_,ending⟩
  simp only [List.append_nil]
  rfl

include x in
theorem closed_of_accepted (accepted : (parse t .attValList).error = none)
    (y : Reading ('[' :: t ++ [']'] ++ StartRule.query.ending) .query) :
    y.path = opened x.path ++ closing (t.byteLength + 1) ∧
      y.ending = .complete ⟨t.byteLength + 3,[]⟩ := by
  have tokens : tokenize ('[' :: t ++ [']'] ++ StartRule.query.ending) =
      ⟨.lBracket,['[']⟩ :: (tokenize t ++ [⟨.rBracket,[']']⟩,⟨.semicolon,[';']⟩]) := by
    change tokenize ('[' :: (t ++ [']'] ++ [';'])) = _
    rw [tokenize_lBracket,Token.tokenize_concat (by decide),Token.tokenize_concat (by decide)]
    simp [Terminal.ofMark]
  have spaced := Cursor.spaced_tokenize ('[' :: t ++ [']'] ++ StartRule.query.ending)
  have trail := y.trail
  rw [tokens] at spaced trail
  have list := x.exists_trail accepted (by simp [Ends,Terminal.enders]) spaced
  have position := list.position spaced rfl (.andThen (.token rfl) .done)
  have complete := position.query_of_complete rfl rfl rfl
  obtain ⟨ending,path⟩ := complete.unique trail
  refine ⟨?_,ending⟩
  rw [path]
  simp only [List.append_nil,List.append_assoc,List.cons_append]
  rfl

end Reading

end CorpusQuery

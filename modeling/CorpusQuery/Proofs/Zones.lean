import CorpusQuery.Proofs.Nesting

/-! Structures seen from left to right. Each symbol of a trail is read outside structures, after the
`<` of one, or after its name; attribute-value pairs are never read between the `<` and the name,
and positions only outside. -/
namespace CorpusQuery

/-- Where reading stands: in no structure, after the `<` of one, or after its name. -/
inductive Zone where
  | outside | opened | named
  deriving DecidableEq

namespace Zone

/-- The zone after a symbol. -/
def after : Zone → Symbol → Zone
  | _,.terminal .lt => opened
  | _,.terminal .gt => outside
  | opened,.nonTerminal .attName => named
  | z,_ => z

def run (z : Zone) (T : List Entry) : Zone := T.foldl (fun z x => z.after x.1) z

@[simp] theorem run_nil (z : Zone) : z.run [] = z := rfl

@[simp] theorem run_append (z : Zone) (T U : List Entry) : z.run (T ++ U) = (z.run T).run U :=
  List.foldl_append

@[simp] theorem run_singleton (z : Zone) (x : Entry) : z.run [x] = z.after x.1 := rfl

/-- The zone after a rule, when the rule may be entered in `z`. -/
def afterRule (z : Zone) : NonTerminal → Option Zone
  | .attName => some (z.after (.nonTerminal .attName))
  | .attVal | .attValAnd | .attValList => if z = opened then none else some z
  | .regExp | .regExpRaw => some z
  | _ => if z = outside then some outside else none

def isBracket (s : Symbol) : Bool := s == .terminal .lt || s == .terminal .gt

/-- What a trail that ends in a zone has read last. -/
def Describes : Zone → List Entry → Prop
  | outside,T => (∀ x ∈ T, isBracket x.1 = false) ∨ ∃ A gt B, T = A ++ (.terminal .gt,gt) :: B ∧
      ∀ x ∈ B, isBracket x.1 = false
  | opened,T => ∃ A lt B, T = A ++ (.terminal .lt,lt) :: B ∧
      ∀ x ∈ B, isBracket x.1 = false ∧ x.1 ≠ .nonTerminal .attName
  | named,T => ∃ A lt B own C, T = A ++ (.terminal .lt,lt) :: B ++ (.nonTerminal .attName,own) :: C ∧
      (∀ x ∈ B, isBracket x.1 = false ∧ x.1 ≠ .nonTerminal .attName) ∧
      ∀ x ∈ C, isBracket x.1 = false

theorem after_eq {z : Zone} {s : Symbol} (plain : isBracket s = false) :
    z.after s = if z = opened ∧ s = .nonTerminal .attName then named else z := by
  unfold after
  split <;> simp_all [isBracket]

theorem Describes.append {z : Zone} {T : List Entry} {x : Entry} (h : z.Describes T)
    (plain : isBracket x.1 = false) (quiet : z = opened → x.1 ≠ .nonTerminal .attName) :
    z.Describes (T ++ [x]) := by
  cases z with
  | outside =>
    rcases h with noBracket | ⟨A,gt,B,rfl,tail⟩
    · exact .inl fun y member => by
        rcases List.mem_append.mp member with old | new
        · exact noBracket y old
        · rwa [List.mem_singleton.mp new]
    · refine .inr ⟨A,gt,B ++ [x],by simp,fun y member => ?_⟩
      rcases List.mem_append.mp member with old | new
      · exact tail y old
      · rwa [List.mem_singleton.mp new]
  | opened =>
    obtain ⟨A,lt,B,rfl,tail⟩ := h
    refine ⟨A,lt,B ++ [x],by simp,fun y member => ?_⟩
    rcases List.mem_append.mp member with old | new
    · exact tail y old
    · rw [List.mem_singleton.mp new]
      exact ⟨plain,quiet rfl⟩
  | named =>
    obtain ⟨A,lt,B,own,C,rfl,middle,tail⟩ := h
    refine ⟨A,lt,B,own,C ++ [x],by simp,middle,fun y member => ?_⟩
    rcases List.mem_append.mp member with old | new
    · exact tail y old
    · rwa [List.mem_singleton.mp new]

theorem describes_run (T : List Entry) : (outside.run T).Describes T := by
  induction T using List.reverseRecOn with
  | nil => exact .inl (by simp)
  | append_singleton T x ih =>
    rw [run_append,run_singleton]
    rcases x with ⟨s,span⟩
    by_cases isLt : s = .terminal .lt
    · subst isLt
      exact ⟨T,span,[],rfl,by simp⟩
    by_cases isGt : s = .terminal .gt
    · subst isGt
      exact .inr ⟨T,span,[],by simp,by simp⟩
    have plain : isBracket s = false := by simp [isBracket,isLt,isGt]
    rw [after_eq plain]
    split
    next both =>
      obtain ⟨isOpened,rfl⟩ := both
      rw [isOpened] at ih
      obtain ⟨A,lt,B,rfl,tail⟩ := ih
      exact ⟨A,lt,B,span,[],by simp,tail,by simp⟩
    next quiet => exact ih.append plain fun isOpened name => quiet ⟨isOpened,name⟩

end Zone

namespace Grammar

/-- The zone after what an expression reads from `z` on, when all rules may be entered. -/
def Expr.zone : Expr → Zone → Option Zone
  | .done,z | .reject _,z | .trivia,z | .escape,z | .run _,z => some z
  | .token _ tag,z => some (z.after (.terminal tag))
  | .call r,z => z.afterRule r
  | .andThen first second,z => (first.zone z).bind second.zone
  | .orElse first second,z | .next _ first second,z =>
    if first.zone z = second.zone z then first.zone z else none
  | .optional body,z | .many body,z => if body.zone z = some z then some z else none
  | .attempt body,z => body.zone z

theorem zone_body {r : NonTerminal} {z z' : Zone} (h : z.afterRule r = some z') :
    ((body r).zone z).map (·.after (.nonTerminal r)) = some z' := by
  revert h
  cases r <;> cases z <;> cases z' <;> decide

variable {e : Expr} {c d : Cursor} {T : List Entry} {r : NonTerminal} {z z' : Zone}

theorem Trail.zone (h : Trail e c (.complete d) T) (sound : e.zone z = some z') :
    z.run T = z' := by
  generalize same : Ending.complete d = ending at h
  induction h generalizing d z z' with
  | done | noTrivia | token | trivia | escape | run =>
    simpa [Expr.zone,Cursor.leaf,Zone.after] using sound
  | call inner ih =>
    obtain ⟨z'',body,rfl⟩ := Option.map_eq_some_iff.mp (zone_body sound)
    rw [Zone.run_append,ih body rfl]
    rfl
  | andThen _ _ ihFirst ihSecond =>
    obtain ⟨m,first,second⟩ := Option.bind_eq_some_iff.mp sound
    rw [Zone.run_append,ihFirst first rfl,ihSecond second same]
  | orElse _ _ ih | nextYes _ _ ih =>
    simp only [Expr.zone,Option.ite_none_right_eq_some] at sound
    exact ih sound.2 same
  | orElseSecond _ _ _ ih | nextNo _ _ ih =>
    simp only [Expr.zone,Option.ite_none_right_eq_some] at sound
    exact ih (sound.1 ▸ sound.2) same
  | optional _ _ ih =>
    simp only [Expr.zone,Option.ite_none_right_eq_some] at sound
    exact ih (sound.1.trans sound.2) same
  | optionalNone | manyNone =>
    simp only [Expr.zone,Option.ite_none_right_eq_some,Option.some.injEq] at sound
    exact sound.2
  | attempt _ ih => exact ih sound same
  | manyMore _ _ ihFirst ihSecond =>
    have body := sound
    simp only [Expr.zone,Option.ite_none_right_eq_some,Option.some.injEq] at body
    rw [Zone.run_append,ihFirst body.1 rfl,ihSecond sound same]
  | reject | noToken | noEscape | noRun | callBroken | callRests | andThenBroken | andThenRests
  | andThenGivesUp | optionalRests | manyRests | manyStops => cases same

theorem Enters.zone {before : List Entry} (h : Enters e c before r d)
    (sound : (e.zone z).isSome = true) : ((z.run before).afterRule r).isSome = true := by
  induction h generalizing z with
  | call => exact sound
  | within _ ih =>
    obtain ⟨z',same⟩ := Option.isSome_iff_exists.mp sound
    have := congrArg Option.isSome (zone_body same)
    exact ih (by simpa using this)
  | first _ ih =>
    refine ih ?_
    cases first : Expr.zone _ z <;> simp_all [Expr.zone]
  | second first _ ih =>
    obtain ⟨z',same⟩ := Option.isSome_iff_exists.mp sound
    obtain ⟨m,here,there⟩ := Option.bind_eq_some_iff.mp same
    rw [Zone.run_append,first.zone here]
    exact ih (by simp [there])
  | orElse _ ih | nextYes _ ih =>
    refine ih ?_
    simp only [Expr.zone] at sound
    split at sound <;> simp_all
  | orElseSecond _ ih | nextNo _ ih =>
    refine ih ?_
    simp only [Expr.zone] at sound
    split at sound <;> simp_all
  | optional _ ih | many _ ih =>
    refine ih ?_
    simp only [Expr.zone] at sound
    split at sound <;> simp_all
  | attempt _ ih => exact ih sound
  | manyMore first _ ih =>
    have body := sound
    simp only [Expr.zone] at body
    split at body
    next stays =>
      rw [Zone.run_append,first.zone stays]
      exact ih sound
    next => simp at body

end Grammar

end CorpusQuery

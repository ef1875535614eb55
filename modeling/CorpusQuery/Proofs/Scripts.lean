import CorpusQuery.Proofs.Programs

/-! Scripts as programs. The steps that a script records are moments of the run of its program, so they keep
its discipline. -/
namespace CorpusQuery.Script

mutual

/-- The program of an instruction, with what is to come after it. -/
def Op.program : Op → (Bool → Program) → Program
  | .act _ action optional,next => .act action fun matched => next (matched || optional)
  | .look _ _,next => next true
  | .rule _ r body optional,next => .group (some r) (program body) fun matched => next (matched || optional)
  | .attempt _ body optional,next => .group none (program body) fun matched => next (matched || optional)

def program : List Op → Program
  | [] => .stop true
  | op :: rest => op.program fun matched => if matched then program rest else .stop false

end

variable {tokens : List Token}

mutual

theorem Op.run_program (op : Op) (next : Bool → Program) (c : Cursor) :
    (op.program next).run tokens c = (op.run tokens c).outcome.followedBy
      ((next (op.run tokens c).outcome.matched).run tokens (op.run tokens c).outcome.cursor) := by
  cases op with
  | act label action optional => rfl
  | look label ahead =>
    simp [Op.program,Op.run,Recognizer.done,Outcome.followedBy]
  | rule label r body optional =>
    simp only [Op.program,Program.run,enclose,Op.run,Run.close,Recognizer.rule,run_program body c]
    rfl
  | attempt label body optional =>
    simp only [Op.program,Program.run,enclose,Op.run,Run.close,Recognizer.attempt,run_program body c]
    rfl

theorem run_program (ops : List Op) (c : Cursor) :
    (program ops).run tokens c = (runAll tokens ops c).outcome := by
  cases ops with
  | nil => rfl
  | cons op rest =>
    rw [program,op.run_program]
    cases matched : (op.run tokens c).outcome.matched with
    | true => simp [runAll,matched,run_program rest]
    | false =>
      have idle (o : Outcome) : o.followedBy ⟨o.matched,o.cursor,[],[]⟩ = o := by
        simp [Outcome.followedBy]
      simpa [runAll,matched,Program.run] using idle (op.run tokens c).outcome

end

theorem enclose_program (name : Option NonTerminal) (ops : List Op) (c : Cursor) :
    enclose name ((program ops).run tokens) c =
      enclose name (fun _ => (runAll tokens ops c).outcome) c := by
  cases name with
  | none => simp only [enclose,Recognizer.attempt,run_program]
  | some r => simp only [enclose,Recognizer.rule,run_program]

theorem leads_group (name : Option NonTerminal) (ops : List Op) (next : Bool → Program) (c : Cursor)
    (past : List Event) : Moment.Leads tokens ⟨.group name (program ops) next,c,past⟩
      (.after past (enclose name (fun _ => (runAll tokens ops c).outcome) c) next) :=
  enclose_program name ops c ▸ .single .leave

theorem Op.leads (op : Op) (next : Bool → Program) (c : Cursor) (past : List Event) :
    Moment.Leads tokens ⟨op.program next,c,past⟩ (.after past (op.run tokens c).outcome next) := by
  cases op with
  | act => exact .single .act
  | look label ahead =>
    simpa [Op.program,Op.run,Recognizer.done,Moment.after] using Relation.ReflTransGen.refl
  | rule label r body optional => exact leads_group (some r) body _ c past
  | attempt label body optional => exact leads_group none body _ c past

/-- The steps of a group are those of its body, and one behind it. -/
theorem moment_of_group (name : Option NonTerminal) {ops : List Op} (next : Bool → Program) {c : Cursor}
    {past : List Event} {label own : String} {d : Cursor} {matched : Bool}
    (member : .ran label d matched ∈ (runAll tokens ops c).steps ++
      [.ran own (enclose name (fun _ => (runAll tokens ops c).outcome) c).cursor
        (enclose name (fun _ => (runAll tokens ops c).outcome) c).matched])
    (inner : .ran label d matched ∈ (runAll tokens ops c).steps →
      ∃ m, Moment.Leads tokens ⟨program ops,c,past ++ entering name c⟩ m ∧ m.cursor = d) :
    ∃ m, Moment.Leads tokens ⟨.group name (program ops) next,c,past⟩ m ∧ m.cursor = d := by
  rcases List.mem_append.mp member with inBody | last
  · obtain ⟨m,leads,place⟩ := inner inBody
    exact ⟨m,.head .enter leads,place⟩
  · obtain ⟨-,rfl,-⟩ := Step.ran.inj (List.mem_singleton.mp last)
    exact ⟨_,leads_group name ops next c past,rfl⟩

mutual

theorem Op.moment_of_ran (op : Op) (next : Bool → Program) (c : Cursor) (past : List Event)
    {label : String} {d : Cursor} {matched : Bool}
    (member : .ran label d matched ∈ (op.run tokens c).steps) :
    ∃ m, Moment.Leads tokens ⟨op.program next,c,past⟩ m ∧ m.cursor = d := by
  cases op with
  | act own action optional =>
    obtain ⟨-,rfl,-⟩ := Step.ran.inj (List.mem_singleton.mp member)
    exact ⟨_,.single .act,rfl⟩
  | look own ahead => simp [Op.run] at member
  | rule own r body optional =>
    exact moment_of_group (some r) _ member fun inBody => moment_of_ran body c _ inBody
  | attempt own body optional =>
    exact moment_of_group none _ member fun inBody => moment_of_ran body c _ inBody

theorem moment_of_ran (ops : List Op) (c : Cursor) (past : List Event) {label : String} {d : Cursor}
    {matched : Bool} (member : .ran label d matched ∈ (runAll tokens ops c).steps) :
    ∃ m, Moment.Leads tokens ⟨program ops,c,past⟩ m ∧ m.cursor = d := by
  cases ops with
  | nil => simp [runAll] at member
  | cons op rest =>
    rw [program]
    cases goesOn : (op.run tokens c).outcome.matched with
    | false =>
      simp only [runAll,goesOn] at member
      exact op.moment_of_ran _ c past member
    | true =>
      simp only [runAll,goesOn,if_true] at member
      rcases List.mem_append.mp member with first | later
      · exact op.moment_of_ran _ c past first
      · obtain ⟨m,leads,place⟩ :=
          moment_of_ran rest _ (past ++ (op.run tokens c).outcome.events) later
        refine ⟨m,(op.leads _ c past).trans ?_,place⟩
        rwa [Moment.after,goesOn,if_pos rfl]

end

/-- A step that a script records is at a token of the text or at its end, and some part of the trace covers
each byte before it. -/
theorem covered_of_ran (ops : List Op) (source : Text) {label : String} {d : Cursor} {matched : Bool}
    (member : .ran label d matched ∈
      (runAll (tokenize source) ops ⟨0,tokenize source⟩).steps) :
    (∃ n ≤ (tokenize source).length, d = Cursor.nth (tokenize source) n) ∧
      ∃ events, events <+: (runAll (tokenize source) ops ⟨0,tokenize source⟩).outcome.events ∧
        ∀ n < d.offset, Event.Covers events n := by
  obtain ⟨m,leads,rfl⟩ := moment_of_ran ops _ [] member
  refine ⟨(Moment.Leads.on leads Cursor.on_start).exists_nth,m.events,?_,?_⟩
  · rw [← run_program]
    exact (List.prefix_append ..).trans leads.trace
  · exact leads.covers Cursor.on_start fun _ before => absurd before (Nat.not_lt_zero _)

end CorpusQuery.Script

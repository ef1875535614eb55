import CorpusQuery.Proofs.Consistency
import CorpusQuery.Proofs.Cutting
import Mathlib.Data.List.Infix

/-! What follows some first tokens of a text does not change the terminals among them. Two runs that
see the same tokens do the same up to where one of them looks at a later one; by then every byte of the
shared tokens has its terminal in both, and no reading takes a terminal back. -/
namespace CorpusQuery

def Span.Covers (s : Span) (n : Nat) : Prop := s.start ≤ n ∧ n < s.stop

namespace Event

/-- A terminal is matched somewhere in a trace. -/
def Shows (events : List Event) (x : Span × Terminal) : Prop :=
  [.enter (.terminal x.2) x.1.start,.leave x.1.stop] <:+: events

theorem Shows.mem_matched {events : List Event} {x : Span × Terminal} (h : Shows events x) :
    x ∈ Entry.terminals (matched [] events) := by
  obtain ⟨before,after,rfl⟩ := h
  obtain ⟨still,split⟩ := matched_append [] before ([_,_] ++ after)
  rw [Entry.mem_terminals,List.append_assoc,split]
  exact List.mem_append_right _ (by simp [matched])

inductive Common (stop n : Nat) (first second : List Event) : Prop where
  | both (x : Span × Terminal) : x.1.Covers n → Shows first x → Shows second x →
      Common stop n first second
  | past (x y : Span × Terminal) : x.1.Covers n → stop ≤ x.1.stop → Shows first x →
      y.1.Covers n → stop ≤ y.1.stop → Shows second y → Common stop n first second

def Covered (stop low high : Nat) (first second : List Event) : Prop :=
  ∀ n, low ≤ n → n < high → Common stop n first second

namespace Covered

variable {stop low mid high : Nat} {first second first' second' : List Event}

theorem empty : Covered stop low low first second := fun _ le lt => absurd lt (Nat.not_lt.mpr le)

theorem mono (h : Covered stop low high first second) (more : first <:+: first')
    (more' : second <:+: second') : Covered stop low high first' second' := by
  intro n le lt
  cases h n le lt with
  | both x covers shown shown' => exact .both x covers (shown.trans more) (shown'.trans more')
  | past x y covers far shown covers' far' shown' =>
    exact .past x y covers far (shown.trans more) covers' far' (shown'.trans more')

theorem join (h : Covered stop low mid first second) (next : Covered stop mid high first second) :
    Covered stop low high first second := by
  intro n le lt
  by_cases before : n < mid
  · exact h n le before
  · exact next n (Nat.le_of_not_lt before) lt

end Covered

end Event

open Event

/-- The next `k` tokens are the same from two cursors on, which are at the same offset. -/
structure Cursor.Shares (k : Nat) (c d : Cursor) : Prop where
  offset : d.offset = c.offset
  ahead : d.rest.take k = c.rest.take k
  fits : k ≤ c.rest.length

namespace Cursor.Shares

variable {k n : Nat} {c d : Cursor}

theorem fits' (h : c.Shares k d) : k ≤ d.rest.length := by
  have length := congrArg List.length h.ahead
  simp only [List.length_take] at length
  have := h.fits
  omega

theorem symm (h : c.Shares k d) : d.Shares k c := ⟨h.offset.symm,h.ahead.symm,h.fits'⟩

theorem take_eq (h : c.Shares k d) (le : n ≤ k) : d.rest.take n = c.rest.take n := by
  have same := congrArg (List.take n) h.ahead
  rwa [List.take_take,List.take_take,Nat.min_eq_left le] at same

theorem offset_advance (h : c.Shares k d) (le : n ≤ k) : (d.advance n).offset = (c.advance n).offset := by
  simp only [Cursor.advance,h.offset,h.take_eq le]

theorem advance (h : c.Shares k d) (le : n ≤ k) : (c.advance n).Shares (k - n) (d.advance n) where
  offset := h.offset_advance le
  ahead := by
    have same := congrArg (List.drop n) h.ahead
    rwa [List.drop_take,List.drop_take] at same
  fits := by
    have := h.fits
    simp only [rest_advance,List.length_drop]
    omega

theorem kindAt?_eq (h : c.Shares k d) (lt : n < k) : d.kindAt? n = c.kindAt? n := by
  have same := congrArg (fun tokens : List Token => tokens[n]?) h.ahead
  simp only [List.getElem?_take_of_lt lt] at same
  rw [kindAt?,kindAt?,same]

theorem kind?_eq (h : c.Shares k d) (pos : 0 < k) : d.kind? = c.kind? := h.kindAt?_eq pos

theorem isAt_eq (h : c.Shares k d) (pos : 0 < k) (kind : Terminal) : d.isAt kind = c.isAt kind := by
  rw [isAt,isAt,h.kind?_eq pos]

end Cursor.Shares

/-- What two runs that see the same `k` tokens come to. -/
inductive Outcome.Alike (k : Nat) (c d : Cursor) (o p : Outcome) : Prop where
  /-- They have done the same, and none has looked further. -/
  | agree (n : Nat) : n ≤ k → p.matched = o.matched → o.cursor = c.advance n →
      p.cursor = d.advance n → p.events = o.events →
      Covered (c.advance k).offset c.offset (c.advance n).offset o.events p.events → Alike k c d o p
  /-- They may have parted, with all the shared tokens in terminals. -/
  | part : Covered (c.advance k).offset c.offset (c.advance k).offset o.events p.events →
      Alike k c d o p

namespace Outcome.Alike

variable {k n : Nat} {c d : Cursor} {o p o' p' : Outcome}

theorem of_zero (o p : Outcome) : Alike 0 c d o p := by
  apply part
  rw [Cursor.advance_zero]
  exact .empty

theorem start (matched : p.matched = o.matched) (here : o.cursor = c) (here' : p.cursor = d)
    (events : p.events = o.events) : Alike k c d o p :=
  .agree 0 (Nat.zero_le k) matched (by simpa using here) (by simpa using here') events
    (by rw [Cursor.advance_zero]; exact .empty)

theorem infix_followedBy (o p : Outcome) : o.events <:+: (o.followedBy p).events :=
  (List.prefix_append ..).isInfix

theorem followedBy (h : Alike k c d o p) (shares : c.Shares k d)
    (next : ∀ j, o.cursor.Shares j p.cursor → Alike j o.cursor p.cursor o' p') :
    Alike k c d (o.followedBy o') (p.followedBy p') := by
  have before {high : Nat} (h : Covered (c.advance k).offset c.offset high o.events p.events) :
      Covered (c.advance k).offset c.offset high (o.followedBy o').events (p.followedBy p').events :=
    h.mono (infix_followedBy ..) (infix_followedBy ..)
  have after {low high : Nat} (h : Covered (c.advance k).offset low high o'.events p'.events) :
      Covered (c.advance k).offset low high (o.followedBy o').events (p.followedBy p').events :=
    h.mono (List.suffix_append ..).isInfix (List.suffix_append ..).isInfix
  cases h with
  | part covered => exact .part (before covered)
  | agree n le _ here here' events covered =>
    have stop : (c.advance n).advance (k - n) = c.advance k := by
      rw [Cursor.advance_advance,Nat.add_sub_of_le le]
    rw [here,here'] at next
    cases next (k - n) (shares.advance le) with
    | part covered' =>
      rw [stop] at covered'
      exact .part ((before covered).join (after covered'))
    | agree m le' matched here here' events' covered' =>
      rw [stop,Cursor.advance_advance] at covered'
      rw [Cursor.advance_advance] at here here'
      refine .agree (n + m) (by omega) matched here here' ?_ ((before covered).join (after covered'))
      simp only [Outcome.followedBy,events,events']

theorem of_unlike (h : Alike k c d o p) {matched : Bool} (first : o.matched = matched)
    (second : p.matched = !matched) (more : o.events <:+: o'.events)
    (more' : p.events <:+: p'.events) : Alike k c d o' p' := by
  cases h with
  | part covered => exact .part (covered.mono more more')
  | agree _ _ same =>
    rw [first,second] at same
    cases matched <;> cases same

theorem of_apart (h : Alike k c d o p) (shares : c.Shares k d)
    (apart : ¬(p.cursor.rest.length < d.rest.length ↔ o.cursor.rest.length < c.rest.length))
    (more : o.events <:+: o'.events) (more' : p.events <:+: p'.events) : Alike k c d o' p' := by
  cases h with
  | part covered => exact .part (covered.mono more more')
  | agree n le _ here here' =>
    refine absurd ?_ apart
    have := shares.fits
    have := shares.fits'
    rw [here,here']
    simp only [Cursor.rest_advance,List.length_drop]
    omega

theorem rule (h : Alike k c d o p) (shares : c.Shares k d) (r : NonTerminal) :
    Alike k c d (Recognizer.rule r (fun _ => o) c) (Recognizer.rule r (fun _ => p) d) := by
  have inside (o : Outcome) (c : Cursor) :
      o.events <:+: (Recognizer.rule r (fun _ => o) c).events := by
    have wrapped (enter leave : Event) : o.events <:+: enter :: o.events ++ [leave] :=
      ⟨[enter],[leave],by simp⟩
    simp only [Recognizer.rule]
    split <;> exact wrapped _ _
  cases h with
  | part covered => exact .part (covered.mono (inside o c) (inside p d))
  | agree n le matched here here' events covered =>
    cases ends : o.matched with
    | true =>
      refine .agree n le ?_ ?_ ?_ ?_ (covered.mono (inside o c) (inside p d))
      all_goals simp only [Recognizer.rule,ends,matched,if_true]
      · exact here
      · exact here'
      · rw [events,here,here',shares.offset_advance le,shares.offset]
    | false =>
      refine start ?_ ?_ ?_ ?_
      all_goals simp only [Recognizer.rule,ends,matched,Bool.false_eq_true,if_false]
      rw [events,shares.offset]

theorem restart (h : Alike k c d o p) (matched : Bool) :
    Alike k c d { o with matched, cursor := c } { p with matched, cursor := d } := by
  cases h with
  | part covered => exact .part covered
  | agree _ _ _ _ _ events => exact start rfl rfl rfl events

theorem attempt (h : Alike k c d o p) :
    Alike k c d (Recognizer.attempt (fun _ => o) c) (Recognizer.attempt (fun _ => p) d) := by
  have same (o : Outcome) (c : Cursor) : (Recognizer.attempt (fun _ => o) c).events = o.events := by
    simp only [Recognizer.attempt]
    split <;> rfl
  cases h with
  | part covered =>
    apply part
    rwa [same,same]
  | agree n le matched here here' events covered =>
    cases ends : o.matched with
    | true =>
      simp only [Recognizer.attempt,ends,matched,if_true]
      exact .agree n le matched here here' events covered
    | false =>
      simp only [Recognizer.attempt,ends,matched,Bool.false_eq_true,if_false]
      exact start (matched.trans ends ▸ rfl) rfl rfl events

/-- A terminal of as many tokens in both runs, or one that takes all the shared tokens in each. -/
theorem take (shares : c.Shares k d) {m n : Nat} (tag : Terminal) (nonzero : m ≠ 0) (nonzero' : n ≠ 0)
    (fits : m ≤ c.rest.length) (fits' : n ≤ d.rest.length) (h : m = n ∧ n ≤ k ∨ k ≤ m ∧ k ≤ n) :
    Alike k c d (Recognizer.take tag m c) (Recognizer.take tag n d) := by
  have farther {c : Cursor} {m n : Nat} (le : m ≤ n) : (c.advance m).offset ≤ (c.advance n).offset := by
    obtain ⟨j,rfl⟩ := Nat.exists_eq_add_of_le le
    rw [← Cursor.advance_advance]
    exact (Cursor.reaches_advance ..).offset_le
  rw [Recognizer.take_eq tag nonzero fits,Recognizer.take_eq tag nonzero' fits']
  rcases h with ⟨rfl,le⟩ | ⟨le,le'⟩
  · refine .agree m le rfl rfl rfl ?_ fun b low high => ?_
    · rw [shares.offset,shares.offset_advance le]
    · refine .both (⟨c.offset,(c.advance m).offset⟩,tag) ⟨low,high⟩ (List.infix_refl _) ?_
      rw [shares.offset,shares.offset_advance le]
      exact List.infix_refl _
  · refine .part fun b low high => ?_
    have far := farther (c := c) le
    have far' := farther (c := d) le'
    rw [shares.offset_advance (Nat.le_refl k)] at far'
    exact .past (⟨c.offset,(c.advance m).offset⟩,tag) (⟨d.offset,(d.advance n).offset⟩,tag)
      ⟨low,high.trans_le far⟩ far (List.infix_refl _)
      ⟨shares.offset ▸ low,high.trans_le far'⟩ far' (List.infix_refl _)

theorem token (shares : c.Shares k d) (kind tag : Terminal) :
    Alike k c d (Recognizer.token kind tag c) (Recognizer.token kind tag d) := by
  rcases Nat.eq_zero_or_pos k with rfl | pos
  · exact of_zero ..
  have same := shares.isAt_eq pos kind
  cases at_ : c.isAt kind with
  | true =>
    rw [at_] at same
    simp only [Recognizer.token,at_,same,if_true]
    exact take shares tag Nat.one_ne_zero Nat.one_ne_zero (Cursor.one_le_of_isAt at_)
      (Cursor.one_le_of_isAt same) (.inl ⟨rfl,pos⟩)
  | false =>
    rw [at_] at same
    simp only [Recognizer.token,at_,same,Bool.false_eq_true,if_false]
    exact start rfl rfl rfl (by rw [shares.offset])

theorem trivia (shares : c.Shares k d) :
    Alike k c d (Recognizer.trivia c) (Recognizer.trivia d) := by
  rcases Nat.eq_zero_or_pos k with rfl | pos
  · exact of_zero ..
  simp only [Recognizer.trivia,shares.isAt_eq pos]
  split
  · exact token shares ..
  · exact start rfl rfl rfl rfl

/-- When a backslash is the last shared token, one run may take another token with it. -/
theorem escape (shares : c.Shares k d) :
    Alike k c d (Recognizer.escape c) (Recognizer.escape d) := by
  rcases Nat.eq_zero_or_pos k with rfl | pos
  · exact of_zero ..
  have same := shares.isAt_eq pos .backslash
  cases at_ : c.isAt .backslash with
  | true =>
    rw [at_] at same
    simp only [Recognizer.escape,at_,same,if_true]
    refine take shares _ (by split <;> simp) (by split <;> simp) (Grammar.escape_fits at_)
      (Grammar.escape_fits same) ?_
    by_cases more : 1 < k
    · rw [shares.kindAt?_eq more]
      refine .inl ⟨rfl,?_⟩
      split <;> omega
    · refine .inr ⟨?_,?_⟩ <;> split <;> omega
  | false =>
    rw [at_] at same
    simp only [Recognizer.escape,at_,same,Bool.false_eq_true,if_false]
    exact start rfl rfl rfl rfl

/-- A run that takes all the shared tokens may go on differently. -/
theorem run (shares : c.Shares k d) (stop : Terminal) :
    Alike k c d (Recognizer.run stop c) (Recognizer.run stop d) := by
  rcases Nat.eq_zero_or_pos k with rfl | pos
  · exact of_zero ..
  have same := congrArg (Recognizer.runLength stop) shares.ahead
  rw [Grammar.runLength_take,Grammar.runLength_take] at same
  unfold Recognizer.run
  rcases eq_or_ne (Recognizer.runLength stop c.rest) 0 with zero | nonzero
  · have zero' : Recognizer.runLength stop d.rest = 0 := by omega
    simp only [zero,zero',if_true]
    exact start rfl rfl rfl rfl
  · have nonzero' : Recognizer.runLength stop d.rest ≠ 0 := by omega
    simp only [nonzero,nonzero',if_false]
    exact take shares _ nonzero nonzero' (Grammar.runLength_le ..) (Grammar.runLength_le ..) (by omega)

end Outcome.Alike

namespace Grammar

open Outcome Outcome.Alike

/-- Two runs of an expression that see the same tokens are alike. -/
theorem Runs.alike {e : Expr} {c d : Cursor} {k : Nat} {o p : Outcome} (h : Runs e c o)
    (h' : Runs e d p) (shares : c.Shares k d) : Alike k c d o p := by
  induction h generalizing d p k with
  | done =>
    cases h'
    exact .start rfl rfl rfl rfl
  | reject =>
    cases h'
    exact .start rfl rfl rfl rfl
  | token =>
    cases h'
    exact .token shares ..
  | trivia =>
    cases h'
    exact .trivia shares
  | escape =>
    cases h'
    exact .escape shares
  | run =>
    cases h'
    exact .run shares _
  | call _ ih =>
    cases h' with
    | call inner => exact (ih inner shares).rule shares _
  | optional _ ih =>
    cases h' with
    | optional inner =>
      cases ih inner shares with
      | part covered => exact .part covered
      | agree n le _ here here' events covered => exact .agree n le rfl here here' events covered
  | attempt _ ih =>
    cases h' with
    | attempt inner => exact (ih inner shares).attempt
  | andThen _ matched _ ihFirst ihSecond =>
    cases h' with
    | andThen first _ second =>
      exact (ihFirst first shares).followedBy shares fun _ => ihSecond second
    | andThenFails first fails =>
      exact (ihFirst first shares).of_unlike matched fails (infix_followedBy ..) (List.infix_refl _)
  | andThenFails _ fails ih =>
    cases h' with
    | andThenFails first => exact ih first shares
    | andThen first matched =>
      exact (ih first shares).of_unlike fails matched (List.infix_refl _) (infix_followedBy ..)
  | orElse _ matched ih =>
    cases h' with
    | orElse first => exact ih first shares
    | orElseSecond first fails =>
      exact (ih first shares).of_unlike matched fails (List.infix_refl _) (infix_followedBy ..)
  | orElseSecond _ fails _ ihFirst ihSecond =>
    cases h' with
    | orElseSecond first _ second =>
      exact (ihFirst first shares).followedBy shares fun _ => ihSecond second
    | orElse first matched =>
      exact (ihFirst first shares).of_unlike fails matched (infix_followedBy ..) (List.infix_refl _)
  | manyMore _ matched less _ ihFirst ihSecond =>
    cases h' with
    | manyMore first _ _ rest =>
      exact (ihFirst first shares).followedBy shares fun _ => ihSecond rest
    | manyStays first _ stays =>
      exact (ihFirst first shares).of_apart shares (fun iff => stays (iff.mpr less))
        (infix_followedBy ..) (List.infix_refl _)
    | manyEnds first fails =>
      exact (ihFirst first shares).of_unlike matched fails (infix_followedBy ..) (List.infix_refl _)
  | manyStays _ matched stays ih =>
    cases h' with
    | manyStays first => exact ih first shares
    | manyMore first _ less =>
      exact (ih first shares).of_apart shares (fun iff => stays (iff.mp less))
        (List.infix_refl _) (infix_followedBy ..)
    | manyEnds first fails =>
      exact (ih first shares).of_unlike matched fails (List.infix_refl _) (List.infix_refl _)
  | manyEnds _ fails ih =>
    cases h' with
    | manyEnds first => exact (ih first shares).restart true
    | manyMore first matched =>
      exact (ih first shares).of_unlike fails matched (List.infix_refl _) (infix_followedBy ..)
    | manyStays first matched =>
      exact (ih first shares).of_unlike fails matched (List.infix_refl _) (List.infix_refl _)
  | nextYes ahead _ ih =>
    rcases Nat.eq_zero_or_pos k with rfl | pos
    · exact .of_zero ..
    have same := shares.kind?_eq pos
    cases h' with
    | nextYes _ inner => exact ih inner shares
    | nextNo ahead' => simp [same,ahead] at ahead'
  | nextNo ahead _ ih =>
    rcases Nat.eq_zero_or_pos k with rfl | pos
    · exact .of_zero ..
    have same := shares.kind?_eq pos
    cases h' with
    | nextNo _ inner => exact ih inner shares
    | nextYes ahead' => simp [same,ahead] at ahead'

end Grammar

theorem mem_matched_of_shares {start : StartRule} {t u : Text} {k : Nat}
    (shares : Cursor.Shares k ⟨0,tokenize t⟩ ⟨0,tokenize u⟩) {x : Span × Terminal}
    (inside : x.1.stop < Token.span ((tokenize t).take k))
    (member : x ∈ Entry.terminals (Event.matched [] (parse t start).events)) :
    x ∈ Entry.terminals (Event.matched [] (parse u start).events) := by
  obtain ⟨reads⟩ := reading t start
  have onPath (y : Span × Terminal) :
      y ∈ Entry.terminals (Event.matched [] (parse t start).events) ↔
        y ∈ Entry.terminals reads.path := by
    rw [reads.matched_eq,reads.mem_terminals]
  rw [onPath] at member
  have text := Cursor.in_tokenize t
  have proper := (reads.tiles.bounds text x member).2.1
  -- Another terminal of the same text has the first byte of this one only if it is this one.
  have only {y : Span × Terminal} (shown : Shows (parse t start).events y)
      (covers : y.1.Covers x.1.start) : y = x := by
    have isTile := (onPath y).mp shown.mem_matched
    obtain ⟨begun,within⟩ := covers
    rcases reads.tiles.apart text y isTile x member with same | before | after
    · exact same
    · omega
    · omega
  have stop : Cursor.offset (Cursor.advance ⟨0,tokenize t⟩ k) = Token.span ((tokenize t).take k) :=
    Nat.zero_add _
  cases (start.runs_expr ⟨0,tokenize t⟩).alike (start.runs_expr ⟨0,tokenize u⟩) shares with
  | agree _ _ _ _ _ events =>
    have same : (parse u start).events = (parse t start).events := events
    rw [same,onPath]
    exact member
  | part covered =>
    rw [stop] at covered
    cases covered x.1.start (Nat.zero_le _) (by omega) with
    | both y covers shown shown' => exact only shown covers ▸ shown'.mem_matched
    | past y _ covers far shown =>
      obtain rfl := only shown covers
      omega

theorem StartRule.tokenize_ending (start : StartRule) : ∃ last, ∀ t : Text,
    tokenize (t ++ start.ending) = tokenize t ++ last :=
  ⟨tokenize start.ending,Token.tokenize_append_ending start⟩

theorem mem_matched_iff_of_take_eq (start : StartRule) {t u : Text} {k : Nat}
    (same : (tokenize t).take k = (tokenize u).take k) (fits : k ≤ (tokenize t).length)
    {x : Span × Terminal} (inside : x.1.stop < Token.span ((tokenize t).take k)) :
    x ∈ Entry.terminals (Event.matched [] (parse t start).events) ↔
      x ∈ Entry.terminals (Event.matched [] (parse u start).events) := by
  have shares : Cursor.Shares k ⟨0,tokenize t⟩ ⟨0,tokenize u⟩ := ⟨rfl,same.symm,fits⟩
  exact ⟨mem_matched_of_shares shares inside,mem_matched_of_shares shares.symm (same ▸ inside)⟩

theorem mem_terminals_parse (source t : Text) (start : StartRule) (x : Span × Terminal) :
    x ∈ (SpanTable.ofEvents source (parse t start).events).terminals.entries ↔
      x ∈ Entry.terminals (Event.matched [] (parse t start).events) := by
  obtain ⟨reads⟩ := reading t start
  rw [reads.terminals_eq,reads.matched_eq,reads.mem_terminals]

/-- When two texts begin with the same `k` tokens, the same terminals are registered for ranges that end
before the last of those tokens does, whether the texts are parsed as they are or as a pass does, with
the ending that the rule requires. -/
theorem terminals_stable (start : StartRule) {t u : Text} {k : Nat}
    (same : (tokenize t).take k = (tokenize u).take k) (x : Span × Terminal)
    (inside : x.1.stop < Token.span ((tokenize t).take k)) :
    (x ∈ (SpanTable.ofEvents t (parse t start).events).terminals.entries ↔
      x ∈ (SpanTable.ofEvents u (parse u start).events).terminals.entries) ∧
    (x ∈ (SpanTable.ofEvents t (parse (t ++ start.ending) start).events).terminals.entries ↔
      x ∈ (SpanTable.ofEvents u (parse (u ++ start.ending) start).events).terminals.entries) := by
  simp only [mem_terminals_parse]
  by_cases fits : k ≤ (tokenize t).length
  · have fits' : k ≤ (tokenize u).length := by
      have := congrArg List.length same
      simp only [List.length_take] at this
      omega
    obtain ⟨last,ends⟩ := start.tokenize_ending
    refine ⟨mem_matched_iff_of_take_eq start same fits inside,?_⟩
    have front (v : Text) (fits : k ≤ (tokenize v).length) :
        (tokenize (v ++ start.ending)).take k = (tokenize v).take k := by
      rw [ends,List.take_append_of_le_length fits]
    have same' : (tokenize (t ++ start.ending)).take k = (tokenize (u ++ start.ending)).take k := by
      rw [front t fits,front u fits',same]
    refine mem_matched_iff_of_take_eq start same' ?_ ?_
    · rw [ends,List.length_append]
      omega
    · rwa [front t fits]
  · -- The texts have fewer tokens, and so they are the same.
    have short : (tokenize t).length < k ∧ (tokenize u).length < k := by
      have := congrArg List.length same
      simp only [List.length_take] at this
      omega
    rw [List.take_of_length_le short.1.le,List.take_of_length_le short.2.le] at same
    obtain rfl : t = u := by
      rw [← Token.flatMap_text_tokenize t,same,Token.flatMap_text_tokenize]
    exact ⟨Iff.rfl,Iff.rfl⟩

/-- The name in `[a="x"` is one whatever comes after the equals sign. -/
theorem terminals_stable_name :
    (tokenize "[a=\"x\"".toList).take 3 = (tokenize "[a=".toList).take 3 ∧
    ((⟨1,2⟩,.attrChars) ∈ (SpanTable.ofEvents "[a=\"x\"".toList
        (parse ("[a=\"x\"".toList ++ StartRule.query.ending) .query).events).terminals.entries ↔
      (⟨1,2⟩,.attrChars) ∈ (SpanTable.ofEvents "[a=".toList
        (parse ("[a=".toList ++ StartRule.query.ending) .query).events).terminals.entries) := by
  have same : (tokenize "[a=\"x\"".toList).take 3 = (tokenize "[a=".toList).take 3 := by
    decide +kernel
  exact ⟨same,(terminals_stable .query same (⟨1,2⟩,.attrChars) (by decide +kernel)).2⟩

end CorpusQuery

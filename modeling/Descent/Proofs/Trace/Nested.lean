/-
  Descent.Proofs.Trace.Nested

  The records of traced parsers are nested.  In an application that comes to a result they
  are a sequence of spans, each from the record of a beginning to that of its end, with
  spans between them (`LogRecord.Nested`).  `Application.Spans` says in addition whose they
  are: those of the traced parsers that are applied, in the order in which they are, each
  with the state that it was applied to and with what came of it.  `Application.Broken` says
  what is left where an application ends early.  It follows the way from the application
  down to the place where the end came from, by the one part that ended early too; the spans
  of the traced parsers on that way are open, and all others are closed.
-/
import Descent.Proofs.Trace.Perform
import Descent.Proofs.Account.Raised

namespace Descent

open Run

/-! ## Nested records -/

/-- The record ends what has begun with this label and at this place: it says that it has
    failed there, or with which value and where it has matched. -/
inductive LogRecord.Closes (label : String) (pos : Nat) : LogRecord → Prop
  | failed : Closes label pos (.failed label pos)
  | matched (value : Value) (pos' : Nat) : Closes label pos (.matched label value pos')

theorem LogRecord.ending_closes (label : String) (s : State) (o : Option State) :
    (ending label s o).Closes label s.pos := by
  cases o with
  | none => exact .failed
  | some t => exact .matched t.value t.pos

/-- Spans in a row: a traced parser begins, other spans follow, and it ends. -/
inductive LogRecord.Nested : List LogRecord → Prop
  | nil : Nested []
  | span {label pos preview w last rest} : Closes label pos last → Nested w → Nested rest →
      Nested (.trying label pos preview :: (w ++ last :: rest))

theorem LogRecord.Nested.append {w v : List LogRecord} (hw : Nested w) (hv : Nested v) :
    Nested (w ++ v) := by
  induction hw with
  | nil => exact hv
  | span hlast hinner _ _ ih =>
    rw [List.cons_append, List.append_assoc, List.cons_append]
    exact .span hlast hinner ih

/-- Nested records that break off: spans in a row, then the beginning of one that is open, and
    so on inside of it.  The second list has the beginnings of the open spans, the innermost
    last. -/
inductive LogRecord.BrokenOff : List LogRecord → List LogRecord → Prop
  | nested {w} : Nested w → BrokenOff w []
  | inside {w label pos preview v begun} : Nested w → BrokenOff v begun →
      BrokenOff (w ++ .trying label pos preview :: v) (.trying label pos preview :: begun)

theorem LogRecord.BrokenOff.after {w v begun : List LogRecord} (hw : Nested w)
    (hv : BrokenOff v begun) : BrokenOff (w ++ v) begun := by
  cases hv with
  | nested hv => exact .nested (hw.append hv)
  | inside hv hrest =>
    rw [← List.append_assoc]
    exact .inside (hw.append hv) hrest

/-- Such records are the beginning of nested ones. -/
theorem LogRecord.BrokenOff.exists_nested {w begun : List LogRecord} (h : BrokenOff w begun) :
    ∃ rest, Nested (w ++ rest) := by
  induction h with
  | nested hw => exact ⟨[], by rwa [List.append_nil]⟩
  | @inside w label pos preview v begun hw _ ih =>
    -- The inner spans are closed first.
    obtain ⟨rest, hrest⟩ := ih
    refine ⟨rest ++ [.failed label pos], ?_⟩
    rw [List.append_assoc, List.cons_append, ← List.append_assoc]
    exact hw.append (.span .failed hrest .nil)

namespace Application

/-! ## Whose records they are -/

/-- The records of applications in a row, all of which come to results.  A traced parser writes
    one of the state it is applied to, then there are those of what it applies, and then it
    writes what came of that.  Any other parser writes what its parts write. -/
inductive Spans (env : Env) : List Application → List LogRecord → Prop
  | nil : Spans env [] []
  | plain {a o m as w} : a.parser.label? = none → a.result env = .ok o m →
      Spans env (a.parts env ++ as) w → Spans env (a :: as) w
  | traced {p label n s m o m' as w rest} :
      (wrapped p label n s m).result env = .ok o m' →
      Spans env [wrapped p label n s m] w → Spans env as rest →
      Spans env (⟨.traced p label, n, s, m⟩ :: as)
        (.trying label s.pos s.preview :: (w ++ .ending label s o :: rest))

/-- The records of an application that ends early, and the traced parsers that the end has
    passed through, each with what it applied, the innermost last.  The end may have come from
    the application itself, all parts of which have come to results then; or from its last
    part; or from what a traced parser has applied, and then no record of its end is written. -/
inductive Broken (env : Env) (e : Stop) (m : Memory) :
    Application → List LogRecord → List (String × Application) → Prop
  | raised {a w} : a.parser.label? = none → Spans env (a.parts env) w → Broken env e m a w []
  | within {a before c w w' passed} : a.parser.label? = none →
      a.parts env = before ++ [c] → Spans env before w → c.result env = .error e m →
      Broken env e m c w' passed → Broken env e m a (w ++ w') passed
  | through {p label n s m₀ w passed} :
      (wrapped p label n s m₀).result env = .error e m →
      Broken env e m (wrapped p label n s m₀) w passed →
      Broken env e m ⟨.traced p label, n, s, m₀⟩ (.trying label s.pos s.preview :: w)
        ((label, wrapped p label n s m₀) :: passed)

/-- In an application, a traced parser is applied, with this label, and it applies in its turn. -/
inductive Traces (env : Env) : Application → String → Application → Prop
  | here {p label n s m} :
      Traces env ⟨.traced p label, n, s, m⟩ label (wrapped p label n s m)
  | inside {a c label b} : c ∈ a.parts env → Traces env c label b → Traces env a label b

section Spans

variable {env : Env} {as bs : List Application} {a : Application} {w v : List LogRecord}
  {e : Stop} {m : Memory} {passed : List (String × Application)}

theorem Spans.append (hw : Spans env as w) (hv : Spans env bs v) :
    Spans env (as ++ bs) (w ++ v) := by
  induction hw with
  | nil => exact hv
  | plain hplain hresult _ ih =>
    rw [List.append_assoc] at ih
    exact .plain hplain hresult ih
  | traced hresult hinner _ _ ih =>
    rw [List.cons_append, List.cons_append, List.append_assoc, List.cons_append]
    exact .traced hresult hinner ih

/-- All of these applications come to results. -/
theorem Spans.result (h : Spans env as w) : ∀ a ∈ as, ∃ o m, a.result env = .ok o m := by
  induction h with
  | nil => exact fun _ ha => nomatch ha
  | plain _ hresult _ ih =>
    exact List.forall_mem_cons.2 ⟨⟨_, _, hresult⟩, (List.forall_mem_append.1 ih).2⟩
  | traced hresult _ _ _ ih =>
    exact List.forall_mem_cons.2 ⟨⟨_, _, by rw [result_traced, hresult]⟩, ih⟩

theorem Spans.nested (h : Spans env as w) : LogRecord.Nested w := by
  induction h with
  | nil => exact .nil
  | plain _ _ _ ih => exact ih
  | @traced _ label _ s _ o _ _ _ _ _ _ _ ihw ih =>
    exact .span (LogRecord.ending_closes label s o) ihw ih

/-- The record with which a traced parser begins. -/
def begun (entry : String × Application) : LogRecord :=
  .trying entry.1 entry.2.state.pos entry.2.state.preview

/-- The spans that are open are those of the traced parsers that the end has passed through. -/
theorem Broken.brokenOff (h : Broken env e m a w passed) :
    LogRecord.BrokenOff w (passed.map begun) := by
  induction h with
  | raised _ hparts => exact .nested hparts.nested
  | within _ _ hbefore _ _ ih => exact ih.after hbefore.nested
  | through _ _ ih => exact .inside .nil ih

end Spans

/-! ## Told by the parts -/

/-- What traced parsers write in an application is what its parts say. -/
structure Told (env : Env) (a : Application) : Prop where
  ended : ∀ {o m}, a.result env = .ok o m →
    ∃ w, m.spans = a.memory.spans ++ w ∧ Spans env [a] w
  broken : ∀ {e m}, a.result env = .error e m →
    ∃ w passed, m.spans = a.memory.spans ++ w ∧ Broken env e m a w passed

/-- A traced parser writes a record before what is written inside, and one after it. -/
theorem Told.traced {env : Env} {p : Parser Ref} {label : String} {n : Nat} {s : State}
    {m : Memory} (h : (wrapped p label n s m).Told env) :
    Told env ⟨.traced p label, n, s, m⟩ := by
  have hbegun : (wrapped p label n s m).memory.spans
      = m.spans ++ [.trying label s.pos s.preview] := Memory.spans_log m _
  have hwrapped := result_traced env p label n s m
  refine ⟨fun {o m₁} hresult => ?_, fun {e m₁} hresult => ?_⟩
  · rw [hresult] at hwrapped
    split at hwrapped
    · next o' m' hinner =>
      cases hwrapped
      obtain ⟨w, hw, hspans⟩ := h.ended hinner
      -- The two records of the parser stand around those that are written inside.
      have hend : [.logged (.ending label s o)].filterMap Entry.span? = [.ending label s o] := by
        cases o <;> rfl
      refine ⟨_, ?_, .traced hinner hspans .nil⟩
      rw [Memory.spans_log, hend, hw, hbegun, List.append_assoc, List.append_assoc]
      rfl
    · cases hwrapped
  · rw [hresult] at hwrapped
    split at hwrapped
    · cases hwrapped
    · next e' m' hinner =>
      cases hwrapped
      obtain ⟨w, passed, hw, hbroken⟩ := h.broken hinner
      refine ⟨_, _, ?_, .through hinner hbroken⟩
      rw [hw, hbegun, List.append_assoc]
      rfl

end Application

open Application

namespace Base

variable {b : Base Entry.Spanless} {a c : Application} {cs : List Application} {α : Type}
  {m : Memory} {r : EStateM.Result Stop Memory α}

/-- A run that ends early does so by itself, behind all that it performs, or by the last
    application that it performs. -/
theorem Performs.told (h : b.Performs m cs r) (hcs : ∀ c ∈ cs, c.Told b.env) :
    (∃ w, (left r).spans = m.spans ++ w ∧ Spans b.env cs w) ∨
    ∃ before c e m' w w' passed, cs = before ++ [c] ∧ r = .error e m' ∧
      c.result b.env = .error e m' ∧ m'.spans = m.spans ++ (w ++ w') ∧
      Spans b.env before w ∧ Broken b.env e m' c w' passed := by
  induction h with
  | ends h => exact .inl ⟨[], by rw [h.spans, List.append_nil], .nil⟩
  | @applies m c o m' cs r h hc _ ih =>
    -- Behind the spans of the first come those of the rest, closed or broken off.
    rw [List.forall_mem_cons] at hcs
    obtain ⟨w, hw, hspans⟩ := hcs.1.ended hc
    rw [h.spans] at hw
    rcases ih hcs.2 with ⟨v, hv, hrest⟩ | ⟨before, d, e, m₁, v, v', passed, rfl, hr, hd, hv, hrest⟩
    · exact .inl ⟨w ++ v, by rw [hv, hw, List.append_assoc], hspans.append hrest⟩
    · refine .inr ⟨c :: before, d, e, m₁, w ++ v, v', passed, rfl, hr, hd, ?_,
        hspans.append hrest.1, hrest.2⟩
      rw [hv, hw, List.append_assoc, List.append_assoc]
  | @stops m c e m' h hc =>
    obtain ⟨w, passed, hw, hbroken⟩ := (hcs c List.mem_cons_self).broken hc
    rw [h.spans] at hw
    exact .inr ⟨[], c, e, m', [], w, passed, rfl, rfl, hc, hw, .nil, hbroken⟩

/-- A parser that is not traced itself writes what its parts write. -/
theorem InScope.told_plain (ha : b.InScope a) (hplain : a.parser.label? = none)
    (hparts : ∀ c ∈ a.parts b.env, c.Told b.env) : a.Told b.env := by
  have hperforms : b.Performs a.memory (a.parts b.env) (a.result b.env) :=
    b.performs ha.spanless hplain a.depth a.state a.memory
  have htold := hperforms.told hparts
  refine ⟨fun {o m} hresult => ?_, fun {e m} hresult => ?_⟩
  · rw [hresult] at htold
    -- A run that has come to a result has not broken off.
    rcases htold with ⟨w, hw, hspans⟩ | ⟨_, _, _, _, _, _, _, -, hr, -⟩
    · rw [← List.append_nil (a.parts b.env)] at hspans
      exact ⟨w, hw, .plain hplain hresult hspans⟩
    · cases hr
  · rw [hresult] at htold
    rcases htold with ⟨w, hw, hspans⟩ | ⟨_, c, _, _, w, w', passed, hcs, hr, hc, hw, hbefore, hlast⟩
    · exact ⟨w, [], hw, .raised hplain hspans⟩
    · cases hr
      exact ⟨w ++ w', passed, hw, .within hplain hcs hbefore hc hlast⟩

/-- All that traced parsers write in an application is told by its parts. -/
theorem InScope.told (ha : b.InScope a) : a.Told b.env := by
  induction a using Application.parts_induction b.env with
  | h a ih =>
    have hparts := fun c hc => ih c hc (ha.parts c hc)
    rcases a.traced_or_plain with hplain | ⟨p, label, n, s, m, rfl⟩
    · exact ha.told_plain hplain hparts
    · exact (hparts _ List.mem_cons_self).traced

/-- Where an application that is performed ends early, so does the run. -/
theorem Performs.of_error (h : b.Performs m cs r) {e : Stop} {m' : Memory} (hc : c ∈ cs)
    (herror : c.result b.env = .error e m') : r = .error e m' := by
  induction h with
  | ends => cases hc
  | @applies m d o m₁ cs r _ hd _ ih =>
    rcases List.mem_cons.1 hc with rfl | hc
    · rw [herror] at hd
      cases hd
    · exact ih hc
  | @stops m d e' m₁ _ hd =>
    obtain rfl := List.mem_singleton.1 hc
    rw [herror] at hd
    cases hd
    rfl

/-- An early end passes through all that has been applied on the way. -/
theorem InScope.of_traces (ha : b.InScope a) {label : String} {e : Stop} {m' : Memory}
    (h : Traces b.env a label c) (herror : c.result b.env = .error e m') :
    a.result b.env = .error e m' := by
  induction h with
  | here => rw [result_traced, herror]
  | @inside a d label c hd hrest ih =>
    have hpart := ih (ha.parts d hd) herror
    rcases a.traced_or_plain with hplain | ⟨p, label', n, s, m, rfl⟩
    · exact (b.performs ha.spanless hplain _ _ _).of_error hd hpart
    · obtain rfl := List.mem_singleton.1 hd
      rw [result_traced, hpart]

/-- What the end of an application has passed through are the traced parsers that have ended
    by it. -/
theorem InScope.mem_passed (ha : b.InScope a) {e : Stop} {m' : Memory} {w : List LogRecord}
    {passed : List (String × Application)} (h : Broken b.env e m' a w passed) (label : String)
    (c : Application) :
    (label, c) ∈ passed ↔ Traces b.env a label c ∧ c.result b.env = .error e m' := by
  -- A part that comes to a result has no part that has ended early.
  have herrs : ∀ {a d : Application}, b.InScope a → d ∈ a.parts b.env →
      Traces b.env d label c → c.result b.env = .error e m' →
      ¬ ∃ o m, d.result b.env = .ok o m := by
    rintro a d ha hd htraces herror ⟨o, m, hresult⟩
    rw [(ha.parts d hd).of_traces htraces herror] at hresult
    cases hresult
  induction h with
  | @raised a w hplain hparts =>
    refine ⟨fun h => (nomatch h), fun ⟨htraces, herror⟩ => ?_⟩
    cases htraces with
    | here => cases hplain
    | inside hd hrest => exact absurd (hparts.result _ hd) (herrs ha hd hrest herror)
  | @within a before d w w' passed hplain hparts hbefore _ _ ih =>
    have hlast : d ∈ a.parts b.env := hparts ▸ List.mem_concat_self
    have hpassed : (label, c) ∈ passed ↔ Traces b.env d label c ∧ c.result b.env = .error e m' :=
      ih (ha.parts d hlast)
    rw [hpassed]
    refine ⟨fun ⟨htraces, herror⟩ => ⟨.inside hlast htraces, herror⟩, fun ⟨htraces, herror⟩ => ?_⟩
    -- Of the parts, only the last has ended early.
    cases htraces with
    | here => cases hplain
    | inside hd hrest =>
      rcases List.mem_append.1 (hparts ▸ hd) with hin | hin
      · exact absurd (hbefore.result _ hin) (herrs ha hd hrest herror)
      · obtain rfl := List.mem_singleton.1 hin
        exact ⟨hrest, herror⟩
  | @through p label' n s m₀ w passed herror _ ih =>
    have hpassed : (label, c) ∈ passed ↔
        Traces b.env (Application.wrapped p label' n s m₀) label c ∧
          c.result b.env = .error e m' := ih ha.wrapped
    rw [List.mem_cons, hpassed]
    constructor
    · rintro (heq | ⟨htraces, herror'⟩)
      · cases heq
        exact ⟨.here, herror⟩
      · exact ⟨.inside List.mem_cons_self htraces, herror'⟩
    · rintro ⟨htraces, herror'⟩
      cases htraces with
      | here => exact .inl rfl
      | inside hd hrest =>
        obtain rfl := List.mem_singleton.1 hd
        exact .inr ⟨hrest, herror'⟩

end Base

/-- The records of traced parsers are nested, whatever they are wrapped around.  Where an
    application comes to a result, they are spans with spans between their two ends, and these
    are the spans of the traced parsers that were applied, in order: each begins with the state
    to which it was applied and ends with what came of that.  Where an application ends early,
    the records break off, and the spans that are open, from the outside in, are those of the
    traced parsers that have ended by it. -/
theorem Session.spans_nested {σ : Session} {bound : Nat} (hσ : σ.Over Entry.Spanless bound)
    {p : Parser Ref} (hp : p.Over Entry.Spanless fun _ => True) (n : Nat) (s : State) :
    let a : Application := ⟨p, n, s, ⟨σ.cells, []⟩⟩
    (∀ o m, p.eval σ.env n s ⟨σ.cells, []⟩ = .ok o m →
      Spans σ.env [a] m.spans ∧ LogRecord.Nested m.spans) ∧
    (∀ e m, p.eval σ.env n s ⟨σ.cells, []⟩ = .error e m →
      ∃ passed, Broken σ.env e m a m.spans passed ∧
        LogRecord.BrokenOff m.spans (passed.map begun) ∧
        (∃ rest, LogRecord.Nested (m.spans ++ rest)) ∧
        ∀ label c, (label, c) ∈ passed ↔
          Traces σ.env a label c ∧ c.result σ.env = .error e m) := by
  intro a
  have ha : hσ.base.InScope a := ⟨hp, .refl _⟩
  -- Nothing has been written yet, so the spans of the run are all that there are.
  have htold : a.Told σ.env := ha.told
  refine ⟨fun o m hresult => ?_, fun e m hresult => ?_⟩
  · obtain ⟨w, hw, hspans⟩ := htold.ended hresult
    rw [show m.spans = w from hw]
    exact ⟨hspans, hspans.nested⟩
  · obtain ⟨w, passed, hw, hbroken⟩ := htold.broken hresult
    rw [show m.spans = w from hw]
    exact ⟨passed, hbroken, hbroken.brokenOff, hbroken.brokenOff.exists_nested,
      ha.mem_passed hbroken⟩

namespace Sample

/-- A session whose delayed part is a traced row of characters that are traced, too. -/
def tracedRows : Session := rows (.traced (.satisfy soft) "character")

theorem soft_spanless : soft.Notes Entry.Spanless := by
  intro c e he
  obtain rfl := List.mem_singleton.1 he
  rfl

theorem tracedRows_over : tracedRows.Over Entry.Spanless 1 where
  bound_le := Nat.le_refl 1
  names := .nil _ 1
  rules := .nil _ 1
  cells := by
    refine .of_waiting fun cell hcell => ?_
    obtain rfl := List.mem_singleton.1 (Array.mem_def.1 hcell)
    exact ⟨rfl, .expr (.traced (.repeated (.traced (.satisfy soft_spanless) _) _) _)⟩

theorem rowOr_spanless : (rowOr .remaining).Over Entry.Spanless fun _ => True :=
  .orDefault (.orElse (.link trivial) .remaining) _

end Sample

/-- A row of two characters closes all spans.  An exclamation mark raises a fault, which passes
    through the second character and the row. -/
theorem Session.spans_nested_rows :
    let p := Sample.rowOr .remaining
    let σ := Sample.tracedRows
    σ.Over Entry.Spanless 1 ∧ p.Over Entry.Spanless (fun _ => True) ∧
    (∃ o m, p.eval σ.env 9 (State.start "ab".toList) ⟨σ.cells, []⟩ = .ok o m ∧
      m.spans = [.trying "row" 0 "ab".toList,
        .trying "character" 0 "ab".toList, .matched "character" (.str ['a']) 1,
        .trying "character" 1 "b".toList, .matched "character" (.str ['b']) 2,
        .matched "row" (.list [.str ['a'], .str ['b']]) 2] ∧
      LogRecord.Nested m.spans) ∧
    ∃ e m, ∃ passed : List (String × Application),
      p.eval σ.env 9 (State.start "a!".toList) ⟨σ.cells, []⟩ = .error e m ∧
      m.spans = [.trying "row" 0 "a!".toList,
        .trying "character" 0 "a!".toList, .matched "character" (.str ['a']) 1,
        .trying "character" 1 "!".toList] ∧
      LogRecord.BrokenOff m.spans (passed.map begun) ∧
      ∀ label c, (label, c) ∈ passed ↔
        Traces σ.env ⟨p, 9, State.start "a!".toList, ⟨σ.cells, []⟩⟩ label c ∧
          c.result σ.env = .error e m := by
  intro p σ
  obtain ⟨hended, -⟩ := spans_nested Sample.tracedRows_over Sample.rowOr_spanless 9
    (State.start "ab".toList)
  obtain ⟨-, hbroken⟩ := spans_nested Sample.tracedRows_over Sample.rowOr_spanless 9
    (State.start "a!".toList)
  obtain ⟨passed, -, hbrokenOff, -, hpassed⟩ := hbroken _ _ rfl
  exact ⟨Sample.tracedRows_over, Sample.rowOr_spanless,
    ⟨_, _, rfl, rfl, (hended _ _ rfl).2⟩, _, _, passed, rfl, rfl, hbrokenOff, hpassed⟩

end Descent

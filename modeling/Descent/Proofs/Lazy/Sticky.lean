/-
  Descent.Proofs.Lazy.Sticky

  The life of a delayed part.  In a session in which names are bound and bound again, its
  thunk is called when the part is applied and has not been built, with the names of that
  moment; a call that raises a fault leaves it as it was, and the first that returns is the
  last.  `Session.History` collects the calls of a row of steps, each with its answer, and
  says how they show in the reports; `Life` says what the answers of one thunk can be.
-/
import Descent.Proofs.Lazy.Calls
import Descent.Proofs.Simulation.Run

namespace Descent

/-! ## One delayed part -/

/-- What the calls of one thunk have answered, in order. -/
def answersOf (n : Nat) (calls : List Call) : List (Except Fault (Parser Ref)) :=
  (calls.filter (·.cell == n)).map Call.answer

/-- What a delayed part stood for, what its thunk answered then, and what it stands for
    now: faults, as long as it is not built; at most one parser, for which it stands from
    then on; and nothing more once it is built. -/
inductive Life :
    Option (Parser Ref) → List (Except Fault (Parser Ref)) → Option (Parser Ref) → Prop
  | waiting (faults : List Fault) : Life none (faults.map .error) none
  | bound (faults : List Fault) (p : Parser Ref) :
      Life none (faults.map .error ++ [.ok p]) (some p)
  | kept (p : Parser Ref) : Life (some p) [] (some p)

theorem Life.refl (a : Option (Parser Ref)) : Life a [] a := by
  cases a with
  | none => exact .waiting []
  | some p => exact .kept p

theorem Life.trans {a b d : Option (Parser Ref)} {xs ys : List (Except Fault (Parser Ref))}
    (h : Life a xs b) (h' : Life b ys d) : Life a (xs ++ ys) d := by
  cases h with
  | waiting faults =>
    cases h' with
    | waiting faults' =>
      rw [← List.map_append]
      exact .waiting (faults ++ faults')
    | bound faults' p =>
      rw [← List.append_assoc, ← List.map_append]
      exact .bound (faults ++ faults') p
  | bound faults p =>
    cases h' with
    | kept =>
      rw [List.append_nil]
      exact .bound faults p
  | kept p => exact h'

/-- What is built stays, and its thunk is not called again. -/
theorem Life.of_some {p : Parser Ref} {xs : List (Except Fault (Parser Ref))}
    {a : Option (Parser Ref)} (h : Life (some p) xs a) : xs = [] ∧ a = some p := by
  cases h with
  | kept => exact ⟨rfl, rfl⟩

theorem answersOf_append (n : Nat) (calls calls' : List Call) :
    answersOf n (calls ++ calls') = answersOf n calls ++ answersOf n calls' := by
  rw [answersOf, List.filter_append, List.map_append]
  rfl

theorem answersOf_self (n : Nat) (a : Except Fault (Parser Ref)) :
    answersOf n [⟨n, a⟩] = [a] := by
  simp [answersOf]

theorem answersOf_ne {n k : Nat} (h : k ≠ n) (a : Except Fault (Parser Ref)) :
    answersOf n [⟨k, a⟩] = [] := by
  simp [answersOf, h]

/-- A row of calls leads every delayed part through a piece of its life. -/
theorem Calls.life {b : Base Entry.NoCall} {calls : List Call} {cs : Cells}
    (h : Calls b.env.names b.cells calls cs) (n : Nat) :
    b.Later cs ∧ Life (b.cells.builtAt n) (answersOf n calls) (cs.builtAt n) := by
  induction h with
  | none => exact ⟨.refl b, .refl _⟩
  | @returned calls cs₁ cs₂ k t p _ hk hbuild ih =>
    obtain ⟨hlater, hlife⟩ := ih
    obtain ⟨hext, hk', P, -, hp⟩ := hlater.returned hk hbuild
    refine ⟨(hlater.extended hext).settle hk' hp.scope, ?_⟩
    rw [answersOf_append]
    refine hlife.trans ?_
    by_cases hkn : k = n
    · subst hkn
      -- Its own thunk has returned: from now on the cell is bound.
      have hlt : k < cs₂.size := (Array.getElem?_eq_some_iff.1 hk').1
      rw [answersOf_self, Cells.builtAt_of hk, Cells.builtAt_of (Cells.settle_self hlt)]
      exact .bound [] p
    · -- The call of another thunk builds its own cell and no other.
      have hsame : (cs₂.settle k t p).builtAt n = cs₁.builtAt n := by
        rw [← hext.builtAt n, Cells.builtAt, Cells.settle_ne (Ne.symm hkn), Cells.builtAt]
      rw [answersOf_ne hkn, hsame]
      exact .refl _
  | @raised calls cs₁ k t f _ hk hbuild ih =>
    obtain ⟨hlater, hlife⟩ := ih
    refine ⟨hlater, ?_⟩
    rw [answersOf_append]
    refine hlife.trans ?_
    by_cases hkn : k = n
    · subst hkn
      rw [answersOf_self, Cells.builtAt_of hk]
      exact .waiting [f]
    · rw [answersOf_ne hkn]
      exact .refl _

/-! ## One step -/

namespace Session

variable {σ : Session} {bound : Nat}

/-- The calls of a step, as its report and the session behind it show them: the cells are
    what the calls have made of them, but for new ones, which are not built; the trace
    notes the calls; and a fault that a call has raised ends the step. -/
structure Shows (bound : Nat) (σ : Session) (calls : List Call) (r : Report) (σ' : Session) :
    Prop where
  made : ∃ cs, Calls σ.names σ.cells calls cs ∧ cs.Extended Entry.NoCall bound σ'.cells
  noted : Trace.called r.trace = calls.map Call.cell
  before : ∀ call ∈ calls.dropLast, call.Returned
  fault : ∀ call ∈ calls, ∀ f, call.answer = .error f → r.answer = .faulted f

/-- A step that applies nothing makes no calls. -/
theorem Shows.nothing {r : Report} {σ' : Session} (htrace : r.trace = [])
    (hcells : σ.cells.Extended Entry.NoCall bound σ'.cells) : Shows bound σ [] r σ' where
  made := ⟨σ.cells, .none, hcells⟩
  noted := by rw [htrace]; rfl
  before _ h := nomatch h
  fault _ h := nomatch h

/-- An application of a named parser comes to an end also if a delayed part is barred. -/
def AppliesWithout (σ : Session) (n : Nat) (name : String) (s : State) : Prop :=
  ∀ p ∈ σ.names.lookup name,
    ¬ Run.GaveUp (p.applyBy (Run.barred σ.env n) s ⟨σ.cells, []⟩)

/-- A step does without a delayed part. -/
def DoesWithout (σ : Session) (n : Nat) : Step → Prop
  | .run name text => σ.AppliesWithout n name (State.start text)
  | .apply name => σ.AppliesWithout n name σ.current
  | _ => True

/-- The calls of a step, all of delayed parts that the step applies. -/
structure Makes (bound : Nat) (σ : Session) (st : Step) (calls : List Call) : Prop where
  shows : Shows bound σ calls (σ.step st).1 (σ.step st).2
  needed : ∀ call ∈ calls, ¬ σ.DoesWithout call.cell st

/-- A session with later cells, and the same names and rules. -/
theorem Over.of_later (hσ : σ.Over Entry.NoCall bound) {σ' : Session}
    (hnames : σ'.names = σ.names) (hrules : σ'.rules = σ.rules)
    (hlater : hσ.base.Later σ'.cells) : σ'.Over Entry.NoCall bound where
  bound_le := Nat.le_trans hσ.bound_le hlater.grown.size_le
  names := hnames ▸ hσ.names.mono hlater.grown.size_le
  rules := hrules ▸ hσ.rules.mono hlater.grown.size_le
  cells := hlater.scope

theorem Over.applyTo (hσ : σ.Over Entry.NoCall bound) {p : Parser Ref}
    (hp : p.Over Entry.NoCall fun _ => True) (s : State) :
    ∃ calls, Shows bound σ calls (σ.applyTo p s).1 (σ.applyTo p s).2 ∧
      (σ.applyTo p s).2.Over Entry.NoCall bound ∧
      ∀ call ∈ calls, Run.GaveUp (p.applyBy (Run.barred σ.env call.cell) s ⟨σ.cells, []⟩) := by
  have happly : p.apply σ.env s ⟨σ.cells, []⟩
      = p.applyBy (Run.resolve hσ.base.env) s ⟨hσ.base.cells, []⟩ := by
    rw [Parser.apply_eq]
    rfl
  obtain ⟨calls, hrow, hbefore, hfault⟩ := Base.exists_row (b := hσ.base) hp s
  have hbarred : ∀ n, ¬ Run.GaveUp (p.applyBy (Run.barred σ.env n) s ⟨σ.cells, []⟩) → _ :=
    fun n => Base.not_called_of_barred (b := hσ.base) hp s
  rw [applyTo_eq, happly]
  generalize p.applyBy (Run.resolve hσ.base.env) s ⟨hσ.base.cells, []⟩ = r at *
  -- A trace is kept with the last entry first, and a report shows it the other way round.
  have hnoted : Trace.called (Report.ofRun r).trace = calls.map Call.cell := by
    rw [Report.ofRun_trace, Trace.called, List.filterMap_reverse]
    exact (congrArg List.reverse hrow.noted).trans (List.reverse_reverse _)
  refine ⟨calls, ⟨⟨_, hrow.made, .refl _⟩, hnoted, hbefore, fun call hcall f hf => ?_⟩,
    hσ.of_later rfl rfl hrow.later, fun call hcall => ?_⟩
  · obtain ⟨m, rfl⟩ := hfault call hcall f hf
    rfl
  · -- A call that was not needed could be barred without giving up.
    refine Decidable.byContradiction fun hdone => hbarred call.cell hdone ?_
    rw [hrow.noted, List.mem_reverse]
    exact List.mem_map_of_mem hcall

/-- An application of a named parser makes calls of what it applies, and keeps to the rest
    of the session. -/
theorem Over.applyNamed (hσ : σ.Over Entry.NoCall bound) (name : String) (s : State) :
    ∃ calls, Shows bound σ calls (σ.applyNamed name s).1 (σ.applyNamed name s).2 ∧
      (σ.applyNamed name s).2.Over Entry.NoCall bound ∧
      ∀ call ∈ calls, ¬ σ.AppliesWithout call.cell name s := by
  unfold Session.applyNamed
  cases hp : σ.names.lookup name with
  | none => exact ⟨[], .nothing rfl (.refl _), hσ, fun _ h => nomatch h⟩
  | some p =>
    have hover := (hσ.names name p hp).mono fun _ _ => trivial
    obtain ⟨calls, hshows, hafter, hneeded⟩ := hσ.applyTo hover s
    have hkeep : ∀ (σ' : Session) (r : Report), (σ'.keep r).cells = σ'.cells ∧
        (σ'.keep r).names = σ'.names ∧ (σ'.keep r).rules = σ'.rules := by
      intro σ' r
      unfold keep
      split <;> exact ⟨rfl, rfl, rfl⟩
    -- Keeping the state that was reached touches nothing that the calls are about.
    obtain ⟨hcells, hnames, hrules⟩ := hkeep (σ.applyTo p s).2 (σ.applyTo p s).1
    refine ⟨calls, ⟨?_, hshows.noted, hshows.before, hshows.fault⟩, ?_, fun call hcall h => ?_⟩
    · rw [hcells]
      exact hshows.made
    · refine ⟨?_, ?_, ?_, ?_⟩
      · exact hcells ▸ hafter.bound_le
      · exact hcells ▸ hnames ▸ hafter.names
      · exact hcells ▸ hrules ▸ hafter.rules
      · exact hcells ▸ hafter.cells
    · exact h p hp (hneeded call hcall)

end Session

/-- What the expression of a step refers to. -/
def Step.Over (entry : Entry → Prop) (bound : Nat) : Step → Prop
  | define _ e => e.Over entry (Ref.Below bound)
  | _ => True

namespace Session

variable {σ : Session} {bound : Nat}

/-- A definition calls no thunk, whether it succeeds or not. -/
theorem Over.define (hσ : σ.Over Entry.NoCall bound) (name : String) {e : Expr}
    (he : e.Over Entry.NoCall (Ref.Below bound)) :
    Shows bound σ [] (σ.step (.define name e)).1 (σ.step (.define name e)).2 ∧
      (σ.step (.define name e)).2.Over Entry.NoCall bound := by
  have hcomes := Expr.expands hσ.bound_le hσ.names he σ.cells (.refl _)
  generalize hr : (e.build σ.names).run σ.cells = r at hcomes
  generalize Expr.expand σ.names σ.cells e = y at hcomes
  cases hcomes with
  | error f =>
    have hstep : σ.step (.define name e) = (⟨.faulted f, []⟩, σ) := by
      simp only [Session.step, Session.define, Session.build, hr]
      rfl
    rw [hstep]
    exact ⟨.nothing rfl (.refl _), hσ⟩
  | @ok p cs' P hext hp =>
    have hstep : σ.step (.define name e)
        = (⟨.defined, []⟩, { σ with cells := cs', names := (name, p) :: σ.names }) := by
      simp only [Session.step, Session.define, Session.build, hr]
      rfl
    have hlater : hσ.base.Later cs' := (Base.Later.refl hσ.base).extended hext
    have hafter : ({ σ with cells := cs' } : Session).Over Entry.NoCall bound :=
      hσ.of_later rfl rfl hlater
    rw [hstep]
    exact ⟨.nothing rfl hext, hafter.bound_le, .cons hp.scope hafter.names name, hafter.rules,
      hafter.cells⟩

/-- A step makes calls of what it applies, and leads to a session of the same kind. -/
theorem Over.step (hσ : σ.Over Entry.NoCall bound) {st : Step} (hst : st.Over Entry.NoCall bound) :
    ∃ calls, Makes bound σ st calls ∧ (σ.step st).2.Over Entry.NoCall bound := by
  -- A step that goes to a state or looks at one changes nothing else.
  have hstay : ∀ s r, r.trace = [] → (σ.step st) = (r, { σ with current := s }) →
      ∃ calls, Makes bound σ st calls ∧ (σ.step st).2.Over Entry.NoCall bound := by
    intro s r htrace heq
    refine ⟨[], ⟨?_, fun _ h => nomatch h⟩, ?_⟩
    · rw [heq]
      exact .nothing htrace (.refl _)
    · rw [heq]
      exact ⟨hσ.bound_le, hσ.names, hσ.rules, hσ.cells⟩
  cases st with
  | define name e =>
    obtain ⟨hshows, hafter⟩ := hσ.define name hst
    exact ⟨[], ⟨hshows, fun _ h => nomatch h⟩, hafter⟩
  | run name text =>
    obtain ⟨calls, hshows, hafter, hneeded⟩ := hσ.applyNamed name (State.start text)
    exact ⟨calls, ⟨hshows, hneeded⟩, hafter⟩
  | apply name =>
    obtain ⟨calls, hshows, hafter, hneeded⟩ := hσ.applyNamed name σ.current
    exact ⟨calls, ⟨hshows, hneeded⟩, hafter⟩
  | start text pos value => exact hstay _ _ rfl rfl
  | advance n value => exact hstay _ _ rfl rfl
  | withValue value => exact hstay _ _ rfl rfl
  | view => exact hstay σ.current _ rfl rfl

/-! ## Many steps -/

/-- The calls of a row of steps, one after another. -/
inductive History (bound : Nat) : Session → List Step → List Call → Prop
  | nil (σ : Session) : History bound σ [] []
  | cons {σ : Session} {st : Step} {rest : List Step} {calls more : List Call} :
      Makes bound σ st calls → History bound (σ.step st).2 rest more →
      History bound σ (st :: rest) (calls ++ more)

theorem Over.exists_history (hσ : σ.Over Entry.NoCall bound) {steps : List Step}
    (hsteps : ∀ st ∈ steps, st.Over Entry.NoCall bound) :
    (∃ calls, History bound σ steps calls) ∧ (σ.steps steps).2.Over Entry.NoCall bound := by
  induction steps generalizing σ with
  | nil => exact ⟨⟨[], .nil σ⟩, hσ⟩
  | cons st rest ih =>
    obtain ⟨calls, hmakes, hafter⟩ := hσ.step (hsteps st List.mem_cons_self)
    obtain ⟨⟨more, hmore⟩, hend⟩ :=
      ih hafter fun st' hst' => hsteps st' (List.mem_cons_of_mem _ hst')
    exact ⟨⟨calls ++ more, .cons hmakes hmore⟩, hend⟩

/-- A row of steps leads every delayed part through a piece of its life. -/
theorem History.life {steps : List Step} {calls : List Call} (h : History bound σ steps calls)
    (hσ : σ.Over Entry.NoCall bound) (hsteps : ∀ st ∈ steps, st.Over Entry.NoCall bound)
    (n : Nat) :
    Life (σ.cells.builtAt n) (answersOf n calls) ((σ.steps steps).2.cells.builtAt n) := by
  induction h with
  | nil σ => exact .refl _
  | @cons σ st rest calls more hmakes _ ih =>
    obtain ⟨-, -, hafter⟩ := hσ.step (hsteps st List.mem_cons_self)
    obtain ⟨cs, hcalls, hext⟩ := hmakes.shows.made
    obtain ⟨-, hlife⟩ := Calls.life (b := hσ.base) hcalls n
    rw [← hext.builtAt n] at hlife
    have hrest := ih hafter fun st' hst' => hsteps st' (List.mem_cons_of_mem _ hst')
    rw [answersOf_append]
    exact hlife.trans hrest

/-! ## One application of a delayed part -/

/-- What the link of a delayed part does, by what stands in its cell. -/
theorem follow_cell (env : Env) (n fuel : Nat) (s : State) (m : Memory) :
    env.follow (fuel + 1) (.cell n) s m = match m.cells[n]? with
      | none => .error .exhausted m
      | some ⟨_, some p⟩ => p.eval env fuel s m
      | some ⟨t, none⟩ =>
        match (t.build env.names).run m.cells with
        | .error f => .error (.fault f) ⟨m.cells, .raised f :: .forced n :: m.trace⟩
        | .ok (p, cs) => p.eval env fuel s ⟨cs.settle n t p, .forced n :: m.trace⟩ := by
  simp only [Parser.eval, Env.follow_eq]
  have hresolves := Run.resolves env m (.cell n)
  generalize hr : Run.resolve env (.cell n) m = r at hresolves
  cases hresolves with
  | noCell hn => rw [followBy_of_error hr, hn]
  | built hn => rw [followBy_of_ok hr, hn]
  | raised hn hbuild =>
    rw [followBy_of_error hr, hn]
    simp only [hbuild]
  | returned hn hbuild =>
    rw [followBy_of_ok hr, hn]
    simp only [hbuild]

/-- In every session, through every row of steps:

    - the thunk of a delayed part is called by the steps that apply the part and by no
      others, with the names of that moment; its calls raise faults, each of which ends its
      step, until at most one returns a parser, and from then on there are none;
    - what an application does is decided by what stands in the cell at that moment: the
      parser in it is applied, or the thunk is called, and a fault that it raises leaves the
      cell as it was;
    - once a parser stands in the cell it stays there, whatever names are bound later, and
      every run is the one in which the link stands for that parser. -/
theorem lazy_late_then_sticky {σ : Session} {bound : Nat} (hσ : σ.Over Entry.NoCall bound)
    {steps : List Step} (hsteps : ∀ st ∈ steps, st.Over Entry.NoCall bound) :
    let σ' := (σ.steps steps).2
    (∃ calls, History bound σ steps calls) ∧
    (∀ calls, History bound σ steps calls →
      ∀ n, Life (σ.cells.builtAt n) (answersOf n calls) (σ'.cells.builtAt n)) ∧
    (∀ n fuel s m, σ'.env.follow (fuel + 1) (.cell n) s m = match m.cells[n]? with
      | none => .error .exhausted m
      | some ⟨_, some p⟩ => p.eval σ'.env fuel s m
      | some ⟨t, none⟩ =>
        match (t.build σ'.names).run m.cells with
        | .error f => .error (.fault f) ⟨m.cells, .raised f :: .forced n :: m.trace⟩
        | .ok (p, cs) => p.eval σ'.env fuel s ⟨cs.settle n t p, .forced n :: m.trace⟩) ∧
    (∀ n p, σ'.cells.builtAt n = some p →
      ∀ later : List Step, (∀ st ∈ later, st.Over Entry.NoCall bound) →
      let σ'' := (σ'.steps later).2
      σ''.cells.builtAt n = some p ∧
      (∀ calls, History bound σ' later calls → answersOf n calls = []) ∧
      ∀ q : Parser Ref, q.Over Entry.NoCall (fun _ => True) → ∀ s,
        q.apply σ''.env s ⟨σ''.cells, []⟩
          = q.applyBy (Run.standing σ''.env n p) s ⟨σ''.cells, []⟩) := by
  intro σ'
  obtain ⟨⟨calls, hcalls⟩, hafter⟩ := hσ.exists_history hsteps
  refine ⟨⟨calls, hcalls⟩, fun _ h => h.life hσ hsteps, follow_cell σ'.env, ?_⟩
  intro n p hn later hlater σ''
  obtain ⟨⟨more, hmore⟩, hend⟩ := hafter.exists_history hlater
  -- A cell that is built has no life before it, so no calls are made for it.
  have hkept : ∀ calls, History bound σ' later calls →
      answersOf n calls = [] ∧ σ''.cells.builtAt n = some p := by
    intro calls h
    have hlife := h.life hafter hlater n
    rw [hn] at hlife
    exact hlife.of_some
  have hbuilt : σ''.cells.builtAt n = some p := (hkept more hmore).2
  refine ⟨hbuilt, fun calls h => (hkept calls h).1, fun q hq s => ?_⟩
  rw [Parser.apply_eq]
  exact Base.applyBy_standing (b := hend.base) hq s hbuilt

end Session

namespace Sample

/-- A name is bound to a part that is delayed until it is applied, and asks for another
    name, which is bound, and bound again, in between. -/
def rebinding : List Step :=
  [.define "a" (.link (.lazyNamed "b")), .run "a" ['x'], .define "b" (.literal ['x']),
    .run "a" ['x'], .define "b" .fail, .run "a" ['x']]

theorem rebinding_over : ∀ st ∈ rebinding, st.Over Entry.NoCall 0 := by
  intro st hst
  simp only [rebinding, List.mem_cons, List.not_mem_nil, or_false] at hst
  rcases hst with rfl | rfl | rfl | rfl | rfl | rfl
  · exact .link (.lazyNamed "b")
  · trivial
  · exact .literal ['x']
  · trivial
  · exact .fail
  · trivial

theorem empty_over : (Session.empty []).Over Entry.NoCall 0 where
  bound_le := Nat.le_refl 0
  names := .nil _ _
  rules := .nil _ _
  cells := ⟨fun _ _ h => (nomatch h), fun _ _ h => nomatch h⟩

end Sample

/-- The first application raises a fault, since the name is not bound yet; the second finds
    what the name is bound to then, and so does the third, though it is bound to something
    else by then. -/
theorem Session.lazy_late_then_sticky_rebinding :
    (Session.empty []).Over Entry.NoCall 0 ∧ (∀ st ∈ Sample.rebinding, st.Over Entry.NoCall 0) ∧
    ((Session.empty []).steps Sample.rebinding).1.map (fun r => match r.answer with
      | .reached s => some s.pos
      | _ => none) = [none, none, none, some 1, none, some 1] ∧
    ∃ calls, Session.History 0 (Session.empty []) Sample.rebinding calls ∧
      Life none (answersOf 0 calls) (some (.literal ['x'])) := by
  have hbuilt : ((Session.empty []).steps Sample.rebinding).2.cells.builtAt 0
      = some (.literal ['x']) := rfl
  obtain ⟨⟨calls, hcalls⟩, hlives, -⟩ :=
    Session.lazy_late_then_sticky Sample.empty_over Sample.rebinding_over
  refine ⟨Sample.empty_over, Sample.rebinding_over, by decide +kernel, calls, hcalls, ?_⟩
  have hlife := hlives calls hcalls 0
  rw [hbuilt] at hlife
  exact hlife

end Descent

/-
  Descent.Proofs.Simulation.Action

  Two runs that keep something in common.  A `Simulation` says what that is: a relation
  of the states, of the delayed parts and of the traces, with the laws that the steps of
  a parser need.  Every combinator then keeps it: if its parts act alike, so does the
  whole.  The lemmas come in the order of the combinators' definitions; the two loops
  are inductions over their fuel.
-/
import Descent.Proofs.Simulation.Run
import Descent.Proofs.Text.Search
import Descent.Parser.Eval

namespace Descent

/-- What two runs have in common.  A view is whatever stays the same while a text is
    read, such as the text itself; an inner text has a view of its own. -/
structure Simulation where
  View : Type
  state : View → State → State → Prop
  cells : Cells → Cells → Prop
  trace : Trace → Trace → Prop
  value_eq {v s s'} : state v s s' → s.value = s'.value
  rest_eq {v s s'} : state v s s' → s.rest = s'.rest
  inBounds_eq {v s s'} : state v s s' → s.inBounds = s'.inBounds
  pos_eq_iff {v s s' t t'} : state v s s' → state v t t' → (t.pos = s.pos ↔ t'.pos = s'.pos)
  withValue {v s s'} : state v s s' → ∀ a, state v (s.withValue a) (s'.withValue a)
  /-- No more is consumed than lies ahead. -/
  advance {v s s'} : state v s s' →
    ∀ n a, n ≤ s.rest.length → state v (s.advance n a) (s'.advance n a)
  toEnd {v s s'} : state v s s' → ∀ a, state v (s.toEnd a) (s'.toEnd a)
  moveTo {v s s' t t'} : state v s s' → state v t t' →
    ∀ a, state v (s.moveTo t.pos a) (s'.moveTo t'.pos a)
  start (text : Text) : ∃ v, state v (State.start text) (State.start text)
  write {w w'} : trace w w' → ∀ e, trace (e :: w) (e :: w')
  /-- Log records are written about related states. -/
  log {v s s' w w'} : state v s s' → trace w w' → ∀ record : State → LogRecord,
    trace (.logged (record s) :: w) (.logged (record s') :: w')

namespace Simulation

open Run Descent.Action

variable (σ : Simulation)

/-- Related memories. -/
def mem (m m' : Memory) : Prop := σ.cells m.cells m'.cells ∧ σ.trace m.trace m'.trace

/-- Related results: both states, or both none. -/
abbrev outcome (v : σ.View) : Option State → Option State → Prop := Option.Rel (σ.state v)

/-- Two actions act alike on related states. -/
def Acts (a b : Action) : Prop :=
  ∀ v s s', σ.state v s s' → Sim σ.mem (σ.outcome v) (a s) (b s')

variable {σ} {v : σ.View} {s s' : State} {p p' q q' : Action}

theorem allowsWrite : AllowsWrite σ.mem := fun e _ _ hm => ⟨hm.1, σ.write hm.2 e⟩

theorem sim_log (h : σ.state v s s') (record : State → LogRecord) :
    Sim σ.mem Eq (Run.write (.logged (record s))) (Run.write (.logged (record s'))) :=
  fun _ _ hm => .ok rfl ⟨hm.1, σ.log h hm.2 record⟩

theorem sim_none : Sim σ.mem (σ.outcome v) (pure none) (pure none) := .pure .none

theorem sim_some (h : σ.state v s s') :
    Sim σ.mem (σ.outcome v) (pure (some s)) (pure (some s')) := .pure (.some h)

theorem atEnd_eq (h : σ.state v s s') : s.atEnd = s'.atEnd := by
  rw [State.atEnd, State.atEnd, σ.rest_eq h]

/-- An attempt stalls on one side if it does on the other. -/
theorem stalled_eq (h : σ.state v s s') (ht : σ.state v t t') :
    (t.pos == s.pos) = (t'.pos == s'.pos) := by
  rw [Bool.eq_iff_iff, beq_iff_eq, beq_iff_eq]
  exact σ.pos_eq_iff h ht

/-! ## Leaves -/

theorem acts_satisfy (test : Callback Char Bool) : σ.Acts (satisfy test) (satisfy test) := by
  intro v s s' h
  unfold satisfy
  rw [← σ.rest_eq h]
  split
  · exact sim_none
  · next c rest hrest =>
    refine .bind (.call allowsWrite test c) ?_
    rintro passed _ rfl
    cases passed with
    | false => exact sim_none
    | true => exact sim_some (σ.advance h 1 _ (by rw [hrest]; exact Nat.succ_pos _))

theorem acts_literal (text : Text) : σ.Acts (literal text) (literal text) := by
  intro v s s' h
  unfold literal
  rw [← σ.rest_eq h, ← σ.inBounds_eq h]
  split
  · next found =>
    have hpre : text <+: s.rest := List.isPrefixOf_iff_prefix.1 (Bool.and_eq_true_iff.1 found).2
    exact sim_some (σ.advance h _ _ hpre.length_le)
  · exact sim_none

theorem acts_upTo (delimiter : Text) : σ.Acts (upTo delimiter) (upTo delimiter) := by
  intro v s s' h
  unfold upTo
  rw [← σ.rest_eq h, ← σ.inBounds_eq h]
  split
  · cases hfind : Text.offset? delimiter s.rest with
    | none => exact sim_none
    | some n => exact sim_some (σ.advance h n _ (Text.offset?_le hfind))
  · exact sim_none

theorem acts_bracketed (left right : Char) :
    σ.Acts (bracketed left right) (bracketed left right) := by
  intro v s s' h
  unfold bracketed
  rw [← σ.rest_eq h]
  split
  · exact sim_none
  · next c inside hrest =>
    split
    · cases hclose : Text.closing? left right inside with
      | none => exact sim_none
      | some n =>
        refine sim_some (σ.advance h (n + 1) _ ?_)
        rw [hrest]
        exact Nat.succ_le_succ (Text.closing?_le hclose)
    · exact sim_none

theorem acts_remaining : σ.Acts remaining remaining := by
  intro v s s' h
  unfold remaining
  rw [← σ.rest_eq h]
  exact sim_some (σ.toEnd h _)

theorem acts_endOfInput : σ.Acts endOfInput endOfInput := by
  intro v s s' h
  unfold endOfInput
  rw [← atEnd_eq h]
  split
  · exact sim_some (σ.withValue h _)
  · exact sim_none

theorem acts_constant (value : Value) : σ.Acts (constant value) (constant value) :=
  fun _ _ _ h => sim_some (σ.withValue h value)

theorem acts_fail : σ.Acts fail fail := fun _ _ _ _ => sim_none

theorem acts_lookAhead (condition : Callback Text Bool) :
    σ.Acts (lookAhead condition) (lookAhead condition) := by
  intro v s s' h
  unfold lookAhead
  rw [← σ.rest_eq h]
  refine .bind (.call allowsWrite condition s.rest) ?_
  rintro holds _ rfl
  cases holds with
  | false => exact sim_none
  | true => exact sim_some h

theorem acts_checkpoint (label : String) : σ.Acts (checkpoint label) (checkpoint label) :=
  fun _ _ _ h =>
    .bind (sim_log h fun t => .reached label t.pos t.preview) fun _ _ _ => sim_some h

/-! ## One after the other -/

/-- Going on from related results.  The second step may be read in another view, as it
    is where it reads a text of its own. -/
theorem sim_andThen {w : σ.View} {next next' : Action}
    (hp : Sim σ.mem (σ.outcome v) (p s) (p' s'))
    (hnext : ∀ t t', σ.state v t t' → Sim σ.mem (σ.outcome w) (next t) (next' t')) :
    Sim σ.mem (σ.outcome w) (p.andThen next s) (p'.andThen next' s') := by
  refine .bind hp fun r r' hr => ?_
  cases hr with
  | none => exact sim_none
  | some ht => exact hnext _ _ ht

theorem acts_seq (hp : σ.Acts p p') (hq : σ.Acts q q') : σ.Acts (p.seq q) (p'.seq q') :=
  fun v _ _ h => sim_andThen (hp v _ _ h) (hq v)

theorem acts_thenSkip (hp : σ.Acts p p') (hq : σ.Acts q q') :
    σ.Acts (p.thenSkip q) (p'.thenSkip q') := by
  intro v s s' h
  refine sim_andThen (hp v s s' h) fun l l' hl => ?_
  refine sim_andThen (hq v l l' hl) fun r r' hr => ?_
  rw [σ.value_eq hl]
  exact sim_some (σ.withValue hr _)

theorem acts_merge (hp : σ.Acts p p') (hq : σ.Acts q q') :
    σ.Acts (p.merge q) (p'.merge q') := by
  intro v s s' h
  refine sim_andThen (hp v s s' h) fun l l' hl => ?_
  refine sim_andThen (hq v l l' hl) fun r r' hr => ?_
  rw [σ.value_eq hl, σ.value_eq hr]
  refine .bind (.fieldsOf allowsWrite .left _) ?_
  rintro older _ rfl
  refine .bind (.fieldsOf allowsWrite .right _) ?_
  rintro newer _ rfl
  exact sim_some (σ.withValue hr _)

theorem acts_between {o o' c c' : Action} (ho : σ.Acts o o') (hc : σ.Acts c c')
    (hp : σ.Acts p p') : σ.Acts (o.between c p) (o'.between c' p') :=
  acts_thenSkip (acts_seq ho hp) hc

/-! ## One inside the other -/

theorem acts_seqInside (hp : σ.Acts p p') (hq : σ.Acts q q') (key : Option String) :
    σ.Acts (p.seqInside q key) (p'.seqInside q' key) := by
  intro v s s' h
  refine sim_andThen (hp v s s' h) fun l l' hl => ?_
  rw [σ.value_eq hl]
  refine .bind (.innerText allowsWrite _ key) ?_
  rintro text _ rfl
  obtain ⟨w, hw⟩ := σ.start text
  refine sim_andThen (hq w _ _ hw) fun r r' hr => ?_
  rw [σ.value_eq hr]
  exact sim_some (σ.withValue hl _)

theorem acts_mergeInside (hp : σ.Acts p p') (hq : σ.Acts q q') (key : Option String) :
    σ.Acts (p.mergeInside q key) (p'.mergeInside q' key) := by
  intro v s s' h
  refine sim_andThen (hp v s s' h) fun l l' hl => ?_
  rw [σ.value_eq hl]
  refine .bind (.innerText allowsWrite _ key) ?_
  rintro text _ rfl
  obtain ⟨w, hw⟩ := σ.start text
  refine sim_andThen (hq w _ _ hw) fun r r' hr => ?_
  rw [σ.value_eq hr]
  refine .bind (.fieldsOf allowsWrite .left _) ?_
  rintro older _ rfl
  refine .bind (.fieldsOf allowsWrite .right _) ?_
  rintro newer _ rfl
  exact sim_some (σ.withValue hl _)

/-! ## Alternatives and single parts -/

theorem acts_orElse (hp : σ.Acts p p') (hq : σ.Acts q q') :
    σ.Acts (p.orElse q) (p'.orElse q') := by
  intro v s s' h
  refine .bind (hp v s s' h) fun r r' hr => ?_
  cases hr with
  | none => exact hq v s s' h
  | some ht => exact sim_some ht

theorem acts_orDefault (hp : σ.Acts p p') (value : Value) :
    σ.Acts (p.orDefault value) (p'.orDefault value) :=
  acts_orElse hp (acts_constant value)

theorem acts_field (hp : σ.Acts p p') (key : String) :
    σ.Acts (p.field key) (p'.field key) := by
  intro v s s' h
  refine sim_andThen (hp v s s' h) fun r r' hr => ?_
  rw [σ.value_eq hr]
  exact sim_some (σ.withValue hr _)

theorem acts_map (hp : σ.Acts p p') (f : Callback Value Value) :
    σ.Acts (p.map f) (p'.map f) := by
  intro v s s' h
  refine sim_andThen (hp v s s' h) fun r r' hr => ?_
  rw [σ.value_eq hr]
  refine .bind (.call allowsWrite f _) ?_
  rintro a _ rfl
  exact sim_some (σ.withValue hr a)

theorem acts_traced (hp : σ.Acts p p') (label : String) :
    σ.Acts (p.traced label) (p'.traced label) := by
  intro v s s' h
  refine .bind (sim_log h fun t => .trying label t.pos t.preview) fun _ _ _ => ?_
  refine .bind (hp v s s' h) fun r r' hr => ?_
  cases hr with
  | none => exact .bind (sim_log h fun t => .failed label t.pos) fun _ _ _ => sim_none
  | some ht =>
    exact .bind (sim_log ht fun t => .matched label t.value t.pos) fun _ _ _ => sim_some ht

/-! ## Repetition -/

theorem sim_wantsMore (condition : Option (Callback Text Bool)) (h : σ.state v s s') :
    Sim σ.mem Eq (wantsMore condition s) (wantsMore condition s') := by
  cases condition with
  | none => exact .pure rfl
  | some k =>
    simp only [wantsMore, σ.rest_eq h]
    exact .call allowsWrite k _

theorem sim_collected (bounds : Bounds) (count : Nat) (values : List Value)
    (h : σ.state v s s') :
    Sim σ.mem (σ.outcome v) (pure (collected bounds s count values))
      (pure (collected bounds s' count values)) := by
  unfold collected
  split
  · exact sim_none
  · exact sim_some (σ.withValue h _)

/-- A repetition with at least as much fuel asks the same questions and stops for the same
    reason. -/
theorem sim_repeatFrom (hp : σ.Acts p p') (bounds : Bounds)
    (condition : Option (Callback Text Bool)) (carried : Value) (n n' : Nat) (hn : n ≤ n')
    (s s' : State) (h : σ.state v s s') (count : Nat) (values : List Value) :
    Sim σ.mem (σ.outcome v) (repeatFrom p bounds condition carried n s count values)
      (repeatFrom p' bounds condition carried n' s' count values) := by
  -- On the fuel of the first side, which is the one that may run out.
  induction n generalizing n' s s' count values with
  | zero => exact .exhaust
  | succ n ih =>
    obtain ⟨n', rfl⟩ : ∃ k, n' = k + 1 := ⟨n' - 1, by omega⟩
    rw [repeatFrom, repeatFrom, ← atEnd_eq h]
    split
    · exact sim_collected bounds count values h
    · refine .bind (sim_wantsMore condition h) ?_
      rintro wanted _ rfl
      cases wanted with
      | false => exact sim_collected bounds count values h
      | true =>
        refine .bind (hp v _ _ (σ.withValue h carried)) fun r r' hr => ?_
        cases hr with
        | none => exact sim_collected bounds count values h
        | @some t t' ht =>
          -- Both sides see the same: whether the attempt has moved, and its value.
          simp only [← stalled_eq h ht, ← σ.value_eq ht]
          split
          · exact .reject _
          · exact ih n' (Nat.le_of_succ_le_succ hn) t t' ht _ _

theorem acts_many (hp : σ.Acts p p') (bounds : Bounds)
    (condition : Option (Callback Text Bool)) {n n' : Nat} (hn : n ≤ n') :
    σ.Acts (p.many bounds condition n) (p'.many bounds condition n') := by
  intro v s s' h
  unfold many
  rw [σ.value_eq h]
  exact sim_repeatFrom hp bounds condition _ n n' hn s s' h 0 []

/-! ## Scan -/

theorem sim_flush (ofRun : Callback Text Value) (run : Text) (items : List Value) :
    Sim σ.mem Eq (flush ofRun run items) (flush ofRun run items) := by
  unfold flush
  split
  · exact .pure rfl
  · refine .bind (.call allowsWrite ofRun _) ?_
    rintro a _ rfl
    exact .pure rfl

theorem sim_scanned (ofRun : Callback Text Value) (run : Text) (items : List Value)
    (h : σ.state v s s') :
    Sim σ.mem (σ.outcome v) (scanned ofRun s run items) (scanned ofRun s' run items) := by
  refine .bind (sim_flush ofRun run items) ?_
  rintro items _ rfl
  split
  · exact sim_none
  · exact sim_some (σ.withValue h _)

/-- A scan with at least as much fuel makes the same attempts and finds the same items. -/
theorem sim_scanFrom (hp : σ.Acts p p') (ofRun : Callback Text Value)
    (condition : Callback Text Bool) (n n' : Nat) (hn : n ≤ n') (s s' : State)
    (h : σ.state v s s') (run : Text) (items : List Value) :
    Sim σ.mem (σ.outcome v) (scanFrom p ofRun condition n s run items)
      (scanFrom p' ofRun condition n' s' run items) := by
  induction n generalizing n' s s' run items with
  | zero => exact .exhaust
  | succ n ih =>
    obtain ⟨n', rfl⟩ : ∃ k, n' = k + 1 := ⟨n' - 1, by omega⟩
    have hn' : n ≤ n' := Nat.le_of_succ_le_succ hn
    rw [scanFrom, scanFrom, ← σ.rest_eq h]
    split
    · exact sim_scanned ofRun run items h
    · next c rest hrest =>
      refine .bind (.call allowsWrite condition s.rest) ?_
      rintro holds _ rfl
      cases holds with
      | false => exact sim_scanned ofRun run items h
      | true =>
        refine .bind (hp v _ _ (σ.withValue h .none)) fun r r' hr => ?_
        cases hr with
        | none =>
          -- A character lies ahead, so both sides can go on by one.
          have hahead : 1 ≤ s.rest.length := by rw [hrest]; exact Nat.succ_pos _
          exact ih n' hn' _ _ (σ.advance h 1 .none hahead) _ _
        | @some t t' ht =>
          simp only [← stalled_eq h ht, ← σ.value_eq ht]
          split
          · exact .reject _
          · refine .bind (sim_flush ofRun run items) ?_
            rintro items _ rfl
            exact ih n' hn' _ _ (σ.moveTo h ht .none) _ _

theorem acts_interleave (hp : σ.Acts p p') (ofRun : Callback Text Value)
    (condition : Callback Text Bool) {n n' : Nat} (hn : n ≤ n') :
    σ.Acts (p.interleave ofRun condition n) (p'.interleave ofRun condition n') :=
  fun _ s s' h => sim_scanFrom hp ofRun condition n n' hn s s' h [] []

end Simulation
end Descent

/-
  Descent.Proofs.Loop.Fusion

  What may be moved between a loop and the parser in it.  A condition of a repetition is a
  look ahead before its element (`Action.repeatFrom_guarded`): the two loops are one and the
  same run, down to the calls that are made.  A mapping of the element is a mapping of the
  list that comes out in the end (`Run.alike_repeatFrom`, `Run.alike_scanFrom`): a loop never
  looks at a value it has collected, and it hands none of them to the next attempt.  There the
  calls come in another order, so the runs are compared but for their traces (`Run.Alike`);
  from then on only the answers of callbacks matter.
-/
import Descent.Proofs.Lazy.Outcome

namespace Descent

/-! ## Conditions -/

namespace Action

open Run

/-- A guard asks its condition, and where that holds the parser starts from the same state. -/
theorem guarded_eq (k : Callback Text Bool) (p : Action) (s : State) :
    (lookAhead k).seq p s = (do if ← call k s.rest then p s else pure none) := by
  rw [seq, andThen, lookAhead, bind_assoc]
  refine congrArg _ (funext fun holds => ?_)
  cases holds <;> rfl

/-- A repetition asks its condition at the places where a guard before its element would. -/
theorem repeatFrom_guarded (k : Callback Text Bool) (p : Action) (bounds : Bounds)
    (carried : Value) (fuel : Nat) (s : State) (count : Nat) (values : List Value) :
    repeatFrom p bounds (some k) carried fuel s count values
      = repeatFrom ((lookAhead k).seq p) bounds none carried fuel s count values := by
  induction fuel generalizing s count values with
  | zero => rfl
  | succ fuel ih =>
    rw [repeatFrom, repeatFrom]
    split
    · rfl
    · -- One side asks and then attempts, the other attempts what asks first.
      simp only [wantsMore, pure_bind, if_true, guarded_eq, State.withValue_rest, bind_assoc]
      refine congrArg _ (funext fun holds => ?_)
      cases holds with
      | false => rfl
      | true => simp only [if_true, ih]

end Action

/-- A condition of a repetition is a guard on its element.  A parser repeated as long as a
    condition holds, within whatever bounds, is that parser behind a look ahead, repeated
    within these bounds: from every state and every memory both come to the same, and make the
    same calls with the same arguments in the same order. -/
theorem Parser.many_guarded (p : Parser Ref) (bounds : Bounds) (k : Callback Text Bool) :
    (∀ env n s m, (many p bounds (some k)).eval env n s m
      = (many (seq (lookAhead k) p) bounds none).eval env n s m) ∧
    ∀ (σ : Session) s, σ.applyTo (many p bounds (some k)) s
      = σ.applyTo (many (seq (lookAhead k) p) bounds none) s := by
  have hsame : ∀ env n s, (many p bounds (some k)).eval env n s
      = (many (seq (lookAhead k) p) bounds none).eval env n s := fun env n s =>
    Action.repeatFrom_guarded k (p.eval env n) bounds s.value n s 0 []
  refine ⟨fun env n s m => congrFun (hsame env n s) m, fun σ s => ?_⟩
  have happly : (many p bounds (some k)).apply σ.env s
      = (many (seq (lookAhead k) p) bounds none).apply σ.env s := hsame σ.env (budget s) s
  rw [Session.applyTo_eq, Session.applyTo_eq, happly]

/-! ## Runs that differ in their traces -/

namespace Run

variable {α β γ δ : Type} {R : α → β → Prop} {Q : γ → δ → Prop}

/-- From the same delayed parts, whatever the traces, the runs come to ends that agree. -/
def Alike (R : α → β → Prop) (x : Run α) (y : Run β) : Prop :=
  ∀ m m', Simulation.anyTrace.mem m m' → Agree Simulation.anyTrace.mem R (x m) (y m')

namespace Alike

theorem pure {a : α} {b : β} (h : R a b) : Alike R (pure a) (pure b) := fun _ _ hm => .ok h hm

theorem exhaust : Alike R (Run.exhaust : Run α) (Run.exhaust : Run β) := fun _ _ _ => .exhausted

theorem reject (e : GrammarError) : Alike R (Run.reject e : Run α) (Run.reject e : Run β) :=
  fun _ _ hm => .fault hm

theorem bind {x : Run α} {y : Run β} {f : α → Run γ} {g : β → Run δ} (hxy : Alike R x y)
    (hfg : ∀ a b, R a b → Alike Q (f a) (g b)) : Alike Q (x >>= f) (y >>= g) := by
  intro m m' hm
  have hends := hxy m m' hm
  simp only [Bind.bind, EStateM.bind]
  generalize x m = r at hends
  generalize y m' = r' at hends
  cases hends with
  | ok hab hm₁ => exact hfg _ _ hab _ _ hm₁
  | fault hm₁ => exact .fault hm₁
  | exhausted => exact .exhausted

/-- Both sides ask the same and go on by it. -/
theorem ite {c : Bool} {x x' : Run α} {y y' : Run β} (hthen : Alike R x y)
    (helse : Alike R x' y') : Alike R (if c then x else x') (if c then y else y') := by
  cases c with
  | true => exact hthen
  | false => exact helse

/-- One side goes on where the other has ended. -/
theorem bind_left {Q : γ → β → Prop} {x : Run α} {y : Run β} {f : α → Run γ}
    (hxy : Alike R x y) (hf : ∀ a b, R a b → Alike Q (f a) (Pure.pure b)) :
    Alike Q (x >>= f) y := by
  rw [← bind_pure y]
  exact .bind hxy hf

theorem bind_right {Q : α → δ → Prop} {x : Run α} {y : Run β} {g : β → Run δ}
    (hxy : Alike R x y) (hg : ∀ a b, R a b → Alike Q (Pure.pure a) (g b)) :
    Alike Q x (y >>= g) := by
  rw [← bind_pure x]
  exact .bind hxy hg

/-- What a callback writes makes no difference. -/
theorem mem_log {m m' : Memory} (hm : Simulation.anyTrace.mem m m') (w w' : List Entry) :
    Simulation.anyTrace.mem (m.log w) (m'.log w') := ⟨hm.1, trivial⟩

/-- Two callbacks are called, and the first answers what the second does, under a function. -/
theorem call {k : Callback α γ} {k' : Callback β δ} {a : α} {b : β} {F : δ → γ}
    (h : k.answer a = (k'.answer b).map F) :
    Alike (fun c d => c = F d) (Run.call k a) (Run.call k' b) := by
  intro m m' hm
  rw [call_eq, call_eq, h]
  cases k'.answer b with
  | ok d => exact .ok rfl (mem_log hm _ _)
  | error f => exact .fault (mem_log hm _ _)

theorem call_self (k : Callback α γ) (a : α) : Alike Eq (Run.call k a) (Run.call k a) := by
  exact call (F := id) (id_map (k.answer a)).symm

/-- A callback that answers is called on one side only. -/
theorem call_left {k : Callback α γ} {a : α} {c : γ} (h : k.answer a = .ok c) {f : γ → Run δ}
    {y : Run β} {Q : δ → β → Prop} (hf : Alike Q (f c) y) : Alike Q (Run.call k a >>= f) y := by
  intro m m' hm
  rw [bind_of_ok (call_of_answer h m)]
  exact hf _ _ (mem_log hm _ [])

theorem call_right {k : Callback β δ} {b : β} {d : δ} (h : k.answer b = .ok d) {g : δ → Run γ}
    {x : Run α} {Q : α → γ → Prop} (hg : Alike Q x (g d)) : Alike Q x (Run.call k b >>= g) := by
  intro m m' hm
  rw [bind_of_ok (call_of_answer h m')]
  exact hg _ _ (mem_log hm [] _)

end Alike

/-- Alike runs from one memory have the same outcome. -/
theorem Alike.outcome_eq {x y : Run (Option State)} (h : Alike (Option.Rel Eq) x y) {m : Memory}
    (hm : m.cells.Plain) : outcome (x m) = outcome (y m) :=
  (h m m ⟨⟨rfl, hm⟩, trivial⟩).outcome_eq

/-- A plain parser is alike to itself. -/
theorem alike_eval {p : Parser Ref} (hp : p.Plain) {env : Env} (henv : env.Plain) (n : Nat)
    (s : State) : Alike (Option.Rel Eq) (p.eval env n s) (p.eval env n s) := fun _ _ hm =>
  Simulation.agree_eval (σ := .anyTrace) (fun _ _ => Iff.rfl) henv hp (v := ()) rfl hm n

end Run

/-! ## Mappings -/

namespace Callback

variable {α β γ : Type}

/-- One callback, and then another on what the first has answered. -/
def after (f : Callback β γ) (g : Callback α β) : Callback α γ where
  record a := g.record a ++ match g.answer a with
    | .ok b => f.record b
    | .error _ => []
  answer a := g.answer a >>= f.answer

/-- The entries of calls with one argument after another, up to the first fault. -/
def recordEach (f : Callback α β) : List α → List Entry
  | [] => []
  | a :: rest => f.record a ++ match f.answer a with
    | .ok _ => recordEach f rest
    | .error _ => []

/-- A mapping of each item of a list. -/
def each (f : Callback Value Value) : Callback Value Value where
  record
    | .list items => f.recordEach items
    | _ => []
  answer
    | .list items => (items.mapM f.answer).map .list
    | _ => .error (.callback "not a list")

variable {F : β → γ} {f : Callback β γ}

theorem answer_after (hf : ∀ b, f.answer b = .ok (F b)) (g : Callback α β) (a : α) :
    (f.after g).answer a = (g.answer a).map F := by
  show g.answer a >>= f.answer = _
  cases g.answer a with
  | ok b => exact hf b
  | error _ => rfl

theorem answer_each {F : Value → Value} {f : Callback Value Value}
    (hf : ∀ v, f.answer v = .ok (F v)) (items : List Value) :
    f.each.answer (.list items) = .ok (.list (items.map F)) := by
  have hanswer : f.answer = fun v => pure (F v) := funext hf
  have hitems : items.mapM f.answer = pure (items.map F) := by rw [hanswer, List.mapM_pure]
  show (items.mapM f.answer).map Value.list = _
  rw [hitems]
  rfl

end Callback

/-- The state with its value under a function. -/
def State.Mapped (F : Value → Value) (s' s : State) : Prop := s' = s.withValue (F s.value)

/-- The state with a list of values, each of them under a function. -/
def State.MappedItems (F : Value → Value) (s' s : State) : Prop :=
  ∃ items, s.value = .list items ∧ s' = s.withValue (.list (items.map F))

namespace Run

open Descent.Action

variable {F : Value → Value} {f : Callback Value Value} (hf : ∀ v, f.answer v = .ok (F v))
  {p q : Action}

include hf

/-- A mapping that always answers changes the value of a match, and nothing else. -/
theorem alike_map {s : State} (hp : Alike (Option.Rel Eq) (p s) (p s)) :
    Alike (Option.Rel (State.Mapped F)) (p.map f s) (p s) := by
  refine .bind_left hp fun o o' ho => ?_
  cases ho with
  | none => exact .pure .none
  | @some t t' ht =>
    subst ht
    exact .call_left (hf t.value) (.pure (.some rfl))

/-- The values of a list, mapped at last. -/
theorem alike_map_each {s : State}
    (hqp : Alike (Option.Rel (State.MappedItems F)) (q s) (p s)) :
    Alike (Option.Rel Eq) (q s) (p.map f.each s) := by
  refine .bind_right hqp fun o o' ho => ?_
  cases ho with
  | none => exact .pure .none
  | @some t' t ht =>
    obtain ⟨items, hitems, rfl⟩ := ht
    refine .call_right (d := .list (items.map F)) ?_ (.pure (.some rfl))
    rw [hitems]
    exact Callback.answer_each hf items

omit hf

theorem alike_collected (bounds : Bounds) (s : State) (v : Value) (count : Nat)
    (values : List Value) :
    Alike (Option.Rel (State.MappedItems F))
      (pure (collected bounds (s.withValue v) count (values.map F)))
      (pure (collected bounds s count values)) := by
  unfold collected
  split
  · exact .pure .none
  · refine .pure (.some ⟨values.reverse, rfl, ?_⟩)
    rw [List.map_reverse]
    rfl

/-- A repetition of mapped elements.  Each attempt starts with the value carried into the
    repetition, and whether it stalls is a matter of places, so the mapped values are only
    collected. -/
theorem alike_repeatFrom (hqp : ∀ s, Alike (Option.Rel (State.Mapped F)) (q s) (p s))
    (bounds : Bounds) (condition : Option (Callback Text Bool)) (carried : Value) (fuel : Nat)
    (s : State) (v : Value) (count : Nat) (values : List Value) :
    Alike (Option.Rel (State.MappedItems F))
      (repeatFrom q bounds condition carried fuel (s.withValue v) count (values.map F))
      (repeatFrom p bounds condition carried fuel s count values) := by
  -- The states of the two sides are at one place; the value `v` is the last one, mapped.
  induction fuel generalizing s v count values with
  | zero => exact .exhaust
  | succ fuel ih =>
    have hend : (s.withValue v).atEnd = s.atEnd := rfl
    have hask : Alike Eq (wantsMore condition (s.withValue v)) (wantsMore condition s) := by
      cases condition with
      | none => exact .pure rfl
      | some k => exact .call_self k s.rest
    rw [repeatFrom, repeatFrom, hend]
    split
    · exact alike_collected bounds s v count values
    · refine .bind hask ?_
      rintro wanted _ rfl
      cases wanted with
      | false => exact alike_collected bounds s v count values
      | true =>
        refine .bind (hqp (s.withValue carried)) fun o o' ho => ?_
        cases ho with
        | none => exact alike_collected bounds s v count values
        | @some next' next hnext =>
          subst hnext
          exact .ite (.reject _) (ih next (F next.value) (count + 1) (next.value :: values))

section Scan

variable {g g' : Callback Text Value} (hg : ∀ text, g'.answer text = (g.answer text).map F)

include hg

theorem alike_flush (run : Text) (items : List Value) :
    Alike (fun items' items => items' = items.map F) (flush g' run (items.map F))
      (flush g run items) := by
  unfold flush
  split
  · exact .pure rfl
  · refine .bind (.call (hg run.reverse)) ?_
    rintro _ v rfl
    exact .pure rfl

theorem alike_scanned (s : State) (run : Text) (items : List Value) :
    Alike (Option.Rel (State.MappedItems F)) (scanned g' s run (items.map F))
      (scanned g s run items) := by
  refine .bind (alike_flush hg run items) ?_
  rintro _ items rfl
  rw [List.isEmpty_map]
  split
  · exact .pure .none
  · refine .pure (.some ⟨items.reverse, rfl, ?_⟩)
    rw [List.map_reverse]
    rfl

/-- A scan for mapped elements, with the conversion of runs mapped too.  A scan goes on from a
    place and not from a state, so here both sides are always in the same state. -/
theorem alike_scanFrom (hqp : ∀ s, Alike (Option.Rel (State.Mapped F)) (q s) (p s))
    (condition : Callback Text Bool) (fuel : Nat) (s : State) (run : Text) (items : List Value) :
    Alike (Option.Rel (State.MappedItems F)) (scanFrom q g' condition fuel s run (items.map F))
      (scanFrom p g condition fuel s run items) := by
  induction fuel generalizing s run items with
  | zero => exact .exhaust
  | succ fuel ih =>
    rw [scanFrom, scanFrom]
    split
    · exact alike_scanned hg s run items
    · refine .bind (.call_self condition s.rest) ?_
      rintro holds _ rfl
      cases holds with
      | false => exact alike_scanned hg s run items
      | true =>
        refine .bind (hqp (s.withValue .none)) fun o o' ho => ?_
        cases ho with
        | none => exact ih _ _ items
        | @some next' next hnext =>
          -- Both sides match at the same place, so both complain or neither does.
          subst hnext
          refine .ite (.reject _) (.bind (alike_flush hg run items) ?_)
          rintro _ items rfl
          exact ih _ [] (next.value :: items)

end Scan

/-- Two mappings in a row are one mapping. -/
theorem alike_map_map {s : State} (hf : ∀ v, f.answer v = .ok (F v))
    (hp : Alike (Option.Rel Eq) (p s) (p s)) (h : Callback Value Value) :
    Alike (Option.Rel Eq) ((p.map f).map h s) (p.map (h.after f) s) := by
  refine .bind (alike_map hf hp) fun o o' ho => ?_
  cases ho with
  | none => exact .pure .none
  | @some t' t ht =>
    subst ht
    -- The second mapping is asked the same on both sides, for `f` always answers.
    have hanswer : h.answer (F t.value) = ((h.after f).answer t.value).map id := by
      show _ = (f.answer t.value >>= h.answer).map id
      rw [hf]
      exact (id_map (h.answer (F t.value))).symm
    refine .bind (.call hanswer) ?_
    rintro v _ rfl
    exact .pure (.some rfl)

end Run

/-- A mapping of alternatives. -/
theorem Action.map_orElse (p q : Action) (f : Callback Value Value) (s : State) :
    (p.orElse q).map f s = (p.map f).orElse (q.map f) s := by
  simp only [map, orElse, andThen, bind_assoc]
  refine congrArg _ (funext fun o => ?_)
  cases o with
  | none => rfl
  | some t => simp only [pure_bind, bind_assoc]

/-- Mappings commute with repetition, with scanning and with alternatives.  Let `f` always
    answer, and let the parsers be plain.  To map every element of a repetition is to map its
    list at last, within whatever bounds and under whatever condition; so it is with a scan, if
    the runs between the elements are mapped too.  A mapping of alternatives is one of each of
    them, down to the calls that are made.  And a mapping that comes after another one is the
    mapping that does both, be it one that raises faults. -/
theorem Parser.map_commutes {p q : Parser Ref} (hp : p.Plain) {env : Env} (henv : env.Plain)
    {m : Memory} (hm : m.cells.Plain) {F : Value → Value} {f : Callback Value Value}
    (hf : ∀ v, f.answer v = .ok (F v)) (n : Nat) (s : State) :
    (∀ bounds condition, Run.outcome ((many (map p f) bounds condition).eval env n s m)
      = Run.outcome ((map (many p bounds condition) f.each).eval env n s m)) ∧
    (∀ g condition, Run.outcome ((interleave (map p f) (f.after g) condition).eval env n s m)
      = Run.outcome ((map (interleave p g condition) f.each).eval env n s m)) ∧
    (map (orElse p q) f).eval env n s m = (orElse (map p f) (map q f)).eval env n s m ∧
    ∀ h, Run.outcome ((map (map p f) h).eval env n s m)
      = Run.outcome ((map p (h.after f)).eval env n s m) := by
  have hself := Run.alike_eval hp henv n
  have hmap : ∀ s, Run.Alike (Option.Rel (State.Mapped F)) ((map p f).eval env n s)
      (p.eval env n s) := fun s => Run.alike_map hf (hself s)
  refine ⟨fun bounds condition => ?_, fun g condition => ?_, ?_, fun h => ?_⟩
  · have hloop := Run.alike_repeatFrom hmap bounds condition s.value n s s.value 0 []
    exact (Run.alike_map_each hf hloop).outcome_eq hm
  · have hloop := Run.alike_scanFrom (Callback.answer_after hf g) hmap condition n s [] []
    exact (Run.alike_map_each hf hloop).outcome_eq hm
  · exact congrFun (Action.map_orElse (p.eval env n) (q.eval env n) f s) m
  · exact (Run.alike_map_map hf (hself s) h).outcome_eq hm

/-- Two groups, each in a list of its own, and a third that is not closed. -/
theorem Parser.map_commutes_groups :
    Sample.group.Plain ∧ Env.Plain ⟨[], []⟩ ∧ Sample.cells.Plain ∧
    (∀ v, (Callback.total fun v => Value.list [v]).answer v = .ok (.list [v])) ∧
    (match Run.outcome ((map (many Sample.group ⟨1, 0⟩ none)
        (Callback.total fun v => .list [v]).each).eval ⟨[], []⟩ 20
        (State.start "(ab)(c d)(e".toList) ⟨Sample.cells, []⟩) with
      | .ok (some t) => t.pos == 9 && (t.value.asList?.map List.length) == some 2
      | _ => false) = true ∧
    Run.outcome ((many (map Sample.group (.total fun v => .list [v])) ⟨1, 0⟩ none).eval ⟨[], []⟩ 20
        (State.start "(ab)(c d)(e".toList) ⟨Sample.cells, []⟩)
      = Run.outcome ((map (many Sample.group ⟨1, 0⟩ none)
        (Callback.total fun v => .list [v]).each).eval ⟨[], []⟩ 20
        (State.start "(ab)(c d)(e".toList) ⟨Sample.cells, []⟩) := by
  have hcommutes := Parser.map_commutes (q := .fail) Sample.group_plain Sample.env_plain
    (m := ⟨Sample.cells, []⟩) Sample.cells_plain (f := .total fun v => .list [v])
    (F := fun v => .list [v]) (fun _ => rfl) 20 (State.start "(ab)(c d)(e".toList)
  refine ⟨Sample.group_plain, Sample.env_plain, Sample.cells_plain, fun _ => rfl, ?_, ?_⟩
  · decide +kernel
  · exact hcommutes.1 ⟨1, 0⟩ none

end Descent

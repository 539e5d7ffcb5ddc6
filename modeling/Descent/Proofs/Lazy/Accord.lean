/-
  Descent.Proofs.Lazy.Accord

  Two runs of one parser whose links may do different things.  An `Accord` says what the
  memories of the two have in common as long as they go on, and where they end early.
  If the links act in accord, so does every parser over them (`Accord.acts_act`), steps of
  the user's own making included: the states of the two runs are the same all along, so
  nothing has to be known about a step.  One accord whose two sides are the same run says
  what a single run keeps.
-/
import Descent.Proofs.Congruence.Parser

namespace Descent

/-- What two runs have in common. -/
structure Accord where
  /-- The memories, as long as the runs go on. -/
  going : Memory → Memory → Prop
  /-- The memories, where both runs have ended early. -/
  ended : Stop → Memory → Memory → Prop
  /-- If the first run ends like this, nothing is asked of the second. -/
  waived : Stop → Prop
  /-- The entries that both runs may write. -/
  entry : Entry → Prop
  own : ∀ e, e.isForced = false → entry e
  write : ∀ {m m'}, going m m' → ∀ e, entry e →
    going { m with trace := e :: m.trace } { m' with trace := e :: m'.trace }
  stop : ∀ {m m'}, going m m' → ∀ e, ended e m m'

namespace Accord

open Run

variable (K : Accord) {α : Type}

/-- The ends of two runs in accord. -/
inductive Ends : EStateM.Result Stop Memory α → EStateM.Result Stop Memory α → Prop
  | ok (a : α) {m m' : Memory} : K.going m m' → Ends (.ok a m) (.ok a m')
  | ended (e : Stop) {m m' : Memory} : K.ended e m m' → Ends (.error e m) (.error e m')
  | waived {e : Stop} {m : Memory} {r : EStateM.Result Stop Memory α} :
      K.waived e → Ends (.error e m) r

/-- From memories in accord, two runs come to ends in accord. -/
def congruence : Congruence where
  Runs x y := ∀ m m', K.going m m' → K.Ends (x m) (y m')
  entry := K.entry
  result a _ _ h := .ok a h
  chain {_ _ x y f g} hxy hfg m m' h := by
    have hends := hxy m m' h
    generalize hr : x m = r at hends
    generalize hr' : y m' = r' at hends
    cases hends with
    | ok a h₁ =>
      rw [bind_of_ok hr, bind_of_ok hr']
      exact hfg m a _ hr _ _ h₁
    | ended e h₁ =>
      rw [bind_of_error hr, bind_of_error hr']
      exact .ended e h₁
    | waived he =>
      rw [bind_of_error hr]
      exact .waived he
  note he _ _ h := .ok () (K.write h _ he)
  raised f _ _ h := .ended (.fault f) (K.stop (K.write h (.raised f) (K.own _ rfl)) _)
  rejected e _ _ _ h := .ended (.fault (.grammar e)) (K.stop h _)

/-- Two actions are in accord on every state. -/
abbrev Acts (a b : Action) : Prop := K.congruence.Acts a b

/-- Loops end early on both sides. -/
theorem complains : K.congruence.Complains :=
  fun _ e _ _ h => .ended (.fault (.grammar e)) (K.stop h _)

/-- Both runs write what parsers write themselves. -/
theorem runs_write (e : Entry) (he : e.isForced = false) :
    K.congruence.Runs (Run.write e) (Run.write e) := K.congruence.note (K.own e he)

theorem parses : K.congruence.Parses where
  exhaust := fun _ _ h => .ended .exhausted (K.stop h _)
  checkpoint label s := .bind (K.runs_write _ rfl) fun _ => .pure (some s)
  traced hp label s := by
    refine .bind (K.runs_write _ rfl) fun _ => .bind (hp s) fun o => ?_
    cases o with
    | none => exact .bind (K.runs_write _ rfl) fun _ => .pure none
    | some t => exact .bind (K.runs_write _ rfl) fun _ => .pure (some t)
  probe hp s := .bind (K.runs_write _ rfl) fun _ => hp s

variable {K}

/-- If the links act in accord, so does every parser over them. -/
theorem acts_act {σ : Type} {links : σ → Prop} {follow follow' : σ → Action} {n : Nat}
    (hlinks : ∀ l, links l → K.Acts (follow l) (follow' l)) {p : Parser σ}
    (hp : p.Over K.entry links) : K.Acts (p.act follow n) (p.act follow' n) :=
  Congruence.acts_act K.parses hlinks (fun _ _ => K.complains.spares _) hp p.guarded_any

end Accord

/-! ## Links -/

/-- What a link does, if the parser that it stands for is found like this. -/
def followBy {σ : Type} (find : σ → Run (Parser σ)) : Nat → σ → Action
  | 0, _ => fun _ => Run.exhaust
  | fuel + 1, l => fun s => do
    let p ← find l
    p.act (followBy find fuel) fuel s

section Follow

variable {σ : Type} {find : σ → Run (Parser σ)} {l : σ} {m m' : Memory}

theorem followBy_of_ok {p : Parser σ} (h : find l m = .ok p m') (n : Nat) (s : State) :
    followBy find (n + 1) l s m = p.act (followBy find n) n s m' := Run.bind_of_ok h

theorem followBy_of_error {e : Stop} (h : find l m = .error e m') (n : Nat) (s : State) :
    followBy find (n + 1) l s m = .error e m' := Run.bind_of_error h

end Follow

/-- What two ways of finding a parser come to, in accord. -/
inductive Accord.Finds (K : Accord) {σ : Type} :
    EStateM.Result Stop Memory (Parser σ) → EStateM.Result Stop Memory (Parser σ) → Prop
  | ok {p : Parser σ} {m m' : Memory} : p.Over K.entry (fun _ => True) → K.going m m' →
      Finds K (.ok p m) (.ok p m')
  | ended (e : Stop) {m m' : Memory} : K.ended e m m' → Finds K (.error e m) (.error e m')
  | waived {e : Stop} {m : Memory} {r : EStateM.Result Stop Memory (Parser σ)} :
      K.waived e → Finds K (.error e m) r

/-- If parsers are found in accord, links act in accord. -/
theorem Accord.acts_followBy {K : Accord} {σ : Type} {find find' : σ → Run (Parser σ)}
    (h : ∀ l m m', K.going m m' → K.Finds (find l m) (find' l m')) (n : Nat) (l : σ) :
    K.Acts (followBy find n l) (followBy find' n l) := by
  induction n generalizing l with
  | zero => exact fun _ => K.parses.exhaust
  | succ n ih =>
    intro s m m' hm
    have hfinds := h l m m' hm
    generalize hr : find l m = r at hfinds
    generalize hr' : find' l m' = r' at hfinds
    cases hfinds with
    | ok hp hm₁ =>
      rw [followBy_of_ok hr, followBy_of_ok hr']
      exact acts_act (fun l _ => ih l) hp s _ _ hm₁
    | ended e hm₁ =>
      rw [followBy_of_error hr, followBy_of_error hr']
      exact .ended e hm₁
    | waived he =>
      rw [followBy_of_error hr]
      exact .waived he

/-- Apply a parser to a state, if the parsers that links stand for are found like this. -/
def Parser.applyBy {σ : Type} (find : σ → Run (Parser σ)) (p : Parser σ) : Action := fun s =>
  p.act (followBy find (budget s)) (budget s) s

/-- If parsers are found in accord, every parser is applied in accord. -/
theorem Accord.acts_applyBy {K : Accord} {σ : Type} {find find' : σ → Run (Parser σ)}
    (h : ∀ l m m', K.going m m' → K.Finds (find l m) (find' l m')) {p : Parser σ}
    (hp : p.Over K.entry fun _ => True) : K.Acts (p.applyBy find) (p.applyBy find') :=
  fun s => acts_act (fun l _ => acts_followBy h (Parser.budget s) l) hp s

theorem Env.follow_eq (env : Env) (n : Nat) : env.follow n = followBy (Run.resolve env) n := by
  induction n with
  | zero => rfl
  | succ n ih =>
    funext l s
    rw [Env.follow, followBy, ih]

theorem Parser.apply_eq (env : Env) (p : Parser Ref) :
    p.apply env = p.applyBy (Run.resolve env) := by
  funext s
  rw [Parser.apply, Parser.eval, Env.follow_eq, Parser.applyBy]

/-! ## Applications -/

/-- The memory that a run leaves, however it ends. -/
def Run.left {α : Type} : EStateM.Result Stop Memory α → Memory
  | .ok _ m => m
  | .error _ m => m

/-- The report of a run. -/
def Report.ofRun : EStateM.Result Stop Memory (Option State) → Report
  | .ok none m => ⟨.failed, m.trace.reverse⟩
  | .ok (some s) m => ⟨.reached s, m.trace.reverse⟩
  | .error (.fault f) m => ⟨.faulted f, m.trace.reverse⟩
  | .error .exhausted m => ⟨.exhausted, m.trace.reverse⟩

theorem Report.ofRun_trace (r : EStateM.Result Stop Memory (Option State)) :
    (Report.ofRun r).trace = (Run.left r).trace.reverse := by
  match r with
  | .ok none m => rfl
  | .ok (some s') m => rfl
  | .error (.fault f) m => rfl
  | .error .exhausted m => rfl

/-- An application reports a run and keeps the cells that it leaves. -/
theorem Session.applyTo_eq (σ : Session) (p : Parser Ref) (s : State) :
    σ.applyTo p s = (.ofRun (p.apply σ.env s ⟨σ.cells, []⟩),
      { σ with cells := (Run.left (p.apply σ.env s ⟨σ.cells, []⟩)).cells }) := by
  have hrun : (p.apply σ.env s).run ⟨σ.cells, []⟩ = p.apply σ.env s ⟨σ.cells, []⟩ := rfl
  unfold Session.applyTo
  rw [hrun]
  generalize p.apply σ.env s ⟨σ.cells, []⟩ = r
  match r with
  | .ok none m => rfl
  | .ok (some s') m => rfl
  | .error (.fault f) m => rfl
  | .error .exhausted m => rfl

end Descent

/-
  Descent.Proofs.Congruence.Run

  What holds of runs by the way in which they are made.  A `Congruence` is a relation between
  two runs that is kept when they are put together: of results, of runs one after the other, of
  entries that callbacks may write, and of faults.  Whatever is made of these is in the relation
  to itself, and combinators take related parts to related wholes.  So the steps of a
  parser are gone through once here, for comparisons of two runs and for what is said of a
  single one alike: that is a relation which does not look at its second run.
-/
import Descent.Proofs.Lazy.Over

namespace Descent

/-- A complaint of a loop about its element. -/
def GrammarError.Stalled (e : GrammarError) : Prop := e = .manyStalled ∨ e = .interleaveStalled

/-- A relation between runs that is kept by the ways in which runs are made. -/
structure Congruence where
  Runs : ∀ {α : Type}, Run α → Run α → Prop
  /-- The entries that callbacks may write. -/
  entry : Entry → Prop
  result : ∀ {α : Type} (a : α), Runs (pure a) (pure a)
  /-- What follows counts only for results to which the first part can come. -/
  chain : ∀ {α β : Type} {x y : Run α} {f g : α → Run β}, Runs x y →
    (∀ m a m₁, x m = .ok a m₁ → Runs (f a) (g a)) → Runs (x >>= f) (y >>= g)
  note : ∀ {e : Entry}, entry e → Runs (Run.write e) (Run.write e)
  raised : ∀ {α : Type} (f : Fault), Runs (Run.raise f : Run α) (Run.raise f)
  /-- Whether a loop may complain of its element is left open. -/
  rejected : ∀ {α : Type} (e : GrammarError), ¬ e.Stalled →
    Runs (Run.reject e : Run α) (Run.reject e)

namespace Congruence

open Run Descent.Action

variable (C : Congruence) {α β : Type}

/-- Two actions are related on every state. -/
def Acts (a b : Action) : Prop := ∀ s, C.Runs (a s) (b s)

/-- Loops may complain of their elements, too. -/
def Complains : Prop :=
  ∀ (α : Type) (e : GrammarError), C.Runs (Run.reject e : Run α) (Run.reject e)

variable {C} {s : State} {p p' q q' : Action}

/-! ## Runs -/

theorem Runs.pure (a : α) : C.Runs (pure a) (pure a) := C.result a

theorem Runs.bind {x y : Run α} {f g : α → Run β} (hxy : C.Runs x y)
    (hfg : ∀ a, C.Runs (f a) (g a)) : C.Runs (x >>= f) (y >>= g) :=
  C.chain hxy fun _ a _ _ => hfg a

theorem Runs.raise (f : Fault) : C.Runs (Run.raise f : Run α) (Run.raise f) := C.raised f

theorem Runs.reject {e : GrammarError} (he : ¬ e.Stalled) :
    C.Runs (Run.reject e : Run α) (Run.reject e) := C.rejected e he

theorem Runs.writeAll {entries : List Entry} (he : ∀ e ∈ entries, C.entry e) :
    C.Runs (Run.writeAll entries) (Run.writeAll entries) := by
  induction entries with
  | nil => exact .pure ()
  | cons e rest ih =>
    refine .bind (C.note (he e List.mem_cons_self)) fun _ => ?_
    exact ih fun e' he' => he e' (List.mem_cons_of_mem _ he')

/-- A callback gets the same argument on both sides, so it leaves the same entries and gives
    the same answer. -/
theorem Runs.call {k : Callback α β} (hk : k.Notes C.entry) (a : α) :
    C.Runs (Run.call k a) (Run.call k a) := by
  refine .bind (.writeAll (hk a)) fun _ => ?_
  split
  · exact .pure _
  · exact .raise _

theorem Runs.fieldsOf (side : Side) (v : Value) :
    C.Runs (Run.fieldsOf side v) (Run.fieldsOf side v) := by
  unfold Run.fieldsOf
  split
  · exact .pure _
  · exact .reject nofun

theorem Runs.textOf (v : Value) : C.Runs (Run.textOf v) (Run.textOf v) := by
  unfold Run.textOf
  split
  · exact .pure _
  · exact .reject nofun

theorem Runs.innerText (v : Value) (key : Option String) :
    C.Runs (Run.innerText v key) (Run.innerText v key) := by
  cases key with
  | none => exact .textOf v
  | some key =>
    -- The fields first, then the text under the key, if there is one.
    refine .bind (.fieldsOf .left v) fun entries => ?_
    split
    · exact .textOf _
    · exact .reject nofun

/-! ## Leaves -/

theorem Acts.satisfy {test : Callback Char Bool} (h : test.Notes C.entry) :
    C.Acts (satisfy test) (satisfy test) := by
  intro s
  unfold Action.satisfy
  split
  · exact .pure none
  · refine .bind (.call h _) fun passed => ?_
    split <;> exact .pure _

theorem Acts.lookAhead {condition : Callback Text Bool} (h : condition.Notes C.entry) :
    C.Acts (lookAhead condition) (lookAhead condition) := by
  intro s
  refine .bind (.call h s.rest) fun holds => ?_
  split <;> exact .pure _

/-! ## One after the other -/

theorem Runs.andThen {next next' : Action} (hp : C.Runs (p s) (p' s))
    (hnext : C.Acts next next') : C.Runs (p.andThen next s) (p'.andThen next' s) := by
  refine .bind hp fun o => ?_
  cases o with
  | none => exact .pure none
  | some t => exact hnext t

theorem Acts.seq (hp : C.Acts p p') (hq : C.Acts q q') : C.Acts (p.seq q) (p'.seq q') :=
  fun s => .andThen (hp s) hq

theorem Acts.thenSkip (hp : C.Acts p p') (hq : C.Acts q q') :
    C.Acts (p.thenSkip q) (p'.thenSkip q') :=
  fun s => .andThen (hp s) fun l => .andThen (hq l) fun _ => .pure _

/-- Where the fields of two values are put together. -/
theorem Runs.merged {f : Fields → Fields → α} (l r : Value) :
    C.Runs (do
        let older ← Run.fieldsOf .left l
        let newer ← Run.fieldsOf .right r
        Pure.pure (f older newer))
      (do
        let older ← Run.fieldsOf .left l
        let newer ← Run.fieldsOf .right r
        Pure.pure (f older newer)) :=
  .bind (.fieldsOf .left l) fun _ => .bind (.fieldsOf .right r) fun _ => .pure _

theorem Acts.merge (hp : C.Acts p p') (hq : C.Acts q q') : C.Acts (p.merge q) (p'.merge q') :=
  fun s => .andThen (hp s) fun l => .andThen (hq l) fun _ => .merged _ _

/-- The inner action starts from the same text on both sides. -/
theorem Runs.inside {l : State} {next : Action} (hq : C.Acts q q') (key : Option String)
    (hnext : C.Acts next next) :
    C.Runs (Run.innerText l.value key >>= fun text => q.andThen next (State.start text))
      (Run.innerText l.value key >>= fun text => q'.andThen next (State.start text)) :=
  .bind (.innerText l.value key) fun text => .andThen (hq (State.start text)) hnext

theorem Acts.seqInside (hp : C.Acts p p') (hq : C.Acts q q') (key : Option String) :
    C.Acts (p.seqInside q key) (p'.seqInside q' key) :=
  fun s => .andThen (hp s) fun _ => .inside hq key fun _ => .pure _

theorem Acts.mergeInside (hp : C.Acts p p') (hq : C.Acts q q') (key : Option String) :
    C.Acts (p.mergeInside q key) (p'.mergeInside q' key) :=
  fun s => .andThen (hp s) fun _ => .inside hq key fun _ => .merged _ _

/-! ## Alternatives and single parts -/

theorem Acts.orElse (hp : C.Acts p p') (hq : C.Acts q q') :
    C.Acts (p.orElse q) (p'.orElse q') := by
  intro s
  refine .bind (hp s) fun o => ?_
  cases o with
  | none => exact hq s
  | some t => exact .pure (some t)

theorem Acts.map (hp : C.Acts p p') {f : Callback Value Value} (hf : f.Notes C.entry) :
    C.Acts (p.map f) (p'.map f) :=
  fun s => .andThen (hp s) fun r => .bind (.call hf r.value) fun _ => .pure _

/-! ## What loops are made of -/

theorem Runs.wantsMore {condition : Option (Callback Text Bool)}
    (h : ∀ k ∈ condition, k.Notes C.entry) (s : State) :
    C.Runs (wantsMore condition s) (wantsMore condition s) := by
  cases condition with
  | none => exact .pure true
  | some k => exact .call (h k rfl) s.rest

theorem Runs.flush {ofRun : Callback Text Value} (h : ofRun.Notes C.entry) (run : Text)
    (items : List Value) : C.Runs (flush ofRun run items) (flush ofRun run items) := by
  unfold Action.flush
  split
  · exact .pure _
  · exact .bind (.call h _) fun _ => .pure _

theorem Runs.scanned {ofRun : Callback Text Value} (h : ofRun.Notes C.entry) (s : State)
    (run : Text) (items : List Value) :
    C.Runs (scanned ofRun s run items) (scanned ofRun s run items) :=
  .bind (.flush h run items) fun _ => .pure _

end Congruence
end Descent

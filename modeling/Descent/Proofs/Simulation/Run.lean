/-
  Descent.Proofs.Simulation.Run

  Runs side by side.  `Run.Sim M R x y` says that `y` answers whenever `x` does: from
  memories related by `M`, both end with results related by `R` or both raise the same
  fault, and the memories are related again.  Where `x` gives up for want of fuel nothing
  is said of `y`.  So one relation serves two ends: it compares runs on different states,
  and it says that more fuel changes no answer.
-/
import Descent.Proofs.Congruence.Run

namespace Descent.Run

variable {α β γ δ : Type} {M : Memory → Memory → Prop}

/-! ## Ends of runs -/

/-- The second end answers what the first one answers, if that is an answer. -/
inductive Matches (M : Memory → Memory → Prop) (R : α → β → Prop) :
    EStateM.Result Stop Memory α → EStateM.Result Stop Memory β → Prop
  | ok {a : α} {b : β} {m m' : Memory} :
      R a b → M m m' → Matches M R (.ok a m) (.ok b m')
  | fault {f : Fault} {m m' : Memory} :
      M m m' → Matches M R (.error (.fault f) m) (.error (.fault f) m')
  | exhausted {m : Memory} {r : EStateM.Result Stop Memory β} :
      Matches M R (.error .exhausted m) r

/-- Whether a run has given up. -/
def GaveUp : EStateM.Result Stop Memory α → Prop
  | .error .exhausted _ => True
  | _ => False

instance : DecidablePred (GaveUp (α := α))
  | .ok _ _ => isFalse id
  | .error (.fault _) _ => isFalse id
  | .error .exhausted _ => isTrue trivial

/-- The state that a run has reached, if it matched. -/
def matched? : EStateM.Result Stop Memory (Option State) → Option State
  | .ok r _ => r
  | .error _ _ => none

theorem matched?_eq_some {r : EStateM.Result Stop Memory (Option State)} {s : State}
    (h : matched? r = some s) : ∃ m, r = .ok (some s) m := by
  cases r with
  | ok a m => exact ⟨m, by rw [← h]; rfl⟩
  | error e m => cases h

/-- Ends that correspond: results for results, a fault for the same fault, and no answer
    for no answer. -/
inductive Agree (M : Memory → Memory → Prop) (R : α → β → Prop) :
    EStateM.Result Stop Memory α → EStateM.Result Stop Memory β → Prop
  | ok {a : α} {b : β} {m m' : Memory} : R a b → M m m' → Agree M R (.ok a m) (.ok b m')
  | fault {f : Fault} {m m' : Memory} :
      M m m' → Agree M R (.error (.fault f) m) (.error (.fault f) m')
  | exhausted {m m' : Memory} : Agree M R (.error .exhausted m) (.error .exhausted m')

section Agree

variable {R : α → β → Prop} {r : EStateM.Result Stop Memory α}
  {r' : EStateM.Result Stop Memory β}

theorem Agree.mono {M' : Memory → Memory → Prop} (hM : ∀ m m', M m m' → M' m m')
    (h : Agree M R r r') : Agree M' R r r' := by
  cases h with
  | ok hab hm => exact .ok hab (hM _ _ hm)
  | fault hm => exact .fault (hM _ _ hm)
  | exhausted => exact .exhausted

/-- Where the first end is an answer, to match it is to agree with it. -/
theorem Matches.agree (h : Matches M R r r') (answered : ¬ GaveUp r) : Agree M R r r' := by
  cases h with
  | ok hab hm => exact .ok hab hm
  | fault hm => exact .fault hm
  | exhausted => exact absurd trivial answered

/-- Ends that match each other give up together. -/
theorem Matches.agree_of_flip {M' : Memory → Memory → Prop} {R' : β → α → Prop}
    (h : Matches M R r r') (hflip : Matches M' R' r' r) : Agree M R r r' := by
  cases h with
  | ok hab hm => exact .ok hab hm
  | fault hm => exact .fault hm
  | exhausted =>
    cases hflip with
    | exhausted => exact .exhausted

end Agree

/-! ## Runs -/

/-- From related memories, `y` answers what `x` answers. -/
def Sim (M : Memory → Memory → Prop) (R : α → β → Prop) (x : Run α) (y : Run β) : Prop :=
  ∀ m m', M m m' → Matches M R (x m) (y m')

variable {R : α → β → Prop} {Q : γ → δ → Prop}

theorem Sim.pure {a : α} {b : β} (h : R a b) : Sim M R (pure a) (pure b) :=
  fun _ _ hm => .ok h hm

theorem Sim.bind {x : Run α} {y : Run β} {f : α → Run γ} {g : β → Run δ}
    (hxy : Sim M R x y) (hfg : ∀ a b, R a b → Sim M Q (f a) (g b)) :
    Sim M Q (x >>= f) (y >>= g) := by
  intro m m' hm
  have h := hxy m m' hm
  simp only [Bind.bind, EStateM.bind]
  generalize x m = r at h
  generalize y m' = r' at h
  cases h with
  | ok hab hm₁ => exact hfg _ _ hab _ _ hm₁
  | fault hm₁ => exact .fault hm₁
  | exhausted => exact .exhausted

theorem Sim.exhaust {y : Run β} : Sim M R (Run.exhaust : Run α) y :=
  fun _ _ _ => .exhausted

theorem Sim.reject (e : GrammarError) :
    Sim M R (Run.reject e : Run α) (Run.reject e : Run β) :=
  fun _ _ hm => .fault hm

/-- Both sides see related memories. -/
theorem Sim.get : Sim M M get get := fun _ _ hm => .ok hm hm

/-! ## Runs that write to the trace -/

/-- The relation allows any entry to be written on both sides. -/
def AllowsWrite (M : Memory → Memory → Prop) : Prop :=
  ∀ (e : Entry) m m', M m m' →
    M { m with trace := e :: m.trace } { m' with trace := e :: m'.trace }

theorem Sim.write (hM : AllowsWrite M) (e : Entry) : Sim M Eq (Run.write e) (Run.write e) :=
  fun m m' hm => .ok rfl (hM e m m' hm)

theorem Sim.raise (hM : AllowsWrite M) (f : Fault) :
    Sim M R (Run.raise f : Run α) (Run.raise f : Run β) :=
  fun m m' hm => .fault (hM (.raised f) m m' hm)

/-- Runs beside themselves, with the same results on both sides. -/
def AllowsWrite.congruence (hM : AllowsWrite M) : Congruence where
  Runs x y := Sim M Eq x y
  entry _ := True
  result _ := .pure rfl
  chain {_ _ x y _ _} hxy hfg m m' hm := by
    have h := hxy m m' hm
    simp only [Bind.bind, EStateM.bind]
    generalize hr : x m = r at h
    generalize y m' = r' at h
    cases h with
    | @ok a _ _ _ hab hm₁ =>
      obtain rfl := hab
      exact hfg m a _ hr _ _ hm₁
    | fault hm₁ => exact .fault hm₁
    | exhausted => exact .exhausted
  note {e} _ := .write hM e
  raised f := .raise hM f
  rejected e _ := .reject e

theorem Sim.call (hM : AllowsWrite M) (k : Callback α β) (a : α) :
    Sim M Eq (Run.call k a) (Run.call k a) :=
  Congruence.Runs.call (C := hM.congruence) k.notes_any a

theorem Sim.fieldsOf (hM : AllowsWrite M) (side : Side) (v : Value) :
    Sim M Eq (Run.fieldsOf side v) (Run.fieldsOf side v) :=
  Congruence.Runs.fieldsOf (C := hM.congruence) side v

theorem Sim.innerText (hM : AllowsWrite M) (v : Value) (key : Option String) :
    Sim M Eq (Run.innerText v key) (Run.innerText v key) :=
  Congruence.Runs.innerText (C := hM.congruence) v key

end Descent.Run

/-
  Descent.Proofs.Loop.Run

  Runs taken step by step.  Where the first part of a run ends with a result, the run goes
  on from there (`bind_of_ok`); where it ends early, so does the whole (`bind_of_error`);
  there is no other way to a result (`exists_of_bind`).  So it is with two actions in a row,
  which go on only from a match (`Action.andThen_of_matched`).  A call of a callback adds to
  the trace and does nothing else to the memory (`call_eq`).
-/
import Descent.Proofs.Congruence.Run

namespace Descent

namespace Memory

/-- The memory with entries added to its trace, in the order in which they happened. -/
def log (m : Memory) (entries : List Entry) : Memory :=
  { m with trace := entries.reverse ++ m.trace }

theorem log_cons (m : Memory) (e : Entry) (entries : List Entry) :
    ({ m with trace := e :: m.trace } : Memory).log entries = m.log (e :: entries) := by
  unfold log
  rw [List.reverse_cons, List.append_assoc, List.singleton_append]

end Memory

namespace Run

variable {α β : Type} {x : Run α} {f : α → Run β} {m m' : Memory}

theorem bind_of_ok {a : α} (h : x m = .ok a m') : (x >>= f) m = f a m' := by
  simp only [Bind.bind, EStateM.bind, h]

theorem bind_of_error {e : Stop} (h : x m = .error e m') : (x >>= f) m = .error e m' := by
  simp only [Bind.bind, EStateM.bind, h]

/-- A run that has come to a result has come to one in its first part. -/
theorem exists_of_bind {b : β} (h : (x >>= f) m = .ok b m') :
    ∃ a m₁, x m = .ok a m₁ ∧ f a m₁ = .ok b m' := by
  cases hr : x m with
  | ok a m₁ =>
    rw [bind_of_ok hr] at h
    exact ⟨a, m₁, rfl, h⟩
  | error e m₁ =>
    rw [bind_of_error hr] at h
    cases h

theorem writeAll_eq (entries : List Entry) (m : Memory) :
    writeAll entries m = .ok () (m.log entries) := by
  induction entries generalizing m with
  | nil => rfl
  | cons e rest ih =>
    have hwrite : write e m = .ok () { m with trace := e :: m.trace } := rfl
    rw [writeAll, bind_of_ok hwrite, ih, Memory.log_cons]

/-- A call writes the entries of the callback, and one more if it raises a fault. -/
theorem call_eq (k : Callback α β) (a : α) (m : Memory) :
    call k a m = match k.answer a with
      | .ok b => .ok b (m.log (k.record a))
      | .error fault => .error (.fault fault) (m.log (k.record a ++ [.raised fault])) := by
  rw [call, bind_of_ok (writeAll_eq (k.record a) m)]
  cases k.answer a with
  | ok b => rfl
  | error fault =>
    simp only [raise, Memory.log, List.reverse_append]
    rfl

/-- A callback that answers leaves its entries and nothing else. -/
theorem call_of_answer {k : Callback α β} {a : α} {b : β} (h : k.answer a = .ok b)
    (m : Memory) : call k a m = .ok b (m.log (k.record a)) := by
  rw [call_eq, h]

/-- What a call answers is the callback's answer, and the delayed parts stay. -/
theorem call_ok {k : Callback α β} {a : α} {b : β} (h : call k a m = .ok b m') :
    k.answer a = .ok b ∧ m'.cells = m.cells := by
  rw [call_eq] at h
  cases hanswer : k.answer a with
  | ok b' =>
    rw [hanswer] at h
    cases h
    exact ⟨rfl, rfl⟩
  | error fault =>
    rw [hanswer] at h
    cases h

/-- Runs that leave the delayed parts as they are, if they come to a result. -/
def keepingCells : Congruence where
  Runs x _ := ∀ m a m', x m = .ok a m' → m'.cells = m.cells
  entry _ := True
  result _ _ _ _ h := by
    cases h
    rfl
  chain hx hf m b m' h := by
    obtain ⟨a, m₁, hfirst, hrest⟩ := exists_of_bind h
    exact (hf m a m₁ hfirst m₁ b m' hrest).trans (hx m a m₁ hfirst)
  note _ _ _ _ h := by
    cases h
    rfl
  raised _ _ _ _ h := nomatch h
  rejected _ _ _ _ _ h := nomatch h

theorem wantsMore_cells {condition : Option (Callback Text Bool)} {s : State} {m m' : Memory}
    {b : Bool} (h : Action.wantsMore condition s m = .ok b m') : m'.cells = m.cells :=
  Congruence.Runs.wantsMore (C := keepingCells) (fun k _ => k.notes_any) s m b m' h

end Run

namespace Action

variable {first next : Action} {s s' : State} {m m' : Memory}

theorem andThen_of_some (h : first s = pure (some s')) : first.andThen next s = next s' := by
  rw [andThen, h, pure_bind]

theorem andThen_of_none (h : first s = pure none) : first.andThen next s = pure none := by
  rw [andThen, h, pure_bind]

/-- Where the first part of a sequence matches, the rest goes on from there. -/
theorem andThen_of_matched (h : first s m = .ok (some s') m') :
    first.andThen next s m = next s' m' := Run.bind_of_ok h

theorem andThen_of_failed (h : first s m = .ok none m') :
    first.andThen next s m = .ok none m' := Run.bind_of_ok h

theorem andThen_of_stopped {e : Stop} (h : first s m = .error e m') :
    first.andThen next s m = .error e m' := Run.bind_of_error h

theorem andThen_assoc (p q r : Action) (s : State) :
    (p.andThen q).andThen r s = p.andThen (fun t => q.andThen r t) s := by
  unfold andThen
  rw [bind_assoc]
  refine congrArg _ (funext fun o => ?_)
  cases o with
  | none => rfl
  | some t => rfl

/-- Two runs that come to the same go on alike, if they do so from what is left. -/
theorem bind_congr {α β : Type} {x y : Run α} {f g : α → Run β} {m : Memory} (hxy : x m = y m)
    (hfg : ∀ a m₁, y m = .ok a m₁ → f a m₁ = g a m₁) : (x >>= f) m = (y >>= g) m := by
  cases hr : y m with
  | ok a m₁ => rw [Run.bind_of_ok (hxy.trans hr), Run.bind_of_ok hr, hfg a m₁ hr]
  | error e m₁ => rw [Run.bind_of_error (hxy.trans hr), Run.bind_of_error hr]

/-- A sequence that matches has done so in both parts. -/
theorem exists_of_andThen {t : State} (h : first.andThen next s m = .ok (some t) m') :
    ∃ l m₁, first s m = .ok (some l) m₁ ∧ next l m₁ = .ok (some t) m' := by
  obtain ⟨o, m₁, hfirst, hnext⟩ := Run.exists_of_bind h
  cases o with
  | none => cases hnext
  | some l => exact ⟨l, m₁, hfirst, hnext⟩

end Action
end Descent

/-
  Descent.Proofs.Lazy.Outcome

  What a plain parser comes to depends on the session and the state, and on nothing else.
  Inside a longer run it is applied in a memory in which links have been built and entries have
  been written; it comes to the same there as when it is applied on its own
  (`Session.Later.outcome_eval`), and leaves such a memory again; where it matches, it has
  stayed in its text (`Session.Later.matched`).
-/
import Descent.Proofs.Lazy.Settled

namespace Descent

/-! ## Outcomes -/

section Outcome

variable {α : Type} {r : EStateM.Result Stop Memory α}

theorem Run.outcome_eq_ok_iff {a : α} : outcome r = .ok a ↔ ∃ m, r = .ok a m := by
  cases r with
  | ok b m => simp [outcome]
  | error e m => simp [outcome]

theorem Run.outcome_eq_error_iff {e : Stop} : outcome r = .error e ↔ ∃ m, r = .error e m := by
  cases r with
  | ok b m => simp [outcome]
  | error e' m => simp [outcome]

end Outcome

/-- Ends that agree have the same outcome. -/
theorem Run.Agree.outcome_eq {M : Memory → Memory → Prop}
    {r r' : EStateM.Result Stop Memory (Option State)} (h : Agree M (Option.Rel Eq) r r') :
    outcome r = outcome r' := by
  cases h with
  | ok ho _ =>
    cases ho with
    | none => rfl
    | some hs => exact congrArg (fun s => Except.ok (some s)) hs
  | fault => rfl
  | exhausted => rfl

namespace Report

open Run

variable {r r' : EStateM.Result Stop Memory (Option State)}

/-- A report says what the run has come to, and no more apart from the trace. -/
theorem answer_ofRun_eq_iff :
    (Report.ofRun r).answer = (Report.ofRun r').answer ↔ outcome r = outcome r' := by
  rcases r with ⟨_ | _, _⟩ | ⟨_ | _, _⟩ <;> rcases r' with ⟨_ | _, _⟩ | ⟨_ | _, _⟩ <;>
    simp [Report.ofRun, outcome]

theorem answer_ofRun_eq_reached_iff {s : State} :
    (Report.ofRun r).answer = .reached s ↔ ∃ m, r = .ok (some s) m := by
  rcases r with ⟨_ | _, _⟩ | ⟨_ | _, _⟩ <;> simp [Report.ofRun]

end Report

/-! ## The text of a run -/

/-- A run beside itself, in one text. -/
def Simulation.sameText : Simulation where
  View := Text
  state text s s' := s = s' ∧ s.text = text
  cells := Cells.SamePlain
  trace _ _ := True
  value_eq h := by rw [h.1]
  rest_eq h := by rw [h.1]
  inBounds_eq h := by rw [h.1]
  pos_eq_iff h ht := by rw [h.1, ht.1]
  withValue := fun ⟨heq, h⟩ a => ⟨by rw [heq], h⟩
  advance := fun ⟨heq, h⟩ n a _ => ⟨by rw [heq], h⟩
  toEnd := fun ⟨heq, h⟩ a => ⟨by rw [heq], h⟩
  moveTo := fun ⟨heq, h⟩ ⟨hteq, _⟩ a => ⟨by rw [heq, hteq], by rw [State.moveTo_text, h]⟩
  start text := ⟨text, rfl, rfl⟩
  write _ _ := trivial
  log _ _ _ := trivial

/-- Where a plain parser matches, it has stayed in its text, and so it does from beyond the end
    of one. -/
theorem Parser.eval_text {p : Parser Ref} (hp : p.Plain) {env : Env} (henv : env.Plain)
    {m m' : Memory} (hm : m.cells.Plain) {n : Nat} {s t : State}
    (h : p.eval env n s m = .ok (some t) m') : t.text = s.text ∧ m'.cells.Plain := by
  have hacts := Simulation.acts_eval (σ := Simulation.sameText) (fun _ _ => Iff.rfl) henv hp
    (Nat.le_refl n) s.text s s ⟨rfl, rfl⟩ m m ⟨⟨rfl, hm⟩, trivial⟩
  rw [h] at hacts
  cases hacts with
  | ok ho hm' =>
    cases ho with
    | some ht => exact ⟨ht.2, hm'.1.2⟩

/-! ## In a session -/

/-- Whatever a session holds is plain. -/
structure Session.Plain (σ : Session) : Prop where
  env : σ.env.Plain
  cells : σ.cells.Plain

namespace Session

variable {σ : Session} {bound : Nat} {hσ : σ.Over (fun _ => True) bound} {m m' : Memory}
  {p : Parser Ref} {s t : State}

/-- A memory to which runs in the session can come, from the one with which they start. -/
structure Later (hσ : σ.Over (fun _ => True) bound) (m : Memory) : Prop where
  holds : hσ.base.Holds σ.cells m
  plain : m.cells.Plain

theorem Plain.later (h : σ.Plain) : Later hσ ⟨σ.cells, []⟩ where
  holds := hσ.holds
  plain := h.cells

/-- A plain parser of the session. -/
structure Has (σ : Session) (p : Parser Ref) : Prop where
  scope : p.Over (fun _ => True) (Ref.Below σ.cells.size)
  plain : p.Plain

/-- In a later memory a parser comes to what it comes to on its own, to any depth of links. -/
theorem Later.outcome_eval (hm : Later hσ m) (hp : σ.Has p) (n : Nat) (s : State) :
    Run.outcome (p.eval σ.env n s m) = Run.outcome (p.eval σ.env n s ⟨σ.cells, []⟩) :=
  (hσ.settled hp.scope n s).same hm.holds hσ.holds

/-- The memory that a parser leaves where it does not end the run is a later one. -/
theorem Later.eval_ok (hm : Later hσ m) (hplain : σ.Plain) (hp : σ.Has p) {n : Nat}
    {o : Option State} (h : p.eval σ.env n s m = .ok o m') : Later hσ m' :=
  ⟨(hσ.settled hp.scope n s).keeps hm.holds h,
    (Parser.eval_ok_any_trace hp.plain hplain.env hm.plain h []).1⟩

/-- Where a parser matches in a later memory, it has stayed in its text, it reaches what it
    reaches on its own, and the memory that it leaves is a later one. -/
theorem Later.matched (hm : Later hσ m) (hplain : σ.Plain) (hp : σ.Has p)
    (h : p.eval σ.env (Parser.budget s) s m = .ok (some t) m') :
    t.text = s.text ∧ (σ.applyTo p s).1.answer = .reached t ∧ Later hσ m' := by
  have houtcome := hm.outcome_eval hp (Parser.budget s) s
  rw [h] at houtcome
  refine ⟨(Parser.eval_text hp.plain hplain.env hm.plain h).1, ?_, hm.eval_ok hplain hp h⟩
  rw [applyTo_eq]
  exact (Report.answer_ofRun_eq_iff.2 houtcome).symm

end Session

namespace Sample

theorem nest_plain : nest.Plain :=
  .orElse (.seqInside (.bracketed _ _) (.link trivial) _)
    (.orElse (.seq (.literal _) (.link trivial)) .remaining)

theorem session_plain : session.Plain where
  env := by
    refine ⟨fun entry h => ?_, fun entry h => absurd h List.not_mem_nil⟩
    obtain rfl := List.mem_singleton.1 h
    exact nest_plain
  cells := by
    have hwaiting : ∀ name, Cell.Plain ⟨.named name, none⟩ := fun name =>
      ⟨.named name, fun _ hp => absurd hp (Option.not_mem_none _)⟩
    intro cell h
    simp only [session, List.mem_toArray, List.mem_cons, List.not_mem_nil, or_false] at h
    rcases h with rfl | rfl
    · exact hwaiting "nest"
    · exact hwaiting "gone"

end Sample
end Descent

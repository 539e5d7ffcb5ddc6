/-
  Descent.Proofs.Account.Raised

  Faults pass through.  A callback or a thunk that raises a fault is noted in the trace, and
  the note is the last that the run writes (`Base.quietly`): no alternative is tried after
  it, no default takes its place and no loop stops at it, at whatever depth it was raised.
  The run ends with that fault and no other.  So a parser that does not match has met with no
  fault at all.  Probes may be put around any parts of a grammar to see which of them are
  applied; they change nothing but the trace.
-/
import Descent.Proofs.Account.Basic
import Descent.Proofs.Instrument.Transparent

namespace Descent

open Run

/-- The entry is not a note of a fault. -/
def Entry.Quiet (e : Entry) : Prop := ∀ f, e ≠ .raised f

/-- No fault is noted. -/
def Trace.Quiet (w : Trace) : Prop := ∀ e ∈ w, e.Quiet

/-- How a run that has written these entries may end early: with a complaint of the library
    or without an answer, where no fault is noted, or with the fault that is noted last. -/
inductive Trace.Explains : Stop → Trace → Prop
  | rejected (e : GrammarError) {w : Trace} : w.Quiet → Explains (.fault (.grammar e)) w
  | exhausted {w : Trace} : w.Quiet → Explains .exhausted w
  | raised (f : Fault) {w : Trace} : w.Quiet → Explains (.fault f) (.raised f :: w)

namespace Trace

variable {w v : Trace}

theorem Quiet.nil : Quiet [] := fun _ h => nomatch h

theorem Quiet.append (hw : w.Quiet) (hv : v.Quiet) : Quiet (v ++ w) :=
  List.forall_mem_append.2 ⟨hv, hw⟩

theorem Quiet.cons {e : Entry} (he : e.Quiet) (hw : w.Quiet) : Quiet (e :: w) :=
  List.forall_mem_cons.2 ⟨he, hw⟩

theorem Quiet.one {e : Entry} (he : e.Quiet) : Quiet [e] := .cons he .nil

theorem quiet_logged (r : LogRecord) : (Entry.logged r).Quiet := nofun

/-- What was written before a run changes nothing about its end, if no fault was noted. -/
theorem Explains.after {e : Stop} (h : Explains e v) (hw : w.Quiet) : Explains e (v ++ w) := by
  cases h with
  | rejected e hv => exact .rejected e (hw.append hv)
  | exhausted hv => exact .exhausted (hw.append hv)
  | raised f hv => exact .raised f (hw.append hv)

end Trace

/-- A run is quiet if it comes to a result, and says why if it does not. -/
inductive Run.Explained {α : Type} : EStateM.Result Stop Memory α → Prop
  | ok (a : α) {m : Memory} : Trace.Quiet m.trace → Explained (.ok a m)
  | ended {e : Stop} {m : Memory} : Trace.Explains e m.trace → Explained (.error e m)

namespace Run.Explained

open Trace

variable {α : Type} {r : EStateM.Result Stop Memory α} {f : Fault}

/-- A fault that is noted is the one that the run ends with, and it is noted last. -/
theorem of_mem (h : Explained r) (hf : .raised f ∈ (left r).trace) :
    outcome r = .error (.fault f) ∧ ∃ w, (left r).trace = .raised f :: w ∧ Quiet w := by
  cases h with
  | ok a hquiet => exact absurd rfl (hquiet _ hf f)
  | @ended e m hexplains =>
    rcases m with ⟨cells, trace⟩
    dsimp only [left] at hf hexplains ⊢
    cases hexplains with
    | rejected e hw => exact absurd rfl (hw _ hf f)
    | exhausted hw => exact absurd rfl (hw _ hf f)
    | @raised f' w hw =>
      -- There is one note, at the head; behind it all is quiet.
      rcases List.mem_cons.1 hf with heq | hf
      · obtain rfl : f = f' := Entry.raised.inj heq
        exact ⟨rfl, w, rfl, hw⟩
      · exact absurd rfl (hw _ hf f)

/-- A fault that is no complaint of the library is noted last. -/
theorem of_fault (h : Explained r) (hout : outcome r = .error (.fault f))
    (hf : ∀ e, f ≠ .grammar e) : ∃ w, (left r).trace = .raised f :: w ∧ Quiet w := by
  cases h with
  | ok => cases hout
  | @ended e m hexplains =>
    cases hout
    rcases m with ⟨cells, trace⟩
    dsimp only [left] at hexplains ⊢
    cases hexplains with
    | rejected e => exact absurd rfl (hf e)
    | raised f hw => exact ⟨_, rfl, hw⟩

theorem of_result (h : Explained r) {a : α} (hout : outcome r = .ok a) :
    Quiet (left r).trace := by
  cases h with
  | ok a hquiet => exact hquiet
  | ended => cases hout

end Run.Explained

namespace Base

open Trace

variable (b : Base Entry.Quiet)

/-- Runs are quiet until one ends early, and say then why. -/
def quietly : Account where
  cells := b.Later
  passed := Trace.Quiet
  ended := Trace.Explains
  entry := Entry.Quiet
  nil := .nil
  append := .append
  after hw hv := hv.after hw
  called := .one
  checked _ _ := .one (quiet_logged _)
  probed _ := .one nofun
  failed _ _ _ hw := .append (.append (.one (quiet_logged _)) hw) (.one (quiet_logged _))
  matched _ _ _ _ hw := .append (.append (.one (quiet_logged _)) hw) (.one (quiet_logged _))
  left _ _ _ _ hw := hw.after (.one (quiet_logged _))
  exhausted := .exhausted .nil
  raised f := .raised f .nil
  rejected e _ := .rejected e .nil

variable {b}

/-- A link is followed quietly, but for a thunk that raises a fault. -/
theorem quietly_finds (l : Ref) (m : Memory) (hm : b.Later m.cells) :
    b.quietly.Finds (fun _ => True) (fun _ => True) m (resolve b.env l m) := by
  have hforced : ∀ k, Trace.Quiet [.forced k] := fun k => .one nofun
  have hresolves := Run.resolves b.env m l
  refine ⟨?_, fun p m' hp => ⟨?_, p.guarded_any⟩⟩
  · generalize resolve b.env l m = r at hresolves
    cases hresolves with
    | rule => exact .ok _ rfl .nil hm
    | noRule => exact .ended rfl (.exhausted .nil)
    | noCell => exact .ended rfl (.exhausted .nil)
    | built => exact .ok _ rfl .nil hm
    | @raised k t f => exact .ended (w := [.raised f, .forced k]) rfl (.raised f (hforced k))
    | @returned k t p cs hk hbuild =>
      exact .ok p (w := [.forced k]) rfl (hforced k) (hm.returned_settle hk hbuild).2.1
  · rw [hp] at hresolves
    cases hresolves with
    | rule hrule => exact (b.rules _ _ hrule).mono fun _ _ => trivial
    | built hk => exact hm.over_any hk
    | returned hk hbuild => exact (hm.returned_settle hk hbuild).1

/-- A run from the base says why it ends. -/
theorem explained {p : Parser Ref} (hp : p.Over Entry.Quiet fun _ => True) (n : Nat) (s : State) :
    Explained (p.eval b.env n s ⟨b.cells, []⟩) := by
  -- A complaint of a loop is no note, so elements may be anything.
  have hcomplains : b.quietly.congruence.Complains :=
    Account.complains fun e => .rejected e .nil
  have hends := Account.acts_find (A := b.quietly) (fun l _ => quietly_finds l)
    (fun _ _ _ => hcomplains.spares _) hp p.guarded_any n s ⟨b.cells, []⟩ (.refl b)
  rw [Parser.eval, Env.follow_eq]
  generalize p.act _ n s _ = r at hends
  cases hends with
  | ok a htrace hw =>
    rw [List.append_nil] at htrace
    subst htrace
    exact .ok a hw
  | ended htrace hw =>
    rw [List.append_nil] at htrace
    subst htrace
    exact .ended hw

end Base

/-- Faults are never swallowed.  If a callback or a thunk raises a fault in an application,
    the application ends with exactly that fault, and nothing is written to the trace after
    the note of it: nothing is called, no log record is written and no probe is passed.  The
    other way round, an application that ends with a fault that is no complaint about the
    grammar has noted that fault last.  And all that is left of an application without its
    probes is the same: probes may stand at any parts of the parser, and the outcome does not
    depend on them. -/
theorem Session.fault_passes {σ σ' : Session} {bound : Nat} (hσ : σ.Over Entry.Quiet bound)
    {p p' : Parser Ref} (hp : p.Over Entry.Quiet fun _ => True) (hσ' : σ.Thins .probe σ')
    (hp' : p.Thins .probe Eq p') (n : Nat) (s : State) :
    let r := p.eval σ.env n s ⟨σ.cells, []⟩
    let r' := p'.eval σ'.env n s ⟨σ'.cells, []⟩
    (∀ f, .raised f ∈ (left r).trace →
      outcome r = .error (.fault f) ∧ ∃ w, (left r).trace = .raised f :: w ∧ Trace.Quiet w) ∧
    (∀ f, outcome r = .error (.fault f) → (∀ e, f ≠ .grammar e) →
      ∃ w, (left r).trace = .raised f :: w ∧ Trace.Quiet w) ∧
    (outcome r = .ok none → Trace.Quiet (left r).trace) ∧
    outcome r' = outcome r ∧
    (left r').trace.without .probe = (left r).trace.without .probe := by
  intro r r'
  have hexplained : Explained r := hσ.base.explained hp n s
  -- What is left without probes runs beside it, with the same outcome.
  obtain ⟨hout, hm⟩ := Instruments.ends_iff.1 (hσ'.eval hp' n s)
  exact ⟨fun f hf => hexplained.of_mem hf, fun f hf hgrammar => hexplained.of_fault hf hgrammar,
    fun ho => hexplained.of_result ho, hout.symm, hm.trace.symm⟩

namespace Sample

/-- Any character but an exclamation mark, at which the test raises a fault. -/
def soft : Callback Char Bool :=
  .test fun c => if c = '!' then .error (.callback "loud") else .ok true

/-- A session whose only delayed part is a traced row of characters. -/
def rows (character : Expr) : Session :=
  ⟨[], [], #[⟨.expr (.traced (.many character {} none) "row"), none⟩], State.start []⟩

/-- A row, or what another parser finds, or nothing. -/
def rowOr (other : Parser Ref) : Parser Ref :=
  .orDefault (.orElse (.link (.cell 0)) other) .none

theorem soft_notes : soft.Notes Entry.Quiet := by
  intro c e he
  obtain rfl := List.mem_singleton.1 he
  exact nofun

theorem rows_over : (rows (.probe (.satisfy soft))).Over Entry.Quiet 1 where
  bound_le := Nat.le_refl 1
  names := .nil Entry.Quiet 1
  rules := .nil Entry.Quiet 1
  cells := by
    refine .of_waiting fun cell hcell => ?_
    obtain rfl := List.mem_singleton.1 (Array.mem_def.1 hcell)
    exact ⟨rfl, .expr (.traced (.repeated (.probe (.satisfy soft_notes)) _) _)⟩

theorem rows_thins :
    (rows (.probe (.satisfy soft))).Thins .probe (rows (.satisfy soft)) where
  env := ⟨.refl _, .refl _⟩
  cells := (Cells.Thins.refl #[]).push
    (.expr (.traced (.many (.dropProbe (.satisfy soft) rfl) _ _) _))

theorem rowOr_over : (rowOr (.probe .remaining)).Over Entry.Quiet fun _ => True :=
  .orDefault (.orElse (.link trivial) (.probe .remaining)) _

theorem rowOr_thins : (rowOr (.probe .remaining)).Thins .probe Eq (rowOr .remaining) :=
  .orDefault (.orElse (.link rfl) (.dropProbe .remaining rfl)) _

end Sample

/-- A fault is raised in a loop, in a traced parser, in a delayed part.  Three characters have
    been tried by then; the alternative and the default never are. -/
theorem Session.fault_passes_rowOr :
    ∃ r, r = (Sample.rowOr (.probe .remaining)).eval
        (Sample.rows (.probe (.satisfy Sample.soft))).env 9 (State.start "ab!c".toList)
        ⟨(Sample.rows (.probe (.satisfy Sample.soft))).cells, []⟩ ∧
      outcome r = .error (.fault (.callback "loud")) ∧
      (∃ w, (left r).trace = .raised (.callback "loud") :: w ∧ Trace.Quiet w) ∧
      (left r).trace.countP Instruments.probe.writes = 3 ∧
      outcome ((Sample.rowOr .remaining).eval (Sample.rows (.satisfy Sample.soft)).env 9
        (State.start "ab!c".toList) ⟨(Sample.rows (.satisfy Sample.soft)).cells, []⟩)
          = outcome r := by
  obtain ⟨-, hfault, -, hout, -⟩ := Session.fault_passes Sample.rows_over Sample.rowOr_over
    Sample.rows_thins Sample.rowOr_thins 9 (State.start "ab!c".toList)
  exact ⟨_, rfl, rfl, hfault _ rfl nofun, by decide +kernel, hout⟩

end Descent

/-
  Descent.Proofs.Offset

  A position in a text stands for what lies ahead of it.  If a text is put before
  another one and a plain parser is applied at the corresponding place, it calls the same
  tests, conditions, mappings and thunks with the same arguments, and it comes to the same
  end: no match, the same fault, or the same value at the corresponding place.  So what a
  parser does is a function of what lies ahead, although it is given a position.
-/
import Descent.Proofs.Simulation.Parser

namespace Descent

/-! ## Corresponding states and memories -/

/-- The second state is the first one with a text put before its own. -/
structure State.Behind (u : Text) (s s' : State) : Prop where
  text : s'.text = u ++ s.text
  pos : s'.pos = u.length + s.pos
  value : s'.value = s.value

/-- The entries of a trace that are no log records: calls of callbacks and of thunks. -/
def Trace.calls (w : Trace) : Trace := w.filter fun e => e.record?.isNone

/-- The same delayed parts, and the same calls so far. -/
structure Memory.SameCalls (m m' : Memory) : Prop where
  cells : m'.cells = m.cells
  calls : m'.trace.calls = m.trace.calls

namespace State.Behind

variable {u : Text} {s s' t t' : State}

theorem make (u t : Text) (i : Nat) (a : Value) :
    State.Behind u (State.make t i a) (State.make (u ++ t) (u.length + i) a) :=
  ⟨rfl, rfl, rfl⟩

theorem rest (h : State.Behind u s s') : s.rest = s'.rest := by
  rw [s.rest_eq, s'.rest_eq, h.text, h.pos, List.drop_length_add_append]

theorem inBounds (h : State.Behind u s s') : s.inBounds = s'.inBounds := by
  rw [Bool.eq_iff_iff, State.inBounds_iff, State.inBounds_iff, h.text, h.pos,
    List.length_append]
  omega

theorem pos_eq_iff (h : State.Behind u s s') (ht : State.Behind u t t') :
    t.pos = s.pos ↔ t'.pos = s'.pos := by
  rw [h.pos, ht.pos]
  omega

theorem withValue (h : State.Behind u s s') (a : Value) :
    State.Behind u (s.withValue a) (s'.withValue a) := ⟨h.text, h.pos, rfl⟩

theorem advance (h : State.Behind u s s') (n : Nat) (a : Value) :
    State.Behind u (s.advance n a) (s'.advance n a) := by
  refine ⟨h.text, ?_, rfl⟩
  rw [State.advance_pos, State.advance_pos, h.pos, Nat.add_assoc]

theorem toEnd (h : State.Behind u s s') (a : Value) :
    State.Behind u (s.toEnd a) (s'.toEnd a) := by
  refine ⟨h.text, ?_, rfl⟩
  rw [State.toEnd_pos, State.toEnd_pos, h.text, List.length_append]

theorem moveTo (h : State.Behind u s s') (ht : State.Behind u t t') (a : Value) :
    State.Behind u (s.moveTo t.pos a) (s'.moveTo t'.pos a) := by
  rw [State.moveTo_eq_make, State.moveTo_eq_make]
  exact ⟨h.text, ht.pos, rfl⟩

end State.Behind

theorem Trace.calls_cons {w w' : Trace} (h : w'.calls = w.calls) (e : Entry) :
    Trace.calls (e :: w') = Trace.calls (e :: w) := by
  unfold calls at h ⊢
  rw [List.filter_cons, List.filter_cons, h]

theorem Trace.calls_logged {w w' : Trace} (h : w'.calls = w.calls) (r r' : LogRecord) :
    Trace.calls (.logged r' :: w') = Trace.calls (.logged r :: w) := h

/-! ## The simulation -/

/-- A text put before another.  An inner text has nothing put before it. -/
def Simulation.behind : Simulation where
  View := Text
  state := State.Behind
  cells := Cells.SamePlain
  trace w w' := w'.calls = w.calls
  value_eq h := h.value.symm
  rest_eq := State.Behind.rest
  inBounds_eq := State.Behind.inBounds
  pos_eq_iff := State.Behind.pos_eq_iff
  withValue h := h.withValue
  advance h n a _ := h.advance n a
  toEnd h := h.toEnd
  moveTo h ht := h.moveTo ht
  start _ := ⟨[], rfl, (Nat.zero_add 0).symm, rfl⟩
  write := Trace.calls_cons
  log _ hw _ := Trace.calls_logged hw _ _

/-! ## Position independence -/

/-- A plain parser comes to corresponding ends on a text and on the same text behind
    another one, whatever the fuel.  Within the budgets of the two states, of which the
    longer text has more, it does so unless it gives up on the shorter text. -/
theorem Parser.eval_behind {p : Parser Ref} (hp : p.Plain) {env : Env} (henv : env.Plain)
    {m : Memory} (hm : m.cells.Plain) (u t : Text) (i : Nat) (a : Value) :
    (∀ n, Run.Agree Memory.SameCalls (Option.Rel (State.Behind u))
      (p.eval env n (State.make t i a) m)
      (p.eval env n (State.make (u ++ t) (u.length + i) a) m)) ∧
    (¬ Run.GaveUp (p.apply env (State.make t i a) m) →
      Run.Agree Memory.SameCalls (Option.Rel (State.Behind u))
        (p.apply env (State.make t i a) m)
        (p.apply env (State.make (u ++ t) (u.length + i) a) m)) := by
  have hstate := State.Behind.make u t i a
  have hmem : Simulation.behind.mem m m := ⟨⟨rfl, hm⟩, rfl⟩
  have hcells : ∀ c c', Simulation.behind.cells c c' ↔ Cells.SamePlain c c' :=
    fun _ _ => Iff.rfl
  have hsame : ∀ m m', Simulation.behind.mem m m' → m.SameCalls m' :=
    fun _ _ h => ⟨h.1.1.symm, h.2⟩
  refine ⟨?_, ?_⟩
  · intro n
    exact (Simulation.agree_eval hcells henv hp hstate hmem n).mono hsame
  · intro answered
    -- The longer text has the larger budget, so it gives up no sooner.
    have hlen : t.length ≤ (u ++ t).length := by
      rw [List.length_append]
      omega
    exact (Simulation.agree_apply hcells henv hp hstate hlen hmem answered).mono hsame

/-- Two groups of letters behind an open bracket that is never closed. -/
theorem Parser.eval_behind_groups :
    Sample.groups.Plain ∧ Env.Plain ⟨[], []⟩ ∧ Sample.cells.Plain ∧
    ¬ Run.GaveUp (Sample.groups.apply ⟨[], []⟩
      (State.make "(ab)(c d)".toList 0 .none) ⟨Sample.cells, []⟩) ∧
    Run.Agree Memory.SameCalls (Option.Rel (State.Behind ['(', '[']))
      (Sample.groups.apply ⟨[], []⟩ (State.make "(ab)(c d)".toList 0 .none) ⟨Sample.cells, []⟩)
      (Sample.groups.apply ⟨[], []⟩ (State.make "([(ab)(c d)".toList 2 .none)
        ⟨Sample.cells, []⟩) := by
  have answered : ¬ Run.GaveUp (Sample.groups.apply ⟨[], []⟩
      (State.make "(ab)(c d)".toList 0 .none) ⟨Sample.cells, []⟩) := by decide +kernel
  exact ⟨Sample.groups_plain, Sample.env_plain, Sample.cells_plain, answered,
    (Parser.eval_behind Sample.groups_plain Sample.env_plain Sample.cells_plain
      ['(', '['] "(ab)(c d)".toList 0 .none).2 answered⟩

end Descent

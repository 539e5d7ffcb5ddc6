/-
  Descent.Proofs.Forward

  Parsers go forward.  A plain parser that starts inside a text ends in the same text, at
  the same place or further on, and never beyond the end.  That is a relation which a run
  has to itself, so it is proved as a simulation whose two sides are equal; a view
  is the text together with a place behind which no step may fall.
-/
import Descent.Proofs.Simulation.Parser

namespace Descent

/-- The state stands in the text, between a place and the end. -/
structure State.Within (whole : Text) (low : Nat) (s : State) : Prop where
  text : s.text = whole
  low : low ≤ s.pos
  high : s.pos ≤ whole.length

namespace State.Within

variable {whole : Text} {low : Nat} {s t : State}

theorem self (h : s.pos ≤ s.text.length) : State.Within s.text s.pos s :=
  ⟨rfl, Nat.le_refl _, h⟩

theorem withValue (h : State.Within whole low s) (a : Value) :
    State.Within whole low (s.withValue a) := ⟨h.text, h.low, h.high⟩

theorem advance (h : State.Within whole low s) (n : Nat) (a : Value) (hn : n ≤ s.rest.length) :
    State.Within whole low (s.advance n a) := by
  have hlen : s.rest.length = whole.length - s.pos := by
    rw [s.rest_eq, h.text, List.length_drop]
  have hlow := h.low
  have hhigh := h.high
  refine ⟨h.text, ?_, ?_⟩
  · rw [State.advance_pos]
    omega
  · rw [State.advance_pos]
    omega

theorem toEnd (h : State.Within whole low s) (a : Value) :
    State.Within whole low (s.toEnd a) := by
  have hend : (s.toEnd a).pos = whole.length := by rw [State.toEnd_pos, h.text]
  have hlow := h.low
  have hhigh := h.high
  exact ⟨h.text, by omega, by omega⟩

theorem moveTo (h : State.Within whole low s) (ht : State.Within whole low t) (a : Value) :
    State.Within whole low (s.moveTo t.pos a) := by
  rw [State.moveTo_eq_make]
  exact ⟨h.text, ht.low, ht.high⟩

/-- What lies ahead later lay ahead before. -/
theorem rest_suffix (h : State.Within s.text s.pos t) : t.rest <:+ s.rest := by
  obtain ⟨k, hk⟩ := Nat.exists_eq_add_of_le h.low
  rw [t.rest_eq, s.rest_eq, h.text, hk, ← List.drop_drop]
  exact List.drop_suffix k _

end State.Within

/-- A run beside itself, in one text and not behind one place. -/
def Simulation.within : Simulation where
  View := Text × Nat
  state v s s' := s = s' ∧ s.Within v.1 v.2
  cells := Cells.SamePlain
  trace := Eq
  value_eq h := by rw [h.1]
  rest_eq h := by rw [h.1]
  inBounds_eq h := by rw [h.1]
  pos_eq_iff h ht := by rw [h.1, ht.1]
  withValue := fun ⟨heq, h⟩ a => ⟨by rw [heq], h.withValue a⟩
  advance := fun ⟨heq, h⟩ n a hn => ⟨by rw [heq], h.advance n a hn⟩
  toEnd := fun ⟨heq, h⟩ a => ⟨by rw [heq], h.toEnd a⟩
  moveTo := fun ⟨heq, h⟩ ⟨hteq, ht⟩ a => ⟨by rw [heq, hteq], h.moveTo ht a⟩
  start text := ⟨(text, 0), rfl, rfl, Nat.le_refl 0, Nat.zero_le _⟩
  write hw _ := by rw [hw]
  log h hw _ := by rw [h.1, hw]

/-- A plain parser that starts within bounds ends within bounds, and leaves the delayed
    parts plain. -/
theorem Parser.eval_within {p : Parser Ref} (hp : p.Plain) {env : Env} (henv : env.Plain)
    {m m' : Memory} (hm : m.cells.Plain) {n : Nat} {s s' : State} {whole : Text} {low : Nat}
    (hs : s.Within whole low) (h : p.eval env n s m = .ok (some s') m') :
    s'.Within whole low ∧ m'.cells.Plain := by
  have hacts := Simulation.acts_eval (σ := Simulation.within) (fun _ _ => Iff.rfl) henv hp
    (Nat.le_refl n) (whole, low) s s ⟨rfl, hs⟩ m m ⟨⟨rfl, hm⟩, rfl⟩
  rw [h] at hacts
  cases hacts with
  | ok hr hm' =>
    cases hr with
    | some ht => exact ⟨ht.2, hm'.1.2⟩

/-- Where a plain parser matches, it has gone forward in the same text, or stayed, and not
    gone beyond the end; so what is left is the end of what lay ahead. -/
theorem Parser.eval_forward {p : Parser Ref} (hp : p.Plain) {env : Env} (henv : env.Plain)
    {m m' : Memory} (hm : m.cells.Plain) {n : Nat} {s s' : State}
    (hs : s.pos ≤ s.text.length) (h : p.eval env n s m = .ok (some s') m') :
    s'.text = s.text ∧ s.pos ≤ s'.pos ∧ s'.pos ≤ s.text.length ∧ s'.rest <:+ s.rest := by
  obtain ⟨hwithin, -⟩ := Parser.eval_within hp henv hm (State.Within.self hs) h
  exact ⟨hwithin.text, hwithin.low, hwithin.high, hwithin.rest_suffix⟩

/-- Two groups are read from inside a text, each by a parser that goes through a text of
    its own; an open bracket is left. -/
theorem Parser.eval_forward_groups :
    Sample.groups.Plain ∧ Env.Plain ⟨[], []⟩ ∧ Sample.cells.Plain ∧
    ∃ s' m', Sample.groups.eval ⟨[], []⟩ 9 (State.make "a)(ab)(c d)(".toList 2 .none)
        ⟨Sample.cells, []⟩ = .ok (some s') m' ∧ s'.pos = 11 ∧
      s'.text = "a)(ab)(c d)(".toList ∧ 2 ≤ s'.pos ∧ s'.pos ≤ 12 ∧
      s'.rest <:+ "(ab)(c d)(".toList := by
  have hreached : (Run.matched? (Sample.groups.eval ⟨[], []⟩ 9
      (State.make "a)(ab)(c d)(".toList 2 .none) ⟨Sample.cells, []⟩)).map State.pos = some 11 := by
    decide +kernel
  obtain ⟨s', hs', hpos⟩ := Option.map_eq_some_iff.1 hreached
  obtain ⟨m', h⟩ := Run.matched?_eq_some hs'
  exact ⟨Sample.groups_plain, Sample.env_plain, Sample.cells_plain, s', m', h, hpos,
    Parser.eval_forward Sample.groups_plain Sample.env_plain Sample.cells_plain (by decide) h⟩

end Descent

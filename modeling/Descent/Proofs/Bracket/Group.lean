/-
  Descent.Proofs.Bracket.Group

  Groups of brackets.  The parser of a group counts brackets and never looks back; what it
  accepts is said by a grammar instead: a balanced text between the two brackets
  (`Reading.group_eq_some_iff`).  Any number of groups may be open in between, so the
  agreement of the two rests on the balance of what has been read
  (`Descent.Proofs.Text.Balance`).
-/
import Descent.Proofs.Reading.Action
import Descent.Proofs.Text.Balance

namespace Descent

/-- A group is read if and only if a balanced text between the two brackets comes first. -/
theorem Reading.group_eq_some_iff {left right : Char} (hne : left ≠ right) {t a : Text}
    {n : Nat} : Reading.group left right t = some (n, a) ↔ n = a.length + 2 ∧
      Text.Balanced left right a ∧ ∃ after, t = left :: (a ++ right :: after) := by
  refine ⟨Reading.group_eq_some, ?_⟩
  rintro ⟨rfl, ha, after, rfl⟩
  rw [Reading.group, if_pos rfl, ha.closing? hne, Option.map_some, Nat.add_sub_cancel,
    List.take_left]

namespace Parser

/-- What the parser of a group does depends on what lies ahead, and on nothing else. -/
theorem eval_bracketed (left right : Char) (env : Env) (n : Nat) (s : State) (m : Memory) :
    (bracketed left right).eval env n s m
      = .ok ((Reading.group left right s.rest).map fun x => s.advance x.1 (.str x.2)) m :=
  congrFun (Action.reads_bracketed left right s (Nat.lt_succ_self _)) m

/-- Two different characters make a parser of groups, and what it accepts is exactly a
    balanced text between the two, in every state:

    - it always answers and leaves the memory alone;
    - it matches if and only if what lies ahead begins with such a group, whose content it
      gives, and then it goes on behind the group;
    - it fails wherever no such group lies ahead, and no two lie there;
    - a text between the two brackets is given back if and only if it is balanced, whatever
      stands behind. -/
theorem bracketed_iff_balanced {left right : Char} (hne : left ≠ right) (env : Env) (n : Nat)
    (m : Memory) :
    let run := fun s => (bracketed left right).eval env n s m
    (∀ cells, (Expr.build env.names (.link (.brackets [left] [right]))).run cells
      = .ok (bracketed left right, cells)) ∧
    (∀ s, ∃ o, run s = .ok o m) ∧
    (∀ s s', run s = .ok (some s') m ↔ ∃ t tail, s.rest = left :: (t ++ right :: tail) ∧
      Text.Balanced left right t ∧ s'.value = .str t ∧
      s'.text = s.text ∧ s'.pos = s.pos + t.length + 2) ∧
    (∀ s, run s = .ok none m ↔
      ¬ ∃ t tail, s.rest = left :: (t ++ right :: tail) ∧ Text.Balanced left right t) ∧
    (∀ t t' tail tail' : Text, Text.Balanced left right t → Text.Balanced left right t' →
      left :: (t ++ right :: tail) = left :: (t' ++ right :: tail') → t = t') ∧
    (∀ t tail : Text, (∃ s', run (State.start (left :: (t ++ right :: tail))) = .ok (some s') m ∧
      s'.value = .str t ∧ s'.rest = tail) ↔ Text.Balanced left right t) := by
  intro run
  have hrun : ∀ s, run s
      = .ok ((Reading.group left right s.rest).map fun x => s.advance x.1 (.str x.2)) m :=
    fun s => eval_bracketed left right env n s m
  have hmatch : ∀ s s', run s = .ok (some s') m ↔ ∃ t tail,
      s.rest = left :: (t ++ right :: tail) ∧ Text.Balanced left right t ∧ s'.value = .str t ∧
      s'.text = s.text ∧ s'.pos = s.pos + t.length + 2 := by
    intro s s'
    rw [hrun]
    refine ⟨fun h => ?_, ?_⟩
    · injection h with h
      obtain ⟨⟨k, t⟩, hgroup, rfl⟩ := Option.map_eq_some_iff.1 h
      obtain ⟨rfl, ht, tail, hrest⟩ := (Reading.group_eq_some_iff hne).1 hgroup
      exact ⟨t, tail, hrest, ht, rfl, rfl, (Nat.add_assoc _ _ _).symm⟩
    · rintro ⟨t, tail, hrest, ht, hvalue, htext, hpos⟩
      have hgroup := (Reading.group_eq_some_iff hne).2 ⟨rfl, ht, tail, hrest⟩
      have hreached : s' = s.advance (t.length + 2) (.str t) :=
        State.ext htext (hpos.trans (Nat.add_assoc _ _ _)) hvalue
      rw [hgroup, hreached]
      rfl
  refine ⟨fun cells => ?_, fun s => ⟨_, hrun s⟩, hmatch, fun s => ⟨?_, fun hnone => ?_⟩, ?_,
    fun t tail => ⟨?_, fun ht => ?_⟩⟩
  · -- Two different characters pass the checks that are made where the parser is built.
    show StateT.run (Build.brackets [left] [right]) cells = _
    simp only [Build.brackets, if_neg hne]
    rfl
  · rintro h ⟨t, tail, hrest, ht⟩
    have hgroup := (Reading.group_eq_some_iff hne).2 ⟨rfl, ht, tail, hrest⟩
    rw [hrun, hgroup] at h
    cases h
  · rw [hrun]
    cases hgroup : Reading.group left right s.rest with
    | none => rfl
    | some x =>
      obtain ⟨-, ht, tail, hrest⟩ := (Reading.group_eq_some_iff hne).1 hgroup
      exact absurd ⟨x.2, tail, hrest, ht⟩ hnone
  · intro t t' tail tail' ht ht' heq
    exact ht.unique hne ht' (List.cons.inj heq).2
  · rintro ⟨s', h, hvalue, -⟩
    obtain ⟨t', tail', -, ht', hvalue', -⟩ := (hmatch _ s').1 h
    rw [hvalue] at hvalue'
    cases hvalue'
    exact ht'
  · -- What the search leaves is what stands behind the closing bracket.
    have hgroup := (Reading.group_eq_some_iff hne).2 ⟨rfl, ht, tail, rfl⟩
    refine ⟨_, by rw [hrun, State.start_rest, hgroup]; rfl, rfl, ?_⟩
    rw [State.advance_rest, State.start_rest, List.drop_succ_cons, List.drop_length_add_append,
      List.drop_one, List.tail_cons]

/-- A group in a group is read from inside a text, and what stands behind is left. -/
theorem bracketed_iff_balanced_nested : '(' ≠ ')' ∧ Text.Balanced '(' ')' "b(c)".toList ∧
    ∃ s', (bracketed '(' ')').eval ⟨[], []⟩ 0 (State.make "a(b(c))d)".toList 1 .none) ⟨#[], []⟩
        = .ok (some s') ⟨#[], []⟩ ∧
      s'.value = .str "b(c)".toList ∧ s'.pos = 7 := by
  have hne : '(' ≠ ')' := by decide
  have hbalanced : Text.Balanced '(' ')' "b(c)".toList :=
    .char (by decide) (by decide) (.group (.char (by decide) (by decide) .nil) .nil)
  obtain ⟨-, -, hmatch, -⟩ := bracketed_iff_balanced hne ⟨[], []⟩ 0 ⟨#[], []⟩
  refine ⟨hne, hbalanced, State.make "a(b(c))d)".toList 7 (.str "b(c)".toList), ?_, rfl, rfl⟩
  exact (hmatch _ _).2 ⟨"b(c)".toList, "d)".toList, rfl, hbalanced, rfl, rfl, rfl⟩

end Parser
end Descent

/-
  Descent.Proofs.Inside

  A parser inside another, and all the ways in which it can end (`Parser.inside_ends`).  The
  outer parser comes first.  What it found is looked at before the inner parser is applied, so
  a value that holds no text to be parsed is a grammar error even where the inner parser would
  not have matched; whether two results can be merged is asked last, and not at all where the
  inner parser does not match.  Without a key the outer result is a text, which has no fields,
  so that merging never comes to a result.
-/
import Descent.Parser.Eval
import Descent.Proofs.Loop.Run

namespace Descent

/-! ## The text to be parsed -/

namespace Value

/-- The text that is to be parsed: the value itself, or what it has under the key. -/
inductive Holds : Value → Option String → Text → Prop
  | whole (text : Text) : Holds (.str text) Option.none text
  | under {entries : Fields} {key : String} {text : Text} :
      entries.lookup key = some (.str text) → Holds (.fields entries) (some key) text

/-- There is no text to be parsed, and what is wrong instead. -/
inductive Lacks : Value → Option String → GrammarError → Prop
  | text {v : Value} : (∀ text, v ≠ .str text) → Lacks v Option.none (.notText v.typeName)
  | fields {v : Value} (key : String) :
      (∀ entries, v ≠ .fields entries) → Lacks v (some key) (.notFields .left v.typeName)
  | key {entries : Fields} {key : String} :
      entries.lookup key = Option.none → Lacks (.fields entries) (some key) (.missingField key)
  | textUnder {entries : Fields} {key : String} {v : Value} : entries.lookup key = some v →
      (∀ text, v ≠ .str text) → Lacks (.fields entries) (some key) (.notText v.typeName)

/-- A value holds a text to be parsed, or something is wrong with it. -/
theorem holds_or_lacks (v : Value) (key : Option String) :
    (∃ text, v.Holds key text) ∨ ∃ e, v.Lacks key e := by
  cases key with
  | none =>
    by_cases hv : ∃ text, v = .str text
    · obtain ⟨text, rfl⟩ := hv
      exact .inl ⟨text, .whole text⟩
    · exact .inr ⟨_, .text (not_exists.1 hv)⟩
  | some key =>
    by_cases hv : ∃ entries, v = .fields entries
    · obtain ⟨entries, rfl⟩ := hv
      cases hlookup : entries.lookup key with
      | none => exact .inr ⟨_, .key hlookup⟩
      | some inner =>
        by_cases hinner : ∃ text, inner = .str text
        · obtain ⟨text, rfl⟩ := hinner
          exact .inl ⟨text, .under hlookup⟩
        · exact .inr ⟨_, .textUnder hlookup (not_exists.1 hinner)⟩
    · exact .inr ⟨_, .fields key (not_exists.1 hv)⟩

end Value

namespace Run

variable {α β : Type} {v : Value} {key : Option String}

/-- An answer, or a complaint about the grammar. -/
def answer : Except GrammarError α → Run α
  | .ok a => pure a
  | .error e => reject e

theorem reject_bind (e : GrammarError) (f : α → Run β) : reject e >>= f = reject e := rfl

theorem fieldsOf_fields (side : Side) (entries : Fields) :
    fieldsOf side (.fields entries) = pure entries := rfl

theorem fieldsOf_of_ne (side : Side) (h : ∀ entries, v ≠ .fields entries) :
    fieldsOf side v = reject (.notFields side v.typeName) := by
  cases v with
  | fields entries => exact absurd rfl (h entries)
  | _ => rfl

theorem textOf_str (text : Text) : textOf (.str text) = pure text := rfl

theorem textOf_of_ne (h : ∀ text, v ≠ .str text) : textOf v = reject (.notText v.typeName) := by
  cases v with
  | str text => exact absurd rfl (h text)
  | _ => rfl

/-- The text that a value holds is taken out of it. -/
theorem innerText_of_holds {text : Text} (h : v.Holds key text) : innerText v key = pure text := by
  cases h with
  | whole => exact textOf_str text
  | under hlookup =>
    rw [innerText, fieldsOf_fields, pure_bind, hlookup]
    exact textOf_str text

/-- A value that holds no text is complained about. -/
theorem innerText_of_lacks {e : GrammarError} (h : v.Lacks key e) : innerText v key = reject e := by
  cases h with
  | text hv => exact textOf_of_ne hv
  | fields key hv => rw [innerText, fieldsOf_of_ne .left hv, reject_bind]
  | key hlookup => rw [innerText, fieldsOf_fields, pure_bind, hlookup]
  | textUnder hlookup hv =>
    rw [innerText, fieldsOf_fields, pure_bind, hlookup]
    exact textOf_of_ne hv

/-- The fields of both results. -/
def mergeOf (v w : Value) : Run Value := do
  let older ← fieldsOf .left v
  let newer ← fieldsOf .right w
  pure (.fields (older.merge newer))

end Run

/-! ## What becomes of two results -/

/-- How the result of an outer and that of an inner parser become one. -/
abbrev Join := Value → Value → Except GrammarError Value → Prop

namespace Join

/-- Of two results the inner one is taken. -/
inductive Takes : Join
  | inner (v w : Value) : Takes v w (.ok w)

/-- The fields of two results are merged.  Without a key the outer result is a text, and it is
    the outer result that is looked at first. -/
inductive Merges : Option String → Join
  | keyless (text : Text) (w : Value) :
      Merges none (.str text) w (.error (.notFields .left (Value.str text).typeName))
  | notFields {w : Value} (key : String) (older : Fields) : (∀ entries, w ≠ .fields entries) →
      Merges (some key) (.fields older) w (.error (.notFields .right w.typeName))
  | merged (key : String) (older newer : Fields) :
      Merges (some key) (.fields older) (.fields newer) (.ok (.fields (older.merge newer)))

/-- Without a key nothing is merged. -/
theorem Merges.not_ok {v w u : Value} (h : Merges none v w (.ok u)) : False := by
  cases h

/-- The run joins the results of two parsers, one inside the other, in the way described. -/
structure Describes (joins : Join) (key : Option String) (join : Value → Value → Run Value) :
    Prop where
  sound : ∀ {v w : Value} {o : Except GrammarError Value}, joins v w o → join v w = Run.answer o
  total : ∀ {v : Value} {text : Text} (w : Value), v.Holds key text → ∃ o, joins v w o

theorem takes_describes {key : Option String} : Takes.Describes key fun _ w => pure w where
  sound h := by
    cases h
    rfl
  total w _ := ⟨_, .inner _ w⟩

theorem merges_describes {key : Option String} : (Merges key).Describes key Run.mergeOf where
  sound h := by
    cases h with
    | keyless => rfl
    | notFields key older hw =>
      rw [Run.mergeOf, Run.fieldsOf_fields, pure_bind, Run.fieldsOf_of_ne .right hw]
      rfl
    | merged => rfl
  total w h := by
    cases h with
    | whole => exact ⟨_, .keyless _ w⟩
    | under hlookup =>
      by_cases hw : ∃ newer, w = .fields newer
      · obtain ⟨newer, rfl⟩ := hw
        exact ⟨_, .merged _ _ newer⟩
      · exact ⟨_, .notFields _ _ (not_exists.1 hw)⟩

end Join

namespace Action

open Run

variable {p q : Action} {key : Option String} {s : State} {m : Memory}

/-- The ways in which a parser inside another ends, with the memory that each of them leaves.
    The inner parser starts at the beginning of the text that the outer one found, with nothing
    carried; the state that is reached is the outer one's. -/
inductive Inside (p q : Action) (key : Option String) (join : Join) (s : State) (m : Memory) :
    EStateM.Result Stop Memory (Option State) → Prop
  | outerFails {m₁ : Memory} : p s m = .ok none m₁ → Inside p q key join s m (.ok none m₁)
  | outerStops {e : Stop} {m₁ : Memory} :
      p s m = .error e m₁ → Inside p q key join s m (.error e m₁)
  | lacking {l : State} {m₁ : Memory} {e : GrammarError} :
      p s m = .ok (some l) m₁ → l.value.Lacks key e →
      Inside p q key join s m (.error (.fault (.grammar e)) m₁)
  | innerFails {l : State} {m₁ m₂ : Memory} {text : Text} :
      p s m = .ok (some l) m₁ → l.value.Holds key text →
      q (State.start text) m₁ = .ok none m₂ → Inside p q key join s m (.ok none m₂)
  | innerStops {l : State} {m₁ m₂ : Memory} {text : Text} {e : Stop} :
      p s m = .ok (some l) m₁ → l.value.Holds key text →
      q (State.start text) m₁ = .error e m₂ → Inside p q key join s m (.error e m₂)
  | joined {l r : State} {m₁ m₂ : Memory} {text : Text} {w : Value} :
      p s m = .ok (some l) m₁ → l.value.Holds key text →
      q (State.start text) m₁ = .ok (some r) m₂ → join l.value r.value (.ok w) →
      Inside p q key join s m (.ok (some (l.withValue w)) m₂)
  | refused {l r : State} {m₁ m₂ : Memory} {text : Text} {e : GrammarError} :
      p s m = .ok (some l) m₁ → l.value.Holds key text →
      q (State.start text) m₁ = .ok (some r) m₂ → join l.value r.value (.error e) →
      Inside p q key join s m (.error (.fault (.grammar e)) m₂)

/-- One parser inside another, with their results joined by a run. -/
def insideBy (p q : Action) (key : Option String) (join : Value → Value → Run Value) : Action :=
  p.andThen fun l => do
    let text ← innerText l.value key
    q.andThen (fun r => do
      let w ← join l.value r.value
      pure (some (l.withValue w))) (State.start text)

theorem seqInside_eq (p q : Action) (key : Option String) :
    p.seqInside q key = p.insideBy q key fun _ w => pure w := rfl

theorem mergeInside_eq (p q : Action) (key : Option String) :
    p.mergeInside q key = p.insideBy q key mergeOf := by
  unfold mergeInside insideBy mergeOf
  simp only [bind_assoc, pure_bind]

section

variable {join : Value → Value → Run Value} {joins : Join}

/-- Where there is a text to be parsed, the inner parser goes on with it. -/
theorem insideBy_of_holds {l : State} {m₁ : Memory} {text : Text}
    (hp : p s m = .ok (some l) m₁) (hholds : l.value.Holds key text) :
    p.insideBy q key join s m = q.andThen (fun r => do
      let w ← join l.value r.value
      pure (some (l.withValue w))) (State.start text) m₁ := by
  rw [insideBy, andThen_of_matched hp, innerText_of_holds hholds, pure_bind]

/-- However a parser inside another is said to end, so the run ends. -/
theorem Inside.insideBy_eq (hj : joins.Describes key join)
    {r : EStateM.Result Stop Memory (Option State)} (h : Inside p q key joins s m r) :
    p.insideBy q key join s m = r := by
  cases h with
  | outerFails hp => exact andThen_of_failed hp
  | outerStops hp => exact andThen_of_stopped hp
  | lacking hp hlacks =>
    rw [insideBy, andThen_of_matched hp, innerText_of_lacks hlacks]
    rfl
  | innerFails hp hholds hq => rw [insideBy_of_holds hp hholds, andThen_of_failed hq]
  | innerStops hp hholds hq => rw [insideBy_of_holds hp hholds, andThen_of_stopped hq]
  | joined hp hholds hq hjoin =>
    rw [insideBy_of_holds hp hholds, andThen_of_matched hq, hj.sound hjoin]
    rfl
  | refused hp hholds hq hjoin =>
    rw [insideBy_of_holds hp hholds, andThen_of_matched hq, hj.sound hjoin]
    rfl

/-- There is no other way to end. -/
theorem exists_inside (p q : Action) (hj : joins.Describes key join) (s : State) (m : Memory) :
    ∃ r, Inside p q key joins s m r := by
  -- The cases are taken in the order in which the run comes to them.
  cases hp : p s m with
  | error e m₁ => exact ⟨_, .outerStops hp⟩
  | ok o m₁ =>
    cases o with
    | none => exact ⟨_, .outerFails hp⟩
    | some l =>
      obtain ⟨text, hholds⟩ | ⟨e, hlacks⟩ := l.value.holds_or_lacks key
      · cases hq : q (State.start text) m₁ with
        | error e m₂ => exact ⟨_, .innerStops hp hholds hq⟩
        | ok o m₂ =>
          cases o with
          | none => exact ⟨_, .innerFails hp hholds hq⟩
          | some r =>
            obtain ⟨o, hjoin⟩ := hj.total r.value hholds
            cases o with
            | error e => exact ⟨_, .refused hp hholds hq hjoin⟩
            | ok w => exact ⟨_, .joined hp hholds hq hjoin⟩
      · exact ⟨_, .lacking hp hlacks⟩

/-- A parser inside another ends in one of the ways, and in no two. -/
theorem insideBy_eq_iff (hj : joins.Describes key join)
    {r : EStateM.Result Stop Memory (Option State)} :
    p.insideBy q key join s m = r ↔ Inside p q key joins s m r := by
  refine ⟨?_, fun h => h.insideBy_eq hj⟩
  rintro rfl
  obtain ⟨r, hr⟩ := exists_inside p q hj s m
  rw [hr.insideBy_eq hj]
  exact hr

end

theorem seqInside_eq_iff {r : EStateM.Result Stop Memory (Option State)} :
    p.seqInside q key s m = r ↔ Inside p q key .Takes s m r := by
  rw [seqInside_eq]
  exact insideBy_eq_iff Join.takes_describes

theorem mergeInside_eq_iff {r : EStateM.Result Stop Memory (Option State)} :
    p.mergeInside q key s m = r ↔ Inside p q key (.Merges key) s m r := by
  rw [mergeInside_eq]
  exact insideBy_eq_iff Join.merges_describes

/-- Without a key there is no result of merging. -/
theorem mergeInside_keyless_ne (p q : Action) (s s' : State) (m m' : Memory) :
    p.mergeInside q none s m ≠ .ok (some s') m' := by
  intro h
  cases mergeInside_eq_iff.1 h with
  | joined _ _ _ hjoin => exact hjoin.not_ok

end Action

/-- A parser inside another ends in exactly one of the ways that `Action.Inside` lists, whether
    the inner result is taken or merged with the outer one.  Merging without a key succeeds on
    no state, whatever the two parsers are. -/
theorem Parser.inside_ends (p q : Parser Ref) (key : Option String) (env : Env) (n : Nat)
    (s : State) (m : Memory) :
    (∀ r, (Parser.seqInside p q key).eval env n s m = r ↔
      Action.Inside (p.eval env n) (q.eval env n) key .Takes s m r) ∧
    (∀ r, (Parser.mergeInside p q key).eval env n s m = r ↔
      Action.Inside (p.eval env n) (q.eval env n) key (.Merges key) s m r) ∧
    ∀ s' m', (Parser.mergeInside p q none).eval env n s m ≠ .ok (some s') m' :=
  ⟨fun _ => Action.seqInside_eq_iff, fun _ => Action.mergeInside_eq_iff,
    fun s' m' => Action.mergeInside_keyless_ne _ _ s s' m m'⟩

end Descent

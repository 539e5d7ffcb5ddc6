/-
  Descent.Proofs.Merge.Monoid

  Merging sequences are a monoid (`Session.merge_monoid`).  Two groupings of three parsers
  apply them one after another in the same states, but merge at different moments: where the
  first two are grouped, the third is applied to a state that carries their fields together.
  So the third must not depend on what is carried; then both groupings come to the same, with
  the same fields in the same order.  That the parsers give fields is assumed only where they
  are applied, each behind those before it, so a parser may pass on fields that are carried.
  They run in one memory, and what is assumed of them is assumed of the session alone;
  `Session.Later` leads from one to the other.
-/
import Descent.Proofs.Lazy.Outcome
import Descent.Proofs.Merge.Fields

namespace Descent

/-- The value is fields with distinct keys. -/
def Value.Keyed (v : Value) : Prop := ∃ entries : Fields, v = .fields entries ∧ entries.keys.Nodup

/-- The fields of three operands, merged.  A key has its place from the first operand in which
    it comes, and its value from the last. -/
structure Fields.Merged (x y z w : Fields) : Prop where
  keys : w.keys = x.keys ++ y.keys.filter (· ∉ x.keys)
    ++ z.keys.filter (fun key => key ∉ x.keys ∧ key ∉ y.keys)
  lookup : ∀ key, w.lookup key = (z.lookup key).or ((y.lookup key).or (x.lookup key))

theorem Fields.merged_merge {x y z : Fields} (hx : x.keys.Nodup) (hy : y.keys.Nodup)
    (hz : z.keys.Nodup) : Merged x y z (x.merge (y.merge z)) where
  keys := by
    rw [← merge_assoc hx hy hz, keys_merge _ hz, keys_merge _ hy]
    refine congrArg _ (List.filter_congr fun key _ => ?_)
    by_cases h : key ∈ x.keys <;> simp [h]
  lookup key := by
    rw [← merge_assoc hx hy hz, lookup_merge _ hz, lookup_merge _ hy]

namespace Action

open Run

variable {p q r first next : Action} {s l t u : State} {m m₁ m' : Memory} {x y : Fields}

/-! ## Sequences -/

/-- Sequences come to the same if their first parts do, and from then on the rest. -/
theorem outcome_andThen_congr {first' next' : Action} {s' : State}
    (hfirst : outcome (first s m) = outcome (first' s' m'))
    (hnext : ∀ t m₁ m₁', first s m = .ok (some t) m₁ → first' s' m' = .ok (some t) m₁' →
      outcome (next t m₁) = outcome (next' t m₁')) :
    outcome (first.andThen next s m) = outcome (first'.andThen next' s' m') := by
  cases h : first s m with
  | error e m₁ =>
    obtain ⟨m₁', h'⟩ := outcome_eq_error_iff.1 (hfirst.symm.trans (congrArg outcome h))
    rw [andThen_of_stopped h, andThen_of_stopped h']
    rfl
  | ok o m₁ =>
    obtain ⟨m₁', h'⟩ := outcome_eq_ok_iff.1 (hfirst.symm.trans (congrArg outcome h))
    cases o with
    | none =>
      rw [andThen_of_failed h, andThen_of_failed h']
      rfl
    | some t =>
      rw [andThen_of_matched h, andThen_of_matched h']
      exact hnext t m₁ m₁' h h'

/-- After the same first part, sequences come to the same if they do from then on. -/
theorem outcome_andThen_congr_right {next' : Action}
    (hnext : ∀ t m₁, first s m = .ok (some t) m₁ → outcome (next t m₁) = outcome (next' t m₁)) :
    outcome (first.andThen next s m) = outcome (first.andThen next' s m) := by
  refine outcome_andThen_congr rfl fun t m₁ m₁' h h' => ?_
  obtain ⟨-, rfl⟩ := EStateM.Result.ok.inj (h.symm.trans h')
  exact hnext t m₁ h

/-! ## Merging -/

/-- Put the fields of a state before those of the state reached. -/
def mergeInto (l : State) : Action := fun t => do
  let older ← fieldsOf .left l.value
  let newer ← fieldsOf .right t.value
  pure (some (t.withValue (.fields (older.merge newer))))

theorem merge_eq (p q : Action) : p.merge q = p.andThen fun l => q.andThen (mergeInto l) l := rfl

theorem mergeInto_of_fields (hl : l.value = .fields x) (ht : t.value = .fields y) :
    mergeInto l t = pure (some (t.withValue (.fields (x.merge y)))) := by
  rw [mergeInto, hl, ht]
  rfl

/-- The action goes from states and memories of one kind to those of another, and gives
    fields. -/
def GivesFields (inv inv' : State → Memory → Prop) (p : Action) : Prop :=
  ∀ ⦃s m⦄, inv s m → ∀ ⦃t m'⦄, p s m = .ok (some t) m' → inv' t m' ∧ t.value.Keyed

/-- What the action comes to does not depend on the value that is carried. -/
def Steady (inv : State → Memory → Prop) (p : Action) : Prop :=
  ∀ ⦃s m⦄, inv s m → ∀ v, outcome (p (s.withValue v) m) = outcome (p s m)

/-- What is merged has distinct keys if what stands in front of it does. -/
theorem keyed_of_merge (h : p.merge q s m = .ok (some t) m')
    (hp : ∀ l m₁, p s m = .ok (some l) m₁ → l.value.Keyed) : t.value.Keyed := by
  rw [merge_eq] at h
  obtain ⟨l, m₁, hl, h⟩ := exists_of_andThen h
  obtain ⟨u, m₂, -, h⟩ := exists_of_andThen h
  obtain ⟨x, hlx, hx⟩ := hp l m₁ hl
  rw [mergeInto, hlx] at h
  obtain ⟨older, m₃, holder, h⟩ := exists_of_bind h
  cases holder
  obtain ⟨newer, m₄, -, h⟩ := exists_of_bind h
  cases h
  exact ⟨x.merge newer, rfl, Fields.nodup_merge hx newer⟩

variable {inv inv₁ inv₂ inv₃ : State → Memory → Prop}

theorem merge_merge_left (p q r : Action) (s : State) :
    (p.merge q).merge r s = p.andThen (fun l => q.andThen (fun t =>
      (mergeInto l).andThen (fun u => r.andThen (mergeInto u) u) t) l) s :=
  (andThen_assoc p _ _ s).trans
    (congrArg (p.andThen · s) (funext fun l => andThen_assoc q (mergeInto l) _ l))

theorem merge_merge_right (p q r : Action) (s : State) :
    p.merge (q.merge r) s = p.andThen (fun l => q.andThen (fun t =>
      r.andThen ((mergeInto t).andThen (mergeInto l)) t) l) s := by
  refine congrArg (p.andThen · s) (funext fun l => ?_)
  exact (andThen_assoc q _ (mergeInto l) l).trans
    (congrArg (q.andThen · l) (funext fun t => andThen_assoc r (mergeInto t) _ t))

/-- The two groupings of three operands come to the same.  With one the third operand is applied
    to a state that carries the fields of both others, with the other to one that carries those of
    the second alone. -/
theorem outcome_merge_assoc (hp : p.GivesFields inv inv₁) (hq : q.GivesFields inv₁ inv₂)
    (hr : r.GivesFields inv₂ inv₃) (hsteady : r.Steady inv₂) (hinv : inv s m) :
    outcome ((p.merge q).merge r s m) = outcome (p.merge (q.merge r) s m) := by
  rw [merge_merge_left, merge_merge_right]
  -- The first two operands are applied to the same states and in the same memories.
  refine outcome_andThen_congr_right fun l m₁ hl => ?_
  refine outcome_andThen_congr_right fun t m₂ ht => ?_
  obtain ⟨hinv₁, x, hlx, hx⟩ := hp hinv hl
  obtain ⟨hinv₂, y, hty, hy⟩ := hq hinv₁ ht
  rw [andThen_of_some (mergeInto_of_fields hlx hty)]
  -- From here on they may differ: the memories that the third operand leaves are not compared.
  refine outcome_andThen_congr (hsteady hinv₂ _) fun c m₃ m₃' _ hc => ?_
  obtain ⟨-, z, hcz, hz⟩ := hr hinv₂ hc
  rw [mergeInto_of_fields rfl hcz, andThen_of_some (mergeInto_of_fields hty hcz),
    mergeInto_of_fields hlx rfl, Fields.merge_assoc hx hy hz]
  rfl

/-- Where three operands match one after another, their fields are merged. -/
theorem exists_of_merge (hp : p.GivesFields inv inv₁) (hq : q.GivesFields inv₁ inv₂)
    (hr : r.GivesFields inv₂ inv₃) (hinv : inv s m) {w : State}
    (h : p.merge (q.merge r) s m = .ok (some w) m') :
    ∃ l m₁ t m₂ u x y z, p s m = .ok (some l) m₁ ∧ l.value = .fields x ∧
      q l m₁ = .ok (some t) m₂ ∧ t.value = .fields y ∧
      r t m₂ = .ok (some u) m' ∧ u.value = .fields z ∧
      ∃ entries, w = u.withValue (.fields entries) ∧ Fields.Merged x y z entries := by
  rw [merge_merge_right] at h
  obtain ⟨l, m₁, hl, h⟩ := exists_of_andThen h
  obtain ⟨t, m₂, ht, h⟩ := exists_of_andThen h
  obtain ⟨u, m₃, hu, h⟩ := exists_of_andThen h
  obtain ⟨hinv₁, x, hlx, hx⟩ := hp hinv hl
  obtain ⟨hinv₂, y, hty, hy⟩ := hq hinv₁ ht
  obtain ⟨-, z, huz, hz⟩ := hr hinv₂ hu
  rw [andThen_of_some (mergeInto_of_fields hty huz), mergeInto_of_fields hlx rfl] at h
  cases h
  exact ⟨l, m₁, t, m₂, u, x, y, z, hl, hlx, ht, hty, hu, huz, _, rfl, Fields.merged_merge hx hy hz⟩

/-! ## No fields -/

/-- A sequence whose second part stays where it is. -/
theorem andThen_eq_self (h : ∀ t m₁, first s m = .ok (some t) m₁ → next t = pure (some t)) :
    first.andThen next s m = first s m := by
  cases hfirst : first s m with
  | error e m₁ => exact andThen_of_stopped hfirst
  | ok o m₁ =>
    cases o with
    | none => exact andThen_of_failed hfirst
    | some t =>
      rw [andThen_of_matched hfirst, h t m₁ hfirst]
      rfl

theorem constant_andThen (v : Value) (next : Action) (s : State) :
    (constant v).andThen next s = next (s.withValue v) := rfl

/-- No fields behind. -/
theorem merge_constant_nil (hp : p.GivesFields inv inv₁) (hinv : inv s m) :
    p.merge (constant (.fields [])) s m = p s m := by
  rw [merge_eq]
  refine andThen_eq_self fun l m₁ hl => ?_
  obtain ⟨-, x, hlx, -⟩ := hp hinv hl
  rw [constant_andThen, mergeInto_of_fields hlx rfl, Fields.merge_nil, State.withValue_withValue,
    ← hlx, State.withValue_self]

/-- No fields in front. -/
theorem outcome_constant_nil_merge (hr : r.GivesFields inv inv₁) (hsteady : r.Steady inv)
    (hinv : inv (s.withValue (.fields [])) m) :
    outcome ((constant (.fields [])).merge r s m) = outcome (r s m) := by
  have hsame : r.andThen (mergeInto (s.withValue (.fields []))) (s.withValue (.fields [])) m
      = r (s.withValue (.fields [])) m := by
    refine andThen_eq_self fun u m₁ hu => ?_
    obtain ⟨-, z, huz, hz⟩ := hr hinv hu
    rw [mergeInto_of_fields rfl huz, Fields.nil_merge hz, ← huz, State.withValue_self]
  rw [merge_eq, constant_andThen, hsame]
  exact (hsteady hinv s.value).symm

end Action

/-! ## In a session -/

namespace Session

variable {σ : Session} {bound : Nat} {p q r : Parser Ref}

/-- Where the parser matches in a state of the session, it gives fields with distinct keys. -/
def GivesFields (σ : Session) (p : Parser Ref) (s : State) : Prop :=
  ∀ t, (σ.applyTo p s).1.answer = .reached t → t.value.Keyed

/-- What the parser comes to in the session does not depend on the value that is carried. -/
def Steady (σ : Session) (p : Parser Ref) : Prop :=
  ∀ s v, (σ.applyTo p (s.withValue v)).1.answer = (σ.applyTo p s).1.answer

/-- The parser reaches the state from one of a kind. -/
def Reached (σ : Session) (p : Parser Ref) (kind : State → Prop) (t : State) : Prop :=
  ∃ s, kind s ∧ (σ.applyTo p s).1.answer = .reached t

/-- States of a kind in a text, and memories to which runs in the session can come. -/
structure InText (hσ : σ.Over (fun _ => True) bound) (text : Text) (kind : State → Prop)
    (s : State) (m : Memory) : Prop where
  text : s.text = text
  later : Later hσ m
  kind : kind s

theorem budget_of_text {s t : State} (h : s.text = t.text) : Parser.budget s = Parser.budget t := by
  rw [Parser.budget, h, Parser.budget]

section InText

variable {kind : State → Prop}

theorem GivesFields.eval (h : ∀ s, kind s → σ.GivesFields p s)
    (hσ : σ.Over (fun _ => True) bound) (hplain : σ.Plain) (hp : σ.Has p) (s : State) :
    (p.eval σ.env (Parser.budget s)).GivesFields (InText hσ s.text kind)
      (InText hσ s.text (σ.Reached p kind)) := by
  rintro s₁ m ⟨htext, hm, hkind⟩ t m' ht
  rw [← budget_of_text htext] at ht
  obtain ⟨hstay, hreached, hm'⟩ := hm.matched hplain hp ht
  exact ⟨⟨hstay.trans htext, hm', s₁, hkind, hreached⟩, h s₁ hkind t hreached⟩

theorem Steady.eval (h : σ.Steady p) (hσ : σ.Over (fun _ => True) bound) (hp : σ.Has p)
    (s : State) :
    (p.eval σ.env (Parser.budget s)).Steady (InText hσ s.text kind) := by
  rintro s₁ m ⟨htext, hm, -⟩ v
  rw [← budget_of_text htext]
  have hcarried := hm.outcome_eval hp (Parser.budget s₁) (s₁.withValue v)
  have hown := hm.outcome_eval hp (Parser.budget s₁) s₁
  have hsame := h s₁ v
  rw [applyTo_eq, applyTo_eq, Report.answer_ofRun_eq_iff] at hsame
  exact (hcarried.trans hsame).trans hown.symm

end InText

/-- A parser that puts its result under a key gives fields. -/
theorem givesFields_field (σ : Session) (p : Parser Ref) (key : String) (s : State) :
    σ.GivesFields (.field p key) s := by
  intro t h
  rw [applyTo_eq, Report.answer_ofRun_eq_reached_iff] at h
  obtain ⟨m, h⟩ := h
  obtain ⟨u, m₁, -, ht⟩ := Action.exists_of_andThen h
  cases ht
  exact ⟨[(key, u.value)], rfl, List.nodup_singleton key⟩

/-- A look ahead passes on what is carried, so what is merged behind it gives fields where
    fields are carried. -/
theorem givesFields_lookAhead_merge (σ : Session) (condition : Callback Text Bool)
    (p : Parser Ref) {s : State} (hs : s.value.Keyed) :
    σ.GivesFields (.merge (.lookAhead condition) p) s := by
  intro t h
  rw [applyTo_eq, Report.answer_ofRun_eq_reached_iff] at h
  obtain ⟨m, h⟩ := h
  refine Action.keyed_of_merge h fun l m₁ hl => ?_
  obtain ⟨holds, m₂, -, hl⟩ := Run.exists_of_bind hl
  cases holds with
  | false => cases hl
  | true =>
    cases hl
    exact hs

/-- Merging is associative, with no fields as its unit.  On a state of a session, let each of
    three parsers give fields where it matches behind those before it, and the third also where
    it stands alone; and let the third come to the same whatever is carried.  Then both
    groupings come to the same, be it a state, a fault or no match.  Where they match, each of
    the three has matched where the one before it ended, and the fields of all three are
    merged: a key has its place from the first of them in which it comes, and its value from
    the last.  No fields behind a parser change nothing, not even the trace, and those in front
    of one do not change what it comes to. -/
theorem merge_monoid (hσ : σ.Over (fun _ => True) bound) (hplain : σ.Plain) (hp : σ.Has p)
    (hq : σ.Has q) (hr : σ.Has r) {s : State} (hpf : σ.GivesFields p s)
    (hqf : ∀ l, (σ.applyTo p s).1.answer = .reached l → σ.GivesFields q l)
    (hrf : ∀ l t, (σ.applyTo p s).1.answer = .reached l → (σ.applyTo q l).1.answer = .reached t →
      σ.GivesFields r t)
    (hrs : σ.GivesFields r s) (hsteady : σ.Steady r) :
    (σ.applyTo (.merge (.merge p q) r) s).1.answer
      = (σ.applyTo (.merge p (.merge q r)) s).1.answer ∧
    (∀ w, (σ.applyTo (.merge p (.merge q r)) s).1.answer = .reached w →
      ∃ l t u x y z entries, (σ.applyTo p s).1.answer = .reached l ∧ l.value = .fields x ∧
        (σ.applyTo q l).1.answer = .reached t ∧ t.value = .fields y ∧
        (σ.applyTo r t).1.answer = .reached u ∧ u.value = .fields z ∧
        w = u.withValue (.fields entries) ∧ Fields.Merged x y z entries) ∧
    σ.applyTo (.merge p (.constant (.fields []))) s = σ.applyTo p s ∧
    (σ.applyTo (.merge (.constant (.fields [])) r) s).1.answer = (σ.applyTo r s).1.answer := by
  have hfirst : ∀ s₁, s₁ = s → σ.GivesFields p s₁ := by
    rintro _ rfl
    exact hpf
  have hsecond : ∀ l, σ.Reached p (· = s) l → σ.GivesFields q l := by
    rintro l ⟨_, rfl, hl⟩
    exact hqf l hl
  have hthird : ∀ t, σ.Reached q (σ.Reached p (· = s)) t → σ.GivesFields r t := by
    rintro t ⟨l, ⟨_, rfl, hl⟩, ht⟩
    exact hrf l t hl ht
  have halone : ∀ s₁, s₁ = s.withValue (.fields []) → σ.GivesFields r s₁ := by
    -- With no fields carried it comes to what it comes to otherwise.
    rintro _ rfl t ht
    rw [hsteady s] at ht
    exact hrs t ht
  have hpe := GivesFields.eval hfirst hσ hplain hp s
  have hqe := GivesFields.eval hsecond hσ hplain hq s
  have hre := GivesFields.eval hthird hσ hplain hr s
  have hinv : InText hσ s.text (· = s) s ⟨σ.cells, []⟩ := ⟨rfl, hplain.later, rfl⟩
  -- Inside a sequence each parser has the fuel of the first state.  That is its own, since all
  -- states are in one text.
  refine ⟨?_, fun w hw => ?_, ?_, ?_⟩
  · rw [applyTo_eq, applyTo_eq, Report.answer_ofRun_eq_iff]
    exact Action.outcome_merge_assoc hpe hqe hre (hsteady.eval hσ hr s) hinv
  · rw [applyTo_eq, Report.answer_ofRun_eq_reached_iff] at hw
    obtain ⟨m', hw⟩ := hw
    obtain ⟨l, m₁, t, m₂, u, x, y, z, hl, hx, ht, hy, hu, hz, entries, hentries, hmerged⟩ :=
      Action.exists_of_merge hpe hqe hre hinv hw
    obtain ⟨hinv₁, -⟩ := hpe hinv hl
    obtain ⟨hinv₂, -⟩ := hqe hinv₁ ht
    refine ⟨l, t, u, x, y, z, entries, ?_, hx, ?_, hy, ?_, hz, hentries, hmerged⟩
    · exact (hinv.later.matched hplain hp hl).2.1
    · rw [← budget_of_text hinv₁.text] at ht
      exact (hinv₁.later.matched hplain hq ht).2.1
    · rw [← budget_of_text hinv₂.text] at hu
      exact (hinv₂.later.matched hplain hr hu).2.1
  · have hsame : (Parser.merge p (.constant (.fields []))).apply σ.env s ⟨σ.cells, []⟩
        = p.apply σ.env s ⟨σ.cells, []⟩ := Action.merge_constant_nil hpe hinv
    rw [applyTo_eq, applyTo_eq, hsame]
  · rw [applyTo_eq, applyTo_eq, Report.answer_ofRun_eq_iff]
    have hrun := GivesFields.eval halone hσ hplain hr s
    exact Action.outcome_constant_nil_merge hrun (hsteady.eval hσ hr s) ⟨rfl, hplain.later, rfl⟩

end Session

namespace Sample

/-- What is found in a group, under a key. -/
def part (key : String) : Parser Ref :=
  .field (.seqInside (.bracketed '(' ')') (.link (.cell 0)) none) key

theorem part_has (key : String) : session.Has (part key) where
  scope := .field (.seqInside (.bracketed _ _) (.link (by decide)) _) key
  plain := .field (.seqInside (.bracketed _ _) (.link trivial) _) key

theorem part_steady (key : String) : session.Steady (part key) := by
  intro s v
  have hsame : (part key).apply session.env (s.withValue v) = (part key).apply session.env s := rfl
  rw [Session.applyTo_eq, Session.applyTo_eq, hsame]

/-- A part behind a look ahead, which passes on the fields that are carried. -/
def further (key : String) : Parser Ref := .merge (.lookAhead (.total fun _ => true)) (part key)

theorem further_has (key : String) : session.Has (further key) where
  scope := .merge (.lookAhead (Callback.notes_any _)) (part_has key).scope
  plain := .merge (.lookAhead _) (part_has key).plain

end Sample

/-- Three groups, the second in a group of its own and with the fields of the first passed on.
    The third writes to the key of the first, which keeps its place. -/
theorem Session.merge_monoid_parts :
    let p := Sample.part "first"
    let q := Sample.further "second"
    Sample.session.Over (fun _ => True) 2 ∧ Sample.session.Plain ∧
    Sample.session.Has p ∧ Sample.session.Has q ∧
    (∀ s, Sample.session.GivesFields p s) ∧ Sample.session.Steady p ∧
    (∀ s l, (Sample.session.applyTo p s).1.answer = .reached l →
      Sample.session.GivesFields q l) ∧
    (match (Sample.session.applyTo (.merge p (.merge q p))
        (State.start "(a)((b))(c)".toList)).1.answer with
      | .reached w => w.value.asFields?.map (·.map fun entry => (entry.1, entry.2.asText?))
      | _ => none) = some [("first", some ['c']), ("second", some ['b'])] ∧
    ∀ s, (Sample.session.applyTo (.merge (.merge p q) p) s).1.answer
      = (Sample.session.applyTo (.merge p (.merge q p)) s).1.answer := by
  intro p q
  have hfields : ∀ s, Sample.session.GivesFields p s :=
    Session.givesFields_field Sample.session _ "first"
  have hsteady : Sample.session.Steady p := Sample.part_steady "first"
  have hpassed : ∀ s l, (Sample.session.applyTo p s).1.answer = .reached l →
      Sample.session.GivesFields q l :=
    fun s l hl => Session.givesFields_lookAhead_merge _ _ _ (hfields s l hl)
  refine ⟨Sample.session_over _, Sample.session_plain, Sample.part_has _, Sample.further_has _,
    hfields, hsteady, hpassed, ?_, fun s => ?_⟩
  · decide +kernel
  · exact (Session.merge_monoid (Sample.session_over _) Sample.session_plain (Sample.part_has _)
      (Sample.further_has _) (Sample.part_has _) (hfields s) (hpassed s) (fun _ t _ _ => hfields t)
      (hfields s) hsteady).1

end Descent

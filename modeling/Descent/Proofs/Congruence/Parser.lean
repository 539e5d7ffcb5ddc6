/-
  Descent.Proofs.Congruence.Parser

  What holds of parsers by what they are made of.  If links are followed in the relation of a
  congruence, every parser over them acts in it (`Congruence.acts_act`), steps of the user's
  own making included.  Of the congruence this asks that it holds of what parsers alone do:
  to run out of fuel, and to write log records and probes (`Congruence.Parses`).

  A loop complains of an element that takes nothing.  Whether the relation holds of that is
  asked only where an element can do so: `Parser.Guarded` says of the elements of a parser's
  loops that they cannot.
-/
import Descent.Proofs.Loop.Course

namespace Descent

/-! ## Elements of loops -/

/-- The elements of the parser's loops are of such a kind.  Of a repetition that is limited
    nothing is asked. -/
def Parser.Guarded {σ : Type} (element : Parser σ → Prop) : Parser σ → Prop
  | many p bounds _ => (bounds.unlimited = true → element p) ∧ p.Guarded element
  | interleave p _ _ => element p ∧ p.Guarded element
  | field p _ => p.Guarded element
  | map p _ => p.Guarded element
  | orDefault p _ => p.Guarded element
  | traced p _ => p.Guarded element
  | probe p => p.Guarded element
  | merge p q => p.Guarded element ∧ q.Guarded element
  | mergeInside p q _ => p.Guarded element ∧ q.Guarded element
  | seq p q => p.Guarded element ∧ q.Guarded element
  | seqInside p q _ => p.Guarded element ∧ q.Guarded element
  | thenSkip p q => p.Guarded element ∧ q.Guarded element
  | orElse p q => p.Guarded element ∧ q.Guarded element
  | between o c p => o.Guarded element ∧ c.Guarded element ∧ p.Guarded element
  | _ => True

/-- If elements may be anything, every parser will do. -/
theorem Parser.guarded_any {σ : Type} (p : Parser σ) : p.Guarded fun _ => True := by
  induction p <;> simp_all only [Guarded, and_self, implies_true]

namespace Congruence

open Run Descent.Action

variable (C : Congruence)

/-- The relation holds of all that parsers do besides putting runs together. -/
structure Parses : Prop where
  exhaust : ∀ {α : Type}, C.Runs (Run.exhaust : Run α) Run.exhaust
  checkpoint : ∀ label, C.Acts (Action.checkpoint label) (Action.checkpoint label)
  traced : ∀ {p p'}, C.Acts p p' → ∀ label, C.Acts (p.traced label) (p'.traced label)
  probe : ∀ {p p'}, C.Acts p p' → C.Acts p.probe p'.probe

/-- If the action can take nothing although something lies ahead, loops may complain. -/
def Spares (a : Action) : Prop :=
  ∀ s m next m', s.pos < s.text.length → a s m = .ok (some next) m' → next.pos = s.pos →
    C.Complains

variable {C} {p p' : Action}

theorem Complains.spares (h : C.Complains) (a : Action) : C.Spares a := fun _ _ _ _ _ _ _ => h

/-! ## Loops -/

/-- A loop with another element.  What is made of an outcome counts only for outcomes to which
    the element can come in an open stand. -/
theorem Runs.loop {γ : Type} {L : Loop γ} (hC : C.Parses)
    (helement : C.Acts L.element p') (hcondition : ∀ k ∈ L.condition, k.Notes C.entry)
    (hfinish : ∀ x, C.Runs (L.finish x) (L.finish x))
    (hgo : ∀ x m o m', L.isOpen x = true → L.element (L.place x) m = .ok o m' →
      C.Runs (L.goOn x o) (L.goOn x o)) (fuel : Nat) (x : γ) :
    C.Runs (L.run fuel x) (({ L with element := p' } : Loop γ).run fuel x) := by
  let L' : Loop γ := { L with element := p' }
  show C.Runs (L.run fuel x) (L'.run fuel x)
  -- Both are asked the same question in the same stand, and then go on from the same outcome.
  have hturn : ∀ x, C.Runs (L.turn x) (L'.turn x) := by
    intro x
    refine C.chain (Loop.asks_runs hcondition x) fun m wanted m₁ hask => ?_
    cases wanted with
    | false => exact .bind (hfinish x) fun o => .pure _
    | true =>
      have hopen : L.isOpen x = true := (Loop.asks_eq_true hask).1
      exact C.chain (helement _) fun m o m' happlied => hgo x m o m' hopen happlied
  induction fuel generalizing x with
  | zero => exact hC.exhaust
  | succ fuel ih =>
    refine .bind (hturn x) fun r => ?_
    cases r with
    | inl y => exact ih y
    | inr o => exact .pure o

theorem Acts.many (hC : C.Parses) (hp : C.Acts p p') {bounds : Bounds}
    (hspares : bounds.unlimited = true → C.Spares p) {condition : Option (Callback Text Bool)}
    (hcondition : ∀ k ∈ condition, k.Notes C.entry) (n : Nat) :
    C.Acts (p.many bounds condition n) (p'.many bounds condition n) := by
  intro s
  rw [Action.many, Action.many, Loop.many_run, Loop.many_run]
  refine .loop hC hp hcondition (fun _ => .pure _) (fun x m o m' hopen happlied => ?_) n _
  refine Loop.many_goOn_runs x o fun next ho hunlimited hpos => ?_
  subst ho
  exact hspares hunlimited (x.state.withValue s.value) m next m' (Loop.many_open hopen).1
    happlied hpos

theorem Acts.interleave (hC : C.Parses) (hp : C.Acts p p') (hspares : C.Spares p)
    {ofRun : Callback Text Value} (hr : ofRun.Notes C.entry) {condition : Callback Text Bool}
    (hcondition : condition.Notes C.entry) (n : Nat) :
    C.Acts (p.interleave ofRun condition n) (p'.interleave ofRun condition n) := by
  intro s
  rw [Action.interleave, Action.interleave, Loop.scan_run, Loop.scan_run]
  refine .loop hC hp hcondition.some (fun x => .scanned hr x.state x.run x.items)
    (fun x m o m' hopen happlied => ?_) n _
  refine Loop.scan_goOn_runs hr x o fun next ho hpos => ?_
  subst ho
  exact hspares (x.state.withValue .none) m next m' (Loop.scan_open hopen) happlied hpos

/-! ## Parsers -/

/-- If links act in the relation, so does every parser over them. -/
theorem acts_act {σ : Type} {links : σ → Prop} {element : Parser σ → Prop}
    {follow follow' : σ → Action} {n : Nat} (hC : C.Parses)
    (hlinks : ∀ l, links l → C.Acts (follow l) (follow' l))
    (helement : ∀ q, element q → C.Spares (q.act follow n)) {p : Parser σ}
    (hp : p.Over C.entry links) (hguarded : p.Guarded element) :
    C.Acts (p.act follow n) (p.act follow' n) := by
  induction hp with
  | satisfy ht => exact .satisfy ht
  | literal text => exact fun _ => .pure _
  | upTo delimiter => exact fun _ => .pure _
  | bracketed left right => exact fun _ => .pure _
  | remaining => exact fun _ => .pure _
  | endOfInput => exact fun _ => .pure _
  | constant value => exact fun _ => .pure _
  | fail => exact fun _ => .pure _
  | lookAhead hc => exact .lookAhead hc
  | checkpoint label => exact hC.checkpoint label
  | link hl => exact hlinks _ hl
  | field _ key ih => exact fun s => .andThen (ih hguarded s) fun _ => .pure _
  | merge _ _ ihp ihq => exact .merge (ihp hguarded.1) (ihq hguarded.2)
  | mergeInside _ _ key ihp ihq => exact .mergeInside (ihp hguarded.1) (ihq hguarded.2) key
  | seq _ _ ihp ihq => exact .seq (ihp hguarded.1) (ihq hguarded.2)
  | seqInside _ _ key ihp ihq => exact .seqInside (ihp hguarded.1) (ihq hguarded.2) key
  | thenSkip _ _ ihp ihq => exact .thenSkip (ihp hguarded.1) (ihq hguarded.2)
  | orElse _ _ ihp ihq => exact .orElse (ihp hguarded.1) (ihq hguarded.2)
  | between _ _ _ iho ihc ihp =>
    obtain ⟨ho, hc, hp⟩ := hguarded
    exact .thenSkip (.seq (iho ho) (ihp hp)) (ihc hc)
  | many _ bounds hc ih =>
    exact .many hC (ih hguarded.2) (fun h => helement _ (hguarded.1 h)) hc n
  | map _ hf ih => exact .map (ih hguarded) hf
  | orDefault _ value ih => exact .orElse (ih hguarded) fun _ => .pure _
  | traced _ label ih => exact hC.traced (ih hguarded) label
  | interleave _ hr hc ih =>
    exact .interleave hC (ih hguarded.2) (helement _ hguarded.1) hr hc n
  | custom step => exact fun _ => .pure _
  | probe _ ih => exact hC.probe (ih hguarded)

end Congruence
end Descent

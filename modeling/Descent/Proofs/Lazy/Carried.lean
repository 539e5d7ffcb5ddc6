/-
  Descent.Proofs.Lazy.Carried

  The value that a state carries does not leak.  Few parsers hand it on: what looks ahead,
  a checkpoint, and steps of the user's own making.  `Parser.Closed` says by the syntax of a
  parser that nothing of that kind is applied to the state in which the parser starts; what
  comes later gets the value of what came before.  Two runs of a closed parser whose states
  differ in the carried value alone are the same run (`Blind`).

  Links are taken by their origins, as in `Descent.Proofs.Lazy.Reuse`, and a link may be
  assumed to be closed where what it stands for is looked at.  The induction is on the depth
  to which links are followed, and for each depth on the syntax.
-/
import Descent.Proofs.Lazy.Reuse

namespace Descent

open Run

/-! ## Closed parsers -/

/-- Nothing in the parser hands on the value that the parser is applied with, if links of
    such a kind do not. -/
def Parser.Closed {σ : Type} (links : σ → Prop) : Parser σ → Prop
  | lookAhead _ => False
  | checkpoint _ => False
  | custom _ => False
  | probe _ => False
  | link l => links l
  | field p _ => p.Closed links
  | merge p _ => p.Closed links
  | mergeInside p _ _ => p.Closed links
  | seq p _ => p.Closed links
  | seqInside p _ _ => p.Closed links
  | thenSkip p _ => p.Closed links
  | orElse p q => p.Closed links ∧ q.Closed links
  | between opening _ _ => opening.Closed links
  | many p _ _ => p.Closed links
  | map p _ => p.Closed links
  | orDefault p _ => p.Closed links
  | traced p _ => p.Closed links
  | _ => True

namespace Parser

variable {σ τ : Type} {links : σ → Prop}

theorem closed_mapLinks {links : τ → Prop} (f : σ → τ) (p : Parser σ) :
    (p.mapLinks f).Closed links ↔ p.Closed fun l => links (f l) := by
  unfold mapLinks
  induction p <;> simp_all only [bindLinks, Closed, Id.run_bind, Id.run_pure]

theorem closed_quoted (delimiter : Text) : (quoted delimiter : Parser σ).Closed links := trivial

/-- A choice is closed if all alternatives are. -/
theorem closed_choice {ps : List (Parser σ)} :
    (choice ps).Closed links ↔ ∀ p ∈ ps, p.Closed links := choice_iff trivial fun _ _ => Iff.rfl

end Parser

/-! ## Runs that cannot tell -/

/-- The action does the same whatever value is carried, in memories of such a kind. -/
def Action.Blind (inv : Memory → Prop) (a : Action) : Prop :=
  ∀ s v m, inv m → a (s.withValue v) m = a s m

/-- The action leaves a memory of such a kind, however it ends. -/
def Action.Keeps (inv : Memory → Prop) (a : Action) : Prop :=
  ∀ s m, inv m → inv (left (a s m))

namespace Action

variable {inv : Memory → Prop} {p q : Action}

theorem Blind.of_eq (h : ∀ s v, p (s.withValue v) = p s) : p.Blind inv :=
  fun s v m _ => congrFun (h s v) m

theorem Keeps.left (h : p.Keeps inv) {s : State} {m m' : Memory} {o : Option State}
    (hm : inv m) (hr : p s m = .ok o m') : inv m' := by
  have hleft := h s m hm
  rw [hr] at hleft
  exact hleft

/-- What comes after a parser gets the state that the parser has left. -/
theorem Blind.andThen (hp : p.Blind inv) (next : Action) : (p.andThen next).Blind inv :=
  fun s v m hm => bind_congr (hp s v m hm) fun _ _ _ => rfl

theorem Blind.orElse (hp : p.Blind inv) (hkeeps : p.Keeps inv) (hq : q.Blind inv) :
    (p.orElse q).Blind inv := by
  intro s v m hm
  refine bind_congr (hp s v m hm) fun o m₁ hr => ?_
  cases o with
  | none =>
    -- The second alternative starts where the first one did, in a later memory.
    exact hq s v m₁ (hkeeps.left hm hr)
  | some t => rfl

/-- The records of a traced parser say where it starts, and not with which value. -/
theorem Blind.traced (hinv : ∀ m e, inv m → inv { m with trace := e :: m.trace })
    (hp : p.Blind inv) (label : String) : (p.traced label).Blind inv := by
  intro s v m hm
  refine bind_congr rfl fun _ m₁ hr => ?_
  cases hr
  exact bind_congr (hp s v _ (hinv m _ hm)) fun _ _ _ => rfl

/-- Neither the value that is carried into a repetition nor the one of the state is seen. -/
theorem Blind.repeatFrom (hinv : ∀ m m', m.cells = m'.cells → inv m → inv m')
    (hp : p.Blind inv) (hkeeps : p.Keeps inv) (bounds : Bounds)
    (condition : Option (Callback Text Bool)) (v w x : Value) (n : Nat) (s : State) (count : Nat)
    (values : List Value) (m : Memory) (hm : inv m) :
    repeatFrom p bounds condition v n (s.withValue x) count values m
      = repeatFrom p bounds condition w n s count values m := by
  -- From the first attempt on the two runs are in the same state, but carry on with values of
  -- their own, so the induction is for all values at once.
  induction n generalizing s x count values m with
  | zero => rfl
  | succ n ih =>
    rw [Action.repeatFrom, Action.repeatFrom]
    have hend : (s.withValue x).atEnd = s.atEnd := rfl
    rw [hend]
    split
    · rfl
    · refine bind_congr rfl fun wanted m₁ hwanted => ?_
      have hm₁ : inv m₁ := hinv m m₁ (wantsMore_cells hwanted).symm hm
      cases wanted with
      | false => rfl
      | true =>
        have hsame : p ((s.withValue x).withValue v) m₁ = p (s.withValue w) m₁ :=
          (hp s v m₁ hm₁).trans (hp s w m₁ hm₁).symm
        refine bind_congr hsame fun o m₂ hr => ?_
        cases o with
        | none => rfl
        | some next =>
          have hrest := ih next.value next (count + 1) (next.value :: values) m₂
            (hkeeps.left hm₁ hr)
          cases hstalled : (bounds.unlimited && next.pos == s.pos) with
          | true => simp only [State.withValue_pos, hstalled, if_true]
          | false =>
            simp only [State.withValue_pos, hstalled, Bool.false_eq_true, if_false]
            exact hrest

/-- A scan goes on without the value of the state in which it starts. -/
theorem Blind.interleave (p : Action) (ofRun : Callback Text Value)
    (condition : Callback Text Bool) (n : Nat) :
    (p.interleave ofRun condition n).Blind inv := by
  refine .of_eq fun s v => ?_
  cases n with
  | zero => rfl
  | succ n => rfl

end Action

/-! ## Closed parsers are blind -/

namespace Base

/-- The memory has come from some cells, and what it has built since is sound. -/
structure Holds (b : Base fun _ => True) (cs : Cells) (m : Memory) : Prop where
  sound : b.Sound m.cells
  grown : cs.Grown m.cells

variable {b : Base fun _ => True} {cs : Cells} {n : Nat} {p : Parser Ref} {K : Origin → Prop}

theorem Holds.of_cells {m m' : Memory} (h : m.cells = m'.cells) (hm : b.Holds cs m) :
    b.Holds cs m' := ⟨h ▸ hm.sound, h ▸ hm.grown⟩

theorem keeps_act (hp : p.Over (fun _ => True) (Ref.Below cs.size)) :
    (p.act (followBy (resolve b.env) n) n).Keeps (b.Holds cs) := by
  intro s m hm
  have hdenotes : b.Denotes m.cells p (p.mapLinks (b.cells.origin m.cells)) :=
    ⟨hp.mono (Ref.Below.mono hm.grown.size_le), rfl⟩
  have hbeside : b.Beside cs m m := ⟨hm.sound, hm.grown, rfl⟩
  have hends := ends_act (acts_follow n) hdenotes hbeside s
  obtain ⟨hsound, hgrown⟩ := left_of_ends hends
  exact ⟨hsound, hgrown⟩

/-- If closed links are blind, so is every closed parser over them. -/
theorem blind_act (hlinks : ∀ l : Ref, l.Below cs.size → K (b.cells.origin cs l) →
      (followBy (resolve b.env) n l).Blind (b.Holds cs))
    (hp : p.Over (fun _ => True) (Ref.Below cs.size))
    (hclosed : p.Closed fun l => K (b.cells.origin cs l)) :
    (p.act (followBy (resolve b.env) n) n).Blind (b.Holds cs) := by
  induction hp with
  | satisfy => exact .of_eq fun _ _ => rfl
  | literal => exact .of_eq fun _ _ => rfl
  | upTo => exact .of_eq fun _ _ => rfl
  | bracketed => exact .of_eq fun _ _ => rfl
  | remaining => exact .of_eq fun _ _ => rfl
  | endOfInput => exact .of_eq fun _ _ => rfl
  | constant => exact .of_eq fun _ _ => rfl
  | fail => exact .of_eq fun _ _ => rfl
  | lookAhead => exact absurd hclosed id
  | checkpoint => exact absurd hclosed id
  | link hl => exact hlinks _ hl hclosed
  -- In a sequence only the first part meets what was carried into the whole.
  | field _ key ih => exact (ih hclosed).andThen _
  | merge _ _ ihp _ => exact (ihp hclosed).andThen _
  | mergeInside _ _ key ihp _ => exact (ihp hclosed).andThen _
  | seq _ _ ihp _ => exact (ihp hclosed).andThen _
  | seqInside _ _ key ihp _ => exact (ihp hclosed).andThen _
  | thenSkip _ _ ihp _ => exact (ihp hclosed).andThen _
  | orElse hp _ ihp ihq => exact (ihp hclosed.1).orElse (keeps_act hp) (ihq hclosed.2)
  | between _ _ _ iho _ _ => exact ((iho hclosed).andThen _).andThen _
  | many hp bounds _ ih =>
    intro s v m hm
    exact (ih hclosed).repeatFrom (fun _ _ => Holds.of_cells) (keeps_act hp) bounds _ v s.value v
      n s 0 [] m hm
  | map _ _ ih => exact (ih hclosed).andThen _
  | orDefault hp value ih =>
    exact (ih hclosed).orElse (keeps_act hp) (.of_eq fun _ _ => rfl)
  | traced _ label ih => exact (ih hclosed).traced (fun _ _ hm => ⟨hm.sound, hm.grown⟩) label
  | interleave => exact .interleave _ _ _ n
  | custom => exact absurd hclosed id
  | probe => exact absurd hclosed id

/-- Closed links are blind, to any depth. -/
theorem blind_follow (hK : ∀ o, K o → ∀ P, b.Gives o P → P.Closed K) (n : Nat) (cs : Cells)
    (l : Ref) (hl : l.Below cs.size) (hclosed : K (b.cells.origin cs l)) :
    (followBy (resolve b.env) n l).Blind (b.Holds cs) := by
  induction n generalizing cs l with
  | zero => exact .of_eq fun _ _ => rfl
  | succ n ih =>
    intro s v m hm
    have hmeets := hm.sound.meets (hl.mono hm.grown.size_le) m
    rw [Cells.origin_grown hm.grown l hl] at hmeets
    generalize hr : resolve b.env l m = r at hmeets
    generalize hr' : b.find (b.cells.origin cs l) m = r' at hmeets
    -- What is found does not depend on the value, and it is closed.
    cases hmeets with
    | @found p P m₁ hp hsound =>
      have hP : P.Closed K := hK _ hclosed P ⟨m, m, hr'⟩
      rw [← hp.eq, Parser.closed_mapLinks] at hP
      rw [followBy_of_ok hr, followBy_of_ok hr]
      exact blind_act (ih m₁.cells) hp.scope hP s v m₁ ⟨hsound, .refl _⟩
    | raised k f => rw [followBy_of_error hr, followBy_of_error hr]
    | missing => rw [followBy_of_error hr, followBy_of_error hr]

end Base

/-- The carried value does not leak.  Let a set of origins be such that all parsers they stand
    for are closed over it, whether they have been built already or are built by their thunks.
    Then a parser that is closed over it does the same with two states that differ in the value
    alone, from the same memory: it comes to the same outcome, and leaves the same trace and
    the same delayed parts. -/
theorem Session.carried_value_blind {σ : Session} {bound : Nat}
    (hσ : σ.Over (fun _ => True) bound) {K : Origin → Prop}
    (hK : ∀ o, K o → ∀ P, hσ.base.Gives o P → P.Closed K) {p : Parser Ref}
    (hp : p.Over (fun _ => True) (Ref.Below σ.cells.size))
    (hclosed : p.Closed fun l => K (σ.cells.origin σ.cells l)) (text : Text) (pos : Nat)
    (v w : Value) :
    (∀ n trace, p.eval σ.env n (State.make text pos v) ⟨σ.cells, trace⟩
      = p.eval σ.env n (State.make text pos w) ⟨σ.cells, trace⟩) ∧
    σ.applyTo p (State.make text pos v) = σ.applyTo p (State.make text pos w) := by
  have hsame : ∀ n trace, p.eval σ.env n (State.make text pos v) ⟨σ.cells, trace⟩
      = p.eval σ.env n (State.make text pos w) ⟨σ.cells, trace⟩ := by
    intro n trace
    have hblind := Base.blind_act (b := hσ.base) (n := n)
      (fun l hl hKl => Base.blind_follow hK n σ.cells l hl hKl) hp hclosed
    have hholds : hσ.base.Holds σ.cells ⟨σ.cells, trace⟩ := ⟨hσ.fits.sound, .refl _⟩
    rw [Parser.eval, Env.follow_eq]
    exact hblind (State.make text pos w) v ⟨σ.cells, trace⟩ hholds
  refine ⟨hsame, ?_⟩
  -- An application has a budget, which depends on the text alone.
  rw [Session.applyTo_eq, Session.applyTo_eq]
  have happly := hsame (Parser.budget (State.make text pos w)) []
  change p.apply σ.env (State.make text pos v) ⟨σ.cells, []⟩
    = p.apply σ.env (State.make text pos w) ⟨σ.cells, []⟩ at happly
  rw [happly]

namespace Sample

/-- Nests in a row, through the delayed part. -/
def nests : Parser Ref := .many (.traced (.link (.cell 0)) "nest") {} none

theorem nests_over (entry : Entry → Prop) : nests.Over entry (Ref.Below 2) :=
  .repeated (.traced (.link (by decide)) _) _

/-- The delayed part stands for a closed parser. -/
theorem nest_closed (P : Parser Origin)
    (h : (session_over fun _ => True).base.Gives (.delayed (.named "nest")) P) :
    P.Closed fun o => o = .delayed (.named "nest") := by
  obtain ⟨m, m', hfind⟩ := h
  obtain rfl : nest.mapLinks (session.cells.origin session.cells) = P := by
    cases hfind
    rfl
  exact (Parser.closed_mapLinks _ _).2 ⟨trivial, trivial, trivial⟩

end Sample

/-- On one text a nest is found and the thunk is called, on another a second thunk raises a
    fault.  It is the same whatever is carried. -/
theorem Session.carried_value_blind_nests :
    Sample.session.Over (fun _ => True) 2 ∧ ["((x))", "(!)"].map (fun text =>
      (Sample.session.applyTo Sample.nests
        (State.make text.toList 0 (.str "secret".toList))).1.trace.length) = [3, 4] ∧
    ∀ (text : Text) (v w : Value),
      Sample.session.applyTo Sample.nests (State.make text 0 v)
        = Sample.session.applyTo Sample.nests (State.make text 0 w) := by
  refine ⟨Sample.session_over _, ?_, fun text v w => ?_⟩
  · decide +kernel
  · have hK : ∀ o, o = .delayed (.named "nest") → ∀ P,
        (Sample.session_over fun _ => True).base.Gives o P →
          P.Closed fun o => o = .delayed (.named "nest") := by
      rintro _ rfl
      exact Sample.nest_closed
    exact (Session.carried_value_blind (Sample.session_over _) hK (Sample.nests_over _) rfl text
      0 v w).2

end Descent

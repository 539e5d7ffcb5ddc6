/-
  Descent.Proofs.Choice.FirstMatch

  The first that matches wins (`Session.first_match_wins`).  A choice applies its parsers to
  one state, each in the memory that those before it have left, until one of them matches or
  raises a fault.  Runs are settled, so each comes to what it comes to on its own, and the
  choice can be read off the outcomes of its parsers in the session.  The laws of alternatives
  and of sequences hold for the runs themselves; that a common first part can be taken out of
  two alternatives holds for what they come to.
-/
import Descent.Proofs.Choice.Laws
import Descent.Proofs.Loop.Additive

namespace Descent

open Run

/-- Both parsers make the same run from every state, in whatever memory and with whatever
    names. -/
def Parser.Same (p q : Parser Ref) : Prop := ∀ env n s m, p.eval env n s m = q.eval env n s m

namespace Parser

variable {p q r : Parser Ref}

theorem Same.of_act (h : ∀ follow n, p.act follow n = q.act follow n) : p.Same q :=
  fun env n s m => congrFun (congrFun (h (env.follow n) n) s) m

theorem choice_append_same (ps qs : List (Parser Ref)) :
    (choice (ps ++ qs)).Same (orElse (choice ps) (choice qs)) := by
  refine .of_act fun follow n => ?_
  rw [act, Action.act_choice, List.map_append, Action.choice_append, Action.act_choice,
    Action.act_choice]

theorem choice_cons_same (p : Parser Ref) (ps : List (Parser Ref)) :
    (choice (p :: ps)).Same (orElse p (choice ps)) := choice_append_same [p] ps

theorem orElse_assoc_same (p q r : Parser Ref) :
    (orElse (orElse p q) r).Same (orElse p (orElse q r)) :=
  .of_act fun _ _ => Action.orElse_assoc _ _ _

theorem fail_orElse_same (p : Parser Ref) : (orElse fail p).Same p :=
  .of_act fun _ _ => Action.fail_orElse _

theorem orElse_fail_same (p : Parser Ref) : (orElse p fail).Same p :=
  .of_act fun _ _ => Action.orElse_fail _

theorem seq_assoc_same (p q r : Parser Ref) : (seq (seq p q) r).Same (seq p (seq q r)) :=
  .of_act fun _ _ => funext fun s => Action.andThen_assoc _ _ _ s

end Parser

/-! ## Joining -/

namespace Action

variable {inv : Memory → Prop}

theorem settled_mergeInto (l t : State) : Settled inv (mergeInto l t) :=
  Congruence.Runs.merged (C := settling inv) l.value t.value

/-- Two results can be merged, or else that is a fault. -/
theorem mergeInto_ne_none (l t : State) (m m' : Memory) : mergeInto l t m ≠ .ok none m' := by
  intro h
  obtain ⟨older, m₁, -, h⟩ := exists_of_bind h
  obtain ⟨newer, m₂, -, h⟩ := exists_of_bind h
  cases h

end Action

/-! ## In a session -/

namespace Session

variable {σ : Session} {bound : Nat} {p q r : Parser Ref} {ps xs ys : List (Parser Ref)}
  {n : Nat} {s : State}

theorem comesTo_same (h : p.Same q) (n : Nat) (s : State) : σ.comesTo n p s = σ.comesTo n q s :=
  congrArg outcome (h σ.env n s ⟨σ.cells, []⟩)

theorem scoped_choice : σ.Scoped (.choice ps) ↔ ∀ p ∈ ps, σ.Scoped p := by
  refine Parser.choice_iff .fail fun p q => ⟨fun h => ?_, fun h => .orElse h.1 h.2⟩
  cases h with
  | orElse hp hq => exact ⟨hp, hq⟩

/-- What alternatives come to, by what each of them comes to on its own. -/
theorem comesTo_orElse (hσ : σ.Over (fun _ => True) bound) (hp : σ.Scoped p) (hq : σ.Scoped q)
    (n : Nat) (s : State) :
    σ.comesTo n (.orElse p q) s = σ.comesTo n p s >>= fun o => match o with
      | some t => pure (some t)
      | none => σ.comesTo n q s := by
  refine (Settled.outcome_bind (hσ.settled hp n s) (fun _ o _ _ => ?_) hσ.holds hσ.holds).trans
    (congrArg _ (funext fun o => ?_))
  · cases o with
    | none => exact hσ.settled hq n s
    | some t => exact .pure (some t)
  · cases o <;> rfl

/-- A choice fails where all its parsers do. -/
theorem comesTo_choice_eq_none (hσ : σ.Over (fun _ => True) bound)
    (hps : ∀ p ∈ ps, σ.Scoped p) :
    σ.comesTo n (.choice ps) s = .ok none ↔ ∀ p ∈ ps, σ.comesTo n p s = .ok none := by
  induction ps with
  | nil => exact ⟨fun _ _ hp => absurd hp List.not_mem_nil, fun _ => rfl⟩
  | cons p ps ih =>
    obtain ⟨hp, hrest⟩ := List.forall_mem_cons.1 hps
    rw [comesTo_same (Parser.choice_cons_same p ps), comesTo_orElse hσ hp (scoped_choice.2 hrest),
      List.forall_mem_cons, ← ih hrest]
    -- Only where the first fails is the rest asked.
    match σ.comesTo n p s with
    | .error e => exact ⟨nofun, fun h => nomatch h.1⟩
    | .ok none => exact (and_iff_right rfl).symm
    | .ok (some t) => exact ⟨nofun, fun h => nomatch h.1⟩

/-- The run of a choice goes through the parsers that fail and ends with that of the first that
    does not.  What comes behind that is not applied. -/
theorem exists_choice_eval (hσ : σ.Over (fun _ => True) bound) (hxs : ∀ q ∈ xs, σ.Scoped q)
    (hp : σ.Scoped p) (hfailed : ∀ q ∈ xs, σ.comesTo n q s = .ok none)
    (hdecided : σ.comesTo n p s ≠ .ok none) (ys : List (Parser Ref)) :
    σ.comesTo n (.choice (xs ++ p :: ys)) s = σ.comesTo n p s ∧
    ∃ m, (Parser.choice xs).eval σ.env n s ⟨σ.cells, []⟩ = .ok none m ∧
      (Parser.choice (xs ++ p :: ys)).eval σ.env n s ⟨σ.cells, []⟩ = p.eval σ.env n s m := by
  obtain ⟨m, hm⟩ := outcome_eq_ok_iff.1 ((comesTo_choice_eq_none hσ hxs).2 hfailed)
  -- The memory that the others have left is one in which `p` does what it does on its own.
  have hholds : hσ.base.Holds σ.cells m :=
    (hσ.settled (scoped_choice.2 hxs) n s).keeps hσ.holds hm
  have houtcome : outcome (p.eval σ.env n s m) = σ.comesTo n p s :=
    (hσ.settled hp n s).same hholds hσ.holds
  have hne : ∀ m', p.eval σ.env n s m ≠ .ok none m' := fun m' h =>
    hdecided (houtcome.symm.trans (congrArg outcome h))
  have hrun : (Parser.choice (xs ++ p :: ys)).eval σ.env n s ⟨σ.cells, []⟩ = p.eval σ.env n s m :=
    calc (Parser.choice (xs ++ p :: ys)).eval σ.env n s ⟨σ.cells, []⟩
      _ = (Parser.orElse (.choice xs) (.choice (p :: ys))).eval σ.env n s ⟨σ.cells, []⟩ :=
        Parser.choice_append_same xs (p :: ys) _ _ _ _
      _ = (Parser.choice (p :: ys)).eval σ.env n s m := Action.orElse_of_failed hm
      _ = (Parser.orElse p (.choice ys)).eval σ.env n s m := Parser.choice_cons_same p ys _ _ _ _
      _ = p.eval σ.env n s m := Action.orElse_of_decided hne
  exact ⟨(congrArg outcome hrun).trans houtcome, m, hm, hrun⟩

/-- The first that matches wins.  In a session, a choice comes to what the first of its parsers
    comes to that does not fail on the state, be it a state or a fault: the run of the choice is
    that of the ones before, which all fail, and then that parser's, whatever comes behind it.
    It fails where all of them do.  Lists of parsers in a row are alternatives, and
    alternatives are a monoid with the parser that never matches as its unit; sequences are
    associative.  That is so for the whole runs.  And a common first part of two alternatives
    can be taken out, be it in a sequence for the second value, for the fields of both, or for
    the first value: this comes to the same, although the first part may be applied twice
    where it is left in. -/
theorem first_match_wins (hσ : σ.Over (fun _ => True) bound) (n : Nat) (s : State) :
    (∀ ps : List (Parser Ref), (∀ p ∈ ps, σ.Scoped p) →
      (σ.comesTo n (.choice ps) s = .ok none ↔ ∀ p ∈ ps, σ.comesTo n p s = .ok none) ∧
      ∀ xs p ys, ps = xs ++ p :: ys → (∀ q ∈ xs, σ.comesTo n q s = .ok none) →
        σ.comesTo n p s ≠ .ok none →
        σ.comesTo n (.choice ps) s = σ.comesTo n p s ∧
        ∃ m, (Parser.choice xs).eval σ.env n s ⟨σ.cells, []⟩ = .ok none m ∧
          (Parser.choice ps).eval σ.env n s ⟨σ.cells, []⟩ = p.eval σ.env n s m) ∧
    (∀ xs ys, (Parser.choice (xs ++ ys)).Same (.orElse (.choice xs) (.choice ys))) ∧
    (∀ p q r, (Parser.orElse (.orElse p q) r).Same (.orElse p (.orElse q r))) ∧
    (∀ p, (Parser.orElse .fail p).Same p ∧ (Parser.orElse p .fail).Same p) ∧
    (∀ p q r, (Parser.seq (.seq p q) r).Same (.seq p (.seq q r))) ∧
    ∀ p q r, σ.Scoped p → σ.Scoped q → σ.Scoped r →
      σ.comesTo n (.seq p (.orElse q r)) s = σ.comesTo n (.orElse (.seq p q) (.seq p r)) s ∧
      σ.comesTo n (.merge p (.orElse q r)) s
        = σ.comesTo n (.orElse (.merge p q) (.merge p r)) s ∧
      σ.comesTo n (.thenSkip p (.orElse q r)) s
        = σ.comesTo n (.orElse (.thenSkip p q) (.thenSkip p r)) s := by
  refine ⟨fun ps hps => ⟨comesTo_choice_eq_none hσ hps, ?_⟩, Parser.choice_append_same,
    Parser.orElse_assoc_same, fun p => ⟨p.fail_orElse_same, p.orElse_fail_same⟩,
    Parser.seq_assoc_same, fun p q r hp hq hr => ?_⟩
  · rintro xs p ys rfl hfailed hdecided
    obtain ⟨hxs, hrest⟩ := List.forall_mem_append.1 hps
    exact exists_choice_eval hσ hxs (hrest p List.mem_cons_self) hfailed hdecided ys
  · -- The first part is applied in other memories on the right, so it has to be settled.
    have hfirst := hσ.settled hp n s
    have hq := hσ.settled hq n
    have hr := hσ.settled hr n
    refine ⟨?_, ?_, ?_⟩
    · exact Action.outcome_andThen_orElse hfirst hq hr hσ.holds
    · exact Action.outcome_joined_orElse hfirst hq hr Action.settled_mergeInto
        Action.mergeInto_ne_none hσ.holds
    · exact Action.outcome_joined_orElse hfirst hq hr (fun _ _ => .pure _) (fun _ _ _ _ => nofun)
        hσ.holds

end Session

namespace Sample

/-- A question mark, or a group, or a parser that no name is bound to, or all that is left. -/
def alternatives : List (Parser Ref) :=
  [.literal ['?'], .seqInside (.bracketed '(' ')') (.link (.cell 0)) none, .link (.cell 1),
    .remaining]

theorem alternatives_scoped : ∀ p ∈ alternatives, session.Scoped p := by
  simp only [alternatives, List.forall_mem_cons, List.not_mem_nil, false_implies, implies_true,
    and_true]
  exact ⟨.literal _, .seqInside (.bracketed _ _) (.link (by decide)) _, .link (by decide),
    .remaining⟩

end Sample

/-- A group is found before the missing name is asked for.  Where there is none, the fault of
    the missing name ends the choice, although the last alternative would match.  And a group
    that is followed by a question mark or by anything else is found twice if it stands in both
    alternatives. -/
theorem Session.first_match_wins_nest :
    let σ := Sample.session
    let group := Parser.seqInside (.bracketed '(' ')') (.link (.cell 0)) none
    σ.Over (fun _ => True) 2 ∧ (∀ p ∈ Sample.alternatives, σ.Scoped p) ∧
    (match σ.comesTo 9 group (State.start "(x)".toList) with
      | .ok (some t) => t.pos == 3
      | _ => false) = true ∧
    σ.comesTo 9 (.choice Sample.alternatives) (State.start "(x)".toList)
      = σ.comesTo 9 group (State.start "(x)".toList) ∧
    σ.comesTo 9 (.choice Sample.alternatives) (State.start "x".toList)
      = .error (.fault (.undefinedName "gone")) ∧
    σ.comesTo 9 (.thenSkip group (.orElse (.literal ['?']) .remaining)) (State.start "(x)y".toList)
      = σ.comesTo 9 (.orElse (.thenSkip group (.literal ['?'])) (.thenSkip group .remaining))
        (State.start "(x)y".toList) := by
  intro σ group
  have hscoped := Sample.alternatives_scoped
  have hfound := ((first_match_wins (Sample.session_over _) 9 (State.start "(x)".toList)).1
    Sample.alternatives hscoped).2 [.literal ['?']] group [.link (.cell 1), .remaining] rfl
  have hraised := ((first_match_wins (Sample.session_over _) 9 (State.start "x".toList)).1
    Sample.alternatives hscoped).2 [.literal ['?'], group] (.link (.cell 1)) [.remaining] rfl
  obtain ⟨-, -, -, -, -, hfactored⟩ := first_match_wins (Sample.session_over fun _ => True) 9
    (State.start "(x)y".toList)
  simp only [List.forall_mem_cons, List.not_mem_nil, false_implies, implies_true, and_true]
    at hfound hraised
  refine ⟨Sample.session_over _, hscoped, rfl, (hfound rfl nofun).1, ?_, ?_⟩
  · exact (hraised ⟨rfl, rfl⟩ nofun).1
  · have hgroup : σ.Scoped group := hscoped _ (List.mem_cons_of_mem _ List.mem_cons_self)
    exact (hfactored group (.literal ['?']) .remaining hgroup (.literal _) .remaining).2.2

end Descent

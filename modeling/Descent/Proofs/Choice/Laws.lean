/-
  Descent.Proofs.Choice.Laws

  The algebra of alternatives and sequences.  What parsers do in whatever memory obeys the
  laws of a monoid, with the parser that never matches as the unit of alternatives; a choice,
  although it nests its alternatives to the left, is a fold from the right (`Action.choice_eq`).
  Alternatives that are followed by something are alternatives each of which is followed by
  it, as long as what follows never gives way (`Action.orElse_andThen`).

  A common first part of two alternatives is another matter.  Taken out it is applied once,
  and left in it is applied again where the first alternative fails, in another memory and to
  other calls of thunks.  Both come to the same where runs are settled
  (`Action.outcome_andThen_orElse`).
-/
import Descent.Proofs.Merge.Monoid

namespace Descent

open Run

namespace Action

variable {p q r first next : Action} {s : State} {m m' : Memory}

/-! ## Alternatives -/

/-- The second alternative starts in the memory that the first has left. -/
theorem orElse_of_failed (h : p s m = .ok none m') : p.orElse q s m = q s m' := bind_of_ok h

/-- An alternative that matches, or that ends the run early, is the last to be applied. -/
theorem orElse_of_decided (h : ∀ m', p s m ≠ .ok none m') : p.orElse q s m = p s m := by
  cases hp : p s m with
  | error e m' => exact bind_of_error hp
  | ok o m' =>
    cases o with
    | none => exact absurd hp (h m')
    | some t => exact bind_of_ok hp

theorem fail_orElse (p : Action) : fail.orElse p = p := rfl

theorem orElse_fail (p : Action) : p.orElse fail = p := by
  funext s
  calc p.orElse fail s = p s >>= pure := congrArg (p s >>= ·) (funext fun o => by cases o <;> rfl)
    _ = p s := bind_pure _

theorem orElse_assoc (p q r : Action) : (p.orElse q).orElse r = p.orElse (q.orElse r) := by
  funext s
  unfold orElse
  rw [bind_assoc]
  refine congrArg _ (funext fun o => ?_)
  cases o with
  | none => rfl
  | some t => rfl

/-! ## A choice -/

/-- The alternatives from the first to the last. -/
def choice (ps : List Action) : Action := ps.foldr orElse fail

theorem choice_cons (p : Action) (ps : List Action) : choice (p :: ps) = p.orElse (choice ps) :=
  rfl

theorem choice_append (ps qs : List Action) :
    choice (ps ++ qs) = (choice ps).orElse (choice qs) := by
  induction ps with
  | nil => exact (fail_orElse _).symm
  | cons p ps ih => rw [List.cons_append, choice_cons, ih, choice_cons, orElse_assoc]

/-- A choice of parsers is the choice of what they do. -/
theorem act_choice {σ : Type} (follow : σ → Action) (n : Nat) (ps : List (Parser σ)) :
    (Parser.choice ps).act follow n = choice (ps.map fun p => p.act follow n) := by
  cases ps with
  | nil => rfl
  | cons p rest =>
    rw [Parser.choice, List.map_cons, choice_cons]
    -- The fold from the left has an alternative behind it that collects what has been read.
    induction rest generalizing p with
    | nil => exact (orElse_fail _).symm
    | cons q rest ih =>
      rw [List.foldl_cons, ih, List.map_cons, choice_cons, ← orElse_assoc]
      rfl

/-! ## What comes after -/

/-- Alternatives before something that never gives way. -/
theorem orElse_andThen (hnext : ∀ t m m', next t m ≠ .ok none m') (p q : Action) :
    (p.orElse q).andThen next = (p.andThen next).orElse (q.andThen next) := by
  funext s
  unfold orElse andThen
  rw [bind_assoc, bind_assoc]
  refine congrArg _ (funext fun o => ?_)
  cases o with
  | none => rfl
  | some t =>
    -- The first alternative has matched, and what comes after it does not undo that.
    have hdecided : next.orElse (fun _ => q.andThen next s) t = next t :=
      funext fun m => orElse_of_decided (hnext t m)
    exact hdecided.symm

/-! ## What comes before -/

variable {inv : Memory → Prop}

theorem settled_andThen (hfirst : Settled inv (first s)) (hnext : ∀ t, Settled inv (next t)) :
    Settled inv (first.andThen next s) :=
  have hruns : (settling inv).Runs (first.andThen next s) (first.andThen next s) :=
    .andThen hfirst hnext
  hruns

/-- Alternatives after something: it can be applied once, or again for the second one. -/
theorem outcome_andThen_orElse (hfirst : Settled inv (first s)) (hq : ∀ t, Settled inv (q t))
    (hr : ∀ t, Settled inv (r t)) (hm : inv m) :
    outcome (first.andThen (q.orElse r) s m)
      = outcome ((first.andThen q).orElse (first.andThen r) s m) := by
  cases hs : first s m with
  | error e m₁ =>
    have hq' : first.andThen q s m = .error e m₁ := andThen_of_stopped hs
    rw [andThen_of_stopped hs, orElse_of_decided (by simp [hq']), hq']
  | ok o m₁ =>
    have hm₁ : inv m₁ := hfirst.keeps hm hs
    -- What the first part has come to, it comes to again.
    have hagain : ∀ {m₂}, inv m₂ → ∃ m₃, first s m₂ = .ok o m₃ ∧ inv m₃ := by
      intro m₂ hm₂
      obtain ⟨m₃, h⟩ := outcome_eq_ok_iff.1 ((hfirst.same hm₂ hm).trans (congrArg outcome hs))
      exact ⟨m₃, h, hfirst.keeps hm₂ h⟩
    cases o with
    | none =>
      -- Neither alternative is reached, on the right after two attempts.
      obtain ⟨m₃, h, -⟩ := hagain hm₁
      rw [andThen_of_failed hs, orElse_of_failed (andThen_of_failed hs), andThen_of_failed h]
      rfl
    | some t =>
      rw [andThen_of_matched hs]
      by_cases hfail : ∃ m₂, q t m₁ = .ok none m₂
      · -- On the right the first part is applied again, and leads to the same state.
        obtain ⟨m₂, hfail⟩ := hfail
        have hm₂ : inv m₂ := (hq t).keeps hm₁ hfail
        obtain ⟨m₃, h, hm₃⟩ := hagain hm₂
        have hseq : first.andThen q s m = .ok none m₂ := (andThen_of_matched hs).trans hfail
        rw [orElse_of_failed hfail, orElse_of_failed hseq, andThen_of_matched h]
        exact (hr t).same hm₂ hm₃
      · have hdecided : ∀ m₂, q t m₁ ≠ .ok none m₂ := fun m₂ h => hfail ⟨m₂, h⟩
        have hseq : first.andThen q s m = q t m₁ := andThen_of_matched hs
        rw [orElse_of_decided hdecided, orElse_of_decided (hseq ▸ hdecided), hseq]

/-- So it is where the states of both parts are joined in the end, in a way that never gives
    way. -/
theorem outcome_joined_orElse {join : State → Action} (hfirst : Settled inv (first s))
    (hq : ∀ t, Settled inv (q t)) (hr : ∀ t, Settled inv (r t))
    (hjoin : ∀ l t, Settled inv (join l t)) (hgiven : ∀ l t m m', join l t m ≠ .ok none m')
    (hm : inv m) :
    outcome (first.andThen (fun l => (q.orElse r).andThen (join l) l) s m)
      = outcome ((first.andThen fun l => q.andThen (join l) l).orElse
          (first.andThen fun l => r.andThen (join l) l) s m) := by
  -- What follows the first part are alternatives, each with the joining at its end.
  have halternatives : (fun l => (q.orElse r).andThen (join l) l)
      = Action.orElse (fun l => q.andThen (join l) l) fun l => r.andThen (join l) l :=
    funext fun l => congrFun (orElse_andThen (hgiven l) q r) l
  rw [halternatives]
  exact outcome_andThen_orElse hfirst (fun t => settled_andThen (hq t) (hjoin t))
    (fun t => settled_andThen (hr t) (hjoin t)) hm

end Action

end Descent

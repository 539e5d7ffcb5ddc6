/-
  Descent.Proofs.Lazy.Settled

  What a parser of a session comes to is settled: it is the same in all memories to which
  runs of the session can lead, for steps of the user's own making and for probes too
  (`Session.Over.settled`).  Such memories differ in the delayed parts that have been built
  and in the trace.  The first makes no difference by `Base.ends_act`, which puts both runs
  beside one that keeps no cells.  That run finds its links without a look at the memory,
  so the second makes none either (`Base.outcome_named`).
-/
import Descent.Proofs.Instrument.Thinned
import Descent.Proofs.Lazy.Carried
import Descent.Proofs.Loop.Turn

namespace Descent

open Run

/-- Every parser is over links and entries of which nothing is asked. -/
theorem Parser.over_anything {σ : Type} [SizeOf σ] (p : Parser σ) :
    p.Over (fun _ => True) fun _ => True := p.over_smaller.mono fun _ _ => trivial

/-- Nothing is asked of the memories: two runs in this accord come to the same in any two. -/
def Accord.anyMemory : Accord where
  going _ _ := True
  ended _ _ _ := True
  waived _ := False
  entry _ := True
  own _ _ := trivial
  write _ _ _ := trivial
  stop _ _ := trivial

/-- Where nothing is waived, ends in accord have the same outcome. -/
theorem Accord.Ends.outcome_eq {K : Accord} {α : Type} (hwaived : ∀ e, ¬ K.waived e)
    {r r' : EStateM.Result Stop Memory α} (h : K.Ends r r') : outcome r = outcome r' := by
  cases h with
  | ok a _ => rfl
  | ended e _ => rfl
  | waived h => exact absurd h (hwaived _)

namespace Base

variable {b : Base fun _ => True} {cs : Cells} {m : Memory} {p : Parser Ref}

/-- An origin stands for the same in every memory. -/
theorem finds_anyMemory (o : Origin) (m m' : Memory) :
    Accord.anyMemory.Finds (b.find o m) (b.find o m') := by
  cases o with
  | settled n =>
    simp only [find]
    cases b.cells.builtAt n with
    | none => exact .ended _ trivial
    | some p => exact .ok (Parser.over_anything _) trivial
  | delayed t =>
    simp only [find]
    cases t.expand b.env.names b.cells with
    | error f => exact .ended (.fault f) trivial
    | ok P => exact .ok P.over_anything trivial
  | rule name =>
    simp only [find]
    cases b.env.rules.lookup name with
    | none => exact .ended _ trivial
    | some p => exact .ok (Parser.over_anything _) trivial

/-- A run that keeps no cells does not depend on the memory in which it starts. -/
theorem outcome_named (P : Parser Origin) (n : Nat) (s : State) (m m' : Memory) :
    outcome (P.act (followBy b.find n) n s m) = outcome (P.act (followBy b.find n) n s m') := by
  have hlinks : ∀ l, Accord.anyMemory.Acts (followBy b.find n l) (followBy b.find n l) :=
    Accord.acts_followBy (fun o m m' _ => finds_anyMemory o m m') n
  have hacts := Accord.acts_act (K := .anyMemory) (n := n) (fun l _ => hlinks l) P.over_anything
  exact (hacts s m m' trivial).outcome_eq fun _ => id

/-- In a memory that has come from some cells, a parser over these comes to what its links
    stand for there. -/
theorem Holds.outcome_act (hm : b.Holds cs m) (hp : p.Over (fun _ => True) (Ref.Below cs.size))
    (n : Nat) (s : State) :
    outcome (p.act (followBy (resolve b.env) n) n s m)
      = outcome ((p.mapLinks (b.cells.origin cs)).act (followBy b.find n) n s ⟨#[], []⟩) := by
  -- The links of the parser have kept their origins.
  have hdenotes : b.Denotes m.cells p (p.mapLinks (b.cells.origin cs)) :=
    Parser.Denotes.mono ⟨hp, rfl⟩ hm.grown
  -- The run without cells starts with the same trace here, which is then forgotten.
  have hbeside : b.Beside cs m ⟨#[], m.trace⟩ := ⟨hm.sound, hm.grown, rfl⟩
  have hends := ends_act (acts_follow n) hdenotes hbeside s
  exact (hends.outcome_eq fun _ => id).trans (outcome_named _ n s _ _)

/-- So it comes to the same in all such memories, and leaves one. -/
theorem settled_act (hp : p.Over (fun _ => True) (Ref.Below cs.size)) (n : Nat) (s : State) :
    Settled (b.Holds cs) (p.act (followBy (resolve b.env) n) n s) where
  same hm hm' := (hm.outcome_act hp n s).trans (hm'.outcome_act hp n s).symm
  keeps hm h := (keeps_act hp).left hm h

end Base

namespace Session

variable {σ : Session} {bound : Nat} {p : Parser Ref}

/-- The parser is over the session: its links lead to delayed parts that are there. -/
abbrev Scoped (σ : Session) (p : Parser Ref) : Prop :=
  p.Over (fun _ => True) (Ref.Below σ.cells.size)

theorem Over.holds (hσ : σ.Over (fun _ => True) bound) :
    hσ.base.Holds σ.cells ⟨σ.cells, []⟩ := ⟨hσ.fits.sound, .refl _⟩

/-- A parser comes to the same wherever a run of the session has led. -/
theorem Over.settled (hσ : σ.Over (fun _ => True) bound) (hp : σ.Scoped p) (n : Nat)
    (s : State) : Settled (hσ.base.Holds σ.cells) (p.eval σ.env n s) := by
  rw [Parser.eval, Env.follow_eq]
  exact Base.settled_act (b := hσ.base) hp n s

end Session

end Descent

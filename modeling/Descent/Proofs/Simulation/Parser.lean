/-
  Descent.Proofs.Simulation.Parser

  Plain parsers keep whatever a simulation is about.  The theorem for `Parser.act` goes
  by the syntax of the parser, the one for `Env.follow` by the depth to which links are
  followed, and `sim_eval` puts them together: a plain parser acts alike on related
  states, with as much fuel on the second side as on the first, or more.
-/
import Descent.Proofs.Plain
import Descent.Proofs.Simulation.Action

namespace Descent

/-- The same delayed parts on both sides, all of them plain. -/
def Cells.SamePlain (cells cells' : Cells) : Prop := cells = cells' ∧ cells.Plain

namespace Simulation

open Run

variable {σ : Simulation}

/-! ## One parser -/

/-- If the links act alike, so does a plain parser over them. -/
theorem acts_act {τ : Type} {links : τ → Prop} {follow follow' : τ → Action} {n n' : Nat}
    (hn : n ≤ n') (hlinks : ∀ l, links l → σ.Acts (follow l) (follow' l)) {p : Parser τ}
    (hp : p.PlainOver links) : σ.Acts (p.act follow n) (p.act follow' n') := by
  induction hp with
  | satisfy test => exact acts_satisfy test
  | literal text => exact acts_literal text
  | upTo delimiter => exact acts_upTo delimiter
  | bracketed left right => exact acts_bracketed left right
  | remaining => exact acts_remaining
  | endOfInput => exact acts_endOfInput
  | constant value => exact acts_constant value
  | fail => exact acts_fail
  | lookAhead condition => exact acts_lookAhead condition
  | checkpoint label => exact acts_checkpoint label
  | link hl => exact hlinks _ hl
  | field _ key ih => exact acts_field ih key
  | merge _ _ ihp ihq => exact acts_merge ihp ihq
  | mergeInside _ _ key ihp ihq => exact acts_mergeInside ihp ihq key
  | seq _ _ ihp ihq => exact acts_seq ihp ihq
  | seqInside _ _ key ihp ihq => exact acts_seqInside ihp ihq key
  | thenSkip _ _ ihp ihq => exact acts_thenSkip ihp ihq
  | orElse _ _ ihp ihq => exact acts_orElse ihp ihq
  | between _ _ _ iho ihc ihp => exact acts_between iho ihc ihp
  | many _ bounds condition ih => exact acts_many ih bounds condition hn
  | map _ f ih => exact acts_map ih f
  | orDefault _ value ih => exact acts_orDefault ih value
  | traced _ label ih => exact acts_traced ih label
  | interleave _ ofRun condition ih => exact acts_interleave ih ofRun condition hn

/-! ## Links -/

section SamePlain

variable (hσ : ∀ c c', σ.cells c c' ↔ Cells.SamePlain c c') {env : Env} (henv : env.Plain)

include hσ henv

/-- A cell stands for the same plain parser on both sides, and building it leaves the
    same cells. -/
theorem sim_force (n : Nat) :
    Sim σ.mem (fun p p' => p = p' ∧ p.Plain) (force env.names n) (force env.names n) := by
  refine .bind .get fun m m' hm => ?_
  obtain ⟨hcells, hplain⟩ := (hσ _ _).1 hm.1
  rw [← hcells]
  split
  · exact .exhaust
  · next thunk p hcell =>
    have hp := (hplain _ (Array.mem_of_getElem? hcell)).built p rfl
    exact .pure ⟨rfl, hp⟩
  · next thunk hcell =>
    have hthunk := (hplain _ (Array.mem_of_getElem? hcell)).thunk
    refine .bind (.write allowsWrite _) fun _ _ _ => ?_
    split
    · exact .raise allowsWrite _
    · next p cells hbuild =>
      obtain ⟨hp, hcells'⟩ := Thunk.build_plain henv.names hthunk m.cells hplain p cells hbuild
      refine .bind (R := fun _ _ => True) (fun _ _ hm₁ => .ok trivial ⟨?_, hm₁.2⟩)
        fun _ _ _ => .pure ⟨rfl, hp⟩
      refine (hσ _ _).2 ⟨rfl, fun cell hmem => ?_⟩
      rcases Array.mem_or_eq_of_mem_setIfInBounds hmem with hold | rfl
      · exact hcells' cell hold
      · exact ⟨hthunk, fun p' hp' => by cases hp'; exact hp⟩

theorem sim_resolve (l : Ref) :
    Sim σ.mem (fun p p' => p = p' ∧ p.Plain) (resolve env l) (resolve env l) := by
  cases l with
  | cell n => exact sim_force hσ henv n
  | rule name =>
    simp only [resolve]
    split
    · next p hp => exact .pure ⟨rfl, henv.rules.lookup hp⟩
    · exact .exhaust

/-- Links act alike, to any depth and to greater depths. -/
theorem acts_follow (n n' : Nat) (hn : n ≤ n') (l : Ref) :
    σ.Acts (env.follow n l) (env.follow n' l) := by
  induction n generalizing n' l with
  | zero => exact fun _ _ _ _ => .exhaust
  | succ n ih =>
    obtain ⟨n', rfl⟩ : ∃ k, n' = k + 1 := ⟨n' - 1, by omega⟩
    have hn' : n ≤ n' := Nat.le_of_succ_le_succ hn
    intro v s s' h
    refine .bind (sim_resolve hσ henv l) ?_
    rintro p _ ⟨rfl, hp⟩
    exact acts_act hn' (fun l _ => ih n' hn' l) hp v s s' h

/-- A plain parser acts alike on related states. -/
theorem acts_eval {p : Parser Ref} (hp : p.Plain) {n n' : Nat} (hn : n ≤ n') :
    σ.Acts (p.eval env n) (p.eval env n') :=
  acts_act hn (fun l _ => acts_follow hσ henv n n' hn l) hp

end SamePlain

/-! ## Both ways -/

/-- The two sides exchanged. -/
def flip (σ : Simulation) : Simulation where
  View := σ.View
  state v s s' := σ.state v s' s
  cells c c' := σ.cells c' c
  trace w w' := σ.trace w' w
  value_eq h := (σ.value_eq h).symm
  rest_eq h := (σ.rest_eq h).symm
  inBounds_eq h := (σ.inBounds_eq h).symm
  pos_eq_iff h ht := (σ.pos_eq_iff h ht).symm
  withValue h := σ.withValue h
  advance h n a hn := σ.advance h n a (σ.rest_eq h ▸ hn)
  toEnd h := σ.toEnd h
  moveTo h ht := σ.moveTo h ht
  start := σ.start
  write hw := σ.write hw
  log h hw := σ.log h hw

/-- With equal fuel a plain parser comes to the same end on related states, or to none on
    either. -/
theorem agree_eval (hσ : ∀ c c', σ.cells c c' ↔ Cells.SamePlain c c') {env : Env}
    (henv : env.Plain) {p : Parser Ref} (hp : p.Plain) {v : σ.View} {s s' : State}
    (h : σ.state v s s') {m m' : Memory} (hm : σ.mem m m') (n : Nat) :
    Agree σ.mem (σ.outcome v) (p.eval env n s m) (p.eval env n s' m') := by
  have hflip : ∀ c c', σ.flip.cells c c' ↔ Cells.SamePlain c c' := fun c c' =>
    (hσ c' c).trans ⟨fun ⟨heq, hc⟩ => ⟨heq.symm, heq ▸ hc⟩, fun ⟨heq, hc⟩ => ⟨heq.symm, heq ▸ hc⟩⟩
  have hforth := acts_eval hσ henv hp (Nat.le_refl n) v s s' h m m' hm
  have hback := acts_eval (σ := σ.flip) hflip henv hp (Nat.le_refl n) v s' s h m' m hm
  exact hforth.agree_of_flip hback

/-- A plain parser that answers within its budget answers alike on a related state whose
    text is no shorter. -/
theorem agree_apply (hσ : ∀ c c', σ.cells c c' ↔ Cells.SamePlain c c') {env : Env}
    (henv : env.Plain) {p : Parser Ref} (hp : p.Plain) {v : σ.View} {s s' : State}
    (h : σ.state v s s') (hlen : s.text.length ≤ s'.text.length) {m m' : Memory}
    (hm : σ.mem m m') (answered : ¬ GaveUp (p.apply env s m)) :
    Agree σ.mem (σ.outcome v) (p.apply env s m) (p.apply env s' m') := by
  have hbudget : Parser.budget s ≤ Parser.budget s' :=
    Nat.mul_le_mul_left _ (Nat.succ_le_succ hlen)
  exact (acts_eval hσ henv hp hbudget v s s' h m m' hm).agree answered

end Simulation
end Descent

/-
  Descent.Proofs.Account.Basic

  What a run adds to the trace.  An `Account` says of the entries that a run adds, the last
  of them first, what they can be while the run goes on, and what they can be if it ends
  early.  That a run keeps to it is kept when runs are put together (`Account.congruence`),
  so it is enough to look at what parsers alone write (`Account.parses`) and at how links are
  found (`Account.acts_followBy`).
-/
import Descent.Proofs.Lazy.Accord

namespace Descent

/-! ## Accounts -/

/-- What can be said of the entries that runs add to the trace, the last of them first. -/
structure Account where
  /-- The delayed parts, as long as a run goes on. -/
  cells : Cells → Prop
  /-- The entries of a run that has come to a result. -/
  passed : Trace → Prop
  /-- The entries of a run that has ended early. -/
  ended : Stop → Trace → Prop
  /-- The entries that callbacks may write. -/
  entry : Entry → Prop
  nil : passed []
  append : ∀ {w v}, passed w → passed v → passed (v ++ w)
  after : ∀ {e w v}, passed w → ended e v → ended e (v ++ w)
  called : ∀ {e}, entry e → passed [e]
  checked : ∀ label (s : State), passed [.logged (.reached label s.pos s.preview)]
  probed : ∀ s : State, passed [.probed s.pos s.value]
  failed : ∀ label (s : State) {w}, passed w →
    passed ([.logged (.failed label s.pos)] ++ (w ++ [.logged (.trying label s.pos s.preview)]))
  matched : ∀ label (s t : State) {w}, passed w →
    passed ([.logged (.matched label t.value t.pos)] ++
      (w ++ [.logged (.trying label s.pos s.preview)]))
  left : ∀ label (s : State) {e w}, ended e w →
    ended e (w ++ [.logged (.trying label s.pos s.preview)])
  exhausted : ended .exhausted []
  raised : ∀ f, ended (.fault f) [.raised f]
  rejected : ∀ e : GrammarError, ¬ e.Stalled → ended (.fault (.grammar e)) []

namespace Account

open Run

variable (A : Account) {α : Type}

/-- From a memory, a run comes to an end that keeps to the account. -/
inductive Ends (m : Memory) : EStateM.Result Stop Memory α → Prop
  | ok (a : α) {m' : Memory} {w : Trace} : m'.trace = w ++ m.trace → A.passed w →
      A.cells m'.cells → Ends m (.ok a m')
  | ended {e : Stop} {m' : Memory} {w : Trace} : m'.trace = w ++ m.trace → A.ended e w →
      Ends m (.error e m')

/-- What is said of a run from a memory can be said from an earlier one. -/
theorem Ends.before {A : Account} {m m₁ : Memory} {w : Trace} (htrace : m₁.trace = w ++ m.trace)
    (hw : A.passed w) {r : EStateM.Result Stop Memory α} (h : A.Ends m₁ r) : A.Ends m r := by
  cases h with
  | @ok a m' v htrace' hv hcells =>
    -- The later entries stand before the earlier ones.
    have hboth : m'.trace = (v ++ w) ++ m.trace := by rw [htrace', htrace, List.append_assoc]
    exact .ok a hboth (A.append hw hv) hcells
  | @ended e m' v htrace' hv =>
    have hboth : m'.trace = (v ++ w) ++ m.trace := by rw [htrace', htrace, List.append_assoc]
    exact .ended hboth (A.after hw hv)

/-- That a run keeps to the account, which is a matter of the first run alone. -/
def congruence : Congruence where
  Runs x _ := ∀ m, A.cells m.cells → A.Ends m (x m)
  entry := A.entry
  result a _ hm := .ok a rfl A.nil hm
  chain {_ _ x _ _ _} hx hf m hm := by
    have hends := hx m hm
    generalize hr : x m = r at hends
    cases hends with
    | ok a htrace hw hcells =>
      rw [bind_of_ok hr]
      exact (hf m a _ hr _ hcells).before htrace hw
    | ended htrace hw =>
      -- The first part has ended early, so what follows is never run.
      rw [bind_of_error hr]
      exact .ended htrace hw
  note he _ hm := .ok () rfl (A.called he) hm
  raised f _ _ := .ended rfl (A.raised f)
  rejected e he _ _ := .ended rfl (A.rejected e he)

/-- An action keeps to the account on every state. -/
abbrev Acts (a : Action) : Prop := A.congruence.Acts a a

variable {A}

theorem complains (h : ∀ e : GrammarError, A.ended (.fault (.grammar e)) []) :
    A.congruence.Complains := fun _ e _ _ => .ended rfl (h e)

theorem runs_write {e : Entry} (he : A.passed [e]) :
    A.congruence.Runs (Run.write e) (Run.write e) := fun _ hm => .ok () rfl he hm

/-- The records of a traced parser stand around all that the parser writes. -/
theorem acts_traced {p : Action} (hp : A.Acts p) (label : String) : A.Acts (p.traced label) := by
  intro s m hm
  have hwrite : write (.logged (.trying label s.pos s.preview)) m
      = .ok () { m with trace := .logged (.trying label s.pos s.preview) :: m.trace } := rfl
  -- The parser runs behind its first record, which is put back in front of what it writes.
  have hends := hp s { m with trace := .logged (.trying label s.pos s.preview) :: m.trace } hm
  unfold Action.traced
  rw [bind_of_ok hwrite]
  generalize hr : p s _ = r at hends
  cases hends with
  | @ok o m₁ w htrace hw hcells =>
    rw [bind_of_ok hr]
    cases o with
    | none =>
      refine .ok none ?_ (A.failed label s hw) hcells
      rw [List.append_assoc, List.append_assoc, List.singleton_append, List.singleton_append,
        ← htrace]
    | some t =>
      refine .ok (some t) ?_ (A.matched label s t hw) hcells
      rw [List.append_assoc, List.append_assoc, List.singleton_append, List.singleton_append,
        ← htrace]
  | @ended e m₁ w htrace hw =>
    rw [bind_of_error hr]
    refine .ended ?_ (A.left label s hw)
    rw [List.append_assoc, List.singleton_append, htrace]

theorem parses : A.congruence.Parses where
  exhaust := fun _ _ => .ended rfl A.exhausted
  checkpoint label s := .bind (runs_write (A.checked label s)) fun _ => .pure (some s)
  traced {p _} hp label := acts_traced (p := p) hp label
  probe hp s := .bind (runs_write (A.probed s)) fun _ => hp s

/-! ## Links -/

section Find

variable {σ : Type} {element : Parser σ → Prop}

/-- A parser is found that keeps to the account, and so does the finding of it. -/
structure Finds (A : Account) (element : Parser σ → Prop) (links : σ → Prop)
    (m : Memory) (r : EStateM.Result Stop Memory (Parser σ)) : Prop where
  ends : A.Ends m r
  found : ∀ p m', r = .ok p m' → p.Over A.entry links ∧ p.Guarded element

variable {find : σ → Run (Parser σ)} {links : σ → Prop}

/-- If finding keeps to an account, so do the links, to any depth. -/
theorem acts_followBy
    (hfind : ∀ l, links l → ∀ m, A.cells m.cells → A.Finds element links m (find l m))
    (helement : ∀ n q, element q → A.congruence.Spares (q.act (followBy find n) n)) (n : Nat)
    (l : σ) (hl : links l) : A.Acts (followBy find n l) := by
  induction n generalizing l with
  | zero => exact fun _ => parses.exhaust
  | succ n ih =>
    intro s m hm
    -- First the parser is found, then it is applied, with links that are followed less deep.
    obtain ⟨hends, hfound⟩ := hfind l hl m hm
    generalize hr : find l m = r at hends hfound
    cases hends with
    | ok p htrace hw hcells =>
      obtain ⟨hover, hguarded⟩ := hfound p _ rfl
      rw [followBy_of_ok hr]
      have hacts := Congruence.acts_act parses ih (helement n) hover hguarded
      exact (hacts s _ hcells).before htrace hw
    | ended htrace hw =>
      rw [followBy_of_error hr]
      exact .ended htrace hw

/-- If finding keeps to an account, so does every parser. -/
theorem acts_find
    (hfind : ∀ l, links l → ∀ m, A.cells m.cells → A.Finds element links m (find l m))
    (helement : ∀ n q, element q → A.congruence.Spares (q.act (followBy find n) n)) {p : Parser σ}
    (hp : p.Over A.entry links) (hguarded : p.Guarded element) (n : Nat) :
    A.Acts (p.act (followBy find n) n) :=
  Congruence.acts_act parses (acts_followBy hfind helement n) (helement n) hp hguarded

end Find

end Account
end Descent

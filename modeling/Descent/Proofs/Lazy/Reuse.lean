/-
  Descent.Proofs.Lazy.Reuse

  A parser can be used again.  Cells that have been built are only a short cut: a run
  reaches the same end as a run that keeps no cells at all and lets every thunk build its
  parser each time (`acts_follow`).  What that run does depends on the expression, the
  names and the state, and on nothing that happened before; so neither earlier runs nor
  their faults show in a later one, except in when thunks are called.  The invariant is
  `Base.Sound`: whatever stands in a cell is what its thunk builds.
-/
import Descent.Proofs.Lazy.Accord
import Descent.Proofs.Lazy.Origin

namespace Descent

/-! ## What a run shows -/

/-- The entries that are not calls of thunks. -/
def Trace.shown (w : Trace) : Trace := w.filter fun e => !e.isForced

/-- What a report says apart from the calls of thunks. -/
def Report.shown (r : Report) : Report := ⟨r.answer, Trace.shown r.trace⟩

theorem Trace.shown_cons {w w' : Trace} (h : Trace.shown w = Trace.shown w') (e : Entry) :
    Trace.shown (e :: w) = Trace.shown (e :: w') := by
  unfold shown at h ⊢
  rw [List.filter_cons, List.filter_cons, h]

theorem Trace.shown_forced (n : Nat) (w : Trace) :
    Trace.shown (.forced n :: w) = Trace.shown w := rfl

/-! ## Runs without cells -/

namespace Base

variable (b : Base fun _ => True)

/-- The parser over origins that a parser of the base stands for. -/
def named (p : Parser Ref) : Parser Origin := p.mapLinks (b.cells.origin b.cells)

/-- The parser that an origin stands for.  A thunk builds it each time. -/
def find : Origin → Run (Parser Origin)
  | .settled n =>
    match b.cells.builtAt n with
    | some p => pure (b.named p)
    | none => Run.exhaust
  | .delayed t =>
    match t.expand b.env.names b.cells with
    | .ok P => pure P
    | .error f => Run.raise f
  | .rule name =>
    match b.env.rules.lookup name with
    | some p => pure (b.named p)
    | none => Run.exhaust

/-- The origin stands for the parser. -/
def Gives (o : Origin) (P : Parser Origin) : Prop := ∃ m m', b.find o m = .ok P m'

/-- A parser stands for one over origins. -/
abbrev Denotes (cs : Cells) (p : Parser Ref) (P : Parser Origin) : Prop :=
  p.Denotes (fun _ => True) b.cells cs P

/-- A cell that was built since stands for what its thunk builds. -/
structure Sound (cs : Cells) : Prop extends b.Later cs where
  built : ∀ (n : Nat) t p, cs[n]? = some ⟨t, some p⟩ → b.cells.builtAt n = none →
    t.expand b.env.names b.cells = .ok (p.mapLinks (b.cells.origin cs))

/-- The memory of a run beside that of a run without cells. -/
structure Beside (cs : Cells) (m m' : Memory) : Prop where
  sound : b.Sound m.cells
  grown : cs.Grown m.cells
  trace : Trace.shown m.trace = Trace.shown m'.trace

/-- What a run has in common with a run without cells, from some cells on. -/
def accord (cs : Cells) : Accord where
  going := b.Beside cs
  ended _ := b.Beside cs
  waived _ := False
  entry _ := True
  own _ _ := trivial
  write h e _ := ⟨h.sound, h.grown, Trace.shown_cons h.trace e⟩
  stop h _ := h

variable {b} {cs cs' : Cells}

theorem ends_of_grown (hc : cs.Grown cs') {α : Type} {r r' : EStateM.Result Stop Memory α}
    (h : (b.accord cs').Ends r r') : (b.accord cs).Ends r r' := by
  cases h with
  | ok a h => exact .ok a ⟨h.sound, hc.trans h.grown, h.trace⟩
  | ended e h => exact .ended e ⟨h.sound, hc.trans h.grown, h.trace⟩
  | waived h => exact absurd h id

theorem Sound.extended (h : b.Sound cs) (hext : cs.Extended (fun _ => True) b.bound cs') :
    b.Sound cs' where
  toLater := h.toLater.extended hext
  built n t p hn hbase := by
    by_cases hlt : n < cs.size
    · have hold : cs[n]? = some ⟨t, some p⟩ := (hext.old n hlt).symm.trans hn
      have hover := h.scope.built n _ hold p rfl
      rw [Parser.mapLinks_congr (Cells.origin_grown hext.grown) hover]
      exact h.built n t p hold hbase
    · have hnew : some p = none := (hext.new n _ (Nat.not_lt.1 hlt) hn).1
      cases hnew

theorem Sound.settle (h : b.Sound cs) {n : Nat} {t : Thunk} {p : Parser Ref}
    (hn : cs[n]? = some ⟨t, none⟩) {P : Parser Origin} (hp : b.Denotes cs p P)
    (hexpand : t.expand b.env.names b.cells = .ok P) : b.Sound (cs.settle n t p) where
  toLater := h.toLater.settle hn hp.scope
  built k t' q hk hbase := by
    have hgrown : cs.Grown (cs.settle n t p) := Cells.grown_settle hn
    have hlt : n < cs.size := (Array.getElem?_eq_some_iff.1 hn).1
    by_cases hkn : k = n
    · subst hkn
      rw [Cells.settle_self hlt] at hk
      cases hk
      rw [(hp.mono hgrown).eq, hexpand]
    · rw [Cells.settle_ne hkn] at hk
      have hover := h.scope.built k _ hk q rfl
      rw [Parser.mapLinks_congr (Cells.origin_grown hgrown) hover]
      exact h.built k t' q hk hbase

/-- What a link does with cells, beside what its origin does without. -/
theorem ends_act {n : Nat} (hfollow : ∀ cs l, l.Below cs.size →
      (b.accord cs).Acts (followBy (Run.resolve b.env) n l)
        (followBy b.find n (b.cells.origin cs l)))
    {p : Parser Ref} {P : Parser Origin} {m m' : Memory} (hp : b.Denotes m.cells p P)
    (hm : b.Beside cs m m') (s : State) :
    (b.accord cs).Ends (p.act (followBy (Run.resolve b.env) n) n s m)
      (P.act (followBy b.find n) n s m') := by
  obtain ⟨hover, rfl⟩ := hp
  rw [Parser.act_mapLinks]
  have hacts := Accord.acts_act (K := b.accord m.cells) (n := n) (hfollow m.cells) hover s m m'
    ⟨hm.sound, .refl _, hm.trace⟩
  exact ends_of_grown hm.grown hacts

/-- What following a link comes to in a memory, beside what finding its origin comes to
    without cells: to parsers that stand for the same, or to the same end. -/
inductive Meets (b : Base fun _ => True) (m m' : Memory) :
    EStateM.Result Stop Memory (Parser Ref) → EStateM.Result Stop Memory (Parser Origin) → Prop
  | found {p : Parser Ref} {P : Parser Origin} {m₁ : Memory} : b.Denotes m₁.cells p P →
      b.Sound m₁.cells → m.cells.Grown m₁.cells → Trace.shown m₁.trace = Trace.shown m.trace →
      Meets b m m' (.ok p m₁) (.ok P m')
  | raised (k : Nat) (f : Fault) :
      Meets b m m' (.error (.fault f) ⟨m.cells, .raised f :: .forced k :: m.trace⟩)
        (.error (.fault f) { m' with trace := .raised f :: m'.trace })
  | missing : Meets b m m' (.error .exhausted m) (.error .exhausted m')

theorem Sound.meets {m : Memory} (h : b.Sound m.cells) {l : Ref} (hl : l.Below m.cells.size)
    (m' : Memory) :
    b.Meets m m' (Run.resolve b.env l m) (b.find (b.cells.origin m.cells l) m') := by
  have hresolves := Run.resolves b.env m l
  generalize Run.resolve b.env l m = r at hresolves
  cases hresolves with
  | @rule name p hp =>
    have hfind : b.find (.rule name) m' = .ok (b.named p) m' := by
      simp only [find, hp]
      rfl
    rw [Cells.origin, hfind]
    exact .found ((b.rules name p hp).denotes h.grown) h (.refl _) rfl
  | @noRule name hp =>
    have hfind : b.find (.rule name) m' = .error .exhausted m' := by
      simp only [find, hp]
      rfl
    rw [Cells.origin, hfind]
    exact .missing
  | @noCell k hk =>
    rw [Array.getElem?_eq_none_iff] at hk
    exact absurd hl (Nat.not_lt.2 hk)
  | @built k t p hk =>
    cases hbase : b.cells.builtAt k with
    | some p₀ =>
      -- The cell was built in the base already, so it has stayed as it was.
      obtain ⟨t₀, hk₀⟩ := Cells.exists_of_builtAt hbase
      have hsame := (h.grown.built hk₀).symm.trans hk
      cases hsame
      have hover := b.scope.built k _ hk₀ p rfl
      have hfind : b.find (.settled k) m' = .ok (b.named p) m' := by
        simp only [find, hbase]
        rfl
      rw [Cells.origin_settled hbase, hfind]
      exact .found (hover.denotes h.grown) h (.refl _) rfl
    | none =>
      have hover := h.scope.built k _ hk p rfl
      have hfind : b.find (.delayed t) m' = .ok (p.mapLinks (b.cells.origin m.cells)) m' := by
        simp only [find, h.built k t p hk hbase]
        rfl
      rw [Cells.origin_delayed hbase hk, hfind]
      exact .found ⟨hover, rfl⟩ h (.refl _) rfl
  | @raised k t f hk hbuild =>
    have hfind : b.find (.delayed t) m'
        = .error (.fault f) { m' with trace := .raised f :: m'.trace } := by
      simp only [find, h.raised hk hbuild]
      rfl
    rw [Cells.origin_delayed (Cells.builtAt_eq_none h.grown hk) hk, hfind]
    exact .raised k f
  | @returned k t p cs' hk hbuild =>
    obtain ⟨hext, hk', P, hexpand, hp⟩ := h.returned hk hbuild
    have hfind : b.find (.delayed t) m' = .ok P m' := by
      simp only [find, hexpand]
      rfl
    have hgrown : cs'.Grown (cs'.settle k t p) := Cells.grown_settle hk'
    rw [Cells.origin_delayed (Cells.builtAt_eq_none h.grown hk) hk, hfind]
    exact .found (hp.mono hgrown) ((h.extended hext).settle hk' hp hexpand)
      (hext.grown.trans hgrown) (Trace.shown_forced k _)

/-- A link does what its origin does without cells. -/
theorem acts_follow (n : Nat) (cs : Cells) (l : Ref) (hl : l.Below cs.size) :
    (b.accord cs).Acts (followBy (Run.resolve b.env) n l)
      (followBy b.find n (b.cells.origin cs l)) := by
  induction n generalizing cs l with
  | zero => exact fun _ => (b.accord cs).parses.exhaust
  | succ n ih =>
    intro s m m' hm
    -- The link was written over earlier cells; its origin is the same in those of now.
    have hmeets := hm.sound.meets (hl.mono hm.grown.size_le) m'
    rw [Cells.origin_grown hm.grown l hl] at hmeets
    generalize hr : Run.resolve b.env l m = r at hmeets
    generalize hr' : b.find (b.cells.origin cs l) m' = r' at hmeets
    cases hmeets with
    | found hp hsound hgrown htrace =>
      rw [followBy_of_ok hr, followBy_of_ok hr']
      exact ends_act ih hp ⟨hsound, hm.grown.trans hgrown, htrace.trans hm.trace⟩ s
    | raised k f =>
      rw [followBy_of_error hr, followBy_of_error hr']
      exact .ended _ ⟨hm.sound, hm.grown, Trace.shown_cons hm.trace (.raised f)⟩
    | missing =>
      rw [followBy_of_error hr, followBy_of_error hr']
      exact .ended _ hm

/-! ## Applications -/

/-- What a parser over origins does with a state, without cells and with an empty trace. -/
def alone (b : Base fun _ => True) (P : Parser Origin) (s : State) :
    EStateM.Result Stop Memory (Option State) :=
  P.applyBy b.find s ⟨#[], []⟩

/-- The session has the names and rules of the base, and cells that are sound. -/
structure Fits (b : Base fun _ => True) (σ : Session) : Prop where
  env_eq : σ.env = b.env
  sound : b.Sound σ.cells

theorem shown_ofRun {r r' : EStateM.Result Stop Memory (Option State)}
    (h : (b.accord cs).Ends r r') : (Report.ofRun r).shown = (Report.ofRun r').shown := by
  -- The answers agree by the kinds of the ends; what is left are the traces.
  have htrace : ∀ {m m' : Memory}, b.Beside cs m m' →
      Trace.shown m.trace.reverse = Trace.shown m'.trace.reverse := by
    intro m m' hm
    have hshown := hm.trace
    unfold Trace.shown at hshown ⊢
    rw [List.filter_reverse, List.filter_reverse, hshown]
  cases h with
  | ok a hm => cases a <;> simp only [Report.ofRun, Report.shown, htrace hm]
  | ended e hm => cases e <;> simp only [Report.ofRun, Report.shown, htrace hm]
  | waived h => exact absurd h id

theorem left_of_ends {α : Type} {r r' : EStateM.Result Stop Memory α}
    (h : (b.accord cs).Ends r r') :
    b.Sound (Run.left r).cells ∧ cs.Grown (Run.left r).cells := by
  cases h with
  | ok a hm => exact ⟨hm.sound, hm.grown⟩
  | ended e hm => exact ⟨hm.sound, hm.grown⟩
  | waived h => exact absurd h id

variable {σ : Session} {p : Parser Ref} {P : Parser Origin}

/-- An application shows what the parser does without cells, and leaves a session in which
    the same can be said. -/
theorem Fits.applyTo (h : b.Fits σ) (hp : b.Denotes σ.cells p P) (s : State) :
    (σ.applyTo p s).1.shown = (Report.ofRun (b.alone P s)).shown ∧
      b.Fits (σ.applyTo p s).2 ∧ b.Denotes (σ.applyTo p s).2.cells p P := by
  have hbegin : b.Beside σ.cells ⟨σ.cells, []⟩ ⟨#[], []⟩ := ⟨h.sound, .refl _, rfl⟩
  have hends : (b.accord σ.cells).Ends (p.apply σ.env s ⟨σ.cells, []⟩) (b.alone P s) := by
    rw [Parser.apply_eq, h.env_eq]
    exact ends_act (acts_follow (Parser.budget s)) hp hbegin s
  obtain ⟨hsound, hgrown⟩ := left_of_ends hends
  rw [Session.applyTo_eq]
  exact ⟨shown_ofRun hends, ⟨h.env_eq, hsound⟩, hp.mono hgrown⟩

/-- Building in such a session comes to what the expression stands for. -/
theorem Fits.build (h : b.Fits σ) {e : Expr} (he : e.Over (fun _ => True) (Ref.Below b.bound)) :
    (∃ f, σ.build e = .error f ∧ e.expand b.env.names b.cells = .error f) ∨
    ∃ p σ' P, σ.build e = .ok (p, σ') ∧ e.expand b.env.names b.cells = .ok P ∧
      b.Fits σ' ∧ b.Denotes σ'.cells p P := by
  have hnames : σ.names = b.env.names := congrArg Env.names h.env_eq
  have hcomes := Expr.expands b.bound_le b.names he σ.cells h.sound.grown
  rw [← hnames] at hcomes
  rw [Session.build, ← hnames]
  generalize (e.build σ.names).run σ.cells = r at hcomes
  generalize e.expand σ.names b.cells = y at hcomes
  cases hcomes with
  | error f => exact .inl ⟨f, rfl, rfl⟩
  | @ok p cs' P hext hp =>
    exact .inr ⟨p, { σ with cells := cs' }, P, rfl, rfl, ⟨h.env_eq, h.sound.extended hext⟩, hp⟩

end Base

/-- Apply a parser to states one after another. -/
def Session.applyEach (σ : Session) (p : Parser Ref) : List State → List Report × Session
  | [] => ([], σ)
  | s :: rest =>
    let (r, σ) := σ.applyTo p s
    let (rs, σ) := σ.applyEach p rest
    (r :: rs, σ)

theorem Session.applyAll_eq (σ : Session) (p : Parser Ref) (texts : List Text) :
    σ.applyAll p texts = (σ.applyEach p (texts.map State.start)).1 := by
  induction texts generalizing σ with
  | nil => rfl
  | cons text rest ih =>
    rw [Session.applyAll, List.map_cons, Session.applyEach]
    exact congrArg _ (ih _)

theorem Base.Fits.applyEach {b : Base fun _ => True} {σ : Session} {p : Parser Ref}
    {P : Parser Origin} (h : b.Fits σ) (hp : b.Denotes σ.cells p P) (states : List State) :
    (σ.applyEach p states).1.map Report.shown
        = states.map (fun s => (Report.ofRun (b.alone P s)).shown) ∧
      b.Fits (σ.applyEach p states).2 := by
  induction states generalizing σ with
  | nil => exact ⟨rfl, h⟩
  | cons s rest ih =>
    obtain ⟨hshown, hfits, hdenotes⟩ := h.applyTo hp s
    obtain ⟨hrest, hend⟩ := ih hfits hdenotes
    refine ⟨?_, hend⟩
    rw [Session.applyEach, List.map_cons, List.map_cons, hshown, hrest]

theorem Session.Over.fits {σ : Session} {bound : Nat} (h : σ.Over (fun _ => True) bound) :
    h.base.Fits σ where
  env_eq := rfl
  sound := ⟨.refl _, fun n t p hn hbase => by
    have hbuilt : σ.cells.builtAt n = some p := Cells.builtAt_of hn
    exact absurd (hbuilt.symm.trans hbase) nofun⟩

/-- A run in a session, beside that of what the parser stands for. -/
theorem Session.Over.ends_eval {σ : Session} {bound : Nat} (h : σ.Over (fun _ => True) bound)
    {p : Parser Ref} (hp : p.Over (fun _ => True) (Ref.Below σ.cells.size)) (n : Nat) (s : State) :
    (h.base.accord σ.cells).Ends (p.eval σ.env n s ⟨σ.cells, []⟩)
      ((h.base.named p).act (followBy h.base.find n) n s ⟨#[], []⟩) := by
  have hbegin : h.base.Beside σ.cells ⟨σ.cells, []⟩ ⟨#[], []⟩ := ⟨h.fits.sound, .refl _, rfl⟩
  rw [Parser.eval, Env.follow_eq]
  exact Base.ends_act (Base.acts_follow n) ⟨hp, rfl⟩ hbegin s

/-- A parser that is applied to states, one after another, shows on each of them what it
    shows when it is fresh: its report, apart from the calls of thunks, is that of the
    parser just built, applied to that state alone.  So it is with the starts of texts.  And
    a copy that is built afterwards shows nothing of what was done before. -/
theorem Session.applyEach_fresh {σ : Session} {bound : Nat} (hσ : σ.Over (fun _ => True) bound)
    {e : Expr} (he : e.Over (fun _ => True) (Ref.Below bound)) {p : Parser Ref} {σ₁ : Session}
    (hbuild : σ.build e = .ok (p, σ₁)) :
    (∀ states : List State, (σ₁.applyEach p states).1.map Report.shown
      = states.map fun s => (σ₁.applyTo p s).1.shown) ∧
    (∀ texts : List Text, (σ₁.applyAll p texts).map Report.shown
      = texts.map fun text => (σ₁.applyTo p (State.start text)).1.shown) ∧
    (∀ states : List State, ∃ q σ₂, (σ₁.applyEach p states).2.build e = .ok (q, σ₂) ∧
      ∀ s, (σ₂.applyTo q s).1.shown = (σ₁.applyTo p s).1.shown) := by
  obtain ⟨f, herror, -⟩ | ⟨p', σ', P, hok, hexpand, hfits, hp⟩ := hσ.fits.build he
  · rw [herror] at hbuild
    cases hbuild
  rw [hok] at hbuild
  cases hbuild
  -- What is shown depends on what the expression stands for, and not on the session.
  have hfresh : ∀ s, (σ₁.applyTo p s).1.shown = (Report.ofRun (hσ.base.alone P s)).shown :=
    fun s => (hfits.applyTo hp s).1
  have hstates : ∀ states : List State, (σ₁.applyEach p states).1.map Report.shown
      = states.map fun s => (σ₁.applyTo p s).1.shown := by
    intro states
    simp only [(hfits.applyEach hp states).1, hfresh]
  refine ⟨hstates, fun texts => ?_, fun states => ?_⟩
  · rw [Session.applyAll_eq, hstates, List.map_map]
    rfl
  · obtain ⟨f, -, herror⟩ | ⟨q, σ₂, Q, hagain, hexpand', hfits₂, hq⟩ :=
      (hfits.applyEach hp states).2.build he
    · rw [hexpand] at herror
      cases herror
    · -- Built again, the expression stands for the same.
      obtain rfl : P = Q := Except.ok.inj (hexpand.symm.trans hexpand')
      exact ⟨q, σ₂, hagain, fun s => ((hfits₂.applyTo hq s).1).trans (hfresh s).symm⟩

namespace Sample

/-- Groups in groups, through one delayed part, and another whose thunk raises a fault. -/
def nest : Parser Ref :=
  .orElse (.seqInside (.bracketed '(' ')') (.link (.cell 0)) none)
    (.orElse (.seq (.literal ['!']) (.link (.cell 1))) .remaining)

/-- A session in which no name is bound to what the second delayed part asks for. -/
def session : Session :=
  ⟨[], [("nest", nest)], #[⟨.named "nest", none⟩, ⟨.named "gone", none⟩], State.start []⟩

/-- Two delayed parts, one in the other. -/
def nested : Expr := .thenSkip (.link (.lazyExpr (.link (.lazyNamed "nest")))) .endOfInput

theorem nest_over (entry : Entry → Prop) : nest.Over entry (Ref.Below 2) :=
  .orElse (.seqInside (.bracketed _ _) (.link (by decide)) _)
    (.orElse (.seq (.literal _) (.link (by decide))) .remaining)

theorem session_over (entry : Entry → Prop) : session.Over entry 2 where
  bound_le := Nat.le_refl 2
  names := .cons (nest_over entry) (.nil entry 2) "nest"
  rules := .nil entry 2
  cells := by
    -- Both cells are for names, and neither has been built.
    refine .of_waiting fun cell hcell => ?_
    simp only [session, List.mem_toArray, List.mem_cons, List.not_mem_nil, or_false] at hcell
    rcases hcell with rfl | rfl
    · exact ⟨rfl, .named _⟩
    · exact ⟨rfl, .named _⟩

theorem nested_over (entry : Entry → Prop) (bound : Nat) :
    nested.Over entry (Ref.Below bound) :=
  .thenSkip (.link (.lazyExpr (.link (.lazyNamed "nest")))) .endOfInput

end Sample

/-- Of four texts the second and the fourth call a thunk that raises a fault.  The third
    shows nothing of that, and the fourth calls the thunk again. -/
theorem Session.applyEach_fresh_nest :
    Sample.session.Over (fun _ => True) 2 ∧ Sample.nested.Over (fun _ => True) (Ref.Below 2) ∧
    ∃ p σ₁, Sample.session.build Sample.nested = .ok (p, σ₁) ∧
      ∃ states : List State, (states.map fun s => String.ofList s.text) =
          ["((x))", "(!)", "(y)", "((!))"] ∧
        ((σ₁.applyEach p states).1.map fun r => match r.answer with
          | .faulted _ => true
          | _ => false) = [false, true, false, true] ∧
        (σ₁.applyEach p states).1.map Report.shown
          = states.map (fun s => (σ₁.applyTo p s).1.shown) := by
  refine ⟨Sample.session_over _, Sample.nested_over _ 2, _, _, rfl,
    ["((x))", "(!)", "(y)", "((!))"].map fun text => State.start text.toList, ?_, ?_, ?_⟩
  · decide +kernel
  · decide +kernel
  · exact (Session.applyEach_fresh (Sample.session_over _) (Sample.nested_over _ 2) rfl).1 _

end Descent

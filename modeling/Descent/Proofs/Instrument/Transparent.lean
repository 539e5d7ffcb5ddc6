/-
  Descent.Proofs.Instrument.Transparent

  Instruments do not show, but for the entries that they write.  A grammar with instruments
  is run beside the same grammar without them; the states of the two runs are the same all
  along, the delayed parts correspond, and the traces agree on all other entries.  That is
  an accord (`Instruments.accord`), and only the first run may write more.  So an instrument
  may be taken out anywhere, at any number of places at once (`acts_eval`), and the other
  parts of the grammar never notice.
-/
import Descent.Proofs.Instrument.Thinned
import Descent.Proofs.Lazy.Reuse
import Descent.Proofs.Loop.Segments

namespace Descent

open Run Accord

variable {i : Instruments}

/-! ## Runs with instruments and without -/

/-- Corresponding delayed parts, and the same entries apart from those of instruments. -/
structure Memory.Thins (i : Instruments) (m m' : Memory) : Prop where
  cells : m.cells.Thins i m'.cells
  trace : m.trace.without i = m'.trace.without i

/-- The first run may write what instruments write. -/
theorem Memory.Thins.note {m m' : Memory} (h : m.Thins i m') {e : Entry}
    (he : i.writes e = true) : Memory.Thins i { m with trace := e :: m.trace } m' where
  cells := h.cells
  trace := (Trace.without_written he m.trace).trans h.trace

/-- Both runs may write the same. -/
theorem Memory.Thins.write {m m' : Memory} (h : m.Thins i m') (e : Entry) :
    Memory.Thins i { m with trace := e :: m.trace } { m' with trace := e :: m'.trace } where
  cells := h.cells
  trace := Trace.without_cons h.trace e

/-- What a run with instruments has in common with one without. -/
def Instruments.accord (i : Instruments) : Accord where
  going := Memory.Thins i
  ended _ := Memory.Thins i
  waived _ := False
  entry _ := True
  own _ _ := trivial
  write h e _ := h.write e
  stop h _ := h

namespace Instruments

/-! ## What is taken out -/

section Drop

variable {p p' : Action}

/-- A traced parser does what the parser does, and writes two log records more, or one if a
    fault passes. -/
theorem acts_dropTraced (hi : i.logs = true) (hp : i.accord.Acts p p') (label : String) :
    i.accord.Acts (p.traced label) p' := by
  intro s m m' hm
  -- A record is one of the entries that are left aside.
  have hlog : ∀ {m₁ : Memory}, m₁.Thins i m' → ∀ r : LogRecord,
      Memory.Thins i { m₁ with trace := .logged r :: m₁.trace } m' :=
    fun h _ => h.note hi
  have hends := hp s _ m' (hlog hm (.trying label s.pos s.preview))
  have hwrite : write (.logged (.trying label s.pos s.preview)) m
      = .ok () { m with trace := .logged (.trying label s.pos s.preview) :: m.trace } := rfl
  unfold Action.traced
  rw [bind_of_ok hwrite]
  generalize hr : p s _ = r at hends
  generalize p' s m' = r' at hends
  cases hends with
  | ok o h =>
    rw [bind_of_ok hr]
    cases o with
    | none => exact .ok none (h.note hi)
    | some t => exact .ok (some t) (h.note hi)
  | ended e h =>
    rw [bind_of_error hr]
    exact .ended e h
  | waived h => exact absurd h id

theorem acts_dropProbe (hi : i.probes = true) (hp : i.accord.Acts p p') :
    i.accord.Acts p.probe p' := by
  intro s m m' hm
  have hwrite : write (.probed s.pos s.value) m
      = .ok () { m with trace := .probed s.pos s.value :: m.trace } := rfl
  unfold Action.probe
  rw [bind_of_ok hwrite]
  exact hp s _ m' (hm.note hi)

end Drop

/-- The action writes entries of instruments, and matches where it stands. -/
def Stays (i : Instruments) (c : Action) : Prop :=
  ∀ s m, ∃ m₁, c s m = .ok (some s) m₁ ∧ ∀ m', m.Thins i m' → m₁.Thins i m'

/-- Instruments alone keep the state with the value that it carries, so what comes next
    cannot tell that they were there. -/
theorem stays_act {σ : Type} (follow : σ → Action) (n : Nat) {c : Parser σ}
    (hc : c.Instrument i) : i.Stays (c.act follow n) := by
  -- Each entry that is written is one of an instrument, so the memory without them is the same.
  induction hc with
  | checkpoint label hi => exact fun s m => ⟨_, rfl, fun m' h => h.note hi⟩
  | @traced p _ label hi ih =>
    intro s m
    let m₀ : Memory := { m with trace := .logged (.trying label s.pos s.preview) :: m.trace }
    obtain ⟨m₁, hr, hm₁⟩ := ih s m₀
    have hwrite : write (.logged (.trying label s.pos s.preview)) m = .ok () m₀ := rfl
    refine ⟨{ m₁ with trace := .logged (.matched label s.value s.pos) :: m₁.trace }, ?_,
      fun m' h => (hm₁ m' (h.note hi)).note hi⟩
    rw [Parser.act, Action.traced, bind_of_ok hwrite, bind_of_ok hr]
    rfl
  | @probe p _ hi ih =>
    intro s m
    let m₀ : Memory := { m with trace := .probed s.pos s.value :: m.trace }
    obtain ⟨m₁, hr, hm₁⟩ := ih s m₀
    have hwrite : write (.probed s.pos s.value) m = .ok () m₀ := rfl
    refine ⟨m₁, ?_, fun m' h => hm₁ m' (h.note hi)⟩
    rw [Parser.act, Action.probe, bind_of_ok hwrite, hr]
  | @seq p q _ _ ihp ihq =>
    intro s m
    obtain ⟨m₁, hr, hm₁⟩ := ihp s m
    obtain ⟨m₂, hr', hm₂⟩ := ihq s m₁
    refine ⟨m₂, ?_, fun m' h => hm₂ m' (hm₁ m' h)⟩
    rw [Parser.act, Action.seq, Action.andThen, bind_of_ok hr]
    exact hr'

section Drop

variable {c p p' : Action}

/-- An instrument before a parser. -/
theorem acts_dropFirst (hc : i.Stays c) (hp : i.accord.Acts p p') :
    i.accord.Acts (c.seq p) p' := by
  intro s m m' hm
  obtain ⟨m₁, hr, hm₁⟩ := hc s m
  rw [Action.seq, Action.andThen, bind_of_ok hr]
  exact hp s m₁ m' (hm₁ m' hm)

/-- An instrument after a parser.  It is reached only where the parser has matched. -/
theorem acts_dropSecond (hp : i.accord.Acts p p') (hc : i.Stays c) :
    i.accord.Acts (p.seq c) p' := by
  intro s m m' hm
  have hends := hp s m m' hm
  unfold Action.seq Action.andThen
  generalize hr : p s m = r at hends
  generalize p' s m' = r' at hends
  cases hends with
  | @ok o m₁ m₁' h =>
    rw [bind_of_ok hr]
    cases o with
    | none => exact .ok none h
    | some t =>
      obtain ⟨m₂, hc', hm₂⟩ := hc t m₁
      refine (congrArg (fun r => i.accord.Ends r _) hc').mpr ?_
      exact .ok (some t) (hm₂ m₁' h)
  | ended e h =>
    rw [bind_of_error hr]
    exact .ended e h
  | waived h => exact absurd h id

end Drop

/-! ## Parsers and links -/

/-- If the links act in accord, so do a parser over them and the parser that is left of it. -/
theorem acts_act {σ τ : Type} {links : σ → τ → Prop} {follow : σ → Action}
    {follow' : τ → Action} {n : Nat}
    (hlinks : ∀ l l', links l l' → i.accord.Acts (follow l) (follow' l')) {p : Parser σ}
    {p' : Parser τ} (hp : p.Thins i links p') :
    i.accord.Acts (p.act follow n) (p'.act follow' n) := by
  induction hp with
  | satisfy test => exact .satisfy test.notes_any
  | literal text => exact fun _ => .pure _
  | upTo delimiter => exact fun _ => .pure _
  | bracketed left right => exact fun _ => .pure _
  | remaining => exact fun _ => .pure _
  | endOfInput => exact fun _ => .pure _
  | constant value => exact fun _ => .pure _
  | fail => exact fun _ => .pure _
  | lookAhead condition => exact .lookAhead condition.notes_any
  | checkpoint label => exact i.accord.parses.checkpoint label
  | link hl => exact hlinks _ _ hl
  | field _ key ih => exact fun s => .andThen (ih s) fun _ => .pure _
  | merge _ _ ihp ihq => exact .merge ihp ihq
  | mergeInside _ _ key ihp ihq => exact .mergeInside ihp ihq key
  | seq _ _ ihp ihq => exact .seq ihp ihq
  | seqInside _ _ key ihp ihq => exact .seqInside ihp ihq key
  | thenSkip _ _ ihp ihq => exact .thenSkip ihp ihq
  | orElse _ _ ihp ihq => exact .orElse ihp ihq
  | between _ _ _ iho ihc ihp => exact .thenSkip (.seq iho ihp) ihc
  | many _ bounds condition ih =>
    exact .many i.accord.parses ih (fun _ => i.accord.complains.spares _) (fun k _ => k.notes_any) n
  | map _ f ih => exact .map ih f.notes_any
  | orDefault _ value ih => exact .orElse ih fun _ => .pure _
  | traced _ label ih => exact i.accord.parses.traced ih label
  | interleave _ ofRun condition ih =>
    exact .interleave i.accord.parses ih (i.accord.complains.spares _) ofRun.notes_any
      condition.notes_any n
  | custom step => exact fun _ => .pure _
  | probe _ ih => exact i.accord.parses.probe ih
  | dropTraced _ label hi ih => exact acts_dropTraced hi ih label
  | dropProbe _ hi ih => exact acts_dropProbe hi ih
  | dropFirst hc _ ih => exact acts_dropFirst (stays_act follow n hc) ih
  | dropSecond _ hc ih => exact acts_dropSecond ih (stays_act follow n hc)

section Env

variable {env env' : Env} (henv : env.Thins i env')

/-- What corresponding links are found to stand for: corresponding parsers, or nothing on
    either side, for the same reason. -/
inductive Finds (i : Instruments) : EStateM.Result Stop Memory (Parser Ref) →
    EStateM.Result Stop Memory (Parser Ref) → Prop
  | ok {p p' : Parser Ref} {m m' : Memory} : p.Thins i Eq p' → m.Thins i m' →
      Finds i (.ok p m) (.ok p' m')
  | ended (e : Stop) {m m' : Memory} : m.Thins i m' → Finds i (.error e m) (.error e m')

include henv

/-- A delayed part is built at the same moment in both runs. -/
theorem finds_force {m m' : Memory} (hm : m.Thins i m') (n : Nat) :
    Finds i (force env.names n m) (force env'.names n m') := by
  have hget : ∀ m : Memory, (get : Run Memory) m = .ok m m := fun _ => rfl
  have hwrite : ∀ m : Memory, write (.forced n) m
      = .ok () { m with trace := .forced n :: m.trace } := fun _ => rfl
  have hcell := hm.cells.cell n
  unfold force
  rw [bind_of_ok (hget m), bind_of_ok (hget m')]
  generalize m.cells[n]? = o at hcell
  generalize m'.cells[n]? = o' at hcell
  cases hcell with
  | none => exact .ended _ hm
  | @some cell cell' hcell =>
    obtain ⟨t, built⟩ := cell
    obtain ⟨t', built'⟩ := cell'
    obtain ⟨ht, hbuilt⟩ := hcell
    cases hbuilt with
    | some hp => exact .ok hp hm
    | none =>
      -- Neither side has built it: both thunks are called, and come to the same.
      have halike := Thunk.build_thins henv.names ht m.cells m'.cells hm.cells
      dsimp only
      rw [bind_of_ok (hwrite m), bind_of_ok (hwrite m')]
      generalize (t.build env.names).run m.cells = r at halike
      generalize (t'.build env'.names).run m'.cells = r' at halike
      cases halike with
      | error f => exact .ended _ ((hm.write (.forced n)).write (.raised f))
      | ok hp hcells =>
        exact .ok hp ⟨hcells.built n ht hp, Trace.without_cons hm.trace (.forced n)⟩

theorem finds_resolve {m m' : Memory} (hm : m.Thins i m') (l : Ref) :
    Finds i (resolve env l m) (resolve env' l m') := by
  cases l with
  | cell n => exact finds_force henv hm n
  | rule name =>
    have hrule := henv.rules name
    simp only [resolve]
    generalize env.rules.lookup name = o at hrule
    generalize env'.rules.lookup name = o' at hrule
    cases hrule with
    | none => exact .ended _ hm
    | some hp => exact .ok hp hm

/-- Links act in accord, to any depth. -/
theorem acts_follow (n : Nat) (l : Ref) : i.accord.Acts (env.follow n l) (env'.follow n l) := by
  induction n generalizing l with
  | zero => exact fun _ => i.accord.parses.exhaust
  | succ n ih =>
    intro s m m' hm
    have hfinds := finds_resolve henv hm l
    unfold Env.follow
    generalize hr : resolve env l m = r at hfinds
    generalize hr' : resolve env' l m' = r' at hfinds
    cases hfinds with
    | ok hp hm₁ =>
      rw [bind_of_ok hr, bind_of_ok hr']
      exact acts_act (fun l _ hl => hl ▸ ih l) hp s _ _ hm₁
    | ended e hm₁ =>
      rw [bind_of_error hr, bind_of_error hr']
      exact .ended e hm₁

/-- A parser and what is left of it without instruments act in accord. -/
theorem acts_eval (n : Nat) {p p' : Parser Ref} (hp : p.Thins i Eq p') :
    i.accord.Acts (p.eval env n) (p'.eval env' n) :=
  acts_act (fun l _ hl => hl ▸ acts_follow henv n l) hp

end Env

/-! ## Reports -/

/-- What a run comes to shows no instruments, and what it writes shows them only in the
    entries that they write. -/
theorem ends_iff {α : Type} {r r' : EStateM.Result Stop Memory α} :
    i.accord.Ends r r' ↔ outcome r = outcome r' ∧ (left r).Thins i (left r') := by
  constructor
  · intro h
    cases h with
    | ok a hm => exact ⟨rfl, hm⟩
    | ended e hm => exact ⟨rfl, hm⟩
    | waived h => exact absurd h id
  · rintro ⟨hout, hm⟩
    cases r with
    | ok a m =>
      cases r' with
      | ok a' m' =>
        cases hout
        exact .ok a hm
      | error e m' => cases hout
    | error e m =>
      cases r' with
      | ok a' m' => cases hout
      | error e' m' =>
        cases hout
        exact .ended e hm

end Instruments

/-- What a report says apart from the entries of instruments. -/
def Report.without (i : Instruments) (r : Report) : Report := ⟨r.answer, r.trace.without i⟩

theorem Report.without_ofRun {r r' : EStateM.Result Stop Memory (Option State)}
    (hout : outcome r = outcome r') (hm : (left r).Thins i (left r')) :
    (Report.ofRun r).without i = (Report.ofRun r').without i := by
  have htrace : Trace.without i (left r).trace.reverse
      = Trace.without i (left r').trace.reverse := by
    have h := hm.trace
    unfold Trace.without at h ⊢
    rw [List.filter_reverse, List.filter_reverse, h]
  have hanswer : (Report.ofRun r).answer = (Report.ofRun r').answer := by
    have hof : ∀ r : EStateM.Result Stop Memory (Option State), (Report.ofRun r).answer =
        match outcome r with
        | .ok none => .failed
        | .ok (some s) => .reached s
        | .error (.fault f) => .faulted f
        | .error .exhausted => .exhausted := by
      intro r
      match r with
      | .ok none m => rfl
      | .ok (some s) m => rfl
      | .error (.fault f) m => rfl
      | .error .exhausted m => rfl
    rw [hof, hof, hout]
  unfold Report.without
  rw [Report.ofRun_trace, Report.ofRun_trace, htrace, hanswer]

namespace Session

variable {σ σ' : Session} (hσ : σ.Thins i σ') {p p' : Parser Ref} (hp : p.Thins i Eq p')

include hσ

/-- Building with instruments and without comes to the same fault, or gives sessions that
    correspond again. -/
theorem Thins.build {e e' : Expr} (he : e.Thins i e') :
    (∃ f, σ.build e = .error f ∧ σ'.build e' = .error f) ∨
    ∃ p p' σ₁ σ₁', σ.build e = .ok (p, σ₁) ∧ σ'.build e' = .ok (p', σ₁') ∧
      p.Thins i Eq p' ∧ σ₁.Thins i σ₁' := by
  have halike := Expr.build_thins hσ.env.names he σ.cells σ'.cells hσ.cells
  change Build.Alike i _ ((e.build σ.names).run σ.cells) ((e'.build σ'.names).run σ'.cells)
    at halike
  unfold Session.build
  generalize (e.build σ.names).run σ.cells = r at halike
  generalize (e'.build σ'.names).run σ'.cells = r' at halike
  cases halike with
  | error f => exact .inl ⟨f, rfl, rfl⟩
  | ok hp hcells => exact .inr ⟨_, _, _, _, rfl, rfl, hp, hσ.env, hcells⟩

include hp

theorem Thins.eval (n : Nat) (s : State) :
    i.accord.Ends (p.eval σ.env n s ⟨σ.cells, []⟩) (p'.eval σ'.env n s ⟨σ'.cells, []⟩) :=
  Instruments.acts_eval hσ.env n hp s _ _ ⟨hσ.cells, rfl⟩

theorem Thins.applyTo (s : State) :
    (σ.applyTo p s).1.without i = (σ'.applyTo p' s).1.without i ∧
      (σ.applyTo p s).2.Thins i (σ'.applyTo p' s).2 := by
  obtain ⟨hout, hm⟩ := Instruments.ends_iff.1 (hσ.eval hp (Parser.budget s) s)
  rw [Session.applyTo_eq, Session.applyTo_eq]
  exact ⟨Report.without_ofRun hout hm, hσ.env, hm.cells⟩

theorem Thins.applyEach (states : List State) :
    (σ.applyEach p states).1.map (Report.without i)
      = (σ'.applyEach p' states).1.map (Report.without i) := by
  induction states generalizing σ σ' with
  | nil => rfl
  | cons s rest ih =>
    obtain ⟨hreport, hσ₁⟩ := hσ.applyTo hp s
    rw [Session.applyEach, Session.applyEach, List.map_cons, List.map_cons, hreport, ih hσ₁]

end Session

/-- Debug instruments are transparent.  Take any number of traced wrappers out of an
    expression, and checkpoints that stand in a row with another parser, at any depth, and
    out of the parsers of the session if need be.  Then both expressions fail to be built for
    the same reason; or else the two parsers come to the same outcome from every state, with
    the same trace but for log records, and go on doing so when they are applied to states
    one after another. -/
theorem Session.logs_transparent {σ σ' : Session} (hσ : σ.Thins .log σ') {e e' : Expr}
    (he : e.Thins .log e') :
    (∃ f, σ.build e = .error f ∧ σ'.build e' = .error f) ∨
    ∃ p p' σ₁ σ₁', σ.build e = .ok (p, σ₁) ∧ σ'.build e' = .ok (p', σ₁') ∧
      (∀ n s,
        outcome (p.eval σ₁.env n s ⟨σ₁.cells, []⟩)
          = outcome (p'.eval σ₁'.env n s ⟨σ₁'.cells, []⟩) ∧
        (left (p.eval σ₁.env n s ⟨σ₁.cells, []⟩)).trace.without .log
          = (left (p'.eval σ₁'.env n s ⟨σ₁'.cells, []⟩)).trace.without .log) ∧
      ∀ states : List State, (σ₁.applyEach p states).1.map (Report.without .log)
        = (σ₁'.applyEach p' states).1.map (Report.without .log) := by
  obtain hfault | ⟨p, p', σ₁, σ₁', hok, hok', hp, hσ₁⟩ := hσ.build he
  · exact .inl hfault
  refine .inr ⟨p, p', σ₁, σ₁', hok, hok', fun n s => ?_, hσ₁.applyEach hp⟩
  obtain ⟨hout, hm⟩ := Instruments.ends_iff.1 (hσ₁.eval hp n s)
  exact ⟨hout, hm.trace⟩

namespace Sample

/-- A group in brackets with what `nest` finds in it, and the end of the text. -/
def grouped : Expr :=
  .thenSkip (.seqInside (.bracketed '(' ')') (.link (.lazyExpr (.link (.lazyNamed "nest")))) none)
    .endOfInput

/-- The same with instruments: a traced parser inside the group, a checkpoint in the delayed
    part, and another before the end. -/
def groupedLogged : Expr :=
  .thenSkip
    (.seqInside (.bracketed '(' ')')
      (.traced (.link (.lazyExpr (.seq (.link (.lazyNamed "nest")) (.checkpoint "found"))))
        "inside")
      none)
    (.seq (.checkpoint "end") .endOfInput)

theorem groupedLogged_thins : groupedLogged.Thins .log grouped :=
  .thenSkip
    (.seqInside (.bracketed _ _)
      (.dropTraced (.link (.lazyExpr (.dropSecond (.link (.lazyNamed _)) (.checkpoint _ rfl)))) _
        rfl)
      none)
    (.dropFirst (.checkpoint _ rfl) .endOfInput)

end Sample

/-- With instruments, the first text leaves four log records.  The second does not match and
    leaves none.  On the third a thunk raises a fault, after one record. -/
theorem Session.logs_transparent_grouped :
    Sample.session.Thins .log Sample.session ∧
    Sample.groupedLogged.Thins .log Sample.grouped ∧
    ∃ p p' σ₁ σ₁', Sample.session.build Sample.groupedLogged = .ok (p, σ₁) ∧
      Sample.session.build Sample.grouped = .ok (p', σ₁') ∧
      ((σ₁.applyEach p (["((x))", "x", "(!)"].map fun text => State.start text.toList)).1.map
        fun r => (r.trace.filterMap Entry.record?).length) = [4, 0, 1] ∧
      ∀ states : List State, (σ₁.applyEach p states).1.map (Report.without .log)
        = (σ₁'.applyEach p' states).1.map (Report.without .log) := by
  refine ⟨.refl _, Sample.groupedLogged_thins, _, _, _, _, rfl, rfl, ?_, ?_⟩
  · decide +kernel
  · obtain ⟨f, hfault, -⟩ | ⟨p, p', σ₁, σ₁', hok, hok', -, heach⟩ :=
      Session.logs_transparent (Session.Thins.refl Sample.session) Sample.groupedLogged_thins
    · cases hfault
    · cases hok
      cases hok'
      exact heach

end Descent

/-
  Descent.Proofs.Trace.Perform

  Applications perform their parts.  All that an application does besides is done in silence:
  no traced parser writes a record, and links still lead to parsers whose callbacks do not,
  either (`Base.Silent`).  One list of applications made in order, with silence between them,
  is a performance (`Base.Performs`); every parser that is not traced itself performs its
  parts (`Base.performs`), and a traced one writes a record, performs the one part that it
  has, and writes another (`Application.result_traced`).
-/
import Descent.Proofs.Trace.Application
import Descent.Proofs.Lazy.Accord
import Descent.Proofs.Lazy.Origin

namespace Descent

open Run

/-! ## Silence -/

namespace Base

variable (b : Base Entry.Spanless)

/-- From one memory to another no traced parser writes a record, and what has come from the
    base still does. -/
structure Silent (m m' : Memory) : Prop where
  spans : m'.spans = m.spans
  later : b.Later m.cells → b.Later m'.cells

variable {b} {α : Type} {m m' m'' : Memory}

theorem Silent.refl (m : Memory) : b.Silent m m := ⟨rfl, id⟩

theorem Silent.trans (h : b.Silent m m') (h' : b.Silent m' m'') : b.Silent m m'' :=
  ⟨h'.spans.trans h.spans, h'.later ∘ h.later⟩

theorem Silent.log (m : Memory) {entries : List Entry} (h : ∀ e ∈ entries, e.Spanless) :
    b.Silent m (m.log entries) where
  spans := by rw [Memory.spans_log, List.filterMap_eq_nil_iff.2 h, List.append_nil]
  later := id

variable (b) in
/-- That no traced parser writes a record, which is a matter of the first run alone. -/
def silence : Congruence where
  Runs x _ := ∀ m, b.Silent m (left (x m))
  entry := Entry.Spanless
  result _ m := .refl m
  chain {_ _ x _ _ _} hx hf m := by
    have hfirst := hx m
    cases h : x m with
    | ok a m₁ =>
      rw [h] at hfirst
      rw [bind_of_ok h]
      exact hfirst.trans (hf m a m₁ h m₁)
    | error e m₁ =>
      rw [h] at hfirst
      rw [bind_of_error h]
      exact hfirst
  note he m := .log m (List.forall_mem_singleton.2 he)
  raised f m := .log m (List.forall_mem_singleton.2 (show (Entry.raised f).Spanless from rfl))
  rejected _ _ m := .refl m

variable (b) in
/-- No traced parser writes a record in the run. -/
abbrev Silences (x : Run α) : Prop := b.silence.Runs x x

theorem silence_complains : b.silence.Complains := fun _ _ m => .refl m

/-- A link is followed in silence. -/
theorem silences_resolve (target : Ref) : b.Silences (resolve b.env target) := by
  intro m
  have hresolves := Run.resolves b.env m target
  generalize Run.resolve b.env target m = r at hresolves
  cases hresolves with
  | rule => exact .refl m
  | noRule => exact .refl m
  | noCell => exact .refl m
  | built => exact .refl m
  | @raised n t f =>
    exact ⟨(Memory.spans_cons (.raised f) _ _ m.cells).trans
      (Memory.spans_cons (.forced n) _ _ _), id⟩
  | @returned n t p cs hn hbuild =>
    exact ⟨Memory.spans_cons (.forced n) _ _ _,
      fun hm => (hm.returned_settle hn hbuild).2.1⟩

/-! ## Performances -/

variable (b) in
/-- From a memory on, these applications are made in order, and they are all of the run that
    can be seen by the records of traced parsers.  The last of them may end early, and the run
    with it; all others come to a result. -/
inductive Performs {γ : Type} :
    Memory → List Application → EStateM.Result Stop Memory γ → Prop
  | ends {m r} : b.Silent m (left r) → Performs m [] r
  | applies {m c o m' cs r} : b.Silent m c.memory → c.result b.env = .ok o m' →
      Performs m' cs r → Performs m (c :: cs) r
  | stops {m c e m'} : b.Silent m c.memory → c.result b.env = .error e m' →
      Performs m [c] (.error e m')

namespace Performs

variable {c : Application} {cs : List Application} {r : EStateM.Result Stop Memory α}

theorem of_silent {x : Run α} (hx : b.Silences x) (m : Memory) : b.Performs m [] (x m) :=
  .ends (hx m)

theorem after (hm : b.Silent m m') (h : b.Performs m' cs r) : b.Performs m cs r := by
  cases h with
  | ends h => exact .ends (hm.trans h)
  | applies h hc hrest => exact .applies (hm.trans h) hc hrest
  | stops h hc => exact .stops (hm.trans h) hc

/-- One application, of which all comes. -/
theorem one (hm : b.Silent m c.memory) : b.Performs m [c] (c.result b.env) := by
  cases h : c.result b.env with
  | ok o m' => exact .applies hm h (.ends (.refl m'))
  | error e m' => exact .stops hm h

/-- One application, and a run that goes on from it with others. -/
theorem followedBy {next : Option State → Memory → List Application} {f : Option State → Run α}
    (hm : b.Silent m c.memory) (hnext : ∀ o m', b.Performs m' (next o m') (f o m')) :
    b.Performs m (c.followedBy b.env next)
      ((c.parser.eval b.env c.depth c.state >>= f) c.memory) := by
  unfold Application.followedBy
  cases h : c.result b.env with
  | ok o m' =>
    rw [bind_of_ok h]
    exact .applies hm h (hnext o m')
  | error e m' =>
    rw [bind_of_error h]
    exact .stops hm h

/-- One application, and a run that goes on from it in silence. -/
theorem last {f : Option State → Run α} (hm : b.Silent m c.memory)
    (hf : ∀ o, b.Silences (f o)) :
    b.Performs m [c] ((c.parser.eval b.env c.depth c.state >>= f) c.memory) := by
  cases h : c.result b.env with
  | ok o m' =>
    rw [bind_of_ok h]
    exact .applies hm h (.of_silent (hf o) m')
  | error e m' =>
    rw [bind_of_error h]
    exact .stops hm h

/-- One application, and an action that goes on from its match in silence. -/
theorem andThen_last {q : Parser Ref} {n : Nat} {s : State} {next : Action}
    (hnext : ∀ t, b.Silences (next t)) (m : Memory) :
    b.Performs m [⟨q, n, s, m⟩] ((q.eval b.env n).andThen next s m) :=
  last (c := ⟨q, n, s, m⟩) (.refl m) fun o => match o with
    | none => .pure none
    | some t => hnext t

/-- One application, and an action that goes on from its match with others. -/
theorem andThen {q : Parser Ref} {n : Nat} {s : State} {next : Action}
    {parts : State → Memory → List Application}
    (hnext : ∀ t m', b.Performs m' (parts t m') (next t m')) (m : Memory) :
    b.Performs m (Application.followedBy b.env ⟨q, n, s, m⟩ (Application.onMatch parts))
      ((q.eval b.env n).andThen next s m) :=
  followedBy (c := ⟨q, n, s, m⟩) (.refl m) fun o m' => match o with
    | none => .ends (.refl m')
    | some t => hnext t m'

/-- A text of its own, if the value holds one. -/
theorem inside {q : Parser Ref} {n : Nat} {l : State} {key : Option String}
    {next : Action} (hnext : ∀ t, b.Silences (next t)) (m : Memory) :
    b.Performs m (Application.inside q key n l m)
      ((innerText l.value key >>= fun text =>
        (q.eval b.env n).andThen next (State.start text)) m) := by
  have hinner : b.Silent m (left (innerText l.value key m)) :=
    Congruence.Runs.innerText (C := b.silence) l.value key m
  unfold Application.inside
  cases h : innerText l.value key m with
  | ok text m' =>
    rw [h] at hinner
    rw [bind_of_ok h]
    exact (andThen_last hnext m').after hinner
  | error e m' =>
    rw [h] at hinner
    rw [bind_of_error h]
    exact .ends hinner

/-- The turns of a loop, whose element is a parser. -/
theorem loop {γ : Type} {L : Loop γ} {q : Parser Ref} {n : Nat}
    (helement : L.element = q.eval b.env n) (hnotes : ∀ k ∈ L.condition, k.Notes Entry.Spanless)
    (hkeeps : L.Keeps b.silence) (fuel : Nat) (x : γ) (m : Memory) :
    b.Performs m ((L.applications fuel x m).map fun a => ⟨q, n, a.1, a.2⟩)
      (L.run fuel x m) := by
  induction fuel generalizing x m with
  | zero => exact .ends (.refl m)
  | succ fuel ih =>
    have hasks : b.Silences (L.asks x) := Loop.asks_runs hnotes x
    have hask := hasks m
    cases h : L.asks x m with
    | error e m₁ =>
      -- The condition has raised a fault.
      rw [h] at hask
      rw [Loop.applications_of_unwanted (by rw [h]; nofun),
        Loop.run_of_stop (Loop.turn_of_refused h)]
      exact .ends hask
    | ok wanted m₁ =>
      rw [h] at hask
      cases wanted with
      | false =>
        rw [Loop.applications_of_unwanted (by rw [h]; nofun), Loop.run_of_unwanted h]
        exact .ends (hask.trans (hkeeps.finish x m₁))
      | true =>
        let c : Application := ⟨q, n, L.place x, m₁⟩
        have hc : c.result b.env = L.element (L.place x) m₁ := by rw [helement]; rfl
        cases happlied : L.element (L.place x) m₁ with
        | error e m₂ =>
          -- The loop ends early by its element, which is the last that it applies.
          have hturn := Loop.turn_of_broken h happlied
          rw [Loop.applications_of_last h (by rw [hturn]; nofun), Loop.run_of_stop hturn]
          exact .stops hask (hc.trans happlied)
        | ok o m₂ =>
          have hturn := Loop.turn_of_applied h happlied
          -- Whatever is made of the outcome, it is made in silence.
          have hsilent := hkeeps.goOn x o m₂
          cases hnext : L.goOn x o m₂ with
          | error e m₃ =>
            rw [hnext] at hturn hsilent
            rw [Loop.applications_of_last h (by rw [hturn]; nofun), Loop.run_of_stop hturn]
            exact .applies hask (hc.trans happlied) (.ends hsilent)
          | ok r m₃ =>
            rw [hnext] at hturn hsilent
            cases r with
            | inr o' =>
              rw [Loop.applications_of_last h (by rw [hturn]; nofun), Loop.run_of_end hturn]
              exact .applies hask (hc.trans happlied) (.ends hsilent)
            | inl y =>
              rw [Loop.applications_of_next h hturn, Loop.run_of_next hturn]
              exact .applies hask (hc.trans happlied) ((ih y m₃).after hsilent)

end Performs

/-- A parser that is not traced itself performs its parts. -/
theorem performs {p : Parser Ref} (hp : p.Over Entry.Spanless fun _ => True)
    (hplain : p.label? = none) (n : Nat) (s : State) (m : Memory) :
    b.Performs m (p.parts b.env n s m) (p.eval b.env n s m) := by
  cases hp with
  | satisfy ht => exact .of_silent (Congruence.Acts.satisfy ht s) m
  | literal text => exact .ends (.refl m)
  | upTo delimiter => exact .ends (.refl m)
  | bracketed left right => exact .ends (.refl m)
  | remaining => exact .ends (.refl m)
  | endOfInput => exact .ends (.refl m)
  | constant value => exact .ends (.refl m)
  | fail => exact .ends (.refl m)
  | custom step => exact .ends (.refl m)
  | lookAhead hc => exact .of_silent (Congruence.Acts.lookAhead hc s) m
  | checkpoint label =>
    exact .of_silent (.bind (b.silence.note (.reached _ _ _)) fun _ => .pure _) m
  | @link target hl =>
    cases n with
    | zero => exact .ends (.refl m)
    | succ n =>
      have hsilent := silences_resolve (b := b) target m
      simp only [Parser.parts]
      cases h : Run.resolve b.env target m with
      | ok q m' =>
        rw [h] at hsilent
        have hresult : (Parser.link target).eval b.env (n + 1) s m = q.eval b.env n s m' :=
          bind_of_ok h
        rw [hresult]
        exact .one (c := ⟨q, n, s, m'⟩) hsilent
      | error e m' =>
        rw [h] at hsilent
        have hresult : (Parser.link target).eval b.env (n + 1) s m = .error e m' := bind_of_error h
        rw [hresult]
        exact .ends hsilent
  | field hp key => exact .andThen_last (fun _ => .pure _) m
  | map hp hf => exact .andThen_last (fun _ => .bind (.call hf _) fun _ => .pure _) m
  | @orDefault q _ value =>
    exact .last (c := ⟨q, n, s, m⟩) (.refl m) fun o => by cases o <;> exact .pure _
  | merge hp hq =>
    exact .andThen (fun l => .andThen_last fun _ => .merged _ _) m
  | @seq p q =>
    have hsecond : ∀ l m', b.Performs m' [⟨q, n, l, m'⟩] (q.eval b.env n l m') :=
      fun l m' => .one (c := ⟨q, n, l, m'⟩) (.refl m')
    exact .andThen hsecond m
  | thenSkip hp hq => exact .andThen (fun l => .andThen_last fun _ => .pure _) m
  | mergeInside hp hq key =>
    exact .andThen (fun l => .inside fun _ => .merged _ _) m
  | seqInside hp hq key => exact .andThen (fun l => .inside fun _ => .pure _) m
  | @between opening closing p =>
    -- The first two are grouped; regrouped, each is followed by what comes after it.
    have hresult : (Parser.between opening closing p).eval b.env n s m
        = (opening.eval b.env n).andThen (fun l => (p.eval b.env n).andThen (fun t =>
          (closing.eval b.env n).andThen (fun r => pure (some (r.withValue t.value))) t) l) s m :=
      congrFun (Action.andThen_assoc _ _ _ s) m
    rw [hresult]
    exact .andThen (fun l => .andThen fun t => .andThen_last fun _ => .pure _) m
  | @orElse p q =>
    refine .followedBy (c := ⟨p, n, s, m⟩) (.refl m) fun o m' => ?_
    cases o with
    | none => exact .one (c := ⟨q, n, s, m'⟩) (.refl m')
    | some t => exact .ends (.refl m')
  | @many p condition _ bounds hc =>
    have hrun : (Parser.many p bounds condition).eval b.env n s m = _ :=
      congrFun (Loop.many_run n s 0 []) m
    rw [hrun]
    exact .loop rfl hc (Loop.many_keeps silence_complains) n _ m
  | @interleave p ofRun condition _ hr hc =>
    have hrun : (Parser.interleave p ofRun condition).eval b.env n s m = _ :=
      congrFun (Loop.scan_run n s [] []) m
    rw [hrun]
    exact .loop rfl hc.some (Loop.scan_keeps silence_complains hr) n _ m
  | traced hp label => cases hplain
  | @probe q =>
    exact .one (c := ⟨q, n, s, m.log [.probed s.pos s.value]⟩)
      (.log m (List.forall_mem_singleton.2 (.probed _ _)))

/-! ## Applications from the base on -/

/-- The application is of a parser whose callbacks write no records of traced parsers, in a
    memory that has come from the base. -/
structure InScope (b : Base Entry.Spanless) (a : Application) : Prop where
  spanless : a.parser.Over Entry.Spanless fun _ => True
  later : b.Later a.memory.cells

end Base

/-- The callbacks of operands are callbacks of the whole. -/
theorem Parser.Over.operands {entry : Entry → Prop} {links : Ref → Prop} {p : Parser Ref}
    (hp : p.Over entry links) : ∀ q ∈ p.operands, q.Over entry links := by
  cases hp with
  | field hp | map hp | orDefault hp | many hp | interleave hp | traced hp | probe hp =>
    exact List.forall_mem_singleton.2 hp
  | merge hp hq | seq hp hq | thenSkip hp hq | mergeInside hp hq | seqInside hp hq
  | orElse hp hq => exact List.forall_mem_cons.2 ⟨hp, List.forall_mem_singleton.2 hq⟩
  | between ho hc hp =>
    exact List.forall_mem_cons.2
      ⟨ho, List.forall_mem_cons.2 ⟨hc, List.forall_mem_singleton.2 hp⟩⟩
  | _ => exact fun _ hq => nomatch hq

namespace Application

variable {b : Base Entry.Spanless} {a c : Application}

/-- A traced parser comes to what comes of the application inside, and writes a record of it. -/
theorem result_traced (env : Env) (p : Parser Ref) (label : String) (n : Nat) (s : State)
    (m : Memory) :
    (⟨.traced p label, n, s, m⟩ : Application).result env
      = match (wrapped p label n s m).result env with
        | .ok o m' => .ok o (m'.log [.logged (.ending label s o)])
        | .error e m' => .error e m' := by
  have hwrite : write (.logged (.trying label s.pos s.preview)) m
      = .ok () (wrapped p label n s m).memory := rfl
  show (p.eval env n).traced label s m = _
  unfold Action.traced
  rw [bind_of_ok hwrite]
  generalize hr : (wrapped p label n s m).result env = r
  change p.eval env n s (wrapped p label n s m).memory = r at hr
  cases r with
  | ok o m' =>
    rw [bind_of_ok hr]
    cases o <;> rfl
  | error e m' => exact bind_of_error hr

theorem traced_or_plain (a : Application) : a.parser.label? = none ∨
    ∃ p label n s m, a = ⟨.traced p label, n, s, m⟩ := by
  obtain ⟨p, n, s, m⟩ := a
  cases p with
  | traced p label => exact .inr ⟨p, label, n, s, m, rfl⟩
  | _ => exact .inl rfl

/-- What is found behind a link writes entries like those of the base. -/
theorem over_part (ha : b.InScope a) (hc : c ∈ a.parts b.env) :
    c.parser.Over Entry.Spanless fun _ => True := by
  cases partOf hc with
  | operand hop _ => exact ha.spanless.operands _ hop
  | @link target _ _ hresolve =>
    obtain ⟨q, n, s, m⟩ := c
    dsimp only at hresolve ⊢
    have hresolves := Run.resolves b.env a.memory target
    rw [hresolve] at hresolves
    cases hresolves with
    | rule hrule => exact (b.rules _ _ hrule).mono fun _ _ => trivial
    | built hk => exact ha.later.over_any hk
    | returned hk hbuild => exact (ha.later.returned_settle hk hbuild).1

end Application

namespace Base

variable {b : Base Entry.Spanless} {a c : Application} {cs : List Application} {α : Type}
  {m m' : Memory} {r : EStateM.Result Stop Memory α}

theorem InScope.wrapped {p : Parser Ref} {label : String} {n : Nat} {s : State}
    (h : b.InScope ⟨.traced p label, n, s, m⟩) :
    b.InScope (Application.wrapped p label n s m) :=
  ⟨h.spanless.operands p List.mem_cons_self, h.later⟩

/-- If each application leaves a memory that has come from the base, they are all made in such
    memories, and so does the run. -/
theorem Performs.later (h : b.Performs m cs r) (hm : b.Later m.cells)
    (hleft : ∀ c ∈ cs, b.Later c.memory.cells → b.Later (left (c.result b.env)).cells) :
    (∀ c ∈ cs, b.Later c.memory.cells) ∧ b.Later (left r).cells := by
  induction h with
  | ends h => exact ⟨fun _ hc => (nomatch hc), h.later hm⟩
  | @applies m c o m' cs r h hc _ ih =>
    have hbegun := h.later hm
    rw [List.forall_mem_cons, hc] at hleft
    obtain ⟨hrest, hend⟩ := ih (hleft.1 hbegun) hleft.2
    exact ⟨List.forall_mem_cons.2 ⟨hbegun, hrest⟩, hend⟩
  | @stops m c e m' h hc =>
    have hbegun := h.later hm
    rw [List.forall_mem_singleton, hc] at hleft
    exact ⟨List.forall_mem_singleton.2 hbegun, hleft hbegun⟩

/-- Every application leaves a memory that has come from the base. -/
theorem InScope.left (ha : b.InScope a) : b.Later (left (a.result b.env)).cells := by
  induction a using Application.parts_induction b.env with
  | h a ih =>
    rcases a.traced_or_plain with hplain | ⟨p, label, n, s, m, rfl⟩
    · refine ((b.performs ha.spanless hplain _ _ _).later ha.later fun c hc hlater => ?_).2
      exact ih c hc ⟨Application.over_part ha hc, hlater⟩
    · -- A traced parser leaves the cells that are left inside, and one more record.
      have hinner := ih _ List.mem_cons_self ha.wrapped
      rw [Application.result_traced]
      generalize (Application.wrapped p label n s m).result b.env = r at hinner ⊢
      cases r <;> exact hinner

/-- The parts of an application are made in the scope in which it is made. -/
theorem InScope.parts (ha : b.InScope a) : ∀ c ∈ a.parts b.env, b.InScope c := by
  rcases a.traced_or_plain with hplain | ⟨p, label, n, s, m, rfl⟩
  · have hover := fun c hc => Application.over_part (c := c) ha hc
    have hlater := ((b.performs ha.spanless hplain _ _ _).later ha.later fun c hc hlater =>
      InScope.left ⟨hover c hc, hlater⟩).1
    exact fun c hc => ⟨hover c hc, hlater c hc⟩
  · exact List.forall_mem_singleton.2 ha.wrapped

end Base

end Descent

/-
  Descent.Proofs.Trace.Application

  Applications and their parts.  A parser that is applied to a state applies others in its
  turn: the operands of a combinator, an element in every turn of its loop, the parser that
  a link stands for.  These are the parts of the application, in the order in which they are
  made, each with the state and the memory in which it is made (`Application.parts`).  A part
  is an application of something smaller, or of what a link leads to, which is followed less
  deep; so what holds of an application if it holds of its parts holds of all of them
  (`Application.parts_induction`), loops, links and texts inside of texts included.
-/
import Descent.Proofs.Loop.Course
import Descent.Proofs.Lazy.Over

namespace Descent

open Run

/-! ## The records of traced parsers -/

/-- The record with which a traced parser ends that was applied to a state. -/
def LogRecord.ending (label : String) (s : State) : Option State → LogRecord
  | none => .failed label s.pos
  | some t => .matched label t.value t.pos

/-- Whether the record was written by a traced parser. -/
def LogRecord.isSpan : LogRecord → Bool
  | trying _ _ _ => true
  | failed _ _ => true
  | matched _ _ _ => true
  | reached _ _ _ => false

/-- The record of a traced parser that the entry holds. -/
def Entry.span? (e : Entry) : Option LogRecord := e.record?.filter LogRecord.isSpan

/-- The entry holds no record of a traced parser. -/
def Entry.Spanless (e : Entry) : Prop := e.span? = none

theorem Entry.Spanless.forced (n : Nat) : (Entry.forced n).Spanless := rfl

theorem Entry.Spanless.raised (f : Fault) : (Entry.raised f).Spanless := rfl

theorem Entry.Spanless.probed (pos : Nat) (v : Value) : (Entry.probed pos v).Spanless := rfl

theorem Entry.Spanless.reached (label : String) (pos : Nat) (preview : Text) :
    (Entry.logged (.reached label pos preview)).Spanless := rfl

/-- The records of traced parsers, in the order in which they were written. -/
def Memory.spans (m : Memory) : List LogRecord := m.trace.reverse.filterMap Entry.span?

@[simp] theorem Memory.spans_log (m : Memory) (entries : List Entry) :
    (m.log entries).spans = m.spans ++ entries.filterMap Entry.span? := by
  rw [spans, log, List.reverse_append, List.reverse_reverse, List.filterMap_append]
  rfl

/-- An entry of another kind adds no such record. -/
theorem Memory.spans_cons {e : Entry} (he : e.Spanless) (w : Trace) (cs cs' : Cells) :
    (⟨cs, e :: w⟩ : Memory).spans = (⟨cs', w⟩ : Memory).spans := by
  have hnone : [e].filterMap Entry.span? = [] := List.filterMap_cons_none he
  rw [spans, spans, List.reverse_cons, List.filterMap_append, hnone, List.append_nil]

/-! ## Parts -/

/-- A parser that is applied to a state, in a memory and to a depth of links. -/
structure Application where
  parser : Parser Ref
  depth : Nat
  state : State
  memory : Memory

namespace Application

/-- What an application comes to. -/
def result (env : Env) (a : Application) : EStateM.Result Stop Memory (Option State) :=
  a.parser.eval env a.depth a.state a.memory

/-- The application, and those that are made where it comes to a result. -/
def followedBy (env : Env) (a : Application) (next : Option State → Memory → List Application) :
    List Application :=
  a :: match a.result env with
    | .ok o m => next o m
    | .error _ _ => []

/-- Go on from a match. -/
def onMatch (next : State → Memory → List Application) :
    Option State → Memory → List Application
  | some s, m => next s m
  | none, _ => []

/-- Go on where there is no match. -/
def onFailure (next : Memory → List Application) : Option State → Memory → List Application
  | some _, _ => []
  | none, m => next m

/-- What a traced parser applies, after the record of its beginning. -/
def wrapped (p : Parser Ref) (label : String) (n : Nat) (s : State) (m : Memory) : Application :=
  ⟨p, n, s, m.log [.logged (.trying label s.pos s.preview)]⟩

/-- On the text that a value holds, if it holds one. -/
def inside (q : Parser Ref) (key : Option String) (n : Nat) (l : State) (m : Memory) :
    List Application :=
  match Run.innerText l.value key m with
  | .ok text m' => [⟨q, n, State.start text, m'⟩]
  | .error _ _ => []

end Application

open Application in
/-- What a parser applies when it is applied itself, in order. -/
def Parser.parts (env : Env) (n : Nat) (s : State) (m : Memory) : Parser Ref → List Application
  | link target =>
    match n with
    | 0 => []
    | n + 1 =>
      match Run.resolve env target m with
      | .ok p m' => [⟨p, n, s, m'⟩]
      | .error _ _ => []
  | field p _ => [⟨p, n, s, m⟩]
  | map p _ => [⟨p, n, s, m⟩]
  | orDefault p _ => [⟨p, n, s, m⟩]
  | merge p q => followedBy env ⟨p, n, s, m⟩ (onMatch fun l m' => [⟨q, n, l, m'⟩])
  | seq p q => followedBy env ⟨p, n, s, m⟩ (onMatch fun l m' => [⟨q, n, l, m'⟩])
  | thenSkip p q => followedBy env ⟨p, n, s, m⟩ (onMatch fun l m' => [⟨q, n, l, m'⟩])
  | mergeInside p q key => followedBy env ⟨p, n, s, m⟩ (onMatch (inside q key n))
  | seqInside p q key => followedBy env ⟨p, n, s, m⟩ (onMatch (inside q key n))
  | between opening closing p =>
    followedBy env ⟨opening, n, s, m⟩ (onMatch fun l m' =>
      followedBy env ⟨p, n, l, m'⟩ (onMatch fun r m'' => [⟨closing, n, r, m''⟩]))
  | orElse p q => followedBy env ⟨p, n, s, m⟩ (onFailure fun m' => [⟨q, n, s, m'⟩])
  | many p bounds condition =>
    ((Loop.many (p.eval env n) bounds condition s.value).applications n ⟨s, 0, []⟩ m).map
      fun a => ⟨p, n, a.1, a.2⟩
  | interleave p ofRun condition =>
    ((Loop.scan (p.eval env n) ofRun condition).applications n ⟨s, [], []⟩ m).map
      fun a => ⟨p, n, a.1, a.2⟩
  | traced p label => [wrapped p label n s m]
  | probe p => [⟨p, n, s, m.log [.probed s.pos s.value]⟩]
  | _ => []

/-- The applications that an application makes itself, in order. -/
def Application.parts (env : Env) (a : Application) : List Application :=
  a.parser.parts env a.depth a.state a.memory

/-! ## Along the parts -/

/-- The label, if the parser is traced. -/
def Parser.label? {σ : Type} : Parser σ → Option String
  | traced _ label => some label
  | _ => none

/-- The operands of a combinator. -/
def Parser.operands {σ : Type} : Parser σ → List (Parser σ)
  | field p _ => [p]
  | map p _ => [p]
  | orDefault p _ => [p]
  | merge p q => [p, q]
  | seq p q => [p, q]
  | thenSkip p q => [p, q]
  | mergeInside p q _ => [p, q]
  | seqInside p q _ => [p, q]
  | between opening closing p => [opening, closing, p]
  | orElse p q => [p, q]
  | many p _ _ => [p]
  | interleave p _ _ => [p]
  | traced p _ => [p]
  | probe p => [p]
  | _ => []

theorem Parser.sizeOf_operand (p : Parser Ref) : ∀ q ∈ p.operands, sizeOf q < sizeOf p := by
  cases p <;> simp +arith [operands]

namespace Application

variable {env : Env} {a c : Application}

theorem mem_followedBy {next : Option State → Memory → List Application}
    (h : c ∈ a.followedBy env next) : c = a ∨ ∃ o m, c ∈ next o m := by
  rcases List.mem_cons.1 h with rfl | h
  · exact .inl rfl
  · split at h
    · next o m _ => exact .inr ⟨o, m, h⟩
    · cases h

theorem mem_onMatch {next : State → Memory → List Application} {o : Option State} {m : Memory}
    (h : c ∈ onMatch next o m) : ∃ s, c ∈ next s m := by
  cases o with
  | none => cases h
  | some s => exact ⟨s, h⟩

theorem mem_onFailure {next : Memory → List Application} {o : Option State} {m : Memory}
    (h : c ∈ onFailure next o m) : c ∈ next m := by
  cases o with
  | none => exact h
  | some s => cases h

theorem mem_inside {q : Parser Ref} {key : Option String} {n : Nat} {l : State} {m : Memory}
    (h : c ∈ inside q key n l m) : c.parser = q ∧ c.depth = n := by
  unfold inside at h
  split at h
  · rw [List.mem_singleton.1 h]
    exact ⟨rfl, rfl⟩
  · cases h

/-- A part is an application of an operand, or of what a link stands for, which is followed
    less deep. -/
inductive PartOf (env : Env) (a c : Application) : Prop
  | operand : c.parser ∈ a.parser.operands → c.depth = a.depth → PartOf env a c
  | link {target : Ref} : a.parser = .link target → a.depth = c.depth + 1 →
      Run.resolve env target a.memory = .ok c.parser c.memory → PartOf env a c

/-- The one operand that is applied. -/
theorem PartOf.of_singleton {b : Application} (h : c ∈ [b]) (hb : b.parser ∈ a.parser.operands)
    (hdepth : b.depth = a.depth) : PartOf env a c := by
  rw [List.mem_singleton.1 h]
  exact .operand hb hdepth

/-- Of operands in a row, the first and the others. -/
theorem PartOf.of_followedBy {b : Application} {next : Option State → Memory → List Application}
    (h : c ∈ followedBy env b next) (hb : b.parser ∈ a.parser.operands)
    (hdepth : b.depth = a.depth) (hnext : ∀ o m, c ∈ next o m → PartOf env a c) :
    PartOf env a c := by
  rcases mem_followedBy h with rfl | ⟨o, m, h⟩
  · exact .operand hb hdepth
  · exact hnext o m h

/-- The operand of a loop. -/
theorem PartOf.of_map {p : Parser Ref} {applied : List (State × Memory)}
    (h : c ∈ applied.map fun b => ⟨p, a.depth, b.1, b.2⟩) (hp : p ∈ a.parser.operands) :
    PartOf env a c := by
  obtain ⟨b, -, rfl⟩ := List.mem_map.1 h
  exact .operand hp rfl

theorem partOf (h : c ∈ a.parts env) : PartOf env a c := by
  obtain ⟨parser, n, s, m⟩ := a
  have first : ∀ {p : Parser Ref} {rest}, p ∈ p :: rest := List.mem_cons_self
  have second : ∀ {p q : Parser Ref} {rest}, q ∈ p :: q :: rest :=
    List.mem_cons_of_mem _ List.mem_cons_self
  -- A second operand, applied where the first has matched.
  have after : ∀ {q : Parser Ref} {o : Option State} {m' : Memory}, q ∈ parser.operands →
      c ∈ onMatch (fun l m'' => [⟨q, n, l, m''⟩]) o m' → PartOf env ⟨parser, n, s, m⟩ c := by
    intro q o m' hq hc
    obtain ⟨l, hc⟩ := mem_onMatch hc
    exact .of_singleton hc hq rfl
  have within : ∀ {q : Parser Ref} {key : Option String} {o : Option State} {m' : Memory},
      q ∈ parser.operands → c ∈ onMatch (inside q key n) o m' →
      PartOf env ⟨parser, n, s, m⟩ c := by
    intro q key o m' hq hc
    obtain ⟨l, hc⟩ := mem_onMatch hc
    obtain ⟨rfl, hdepth⟩ := mem_inside hc
    exact .operand hq hdepth
  unfold parts at h
  cases parser with
  | link target =>
    cases n with
    | zero => cases h
    | succ n =>
      simp only [Parser.parts] at h
      split at h
      · next p m' hresolve =>
        rw [List.mem_singleton.1 h]
        exact .link rfl rfl hresolve
      · cases h
  | field p key => exact .of_singleton h first rfl
  | map p f => exact .of_singleton h first rfl
  | orDefault p value => exact .of_singleton h first rfl
  | traced p label => exact .of_singleton h first rfl
  | probe p => exact .of_singleton h first rfl
  | merge p q => exact .of_followedBy h first rfl fun _ _ => after second
  | seq p q => exact .of_followedBy h first rfl fun _ _ => after second
  | thenSkip p q => exact .of_followedBy h first rfl fun _ _ => after second
  | mergeInside p q key => exact .of_followedBy h first rfl fun _ _ => within second
  | seqInside p q key => exact .of_followedBy h first rfl fun _ _ => within second
  | between opening closing p =>
    refine .of_followedBy h first rfl fun o m' hc => ?_
    obtain ⟨l, hc⟩ := mem_onMatch hc
    refine .of_followedBy hc (List.mem_cons_of_mem _ second) rfl fun _ _ => after second
  | orElse p q =>
    exact .of_followedBy h first rfl fun _ _ hc => .of_singleton (mem_onFailure hc) second rfl
  | many p bounds condition => exact .of_map h first
  | interleave p ofRun condition => exact .of_map h first
  | _ => cases h

/-- What holds of an application if it holds of its parts holds of all applications. -/
theorem parts_induction (env : Env) {holds : Application → Prop}
    (h : ∀ a, (∀ c ∈ a.parts env, holds c) → holds a) (a : Application) : holds a := by
  -- Operands are smaller, and what a link stands for is followed less deep.
  obtain ⟨p, n, s, m⟩ := a
  induction n using Nat.strongRecOn generalizing p s m with
  | ind n ihn =>
    induction hp : sizeOf p using Nat.strongRecOn generalizing p s m with
    | ind k ihp =>
      refine h _ fun c hc => ?_
      obtain ⟨q, n', t, m'⟩ := c
      -- The outer induction is on the depth, the inner one on the size of the parser.
      cases partOf hc with
      | operand hq hdepth =>
        cases hdepth
        exact ihp _ (hp ▸ p.sizeOf_operand q hq) q t m' rfl
      | link _ hdepth _ => exact ihn n' (Nat.le_of_eq hdepth.symm) q t m'

end Application

end Descent

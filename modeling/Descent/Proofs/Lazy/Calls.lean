/-
  Descent.Proofs.Lazy.Calls

  Calls of thunks in a run.  A run does nothing to the cells but call thunks, each of a
  cell that is not built, and the calls are those that the trace notes (`Base.Row`).  A
  thunk that raises a fault ends the run, so every call but the last returns.  Two more
  things are said of runs that differ from a run in one link only: where a cell is built,
  its link stands for the parser in it, and nothing else is looked up; and a run that does
  without a link calls no thunk for it.  All three are accords between a run and itself,
  or nearly itself.
-/
import Descent.Proofs.Lazy.Accord
import Descent.Proofs.Lazy.Origin
import Descent.Proofs.Simulation.Run

namespace Descent

/-! ## Rows of calls -/

/-- The entry is not the call of a thunk. -/
def Entry.NoCall (e : Entry) : Prop := e.isForced = false

/-- The cell whose thunk is called. -/
def Entry.called? : Entry → Option Nat
  | forced n => some n
  | _ => none

/-- The cells whose thunks are called, in the order of the trace. -/
def Trace.called (w : Trace) : List Nat := w.filterMap Entry.called?

theorem Trace.called_cons {e : Entry} (he : e.NoCall) (w : Trace) :
    Trace.called (e :: w) = Trace.called w := by
  have hnone : e.called? = none := by
    cases e with
    | forced n => cases he
    | _ => rfl
  rw [called, called, List.filterMap_cons_none hnone]

theorem Trace.called_forced (n : Nat) (w : Trace) :
    Trace.called (.forced n :: w) = n :: Trace.called w := rfl

theorem Trace.called_raised (f : Fault) (w : Trace) :
    Trace.called (.raised f :: w) = Trace.called w := rfl

/-- A call of the thunk of a cell, and what came of it. -/
structure Call where
  cell : Nat
  answer : Except Fault (Parser Ref)

/-- The call has returned a parser. -/
def Call.Returned (call : Call) : Prop := ∃ p, call.answer = .ok p

/-- From cells to cells by calls of thunks.  Each call is made of a cell that is not built,
    and answers what the thunk builds from the names and the cells of that moment. -/
inductive Calls (names : Names) (cs : Cells) : List Call → Cells → Prop
  | none : Calls names cs [] cs
  | returned {calls : List Call} {cs₁ cs₂ : Cells} {n : Nat} {t : Thunk} {p : Parser Ref} :
      Calls names cs calls cs₁ → cs₁[n]? = some ⟨t, none⟩ →
      (t.build names).run cs₁ = .ok (p, cs₂) →
      Calls names cs (calls ++ [⟨n, .ok p⟩]) (cs₂.settle n t p)
  | raised {calls : List Call} {cs₁ : Cells} {n : Nat} {t : Thunk} {f : Fault} :
      Calls names cs calls cs₁ → cs₁[n]? = some ⟨t, none⟩ →
      (t.build names).run cs₁ = .error f → Calls names cs (calls ++ [⟨n, .error f⟩]) cs₁

namespace Base

open Run

variable (b : Base Entry.NoCall) {l : Ref} {m : Memory}

/-- The calls that have been made since the base, and that the trace notes, the last first. -/
structure Row (calls : List Call) (m : Memory) : Prop where
  made : Calls b.env.names b.cells calls m.cells
  noted : Trace.called m.trace = (calls.map Call.cell).reverse
  later : b.Later m.cells

variable {b}

theorem Row.write {calls : List Call} (h : b.Row calls m) {e : Entry} (he : e.NoCall) :
    b.Row calls { m with trace := e :: m.trace } where
  made := h.made
  noted := (Trace.called_cons he m.trace).trans h.noted
  later := h.later

theorem Row.called {calls : List Call} (h : b.Row calls m) (call : Call) :
    Trace.called (.forced call.cell :: m.trace) = ((calls ++ [call]).map Call.cell).reverse := by
  rw [Trace.called_forced, h.noted, List.map_append, List.reverse_append]
  rfl

/-! ## What a run calls -/

/-- How a row of calls can end: every call but the last has returned, and if the last has
    raised a fault, that is why the run ends. -/
structure RaisesLast (calls : List Call) (e : Stop) : Prop where
  before : ∀ call ∈ calls.dropLast, call.Returned
  fault : ∀ call ∈ calls, ∀ f, call.answer = .error f → e = .fault f

theorem RaisesLast.of_returned {calls : List Call} (h : ∀ call ∈ calls, call.Returned)
    (e : Stop) : RaisesLast calls e where
  before call hcall := h call (List.dropLast_subset calls hcall)
  fault call hcall f hf := by
    obtain ⟨p, hp⟩ := h call hcall
    rw [hp] at hf
    cases hf

theorem RaisesLast.of_raised {calls : List Call} (h : ∀ call ∈ calls, call.Returned)
    (n : Nat) (f : Fault) : RaisesLast (calls ++ [⟨n, .error f⟩]) (.fault f) where
  before call hcall := by
    rw [List.dropLast_concat] at hcall
    exact h call hcall
  fault call hcall f' hf' := by
    rcases List.mem_append.1 hcall with hcall | hcall
    · obtain ⟨p, hp⟩ := h call hcall
      rw [hp] at hf'
      cases hf'
    · obtain rfl := List.mem_singleton.1 hcall
      cases hf'
      rfl

variable (b) in
/-- What is said of the calls of a run. -/
def counting : Accord where
  going m m' := m = m' ∧ ∃ calls, b.Row calls m ∧ ∀ call ∈ calls, call.Returned
  ended e m m' := m = m' ∧ ∃ calls, b.Row calls m ∧ RaisesLast calls e
  waived _ := False
  entry := Entry.NoCall
  own _ he := he
  write := by
    rintro m _ ⟨rfl, calls, hrow, hreturned⟩ e he
    exact ⟨rfl, calls, hrow.write he, hreturned⟩
  stop := by
    rintro m _ ⟨rfl, calls, hrow, hreturned⟩ e
    exact ⟨rfl, calls, hrow, .of_returned hreturned e⟩

theorem counting_finds (l : Ref) (m m' : Memory) (h : b.counting.going m m') :
    b.counting.Finds (resolve b.env l m) (resolve b.env l m') := by
  obtain ⟨rfl, calls, hrow, hreturned⟩ := h
  have hresolves := Run.resolves b.env m l
  generalize resolve b.env l m = r at hresolves
  cases hresolves with
  | rule hp =>
    exact .ok ((b.rules _ _ hp).mono fun _ _ => trivial) ⟨rfl, calls, hrow, hreturned⟩
  | noRule => exact .ended _ ⟨rfl, calls, hrow, .of_returned hreturned _⟩
  | noCell => exact .ended _ ⟨rfl, calls, hrow, .of_returned hreturned _⟩
  | built hn => exact .ok (hrow.later.over_any hn) ⟨rfl, calls, hrow, hreturned⟩
  -- A fault ends the run, so the call that has raised it is the last.
  | @raised n t f hn hbuild =>
    refine .ended _ ⟨rfl, _, ⟨hrow.made.raised hn hbuild, ?_, hrow.later⟩, .of_raised hreturned n f⟩
    rw [Trace.called_raised]
    exact hrow.called ⟨n, .error f⟩
  | @returned n t p cs hn hbuild =>
    obtain ⟨hp, hlater, -⟩ := hrow.later.returned_settle hn hbuild
    refine .ok hp ⟨rfl, _, ⟨hrow.made.returned hn hbuild, hrow.called ⟨n, .ok p⟩, hlater⟩, ?_⟩
    intro call hcall
    rcases List.mem_append.1 hcall with hcall | hcall
    · exact hreturned call hcall
    · obtain rfl := List.mem_singleton.1 hcall
      exact ⟨p, rfl⟩

/-! ## A link that is built -/

end Base

/-- Links as they are, but for one that stands for a parser. -/
def Run.standing (env : Env) (n : Nat) (p : Parser Ref) (l : Ref) : Run (Parser Ref) :=
  if l = .cell n then pure p else Run.resolve env l

/-- Links as they are, but for one that cannot be followed. -/
def Run.barred (env : Env) (n : Nat) (l : Ref) : Run (Parser Ref) :=
  if l = .cell n then Run.exhaust else Run.resolve env l

namespace Base

open Run

variable (b : Base Entry.NoCall)

/-- What a run keeps in which a cell is built. -/
def keeping (n : Nat) (p : Parser Ref) : Accord where
  going m m' := m = m' ∧ b.Later m.cells ∧ m.cells.builtAt n = some p
  ended _ m m' := m = m'
  waived _ := False
  entry := Entry.NoCall
  own _ he := he
  write := by
    rintro m _ ⟨rfl, hm⟩ e _
    exact ⟨rfl, hm⟩
  stop h _ := h.1

/-- What a run keeps that may give up where a link is barred. -/
def barring (n : Nat) : Accord where
  going m m' := m = m' ∧ b.Later m.cells ∧ n ∉ Trace.called m.trace
  ended _ m m' := m = m' ∧ n ∉ Trace.called m.trace
  waived e := e = .exhausted
  entry := Entry.NoCall
  own _ he := he
  write := by
    rintro m _ ⟨rfl, hlater, hcalled⟩ e he
    refine ⟨rfl, hlater, ?_⟩
    rw [Trace.called_cons he]
    exact hcalled
  stop h _ := ⟨h.1, h.2.2⟩

variable {b}

theorem keeping_finds {n : Nat} {p : Parser Ref} (l : Ref) (m m' : Memory)
    (h : (b.keeping n p).going m m') :
    (b.keeping n p).Finds (resolve b.env l m) (standing b.env n p l m') := by
  obtain ⟨rfl, hlater, hbuilt⟩ := h
  obtain ⟨t, hn⟩ := Cells.exists_of_builtAt hbuilt
  have hresolves := Run.resolves b.env m l
  unfold standing
  split
  · next hl =>
    subst hl
    -- The link itself: its cell is built, which leaves one of the four outcomes.
    generalize resolve b.env (.cell n) m = r at hresolves
    cases hresolves with
    | noCell hnone =>
      rw [hn] at hnone
      cases hnone
    | built hn' =>
      obtain rfl : _ = p := Option.some.inj ((Cells.builtAt_of hn').symm.trans hbuilt)
      exact .ok (hlater.over_any hn) ⟨rfl, hlater, hbuilt⟩
    | raised hn' =>
      rw [hn] at hn'
      cases hn'
    | returned hn' =>
      rw [hn] at hn'
      cases hn'
  · -- Any other link: both sides follow it in the same way, and built cells stay built.
    generalize resolve b.env l m = r at hresolves
    cases hresolves with
    | rule hp => exact .ok ((b.rules _ _ hp).mono fun _ _ => trivial) ⟨rfl, hlater, hbuilt⟩
    | noRule => exact .ended _ rfl
    | noCell => exact .ended _ rfl
    | built hk => exact .ok (hlater.over_any hk) ⟨rfl, hlater, hbuilt⟩
    | raised => exact .ended _ rfl
    | returned hk hbuild =>
      obtain ⟨hq, hlater', hgrown⟩ := hlater.returned_settle hk hbuild
      exact .ok hq ⟨rfl, hlater', Cells.builtAt_of (hgrown.built hn)⟩

theorem barring_finds {n : Nat} (l : Ref) (m m' : Memory) (h : (b.barring n).going m m') :
    (b.barring n).Finds (barred b.env n l m) (resolve b.env l m') := by
  obtain ⟨rfl, hlater, hcalled⟩ := h
  have hresolves := Run.resolves b.env m l
  unfold barred
  split
  · exact .waived rfl
  · next hl =>
    generalize resolve b.env l m = r at hresolves
    -- A call is for another cell than the one that is barred.
    have hother : ∀ k, l = .cell k → n ∉ Trace.called (.forced k :: m.trace) := by
      rintro k rfl hmem
      rw [Trace.called_forced] at hmem
      rcases List.mem_cons.1 hmem with rfl | hmem
      · exact hl rfl
      · exact hcalled hmem
    cases hresolves with
    | rule hp => exact .ok ((b.rules _ _ hp).mono fun _ _ => trivial) ⟨rfl, hlater, hcalled⟩
    | noRule => exact .ended _ ⟨rfl, hcalled⟩
    | noCell => exact .ended _ ⟨rfl, hcalled⟩
    | built hk => exact .ok (hlater.over_any hk) ⟨rfl, hlater, hcalled⟩
    | @raised k t f hk hbuild =>
      refine .ended _ ⟨rfl, ?_⟩
      rw [Trace.called_raised]
      exact hother k rfl
    | @returned k t p cs hk hbuild =>
      obtain ⟨hq, hlater', -⟩ := hlater.returned_settle hk hbuild
      exact .ok hq ⟨rfl, hlater', hother k rfl⟩

/-! ## Whole runs -/

section Apply

variable {q : Parser Ref} (hq : q.Over Entry.NoCall fun _ => True) (s : State)

include hq

/-- From the base on, a run makes a row of calls, in which only the last can raise a fault,
    and then the run ends with it. -/
theorem exists_row : ∃ calls, b.Row calls (left (q.applyBy (resolve b.env) s ⟨b.cells, []⟩)) ∧
    (∀ call ∈ calls.dropLast, call.Returned) ∧
    ∀ call ∈ calls, ∀ f, call.answer = .error f →
      ∃ m, q.applyBy (resolve b.env) s ⟨b.cells, []⟩ = .error (.fault f) m := by
  -- The run is laid beside itself; what the accord says of both is said of the one.
  have hbegin : b.Row [] ⟨b.cells, []⟩ := ⟨.none, rfl, .refl b⟩
  have hends := Accord.acts_applyBy (K := b.counting) counting_finds hq s
    ⟨b.cells, []⟩ ⟨b.cells, []⟩ ⟨rfl, [], hbegin, fun _ h => nomatch h⟩
  generalize q.applyBy (resolve b.env) s ⟨b.cells, []⟩ = r at hends
  cases hends with
  | ok a hm =>
    obtain ⟨-, calls, hrow, hreturned⟩ := hm
    have hlast := RaisesLast.of_returned hreturned .exhausted
    refine ⟨calls, hrow, hlast.before, fun call hcall f hf => ?_⟩
    cases hlast.fault call hcall f hf
  | @ended e m m' hm =>
    obtain ⟨-, calls, hrow, hlast⟩ := hm
    refine ⟨calls, hrow, hlast.before, fun call hcall f hf => ?_⟩
    exact ⟨m, by rw [hlast.fault call hcall f hf]⟩
  | waived h => exact absurd h id

/-- Where a cell is built, a run is the one in which its link stands for the parser in it. -/
theorem applyBy_standing {n : Nat} {p : Parser Ref} (hn : b.cells.builtAt n = some p) :
    q.applyBy (resolve b.env) s ⟨b.cells, []⟩
      = q.applyBy (standing b.env n p) s ⟨b.cells, []⟩ := by
  have hends := Accord.acts_applyBy (K := b.keeping n p) keeping_finds hq s
    ⟨b.cells, []⟩ ⟨b.cells, []⟩ ⟨rfl, .refl b, hn⟩
  generalize q.applyBy (resolve b.env) s ⟨b.cells, []⟩ = r at hends
  generalize q.applyBy (standing b.env n p) s ⟨b.cells, []⟩ = r' at hends
  cases hends with
  | ok a hm => rw [hm.1]
  | ended e hm =>
    obtain rfl : _ = _ := hm
    rfl
  | waived h => exact absurd h id

/-- A run that comes to an end also where a link is barred calls no thunk for it. -/
theorem not_called_of_barred {n : Nat}
    (hdone : ¬ GaveUp (q.applyBy (barred b.env n) s ⟨b.cells, []⟩)) :
    n ∉ Trace.called (left (q.applyBy (resolve b.env) s ⟨b.cells, []⟩)).trace := by
  have hends := Accord.acts_applyBy (K := b.barring n) barring_finds hq s
    ⟨b.cells, []⟩ ⟨b.cells, []⟩ ⟨rfl, .refl b, fun h => nomatch h⟩
  generalize q.applyBy (resolve b.env) s ⟨b.cells, []⟩ = r at hends
  generalize q.applyBy (barred b.env n) s ⟨b.cells, []⟩ = r' at hends hdone
  cases hends with
  | ok a hm => exact hm.1 ▸ hm.2.2
  | ended e hm => exact hm.1 ▸ hm.2
  | waived h =>
    obtain rfl : _ = Stop.exhausted := h
    exact absurd trivial hdone

end Apply

end Base
end Descent

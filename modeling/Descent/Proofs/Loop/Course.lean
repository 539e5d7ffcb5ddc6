/-
  Descent.Proofs.Loop.Course

  The course of a loop.  A repetition and a scan make turns of one shape: ask whether to go
  on, apply the element at a place, and look at what came of it (`Loop.turn`).  They differ
  in the stand that a turn starts from and in what they make of an outcome, and each of them
  is the run of such turns (`Loop.many_run`, `Loop.scan_run`).  A course is the list of the
  stands that a run goes through, and with them the places at which the condition is asked
  and the element applied.  What one turn keeps holds all along the course
  (`Loop.Invariant`), and a number that each turn makes smaller bounds how often the element
  is applied and how many turns are made.  What holds of runs by the way in which they are
  made holds of all that a loop does besides (`Loop.Keeps`).  The applications are all that a
  run takes from its element: another element that does the same there makes the same run
  (`Loop.run_eq_of_applied`).
-/
import Descent.Proofs.Congruence.Run
import Descent.Proofs.Loop.Run
import Descent.Proofs.Simulation.Run

namespace Descent

/-! ## Giving up -/

namespace Run

variable {α β : Type}

/-- A run that is given up is given up in its first part or in the rest. -/
theorem gaveUp_of_bind {x : Run α} {f : α → Run β} {m : Memory} (h : GaveUp ((x >>= f) m)) :
    GaveUp (x m) ∨ ∃ a m', x m = .ok a m' ∧ GaveUp (f a m') := by
  cases hx : x m with
  | ok a m' =>
    rw [bind_of_ok hx] at h
    exact .inr ⟨a, m', rfl, h⟩
  | error e m' =>
    rw [bind_of_error hx] at h
    cases e with
    | fault f => exact h.elim
    | exhausted => exact .inl trivial

/-- Runs that are never given up. -/
def answering : Congruence where
  Runs x _ := ∀ m, ¬ GaveUp (x m)
  entry _ := True
  result _ _ := id
  chain hx hf m h := by
    rcases gaveUp_of_bind h with hfirst | ⟨a, m', hr, hrest⟩
    · exact hx m hfirst
    · exact hf m a m' hr m' hrest
  note _ _ := id
  raised _ _ := id
  rejected _ _ _ := id

theorem answering_complains : answering.Complains := fun _ _ _ => id

end Run

/-! ## Loops -/

/-- A loop, by what one turn does in a stand of type `α`. -/
structure Loop (α : Type) where
  element : Action
  condition : Option (Callback Text Bool)
  /-- Where the condition is asked and the element applied. -/
  place : α → State
  /-- Whether a further turn may be made, as far as the condition allows. -/
  isOpen : α → Bool
  /-- The end of the loop, where no further turn is made. -/
  finish : α → Run (Option State)
  /-- What is made of an outcome of the element: the next stand, or the end. -/
  goOn : α → Option State → Run (α ⊕ Option State)

namespace Loop

open Run

variable {α : Type} (L : Loop α)

/-! ### Turns -/

/-- Whether the element is to be applied.  The condition is called only in an open stand. -/
def asks (x : α) : Run Bool :=
  if L.isOpen x then Action.wantsMore L.condition (L.place x) else pure false

/-- One turn: to the next stand, or to the end. -/
def turn (x : α) : Run (α ⊕ Option State) := do
  if ← L.asks x then
    let o ← L.element (L.place x)
    L.goOn x o
  else
    let o ← L.finish x
    pure (.inr o)

/-- Turns to the end, as far as the fuel goes. -/
def run : Nat → α → Run (Option State)
  | 0, _ => exhaust
  | fuel + 1, x => do
    match ← L.turn x with
    | .inl y => run fuel y
    | .inr o => pure o

/-- The stands in which turns are made, each with the memory in which its turn starts. -/
def stands : Nat → α → Memory → List (α × Memory)
  | 0, _, _ => []
  | fuel + 1, x, m => (x, m) :: match L.turn x m with
    | .ok (.inl y) m' => stands fuel y m'
    | _ => []

/-- What the element is applied to in the turn from a stand, if it is. -/
def application? (a : α × Memory) : Option (State × Memory) :=
  match L.asks a.1 a.2 with
  | .ok true m => some (L.place a.1, m)
  | _ => none

/-- The applications of the element, in order. -/
def applications (fuel : Nat) (x : α) (m : Memory) : List (State × Memory) :=
  (L.stands fuel x m).filterMap L.application?

/-- Where the condition is called in the turn from a stand, if it is. -/
def question? (a : α × Memory) : Option State :=
  if L.isOpen a.1 && L.condition.isSome then some (L.place a.1) else none

/-- The calls of the condition, in order. -/
def questions (fuel : Nat) (x : α) (m : Memory) : List State :=
  (L.stands fuel x m).filterMap L.question?

section Turn

variable {L} {x y : α} {m m₁ m₂ m' : Memory}

theorem asks_eq_true (h : L.asks x m = .ok true m') :
    L.isOpen x = true ∧ Action.wantsMore L.condition (L.place x) m = .ok true m' := by
  unfold asks at h
  split at h
  · next hopen => exact ⟨hopen, h⟩
  · cases h

/-- A question is a call of the condition, or none. -/
theorem asks_runs {C : Congruence} (h : ∀ k ∈ L.condition, k.Notes C.entry) (x : α) :
    C.Runs (L.asks x) (L.asks x) := by
  unfold asks
  split
  · exact .wantsMore h _
  · exact .pure false

theorem asks_cells {b : Bool} (h : L.asks x m = .ok b m') : m'.cells = m.cells :=
  asks_runs (C := keepingCells) (fun k _ => k.notes_any) x m b m' h

theorem turn_of_refused {e : Stop} (h : L.asks x m = .error e m') :
    L.turn x m = .error e m' := bind_of_error h

theorem turn_of_unwanted (h : L.asks x m = .ok false m') :
    L.turn x m = (L.finish x >>= fun o => pure (.inr o)) m' := bind_of_ok h

theorem turn_of_wanted (h : L.asks x m = .ok true m') :
    L.turn x m = (L.element (L.place x) >>= L.goOn x) m' := bind_of_ok h

theorem turn_of_applied {o : Option State} (h : L.asks x m = .ok true m₁)
    (helement : L.element (L.place x) m₁ = .ok o m₂) : L.turn x m = L.goOn x o m₂ :=
  (turn_of_wanted h).trans (bind_of_ok helement)

theorem turn_of_broken {e : Stop} (h : L.asks x m = .ok true m₁)
    (helement : L.element (L.place x) m₁ = .error e m₂) : L.turn x m = .error e m₂ :=
  (turn_of_wanted h).trans (bind_of_error helement)

/-- A turn leads to a next stand only by an application. -/
theorem exists_of_turn (h : L.turn x m = .ok (.inl y) m') :
    ∃ m₁ o m₂, L.asks x m = .ok true m₁ ∧ L.element (L.place x) m₁ = .ok o m₂ ∧
      L.goOn x o m₂ = .ok (.inl y) m' := by
  obtain ⟨wanted, m₁, hask, hrest⟩ := exists_of_bind h
  cases wanted with
  | false =>
    obtain ⟨o, m₂, -, hend⟩ := exists_of_bind hrest
    cases hend
  | true =>
    obtain ⟨o, m₂, helement, hgo⟩ := exists_of_bind hrest
    exact ⟨m₁, o, m₂, hask, helement, hgo⟩

theorem run_of_next (h : L.turn x m = .ok (.inl y) m') (fuel : Nat) :
    L.run (fuel + 1) x m = L.run fuel y m' := bind_of_ok h

theorem run_of_end {o : Option State} (h : L.turn x m = .ok (.inr o) m') (fuel : Nat) :
    L.run (fuel + 1) x m = .ok o m' := bind_of_ok h

theorem run_of_stop {e : Stop} (h : L.turn x m = .error e m') (fuel : Nat) :
    L.run (fuel + 1) x m = .error e m' := bind_of_error h

/-- A run ends where its condition fails. -/
theorem run_of_unwanted (h : L.asks x m = .ok false m') (fuel : Nat) :
    L.run (fuel + 1) x m = L.finish x m' := by
  have hturn := turn_of_unwanted h
  cases hfinish : L.finish x m' with
  | ok o m₁ => exact run_of_end (hturn.trans (bind_of_ok hfinish)) fuel
  | error e m₁ => exact run_of_stop (hturn.trans (bind_of_error hfinish)) fuel

theorem stands_of_next (h : L.turn x m = .ok (.inl y) m') (fuel : Nat) :
    L.stands (fuel + 1) x m = (x, m) :: L.stands fuel y m' := by
  rw [stands, h]

theorem stands_of_last (h : ¬ ∃ y m', L.turn x m = .ok (.inl y) m') (fuel : Nat) :
    L.stands (fuel + 1) x m = [(x, m)] := by
  rw [stands]
  split
  · next y m' hturn => exact absurd ⟨y, m', hturn⟩ h
  · rfl

theorem application?_eq_some {s : State} (h : L.application? (x, m) = some (s, m')) :
    s = L.place x ∧ L.asks x m = .ok true m' := by
  unfold application? at h
  split at h
  · next hask =>
    cases h
    exact ⟨rfl, hask⟩
  · cases h

theorem application?_of_wanted (h : L.asks x m = .ok true m') :
    L.application? (x, m) = some (L.place x, m') := by
  rw [application?, h]

theorem application?_of_unwanted (h : ¬ ∃ m', L.asks x m = .ok true m') :
    L.application? (x, m) = none := by
  unfold application?
  split
  · next m' hask => exact absurd ⟨m', hask⟩ h
  · rfl

/-- Where the element is not to be applied, the course is over. -/
theorem applications_of_unwanted (h : ¬ ∃ m', L.asks x m = .ok true m') (fuel : Nat) :
    L.applications (fuel + 1) x m = [] := by
  have hlast : ¬ ∃ y m', L.turn x m = .ok (.inl y) m' := by
    rintro ⟨y, m', hturn⟩
    obtain ⟨m₁, -, -, hask, -⟩ := exists_of_turn hturn
    exact h ⟨m₁, hask⟩
  rw [applications, stands_of_last hlast,
    List.filterMap_cons_none (application?_of_unwanted h)]
  rfl

/-- An application after which there is no other turn. -/
theorem applications_of_last (hask : L.asks x m = .ok true m₁)
    (h : ¬ ∃ y m', L.turn x m = .ok (.inl y) m') (fuel : Nat) :
    L.applications (fuel + 1) x m = [(L.place x, m₁)] := by
  rw [applications, stands_of_last h,
    List.filterMap_cons_some (application?_of_wanted hask)]
  rfl

theorem applications_of_next (hask : L.asks x m = .ok true m₁)
    (h : L.turn x m = .ok (.inl y) m') (fuel : Nat) :
    L.applications (fuel + 1) x m = (L.place x, m₁) :: L.applications fuel y m' := by
  rw [applications, stands_of_next h,
    List.filterMap_cons_some (application?_of_wanted hask)]
  rfl

/-- A turn in which the element is applied adds this application. -/
theorem mem_applications (hask : L.asks x m = .ok true m₁) (fuel : Nat) :
    (L.place x, m₁) ∈ L.applications (fuel + 1) x m := by
  rw [applications, stands, List.filterMap_cons_some (application?_of_wanted hask)]
  exact List.mem_cons_self

theorem mem_applications_of_next (h : L.turn x m = .ok (.inl y) m') {fuel : Nat}
    {a : State × Memory} (ha : a ∈ L.applications fuel y m') :
    a ∈ L.applications (fuel + 1) x m := by
  obtain ⟨m₁, -, -, hask, -⟩ := exists_of_turn h
  rw [applications_of_next hask h]
  exact List.mem_cons_of_mem _ ha

end Turn

/-- The element counts only where it is applied. -/
theorem run_eq_of_applied {element : Action} {fuel : Nat} {x : α} {m : Memory}
    (h : ∀ a ∈ L.applications fuel x m, element a.1 a.2 = L.element a.1 a.2) :
    ({ L with element := element } : Loop α).run fuel x m = L.run fuel x m := by
  let L' : Loop α := { L with element := element }
  show L'.run fuel x m = L.run fuel x m
  induction fuel generalizing x m with
  | zero => rfl
  | succ fuel ih =>
    -- Up to the application the turns are the same, and after it too.
    have hturn : L'.turn x m = L.turn x m := by
      cases hask : L.asks x m with
      | error e m₁ => rw [turn_of_refused hask, turn_of_refused (L := L') hask]
      | ok wanted m₁ =>
        cases wanted with
        | false =>
          rw [turn_of_unwanted hask, turn_of_unwanted (L := L') hask]
        | true =>
          have happlied : element (L.place x) m₁ = L.element (L.place x) m₁ :=
            h _ (mem_applications hask fuel)
          rw [turn_of_wanted hask, turn_of_wanted (L := L') hask]
          exact Action.bind_congr happlied fun _ _ _ => rfl
    cases hr : L.turn x m with
    | error e m' => rw [run_of_stop hr, run_of_stop (L := L') (hturn.trans hr)]
    | ok r m' =>
      cases r with
      | inr o => rw [run_of_end hr, run_of_end (L := L') (hturn.trans hr)]
      | inl y =>
        rw [run_of_next hr, run_of_next (L := L') (hturn.trans hr)]
        exact ih fun a ha => h a (mem_applications_of_next hr ha)

/-! ### Along a course -/

/-- A turn that starts in a stand and a memory of this kind keeps to it, and each stand is
    in this relation to the next. -/
structure Invariant (inv : α → Memory → Prop) (next : α → α → Prop) : Prop where
  turn : ∀ {x m y m'}, inv x m → L.turn x m = .ok (.inl y) m' → inv y m' ∧ next x y

/-- The end of the loop and what is made of an outcome are runs of such a kind. -/
structure Keeps (C : Congruence) : Prop where
  finish : ∀ x, C.Runs (L.finish x) (L.finish x)
  goOn : ∀ x o, C.Runs (L.goOn x o) (L.goOn x o)

/-- A turn is given up only in an application of the element. -/
theorem Keeps.exists_of_turn {L : Loop α} (h : L.Keeps answering) {x : α} {m : Memory}
    (hgave : GaveUp (L.turn x m)) :
    ∃ m₁, L.asks x m = .ok true m₁ ∧ GaveUp (L.element (L.place x) m₁) := by
  have hasks : answering.Runs (L.asks x) (L.asks x) := asks_runs (fun k _ => k.notes_any) x
  rcases gaveUp_of_bind hgave with hask | ⟨wanted, m₁, hask, hrest⟩
  · exact absurd hask (hasks m)
  · cases wanted with
    | false =>
      rcases gaveUp_of_bind hrest with hfinish | ⟨o, m₂, -, hend⟩
      · exact absurd hfinish (h.finish _ _)
      · exact hend.elim
    | true =>
      rcases gaveUp_of_bind hrest with helement | ⟨o, m₂, -, hgo⟩
      · exact ⟨m₁, hask, helement⟩
      · exact absurd hgo (h.goOn _ _ _)

namespace Invariant

variable {L} {inv : α → Memory → Prop} {next : α → α → Prop} {x : α} {m : Memory}

theorem weaken {next' : α → α → Prop} (h : L.Invariant inv next)
    (hnext : ∀ {x y}, next x y → next' x y) : L.Invariant inv next' where
  turn hx hturn := ⟨(h.turn hx hturn).1, hnext (h.turn hx hturn).2⟩

/-- All stands of a course are of the kind. -/
theorem stands (h : L.Invariant inv next) (fuel : Nat) (hx : inv x m) :
    ∀ a ∈ L.stands fuel x m, inv a.1 a.2 := by
  induction fuel generalizing x m with
  | zero => exact fun _ ha => nomatch ha
  | succ fuel ih =>
    intro a ha
    cases ha with
    | head => exact hx
    | tail _ ha =>
      split at ha
      · next y m' hturn => exact ih (h.turn hx hturn).1 a ha
      · cases ha

/-- A relation that goes on holds between each stand of a course and all later ones. -/
theorem stands_pairwise (h : L.Invariant inv next)
    (htrans : ∀ {x y z}, next x y → next y z → next x z) (fuel : Nat) (hx : inv x m) :
    (L.stands fuel x m).Pairwise (fun a b => next a.1 b.1) ∧
      ∀ a ∈ L.stands fuel x m, a.1 = x ∨ next x a.1 := by
  induction fuel generalizing x m with
  | zero => exact ⟨.nil, fun _ ha => nomatch ha⟩
  | succ fuel ih =>
    by_cases hnext : ∃ y m', L.turn x m = .ok (.inl y) m'
    case neg =>
      -- The last stand of the course, with nothing behind it.
      rw [stands_of_last hnext]
      exact ⟨List.pairwise_singleton _ _, fun a ha => .inl (by rw [List.mem_singleton.1 ha])⟩
    obtain ⟨y, m', hturn⟩ := hnext
    obtain ⟨hy, hxy⟩ := h.turn hx hturn
    obtain ⟨hpairs, hafter⟩ := ih hy
    have hlater : ∀ a ∈ L.stands fuel y m', next x a.1 := by
      intro a ha
      rcases hafter a ha with heq | hlater
      · rw [heq]
        exact hxy
      · exact htrans hxy hlater
    rw [stands_of_next hturn]
    refine ⟨.cons hlater hpairs, fun a ha => ?_⟩
    rcases List.mem_cons.1 ha with rfl | ha
    · exact .inl rfl
    · exact .inr (hlater a ha)

section Measure

variable (h : L.Invariant inv next) (size : α → Nat)
  (hsize : ∀ {x m y m'}, inv x m → L.isOpen x = true → inv y m' → next x y → size y < size x)

include h hsize

/-- The element is applied no more often than the number allows that each turn makes
    smaller. -/
theorem applications_length_le (hopen : ∀ {x m}, inv x m → L.isOpen x = true → 0 < size x)
    (fuel : Nat) (hx : inv x m) : (L.applications fuel x m).length ≤ size x := by
  induction fuel generalizing x m with
  | zero => exact Nat.zero_le _
  | succ fuel ih =>
    -- A turn that applies nothing is the last one, so only applications are counted.
    by_cases hwanted : ∃ m₁, L.asks x m = .ok true m₁
    case neg =>
      rw [applications_of_unwanted hwanted]
      exact Nat.zero_le _
    obtain ⟨m₁, hask⟩ := hwanted
    obtain ⟨hx', -⟩ := asks_eq_true hask
    by_cases hnext : ∃ y m', L.turn x m = .ok (.inl y) m'
    case neg =>
      rw [applications_of_last hask hnext]
      exact hopen hx hx'
    obtain ⟨y, m', hturn⟩ := hnext
    obtain ⟨hy, hxy⟩ := h.turn hx hturn
    rw [applications_of_next hask hturn, List.length_cons]
    exact Nat.lt_of_le_of_lt (ih hy) (hsize hx hx' hy hxy)

/-- With fuel for every turn, a loop is given up only where the element is. -/
theorem exists_of_gaveUp (hanswers : L.Keeps answering) {fuel : Nat}
    (hx : inv x m)
    (hfuel : size x < fuel) (hgave : GaveUp (L.run fuel x m)) :
    ∃ a ∈ L.applications fuel x m, GaveUp (L.element a.1 a.2) := by
  induction fuel generalizing x m with
  | zero => exact absurd hfuel (Nat.not_lt_zero _)
  | succ fuel ih =>
    rcases gaveUp_of_bind hgave with hturn | ⟨r, m', hturn, hrest⟩
    · obtain ⟨m₁, hask, helement⟩ := hanswers.exists_of_turn hturn
      exact ⟨(L.place x, m₁), mem_applications hask fuel, helement⟩
    · cases r with
      | inr o => exact hrest.elim
      | inl y =>
        obtain ⟨hy, hxy⟩ := h.turn hx hturn
        obtain ⟨m₁, -, -, hask, -⟩ := exists_of_turn hturn
        -- The next turn needs less fuel than this one, and has one turn less to spend.
        have hsmaller : size y < size x := hsize hx (asks_eq_true hask).1 hy hxy
        have hlt : size y < fuel := Nat.lt_of_lt_of_le hsmaller (Nat.le_of_lt_succ hfuel)
        obtain ⟨a, ha, helement⟩ := ih hy hlt hrest
        exact ⟨a, mem_applications_of_next hturn ha, helement⟩

end Measure

end Invariant

/-! ## Repetitions -/

/-- The stand of a repetition: its state, and its results so far, the last of them first,
    with their number. -/
structure Repeated where
  state : State
  count : Nat
  values : List Value

/-- A repetition as a loop. -/
def many (p : Action) (bounds : Bounds) (condition : Option (Callback Text Bool))
    (carried : Value) : Loop Repeated where
  element := p
  condition := condition
  place x := x.state.withValue carried
  isOpen x := !(x.state.atEnd || bounds.reached x.count)
  finish x := pure (Action.collected bounds x.state x.count x.values)
  goOn x o := match o with
    | none => pure (.inr (Action.collected bounds x.state x.count x.values))
    | some next =>
      if bounds.unlimited && next.pos == x.state.pos then reject .manyStalled
      else pure (.inl ⟨next, x.count + 1, next.value :: x.values⟩)

section Many

variable {p : Action} {bounds : Bounds} {condition : Option (Callback Text Bool)}
  {carried : Value}

theorem many_open {x : Repeated} (h : (many p bounds condition carried).isOpen x = true) :
    x.state.pos < x.state.text.length ∧ bounds.reached x.count = false := by
  have hopen : (x.state.atEnd || bounds.reached x.count) = false := Eq.mp (Bool.not_eq_true' _) h
  rwa [Bool.or_eq_false_iff, ← Bool.not_eq_true, State.atEnd_iff, Nat.not_le] at hopen

theorem many_run (fuel : Nat) (s : State) (count : Nat) (values : List Value) :
    Action.repeatFrom p bounds condition carried fuel s count values
      = (many p bounds condition carried).run fuel ⟨s, count, values⟩ := by
  induction fuel generalizing s count values with
  | zero => rfl
  | succ fuel ih =>
    rw [Action.repeatFrom, run, turn, asks]
    -- In a closed stand neither of the two asks its condition.
    cases hclosed : (s.atEnd || bounds.reached count) with
    | true =>
      simp only [many, hclosed, if_true, Bool.not_true, Bool.false_eq_true, if_false, pure_bind]
    | false =>
      simp only [many, hclosed, Bool.not_false, Bool.false_eq_true, if_true, if_false, bind_assoc]
      refine bind_congr fun wanted => ?_
      cases wanted with
      | false => rfl
      | true =>
        simp only [if_true, bind_assoc]
        refine bind_congr fun o => ?_
        cases o with
        | none => rfl
        | some next =>
          dsimp only
          split
          · rfl
          · rw [ih]
            rfl

/-- A repetition complains only of an element that has stayed where it was. -/
theorem many_goOn_runs {C : Congruence} (x : Repeated) (o : Option State)
    (hstalled : ∀ next, o = some next → bounds.unlimited = true → next.pos = x.state.pos →
      C.Complains) :
    C.Runs ((many p bounds condition carried).goOn x o)
      ((many p bounds condition carried).goOn x o) := by
  cases o with
  | none => exact .pure _
  | some next =>
    unfold many
    dsimp only
    split
    · next h =>
      rw [Bool.and_eq_true, beq_iff_eq] at h
      exact hstalled next rfl h.1 h.2 _ _
    · exact .pure _

theorem many_keeps {C : Congruence} (hC : C.Complains) :
    (many p bounds condition carried).Keeps C where
  finish _ := .pure _
  goOn x o := many_goOn_runs x o fun _ _ _ _ => hC

end Many

/-! ## Scans -/

/-- The stand of a scan: its state, and the run of characters and the items behind it, the
    last of each first. -/
structure Scanned where
  state : State
  run : Text
  items : List Value

/-- A scan as a loop. -/
def scan (p : Action) (ofRun : Callback Text Value) (condition : Callback Text Bool) :
    Loop Scanned where
  element := p
  condition := some condition
  place x := x.state.withValue .none
  isOpen x := !x.state.atEnd
  finish x := Action.scanned ofRun x.state x.run x.items
  goOn x o := match o with
    | none => pure (.inl ⟨x.state.advance 1 .none, x.state.rest.take 1 ++ x.run, x.items⟩)
    | some next =>
      if next.pos == x.state.pos then reject .interleaveStalled
      else do
        let items ← Action.flush ofRun x.run x.items
        pure (.inl ⟨x.state.moveTo next.pos .none, [], next.value :: items⟩)

section Scan

variable {p : Action} {ofRun : Callback Text Value} {condition : Callback Text Bool}

theorem scan_open {x : Scanned} (h : (scan p ofRun condition).isOpen x = true) :
    x.state.pos < x.state.text.length := by
  have hopen : x.state.atEnd = false := Eq.mp (Bool.not_eq_true' _) h
  rwa [← Bool.not_eq_true, State.atEnd_iff, Nat.not_le] at hopen

theorem scan_run (fuel : Nat) (s : State) (run : Text) (items : List Value) :
    Action.scanFrom p ofRun condition fuel s run items
      = (scan p ofRun condition).run fuel ⟨s, run, items⟩ := by
  induction fuel generalizing s run items with
  | zero => rfl
  | succ fuel ih =>
    rw [Action.scanFrom, Loop.run, turn, asks]
    split
    · -- At the end of the text.
      next hrest =>
      have hend : s.atEnd = true := by rw [State.atEnd, hrest]; rfl
      simp only [scan, hend, Bool.not_true, Bool.false_eq_true, if_false, pure_bind, bind_assoc,
        bind_pure]
    · next c rest hrest =>
      have hahead : s.atEnd = false := by rw [State.atEnd, hrest]; rfl
      simp only [scan, hahead, Bool.not_false, if_true, bind_assoc]
      refine bind_congr fun wanted => ?_
      cases wanted with
      | false =>
        simp only [Bool.false_eq_true, if_false, bind_assoc, pure_bind, bind_pure]
      | true =>
        simp only [if_true, bind_assoc]
        refine bind_congr fun o => ?_
        cases o with
        | none =>
          -- The character that joins the run is the first of what lies ahead.
          rw [ih, hrest]
          rfl
        | some next =>
          dsimp only
          split
          · rfl
          · rw [bind_assoc]
            refine bind_congr fun items => ?_
            rw [ih]
            rfl

/-- The conversion of a run leaves the delayed parts as they are. -/
theorem flush_cells {run : Text} {items items' : List Value} {m m' : Memory}
    (h : Action.flush ofRun run items m = .ok items' m') : m'.cells = m.cells :=
  Congruence.Runs.flush (C := keepingCells) ofRun.notes_any run items m items' m' h

/-- So does a scan, which converts the run behind it where the element has matched. -/
theorem scan_goOn_runs {C : Congruence} (hr : ofRun.Notes C.entry) (x : Scanned)
    (o : Option State)
    (hstalled : ∀ next, o = some next → next.pos = x.state.pos → C.Complains) :
    C.Runs ((scan p ofRun condition).goOn x o) ((scan p ofRun condition).goOn x o) := by
  cases o with
  | none => exact .pure _
  | some next =>
    unfold scan
    dsimp only
    split
    · next h => exact hstalled next rfl (beq_iff_eq.1 h) _ _
    · exact .bind (.flush hr _ _) fun _ => .pure _

theorem scan_keeps {C : Congruence} (hC : C.Complains) (hr : ofRun.Notes C.entry) :
    (scan p ofRun condition).Keeps C where
  finish x := .scanned hr x.state x.run x.items
  goOn x o := scan_goOn_runs hr x o fun _ _ _ => hC

end Scan

end Loop
end Descent

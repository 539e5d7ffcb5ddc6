/-
  Descent.Proofs.Loop.Greedy

  A repetition is the greedy iteration of what it repeats.  `Repetition.Attempts` is a row
  of attempts, each made where the last one ended and with the value that was carried into
  the repetition; `Repetition.Ends` says for what reasons a row ends and what the whole
  then comes to.  Both are threaded through the memory, so they also say what is called
  and what is not.  A run of the loop is one row with one end (`loop_eq_iff`): from left
  to right by induction on the fuel, from right to left along the row.
-/
import Descent.Proofs.Loop.Run
import Descent.Proofs.Forward

namespace Descent

/-- What is repeated, how often, as long as what holds, and with which value. -/
structure Repetition where
  element : Action
  bounds : Bounds
  condition : Option (Callback Text Bool)
  carried : Value

namespace Repetition

open Run

variable (r : Repetition)

/-! ## Rows of attempts -/

/-- The element at the place of a state, with the value carried into the repetition. -/
def attempt (s : State) : Run (Option State) := r.element (State.make s.text s.pos r.carried)

/-- Nothing but the condition can still stop the repetition: text lies ahead, and with `k`
    results the upper bound is not reached.  Zero is no bound. -/
structure Open (k : Nat) (s : State) : Prop where
  ahead : s.pos < s.text.length
  below : r.bounds.atMost = 0 ∨ (k : Int) < r.bounds.atMost

/-- One more attempt is to be made.  The condition has been called, if there is one. -/
structure Wanted (k : Nat) (s : State) (m m' : Memory) : Prop where
  isOpen : r.Open k s
  holds : Action.wantsMore r.condition s m = .ok true m'

/-- A row of attempts that match, with `k` results behind: where it starts, the values in
    order, and where it has come to.  Without an upper bound each has to go somewhere. -/
inductive Attempts : Nat → State → Memory → List Value → State → Memory → Prop
  | none {k s m} : Attempts k s m [] s m
  | more {k s m m₁ next m₂ values t m'} :
      r.Wanted k s m m₁ → r.attempt s m₁ = .ok (some next) m₂ →
      (r.bounds.atMost = 0 → next.pos ≠ s.pos) →
      Attempts (k + 1) next m₂ values t m' → Attempts k s m (next.value :: values) t m'

/-- What comes of a repetition that stops in a state with these results: the list of them,
    or no match if they are fewer than the lower bound asks for. -/
def result (s : State) (values : List Value) : Option State :=
  if r.bounds.atLeast ≠ 0 ∧ (values.length : Int) < r.bounds.atLeast then none
  else some (State.make s.text s.pos (.list values))

/-- What comes of a repetition that has come to a state with these results, and goes no
    further.  The reasons are tried in this order; once one applies, nothing else is
    called. -/
inductive Ends (values : List Value) (s : State) (m : Memory) :
    EStateM.Result Stop Memory (Option State) → Prop
  | atEnd : s.text.length ≤ s.pos → Ends values s m (.ok (r.result s values) m)
  | enough : s.pos < s.text.length → r.bounds.atMost ≠ 0 →
      r.bounds.atMost ≤ values.length → Ends values s m (.ok (r.result s values) m)
  | unwanted {m'} : r.Open values.length s →
      Action.wantsMore r.condition s m = .ok false m' →
      Ends values s m (.ok (r.result s values) m')
  | unmatched {m₁ m'} : r.Wanted values.length s m m₁ → r.attempt s m₁ = .ok none m' →
      Ends values s m (.ok (r.result s values) m')
  | stalled {m₁ next m'} : r.Wanted values.length s m m₁ →
      r.attempt s m₁ = .ok (some next) m' → r.bounds.atMost = 0 → next.pos = s.pos →
      Ends values s m (.error (.fault (.grammar .manyStalled)) m')
  /-- The condition has raised a fault. -/
  | refused {e m'} : r.Open values.length s → Action.wantsMore r.condition s m = .error e m' →
      Ends values s m (.error e m')
  /-- The attempt has raised a fault or was given up. -/
  | raised {m₁ e m'} : r.Wanted values.length s m m₁ → r.attempt s m₁ = .error e m' →
      Ends values s m (.error e m')

/-! ## The loop -/

/-- The loop with results behind it. -/
def loop (fuel : Nat) (s : State) (behind : List Value) : Run (Option State) :=
  Action.repeatFrom r.element r.bounds r.condition r.carried fuel s behind.length behind.reverse

variable {r}

theorem attempt_eq (s : State) : r.element (s.withValue r.carried) = r.attempt s := by
  rw [attempt, State.make_place]

theorem open_iff {k : Nat} {s : State} :
    r.Open k s ↔ (s.atEnd || r.bounds.reached k) = false := by
  rw [Bool.or_eq_false_iff, ← Bool.not_eq_true, s.atEnd_iff, Nat.not_le, Bounds.reached,
    Bool.and_eq_false_iff, bne_eq_false_iff_eq, decide_eq_false_iff_not, Int.not_le]
  exact ⟨fun h => ⟨h.ahead, h.below⟩, fun h => ⟨h.1, h.2⟩⟩

theorem Open.not_closed {k : Nat} {s : State} (h : r.Open k s) :
    ¬ (s.atEnd || r.bounds.reached k) = true :=
  Bool.eq_false_iff.1 (open_iff.1 h)

theorem collected_eq (s : State) (values : List Value) :
    Action.collected r.bounds s values.length values.reverse = r.result s values := by
  have hlacking : r.bounds.lacking values.length = true ↔
      r.bounds.atLeast ≠ 0 ∧ (values.length : Int) < r.bounds.atLeast := by
    rw [Bounds.lacking, Bool.and_eq_true, bne_iff_ne, decide_eq_true_iff]
  unfold Action.collected result
  simp only [hlacking, List.reverse_reverse, State.make_place]

section Turn

variable {s next : State} {behind : List Value} {m m₁ m₂ : Memory} {fuel : Nat}

theorem loop_closed (h : ¬ r.Open behind.length s) :
    r.loop (fuel + 1) s behind m = .ok (r.result s behind) m := by
  rw [open_iff, Bool.not_eq_false] at h
  rw [loop, Action.repeatFrom, if_pos h, collected_eq]
  rfl

theorem loop_refused {e : Stop} (h : r.Open behind.length s)
    (hask : Action.wantsMore r.condition s m = .error e m₁) :
    r.loop (fuel + 1) s behind m = .error e m₁ := by
  rw [loop, Action.repeatFrom, if_neg h.not_closed, bind_of_error hask]

theorem loop_unwanted (h : r.Open behind.length s)
    (hask : Action.wantsMore r.condition s m = .ok false m₁) :
    r.loop (fuel + 1) s behind m = .ok (r.result s behind) m₁ := by
  rw [loop, Action.repeatFrom, if_neg h.not_closed, bind_of_ok hask, collected_eq]
  rfl

/-- Where one more attempt is wanted, the loop makes it and looks at what came of it. -/
theorem loop_wanted (h : r.Wanted behind.length s m m₁) :
    r.loop (fuel + 1) s behind m = (r.attempt s >>= fun o =>
      match o with
      | none => pure (r.result s behind)
      | some next =>
        if r.bounds.unlimited && next.pos == s.pos then reject .manyStalled
        else r.loop fuel next (behind ++ [next.value])) m₁ := by
  -- The loop keeps its results last first, and a count of them beside.
  have hagain : ∀ next : State,
      Action.repeatFrom r.element r.bounds r.condition r.carried fuel next (behind.length + 1)
        (next.value :: behind.reverse) = r.loop fuel next (behind ++ [next.value]) := fun next => by
    rw [loop, List.length_append, List.length_singleton, List.reverse_append,
      List.reverse_singleton, List.singleton_append]
  rw [loop, Action.repeatFrom, if_neg h.isOpen.not_closed, bind_of_ok h.holds, if_pos rfl,
    attempt_eq]
  refine congrArg (fun f => (r.attempt s >>= f) m₁) (funext fun o => ?_)
  cases o with
  | none => rw [collected_eq]
  | some next =>
    show (if r.bounds.unlimited && next.pos == s.pos then reject .manyStalled
      else Action.repeatFrom _ _ _ _ _ _ _ _) = _
    rw [hagain]

theorem loop_raised {e : Stop} (h : r.Wanted behind.length s m m₁)
    (hattempt : r.attempt s m₁ = .error e m₂) :
    r.loop (fuel + 1) s behind m = .error e m₂ := by
  rw [loop_wanted h]
  exact bind_of_error hattempt

theorem loop_unmatched (h : r.Wanted behind.length s m m₁)
    (hattempt : r.attempt s m₁ = .ok none m₂) :
    r.loop (fuel + 1) s behind m = .ok (r.result s behind) m₂ := by
  rw [loop_wanted h]
  exact bind_of_ok hattempt

theorem loop_stalled (h : r.Wanted behind.length s m m₁)
    (hattempt : r.attempt s m₁ = .ok (some next) m₂) (hmost : r.bounds.atMost = 0)
    (hpos : next.pos = s.pos) :
    r.loop (fuel + 1) s behind m = .error (.fault (.grammar .manyStalled)) m₂ := by
  have hstalled : (r.bounds.unlimited && next.pos == s.pos) = true := by
    rw [Bounds.unlimited, hmost, hpos, beq_self_eq_true, beq_self_eq_true, Bool.and_self]
  rw [loop_wanted h]
  refine (bind_of_ok hattempt).trans ?_
  dsimp only
  rw [if_pos hstalled]
  rfl

theorem loop_more (h : r.Wanted behind.length s m m₁)
    (hattempt : r.attempt s m₁ = .ok (some next) m₂)
    (hmoved : r.bounds.atMost = 0 → next.pos ≠ s.pos) :
    r.loop (fuel + 1) s behind m = r.loop fuel next (behind ++ [next.value]) m₂ := by
  have hgoes : ¬ (r.bounds.unlimited && next.pos == s.pos) = true := by
    rw [Bool.and_eq_true, Bounds.unlimited, beq_iff_eq, beq_iff_eq]
    exact fun h => hmoved h.1 h.2
  rw [loop_wanted h]
  refine (bind_of_ok hattempt).trans ?_
  dsimp only
  rw [if_neg hgoes]

end Turn

/-- The loop makes the attempts of a row, one a turn. -/
theorem Attempts.loop_eq {k : Nat} {s t : State} {m m' : Memory} {values : List Value}
    (h : r.Attempts k s m values t m') (behind : List Value) (hk : k = behind.length)
    (fuel : Nat) : r.loop (fuel + values.length) s behind m
      = r.loop fuel t (behind ++ values) m' := by
  induction h generalizing behind with
  | none => rw [List.append_nil]; rfl
  | @more k s m m₁ next m₂ values t m' hwanted hattempt hmoved _ ih =>
    subst hk
    have hcount : behind.length + 1 = (behind ++ [next.value]).length := by
      rw [List.length_append, List.length_singleton]
    rw [List.length_cons, ← Nat.add_assoc, loop_more hwanted hattempt hmoved, ih _ hcount,
      List.append_assoc, List.singleton_append]

/-- Where a row ends, so does the loop. -/
theorem Ends.loop_eq {values : List Value} {s : State} {m : Memory}
    {o : EStateM.Result Stop Memory (Option State)} (h : r.Ends values s m o) (fuel : Nat) :
    r.loop (fuel + 1) s values m = o := by
  cases h with
  | atEnd hend => exact loop_closed fun h => absurd h.ahead (Nat.not_lt.2 hend)
  | enough _ hmost hreached =>
    refine loop_closed fun h => ?_
    rcases h.below with hzero | hbelow
    · exact hmost hzero
    · omega
  | unwanted hopen hask => exact loop_unwanted hopen hask
  | unmatched hwanted hattempt => exact loop_unmatched hwanted hattempt
  | stalled hwanted hattempt hmost hpos => exact loop_stalled hwanted hattempt hmost hpos
  | refused hopen hask => exact loop_refused hopen hask
  | raised hwanted hattempt => exact loop_raised hwanted hattempt

/-- Every turn of the loop makes one attempt of the row or ends it. -/
theorem exists_row (fuel : Nat) (s : State) (behind : List Value) (m : Memory) :
    ∃ values t m₁, r.Attempts behind.length s m values t m₁ ∧
      (values.length < fuel ∧ r.Ends (behind ++ values) t m₁ (r.loop fuel s behind m) ∨
        values.length = fuel ∧ r.loop fuel s behind m = .error .exhausted m₁) := by
  induction fuel generalizing s behind m with
  | zero => exact ⟨[], s, m, .none, .inr ⟨rfl, rfl⟩⟩
  | succ fuel ih =>
    -- A row that ends at once.
    have hends : ∀ o, r.Ends behind s m o → ∃ values t m₁,
        r.Attempts behind.length s m values t m₁ ∧
        (values.length < fuel + 1 ∧
            r.Ends (behind ++ values) t m₁ (r.loop (fuel + 1) s behind m) ∨
          values.length = fuel + 1 ∧ r.loop (fuel + 1) s behind m = .error .exhausted m₁) := by
      intro o ho
      refine ⟨[], s, m, .none, .inl ⟨Nat.succ_pos _, ?_⟩⟩
      rw [ho.loop_eq, List.append_nil]
      exact ho
    -- The reasons to end, in the order of the loop; without one, another attempt matches.
    by_cases hahead : s.pos < s.text.length
    case neg => exact hends _ (.atEnd (Nat.not_lt.1 hahead))
    by_cases hbelow : r.bounds.atMost = 0 ∨ (behind.length : Int) < r.bounds.atMost
    case neg =>
      rw [not_or, Int.not_lt] at hbelow
      exact hends _ (.enough hahead hbelow.1 hbelow.2)
    have hopen : r.Open behind.length s := ⟨hahead, hbelow⟩
    cases hask : Action.wantsMore r.condition s m with
    | error e m₁ => exact hends _ (.refused hopen hask)
    | ok wanted m₁ =>
      cases wanted with
      | false => exact hends _ (.unwanted hopen hask)
      | true =>
        have hwanted : r.Wanted behind.length s m m₁ := ⟨hopen, hask⟩
        cases hattempt : r.attempt s m₁ with
        | error e m₂ => exact hends _ (.raised hwanted hattempt)
        | ok o m₂ =>
          cases o with
          | none => exact hends _ (.unmatched hwanted hattempt)
          | some next =>
            by_cases hstalled : r.bounds.atMost = 0 ∧ next.pos = s.pos
            case pos => exact hends _ (.stalled hwanted hattempt hstalled.1 hstalled.2)
            have hmoved : r.bounds.atMost = 0 → next.pos ≠ s.pos :=
              fun hmost hpos => hstalled ⟨hmost, hpos⟩
            obtain ⟨values, t, m₃, hrow, hrest⟩ := ih next (behind ++ [next.value]) m₂
            rw [List.length_append, List.length_singleton] at hrow
            refine ⟨next.value :: values, t, m₃, .more hwanted hattempt hmoved hrow, ?_⟩
            rw [loop_more hwanted hattempt hmoved, List.length_cons]
            rw [List.append_assoc, List.singleton_append] at hrest
            rcases hrest with ⟨hlt, ho⟩ | ⟨heq, ho⟩
            · exact .inl ⟨Nat.succ_lt_succ hlt, ho⟩
            · exact .inr ⟨by rw [heq], ho⟩

/-- A run of the loop is one row with one end, unless the fuel gives out behind the row. -/
theorem loop_eq_iff {fuel : Nat} {s : State} {m : Memory}
    {o : EStateM.Result Stop Memory (Option State)} :
    r.loop fuel s [] m = o ↔ ∃ values t m₁, r.Attempts 0 s m values t m₁ ∧
      (values.length < fuel ∧ r.Ends values t m₁ o ∨
        values.length = fuel ∧ o = .error .exhausted m₁) := by
  refine ⟨?_, ?_⟩
  · rintro rfl
    exact exists_row fuel s [] m
  · rintro ⟨values, t, m₁, hattempts, hend⟩
    have hloop := fun fuel => hattempts.loop_eq [] rfl fuel
    rw [List.nil_append] at hloop
    rcases hend with ⟨hlt, hends⟩ | ⟨rfl, rfl⟩
    · obtain ⟨turns, rfl⟩ : ∃ k, fuel = k + 1 + values.length :=
        ⟨fuel - values.length - 1, by omega⟩
      exact (hloop (turns + 1)).trans (hends.loop_eq turns)
    · exact (congrArg (fun k => r.loop k s [] m) (Nat.zero_add _)).symm.trans (hloop 0)

/-! ## How long a row is -/

/-- An upper bound is kept. -/
theorem Attempts.length_le {k : Nat} {s t : State} {m m' : Memory} {values : List Value}
    (h : r.Attempts k s m values t m') (hmost : r.bounds.atMost ≠ 0) :
    values = [] ∨ (k + values.length : Int) ≤ r.bounds.atMost := by
  induction h with
  | none => exact .inl rfl
  | @more k s m m₁ next m₂ values t m' hwanted _ _ _ ih =>
    have hbelow := hwanted.isOpen.below.resolve_left hmost
    rw [List.length_cons]
    rcases ih with rfl | hle
    · exact .inr (by rw [List.length_nil]; omega)
    · exact .inr (by omega)

/-- A row of attempts of a plain parser goes forward in its text, and if nothing bounds it
    from above, by a character an attempt. -/
theorem Attempts.forward {p : Parser Ref} (hp : p.Plain) {env : Env} (henv : env.Plain)
    {n : Nat} (helement : r.element = p.eval env n) {k : Nat} {s t : State} {m m' : Memory}
    {values : List Value} (h : r.Attempts k s m values t m') (hm : m.cells.Plain)
    (hs : s.pos ≤ s.text.length) :
    t.pos ≤ s.text.length ∧ (r.bounds.atMost = 0 → s.pos + values.length ≤ t.pos) := by
  induction h with
  | none => exact ⟨hs, fun _ => Nat.le_refl _⟩
  | @more k s m m₁ next m₂ values t m' hwanted hattempt hmoved _ ih =>
    have hm₁ : m₁.cells.Plain := by rw [wantsMore_cells hwanted.holds]; exact hm
    rw [attempt, helement] at hattempt
    obtain ⟨hwithin, hm₂⟩ := Parser.eval_within hp henv hm₁
      (State.Within.self (s := State.make s.text s.pos r.carried) hs) hattempt
    have htext : next.text = s.text := hwithin.text
    have hlow : s.pos ≤ next.pos := hwithin.low
    rw [htext] at ih
    obtain ⟨hend, hlength⟩ := ih hm₂ hwithin.high
    refine ⟨hend, fun hmost => ?_⟩
    have hne := hmoved hmost
    have hle := hlength hmost
    rw [List.length_cons]
    omega

/-- Rows of a plain parser are no longer than what lies ahead, or than the upper bound. -/
theorem Attempts.length_lt {p : Parser Ref} (hp : p.Plain) {env : Env} (henv : env.Plain)
    {n : Nat} (helement : r.element = p.eval env n) {s t : State} {m m' : Memory}
    {values : List Value} (h : r.Attempts 0 s m values t m') (hm : m.cells.Plain) {fuel : Nat}
    (hfuel : s.rest.length < fuel) (hmost : r.bounds.atMost < fuel) : values.length < fuel := by
  -- Beyond the end of the text no attempt is wanted.
  by_cases hs : s.pos ≤ s.text.length
  case neg =>
    cases h with
    | none => exact Nat.zero_lt_of_lt hfuel
    | more hwanted => exact absurd (Nat.le_of_lt hwanted.isOpen.ahead) hs
  by_cases hzero : r.bounds.atMost = 0
  · obtain ⟨hend, hlength⟩ := h.forward hp henv helement hm hs
    have hle := hlength hzero
    have hrest : s.rest.length = s.text.length - s.pos := by rw [s.rest_eq, List.length_drop]
    omega
  · rcases h.length_le hzero with rfl | hle
    · exact Nat.zero_lt_of_lt hfuel
    · omega

/-! ## Bounds -/

/-- A match has as many results as the lower bound asks for. -/
theorem Ends.result_bounds {values : List Value} {s : State} {m m' : Memory} {s' : State}
    (h : r.Ends values s m (.ok (some s') m')) :
    s'.value = .list values ∧ r.bounds.atLeast ≤ values.length := by
  -- There are four ways to come to a result, and in each it is the same.
  have hresult : r.result s values = some s' := by
    generalize hr : (EStateM.Result.ok (some s') m' : EStateM.Result Stop Memory _) = o at h
    cases h with
    | atEnd => injection hr with hr; exact hr.symm
    | enough => injection hr with hr; exact hr.symm
    | unwanted => injection hr with hr; exact hr.symm
    | unmatched => injection hr with hr; exact hr.symm
    | stalled => cases hr
    | refused => cases hr
    | raised => cases hr
  unfold result at hresult
  split at hresult
  · cases hresult
  · next henough =>
    cases hresult
    refine ⟨rfl, ?_⟩
    by_cases hzero : r.bounds.atLeast = 0
    · omega
    · exact Int.not_lt.1 fun hlt => henough ⟨hzero, hlt⟩

/-- The results of a match are as many as the bounds allow. -/
theorem loop_bounds {fuel : Nat} {s s' : State} {m m' : Memory}
    (h : r.loop fuel s [] m = .ok (some s') m') : ∃ values, s'.value = .list values ∧
      r.bounds.atLeast ≤ values.length ∧
      (0 < r.bounds.atMost → values.length ≤ r.bounds.atMost) := by
  obtain ⟨values, t, m₁, hattempts, ⟨-, hends⟩ | ⟨-, ho⟩⟩ := loop_eq_iff.1 h
  · obtain ⟨hvalue, hleast⟩ := hends.result_bounds
    refine ⟨values, hvalue, hleast, fun hmost => ?_⟩
    rcases hattempts.length_le (Int.ne_of_gt hmost) with rfl | hle
    · rw [List.length_nil]
      omega
    · omega
  · cases ho

/-- A negative upper bound is reached from the start. -/
theorem loop_of_atMost_neg (hmost : r.bounds.atMost < 0) (fuel : Nat) (s : State) (m : Memory) :
    r.loop (fuel + 1) s [] m
      = .ok (if 0 < r.bounds.atLeast then none else some (s.withValue (.list []))) m := by
  have hclosed : ¬ r.Open ([] : List Value).length s := by
    intro h
    have hbelow := h.below
    rw [List.length_nil] at hbelow
    omega
  have hfew : r.bounds.atLeast ≠ 0 ∧ (([] : List Value).length : Int) < r.bounds.atLeast ↔
      0 < r.bounds.atLeast := by
    rw [List.length_nil]
    omega
  rw [loop_closed hclosed]
  simp only [result, hfew, State.make_place]

/-- A negative lower bound is none. -/
theorem loop_of_atLeast_neg (hleast : r.bounds.atLeast < 0) (fuel : Nat) (s : State)
    (behind : List Value) :
    r.loop fuel s behind
      = loop { r with bounds := ⟨0, r.bounds.atMost⟩ } fuel s behind := by
  have hlacking : ∀ k, r.bounds.lacking k = Bounds.lacking ⟨0, r.bounds.atMost⟩ k := by
    intro k
    have hfew : ¬ ((k : Int) < r.bounds.atLeast) := by omega
    rw [Bounds.lacking, Bounds.lacking, decide_eq_false hfew, Bool.and_false]
    rfl
  have hreached : ∀ k, r.bounds.reached k = Bounds.reached ⟨0, r.bounds.atMost⟩ k :=
    fun _ => rfl
  have hunlimited : r.bounds.unlimited = Bounds.unlimited ⟨0, r.bounds.atMost⟩ := rfl
  -- The turns never ask for the lower bound, only what is collected in the end does.
  unfold loop
  generalize behind.length = count, behind.reverse = values
  induction fuel generalizing s count values with
  | zero => rfl
  | succ fuel ih =>
    simp only [Action.repeatFrom, Action.collected, hreached, hunlimited, hlacking, ih]

end Repetition

namespace Parser

/-- A repetition makes one row of attempts, as far as the fuel goes, and comes to what the
    end of that row says.  With fuel for every character ahead and for the upper bound the
    row is never cut short, so the repetition gives up only where an attempt does.  A match
    has results within the bounds, so there is none if the upper bound is below the lower.
    A negative lower bound is none, and a negative upper bound leaves nothing to do, so that
    nothing is called. -/
theorem many_greedy {p : Parser Ref} (hp : p.Plain) {env : Env} (henv : env.Plain)
    {m : Memory} (hm : m.cells.Plain) (s : State) (bounds : Bounds)
    (condition : Option (Callback Text Bool)) (n : Nat) :
    let r : Repetition := ⟨p.eval env n, bounds, condition, s.value⟩
    let run := (many p bounds condition).eval env n s m
    (∀ o, run = o ↔ ∃ values t m₁, r.Attempts 0 s m values t m₁ ∧
      (values.length < n ∧ r.Ends values t m₁ o ∨
        values.length = n ∧ o = .error .exhausted m₁)) ∧
    (s.rest.length < n → bounds.atMost < n →
      ∀ o, run = o ↔ ∃ values t m₁, r.Attempts 0 s m values t m₁ ∧ r.Ends values t m₁ o) ∧
    (∀ s' m', run = .ok (some s') m' → ∃ values, s'.value = .list values ∧
      bounds.atLeast ≤ values.length ∧ (0 < bounds.atMost → values.length ≤ bounds.atMost)) ∧
    (0 < bounds.atMost → bounds.atMost < bounds.atLeast → ∀ s' m', run ≠ .ok (some s') m') ∧
    (bounds.atLeast < 0 → run = (many p ⟨0, bounds.atMost⟩ condition).eval env n s m) ∧
    (bounds.atMost < 0 → 0 < n →
      run = .ok (if 0 < bounds.atLeast then none else some (s.withValue (.list []))) m) := by
  intro r run
  have hrun : run = r.loop n s [] m := rfl
  refine ⟨fun o => ?_, fun hfuel hmost o => ?_, fun s' m' h => ?_, fun hmost hlt s' m' h => ?_,
    fun hleast => ?_, fun hmost hn => ?_⟩
  · rw [hrun]
    exact Repetition.loop_eq_iff
  · rw [hrun, Repetition.loop_eq_iff]
    refine ⟨?_, ?_⟩
    · rintro ⟨values, t, m₁, hattempts, ⟨-, hends⟩ | ⟨heq, -⟩⟩
      · exact ⟨values, t, m₁, hattempts, hends⟩
      · have hlt := hattempts.length_lt hp henv rfl hm hfuel hmost
        omega
    · rintro ⟨values, t, m₁, hattempts, hends⟩
      -- With so much fuel no row is as long as the fuel.
      have hlt := hattempts.length_lt hp henv rfl hm hfuel hmost
      exact ⟨values, t, m₁, hattempts, .inl ⟨hlt, hends⟩⟩
  · exact Repetition.loop_bounds (hrun.symm.trans h)
  · obtain ⟨values, -, hatLeast, hatMost⟩ := Repetition.loop_bounds (hrun.symm.trans h)
    have hle : (values.length : Int) ≤ bounds.atMost := hatMost hmost
    exact absurd (Int.le_trans hatLeast hle) (Int.not_le.2 hlt)
  · exact congrFun (Repetition.loop_of_atLeast_neg (r := r) hleast n s []) m
  · obtain ⟨fuel, rfl⟩ : ∃ k, n = k + 1 := ⟨n - 1, by omega⟩
    exact hrun.trans (Repetition.loop_of_atMost_neg hmost fuel s m)

/-- Two of three groups, as the upper bound says; the third is neither asked for nor read. -/
theorem many_greedy_groups :
    Sample.group.Plain ∧ Env.Plain ⟨[], []⟩ ∧ Sample.cells.Plain ∧
    ∃ s' m', (many Sample.group ⟨1, 2⟩ (some (.condition fun t => .ok (t.head? == some '(')))).eval
        ⟨[], []⟩ 20 (State.start "(ab)(c d)(e)".toList) ⟨Sample.cells, []⟩ = .ok (some s') m' ∧
      s'.pos = 9 ∧
      ∃ values t m₁,
        Repetition.Attempts ⟨Sample.group.eval ⟨[], []⟩ 20, ⟨1, 2⟩,
          some (.condition fun t => .ok (t.head? == some '(')), .none⟩
          0 (State.start "(ab)(c d)(e)".toList) ⟨Sample.cells, []⟩ values t m₁ ∧
        Repetition.Ends ⟨Sample.group.eval ⟨[], []⟩ 20, ⟨1, 2⟩,
          some (.condition fun t => .ok (t.head? == some '(')), .none⟩
          values t m₁ (.ok (some s') m') := by
  have hreached : (Run.matched? ((many Sample.group ⟨1, 2⟩
      (some (.condition fun t => .ok (t.head? == some '(')))).eval ⟨[], []⟩ 20
      (State.start "(ab)(c d)(e)".toList) ⟨Sample.cells, []⟩)).map State.pos = some 9 := by
    decide +kernel
  obtain ⟨s', hs', hpos⟩ := Option.map_eq_some_iff.1 hreached
  obtain ⟨m', h⟩ := Run.matched?_eq_some hs'
  obtain ⟨-, hgreedy, -⟩ := many_greedy Sample.group_plain Sample.env_plain
    (m := ⟨Sample.cells, []⟩) Sample.cells_plain (State.start "(ab)(c d)(e)".toList) ⟨1, 2⟩
    (some (.condition fun t => .ok (t.head? == some '('))) 20
  exact ⟨Sample.group_plain, Sample.env_plain, Sample.cells_plain, s', m', h, hpos,
    (hgreedy (by decide) (by decide) _).1 h⟩

end Parser
end Descent

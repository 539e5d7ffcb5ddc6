/-
  Descent.Proofs.Loop.Turn

  The turns of a repetition.  What a turn comes to depends on the place and on nothing else,
  where a parser comes to the same in all memories that a run can leave (`Run.Settled`); so a
  repetition iterates a function of states, up to a number of times (`Turn.upTo`) or until a
  turn does not go on (`Turn.toEnd`).  The first of them adds up as iteration does
  (`Turn.upTo_add`), since a turn that has not gone on will not do so when it is tried again.
  The second goes on from wherever the first has led (`Turn.Forward.toEnd_eq`), although it
  alone minds a turn that takes nothing: the first makes such a turn again and again, and
  never leaves its place.
-/
import Descent.Proofs.Loop.Greedy
import Descent.Proofs.Loop.Segments

namespace Descent

/-! ## Settled runs -/

namespace Run

variable {α β : Type} {inv : Memory → Prop}

/-- The run comes to the same from all memories of a kind, and leaves such a memory unless it
    ends early. -/
structure Settled (inv : Memory → Prop) (x : Run α) : Prop where
  same : ∀ {m m'}, inv m → inv m' → outcome (x m) = outcome (x m')
  keeps : ∀ {m a m'}, inv m → x m = .ok a m' → inv m'

namespace Settled

variable {x : Run α} {f : α → Run β}

theorem pure (a : α) : Settled inv (pure a : Run α) where
  same _ _ := rfl
  keeps hm h := by
    cases h
    exact hm

theorem throw (e : Stop) : Settled inv (throw e : Run α) where
  same _ _ := rfl
  keeps _ h := by cases h

/-- Settled runs in a row: the memory from which the second starts makes no difference. -/
theorem outcome_bind (hx : Settled inv x) (hf : ∀ m a m₁, x m = .ok a m₁ → Settled inv (f a))
    {m m' : Memory} (hm : inv m) (hm' : inv m') :
    outcome ((x >>= f) m) = outcome (x m') >>= fun a => outcome (f a m') := by
  rw [← hx.same hm hm']
  cases h : x m with
  | ok a m₁ =>
    rw [bind_of_ok h]
    exact (hf m a m₁ h).same (hx.keeps hm h) hm'
  | error e m₁ =>
    rw [bind_of_error h]
    rfl

end Settled

/-- That a run is settled.  If memories of the kind are known by their delayed parts, a
    callback may write any entries. -/
def settling (inv : Memory → Prop) : Congruence where
  Runs x _ := Settled inv x
  entry _ := ∀ m m', m.cells = m'.cells → inv m → inv m'
  result := .pure
  chain hx hf :=
    { same := fun hm hm' =>
        (hx.outcome_bind hf hm hm').trans (hx.outcome_bind hf hm' hm').symm
      keeps := fun hm h => by
        obtain ⟨a, m₁, hfirst, hrest⟩ := exists_of_bind h
        exact (hf _ a m₁ hfirst).keeps (hx.keeps hm hfirst) hrest }
  note hinv :=
    { same := fun _ _ => rfl
      keeps := fun {m _ _} hm h => by
        cases h
        exact hinv m _ rfl hm }
  raised _ := ⟨fun _ _ => rfl, fun _ h => nomatch h⟩
  rejected e _ := .throw (.fault (.grammar e))

namespace Settled

theorem bind (hx : Settled inv x) (hf : ∀ a, Settled inv (f a)) : Settled inv (x >>= f) :=
  (settling inv).chain (y := x) (g := f) hx fun _ a _ _ => hf a

end Settled

end Run

/-! ## Turns of a repetition -/

namespace Repetition

open Run

variable (r : Repetition)

/-- One turn of a repetition, but for its bounds.  There is no next state at the end of the
    text, where the condition fails, and where the attempt does not match. -/
def turn (s : State) : Run (Option State) := do
  if s.atEnd then pure none
  else if ← Action.wantsMore r.condition s then r.attempt s
  else pure none

/-- The repetition comes upon an attempt that matches and takes nothing. -/
inductive Stalls : State → Memory → Prop
  | here {s m next m'} : r.turn s m = .ok (some next) m' → next.pos = s.pos → Stalls s m
  | later {s m next m'} : r.turn s m = .ok (some next) m' → Stalls next m' → Stalls s m

variable {r}

/-- A turn goes on by an attempt that is wanted and matches. -/
theorem turn_eq_some {s next : State} {m' : Memory} (h : r.turn s m = .ok (some next) m') :
    s.pos < s.text.length ∧ ∃ m₁, Action.wantsMore r.condition s m = .ok true m₁ ∧
      r.attempt s m₁ = .ok (some next) m' := by
  unfold turn at h
  split at h
  · cases h
  · next hend =>
    rw [s.atEnd_iff, Nat.not_le] at hend
    obtain ⟨wanted, m₁, hask, hrest⟩ := exists_of_bind h
    cases wanted with
    | false => cases hrest
    | true => exact ⟨hend, m₁, hask, hrest⟩

/-- The loop makes a turn unless the upper bound is reached, and looks at what came of it. -/
theorem loop_turn (fuel : Nat) (s : State) (behind : List Value) :
    r.loop (fuel + 1) s behind = if r.bounds.reached behind.length then pure (r.result s behind)
      else r.turn s >>= fun o => match o with
        | none => pure (r.result s behind)
        | some next =>
          if r.bounds.unlimited && next.pos == s.pos then reject .manyStalled
          else r.loop fuel next (behind ++ [next.value]) := by
  funext m
  cases hreached : r.bounds.reached behind.length with
  | true =>
    have hclosed : ¬ r.Open behind.length s := by
      rw [open_iff, hreached, Bool.or_true]
      exact Bool.noConfusion
    rw [loop_closed hclosed]
    rfl
  | false =>
    rw [if_neg Bool.false_ne_true, turn]
    cases hend : s.atEnd with
    | true =>
      -- At the end of the text a turn leads nowhere, and the loop asks nothing.
      have hclosed : ¬ r.Open behind.length s := by
        rw [open_iff, hend, Bool.true_or]
        exact Bool.noConfusion
      rw [loop_closed hclosed]
      rfl
    | false =>
      have hopen : r.Open behind.length s := by rw [open_iff, hend, hreached]; rfl
      rw [if_neg Bool.false_ne_true, bind_assoc]
      cases hask : Action.wantsMore r.condition s m with
      | error e m₁ => rw [loop_refused hopen hask, bind_of_error hask]
      | ok wanted m₁ =>
        rw [bind_of_ok hask]
        cases wanted with
        | false => exact loop_unwanted hopen hask
        | true => exact loop_wanted ⟨hopen, hask⟩

section Unlimited

variable (hmost : r.bounds.atMost = 0) {s next : State} {m m' : Memory} {fuel : Nat}
  {behind : List Value}

include hmost

/-- Without an upper bound the loop goes on after every turn that does. -/
theorem loop_turn_unlimited : r.loop (fuel + 1) s behind = r.turn s >>= fun o => match o with
    | none => pure (r.result s behind)
    | some next =>
      if next.pos == s.pos then reject .manyStalled
      else r.loop fuel next (behind ++ [next.value]) := by
  rw [loop_turn]
  simp [Bounds.reached, Bounds.unlimited, hmost]

theorem loop_of_turn_error {e : Stop} (h : r.turn s m = .error e m') :
    r.loop (fuel + 1) s behind m = .error e m' := by
  rw [loop_turn_unlimited hmost, bind_of_error h]

theorem loop_of_turn_none (h : r.turn s m = .ok none m') :
    r.loop (fuel + 1) s behind m = .ok (r.result s behind) m' := by
  rw [loop_turn_unlimited hmost, bind_of_ok h]
  rfl

theorem loop_of_turn_stalled (h : r.turn s m = .ok (some next) m') (hpos : next.pos = s.pos) :
    r.loop (fuel + 1) s behind m = .error (.fault (.grammar .manyStalled)) m' := by
  rw [loop_turn_unlimited hmost, bind_of_ok h]
  simp only [hpos, beq_self_eq_true, if_true]
  rfl

theorem loop_of_turn_some (h : r.turn s m = .ok (some next) m') (hpos : next.pos ≠ s.pos) :
    r.loop (fuel + 1) s behind m = r.loop fuel next (behind ++ [next.value]) m' := by
  rw [loop_turn_unlimited hmost, bind_of_ok h]
  simp only [beq_iff_eq, hpos, if_false]

end Unlimited

/-- Where a turn goes on, the repetition stalls by this turn or later. -/
theorem stalls_iff {s next : State} {m m' : Memory} (h : r.turn s m = .ok (some next) m') :
    r.Stalls s m ↔ next.pos = s.pos ∨ r.Stalls next m' := by
  constructor
  · intro hstalls
    cases hstalls with
    | here hturn hpos =>
      rw [h] at hturn
      cases hturn
      exact .inl hpos
    | later hturn hrest =>
      rw [h] at hturn
      cases hturn
      exact .inr hrest
  · rintro (hpos | hrest)
    · exact .here h hpos
    · exact .later h hrest

theorem stalls_iff_of_moved {s next : State} {m m' : Memory}
    (h : r.turn s m = .ok (some next) m') (hpos : next.pos ≠ s.pos) :
    r.Stalls s m ↔ r.Stalls next m' := (stalls_iff h).trans (or_iff_right hpos)

/-- Where a turn does not go on, the repetition does not stall. -/
theorem not_stalls {s : State} {m : Memory} (h : ∀ next m', r.turn s m ≠ .ok (some next) m') :
    ¬ r.Stalls s m := by
  intro hstalls
  cases hstalls with
  | here hturn => exact h _ _ hturn
  | later hturn => exact h _ _ hturn

section Settled

variable {inv : Memory → Prop} (hinv : ∀ m m', m.cells = m'.cells → inv m → inv m')
  (hr : ∀ s, Settled inv (r.element s))

include hinv hr

theorem turn_settled (s : State) : Settled inv (r.turn s) := by
  have hask : Settled inv (Action.wantsMore r.condition s) :=
    Congruence.Runs.wantsMore (C := settling inv) (fun _ _ _ _ _ => hinv) s
  unfold turn
  split
  · exact .pure none
  · refine hask.bind fun wanted => ?_
    cases wanted with
    | true => exact hr _
    | false => exact .pure none

theorem loop_settled (fuel : Nat) (s : State) (behind : List Value) :
    Settled inv (r.loop fuel s behind) := by
  induction fuel generalizing s behind with
  | zero => exact .throw _
  | succ fuel ih =>
    rw [loop_turn]
    split
    · exact .pure _
    · refine (turn_settled hinv hr s).bind fun o => ?_
      cases o with
      | none => exact .pure _
      | some next =>
        dsimp only
        split
        · exact .throw _
        · exact ih next _

end Settled

end Repetition

/-! ## Iteration -/

/-- What a turn comes to, as a function of the state. -/
abbrev Turn := State → Except Stop (Option State)

namespace Turn

/-- Where turns have led, and the values that they gave. -/
structure Row where
  state : State
  values : List Value

namespace Row

/-- The row with values of earlier turns before its own. -/
def behind (values : List Value) (row : Row) : Row := ⟨row.state, values ++ row.values⟩

/-- The state at the end of the row, with the list of the values. -/
def listed (row : Row) : State := row.state.withValue (.list row.values)

theorem behind_behind (xs ys : List Value) (row : Row) :
    (row.behind ys).behind xs = row.behind (xs ++ ys) := by
  rw [behind, behind, behind, List.append_assoc]

theorem behind_of_nil (values : List Value) (s : State) : behind values ⟨s, []⟩ = ⟨s, values⟩ := by
  rw [behind, List.append_nil]

end Row

/-- What a row of turns comes to as a repetition. -/
def listed (x : Except Stop Row) : Except Stop (Option State) := x.map fun row => some row.listed

/-- At most so many turns, as long as they go on. -/
def upTo (T : Turn) : Nat → State → Except Stop Row
  | 0, s => .ok ⟨s, []⟩
  | n + 1, s =>
    match T s with
    | .error e => .error e
    | .ok none => .ok ⟨s, []⟩
    | .ok (some next) => (T.upTo n next).map (Row.behind [next.value])

/-- Turns as long as they go on, each of which has to go somewhere. -/
def toEnd (T : Turn) : Nat → State → Except Stop Row
  | 0, _ => .error .exhausted
  | fuel + 1, s =>
    match T s with
    | .error e => .error e
    | .ok none => .ok ⟨s, []⟩
    | .ok (some next) =>
      if next.pos = s.pos then .error (.fault (.grammar .manyStalled))
      else (T.toEnd fuel next).map (Row.behind [next.value])

/-- The turns come upon one that takes nothing. -/
inductive Stalls (T : Turn) : State → Prop
  | here {s next} : T s = .ok (some next) → next.pos = s.pos → Stalls T s
  | later {s next} : T s = .ok (some next) → Stalls T next → Stalls T s

/-- What a turn comes to is a matter of the place, and a turn that goes on stays in its text and
    does not go back.  Beyond the end of the text there is none. -/
structure Forward (T : Turn) : Prop where
  withValue : ∀ s v, T (s.withValue v) = T s
  forward : ∀ {s next}, T s = .ok (some next) →
    next.text = s.text ∧ s.pos ≤ next.pos ∧ s.pos < s.text.length

variable {T : Turn} {s next : State}

theorem map_map_behind (xs ys : List Value) (x : Except Stop Row) :
    (x.map (Row.behind ys)).map (Row.behind xs) = x.map (Row.behind (xs ++ ys)) := by
  cases x with
  | error e => rfl
  | ok row => exact congrArg Except.ok (Row.behind_behind xs ys row)

theorem map_behind_nil (x : Except Stop Row) : x.map (Row.behind []) = x := by
  cases x <;> rfl

/-- Turns add up. -/
theorem upTo_add (T : Turn) (a b : Nat) (s : State) :
    T.upTo (a + b) s
      = T.upTo a s >>= fun row => (T.upTo b row.state).map (Row.behind row.values) := by
  induction a generalizing s with
  | zero =>
    rw [Nat.zero_add]
    exact (map_behind_nil _).symm
  | succ a ih =>
    rw [Nat.succ_add, upTo, upTo]
    cases hturn : T s with
    | error e => rfl
    | ok o =>
      cases o with
      | none =>
        -- The turn has not gone on, so neither does the first one of the second part.
        cases b with
        | zero => rfl
        | succ b =>
          show _ = (T.upTo (b + 1) s).map _
          rw [upTo, hturn]
          rfl
      | some next =>
        dsimp only
        rw [ih]
        cases T.upTo a next with
        | error e => rfl
        | ok row => exact map_map_behind _ _ _

namespace Forward

variable (hT : T.Forward)

include hT

/-- A turn that takes nothing is made again. -/
theorem turn_again (h : T s = .ok (some next)) (hpos : next.pos = s.pos) : T next = T s := by
  have hplace : next = s.withValue next.value := State.ext (hT.forward h).1 hpos rfl
  rw [hplace, hT.withValue]

theorem length_rest_le (h : T s = .ok (some next)) : next.rest.length ≤ s.rest.length := by
  obtain ⟨htext, hle, -⟩ := hT.forward h
  rw [next.rest_eq, s.rest_eq, List.length_drop, List.length_drop, htext]
  omega

theorem length_rest_lt (h : T s = .ok (some next)) (hpos : next.pos ≠ s.pos) :
    next.rest.length < s.rest.length := by
  obtain ⟨htext, hle, hlt⟩ := hT.forward h
  rw [next.rest_eq, s.rest_eq, List.length_drop, List.length_drop, htext]
  omega

/-- Fuel for what lies ahead is enough. -/
theorem toEnd_fuel {n n' : Nat} (hn : s.rest.length < n) (hn' : s.rest.length < n') :
    T.toEnd n s = T.toEnd n' s := by
  induction n generalizing s n' with
  | zero => exact absurd hn (Nat.not_lt_zero _)
  | succ n ih =>
    obtain ⟨n', rfl⟩ : ∃ k, n' = k + 1 := ⟨n' - 1, by omega⟩
    rw [toEnd, toEnd]
    cases hturn : T s with
    | error e => rfl
    | ok o =>
      cases o with
      | none => rfl
      | some next =>
        dsimp only
        split
        · rfl
        · next hpos =>
          have hlt := hT.length_rest_lt hturn hpos
          have hrest : T.toEnd n next = T.toEnd n' next := ih (by omega) (by omega)
          rw [hrest]

/-- Turns to the end go on from wherever some of them have led. -/
theorem toEnd_eq (a : Nat) {n n' : Nat} (hn : s.rest.length < n) (hn' : s.rest.length < n') :
    T.toEnd n s
      = T.upTo a s >>= fun row => (T.toEnd n' row.state).map (Row.behind row.values) := by
  -- On the first turns.  The fuels differ, for each side has its own to be enough for.
  induction a generalizing s n with
  | zero =>
    rw [hT.toEnd_fuel hn hn']
    exact (map_behind_nil _).symm
  | succ a ih =>
    obtain ⟨n, rfl⟩ : ∃ k, n = k + 1 := ⟨n - 1, by omega⟩
    obtain ⟨k', rfl⟩ : ∃ k, n' = k + 1 := ⟨n' - 1, by omega⟩
    rw [upTo]
    cases hturn : T s with
    | error e =>
      rw [toEnd, hturn]
      rfl
    | ok o =>
      cases o with
      | none =>
        show _ = (T.toEnd (k' + 1) s).map _
        rw [toEnd, toEnd, hturn]
        rfl
      | some next =>
        have hle := hT.length_rest_le hturn
        -- What the turns come to from `next`, with one more value before.
        have hrest : ∀ {k}, next.rest.length < k →
            (T.toEnd k next).map (Row.behind [next.value])
              = (T.upTo a next).map (Row.behind [next.value]) >>= fun row =>
                (T.toEnd (k' + 1) row.state).map (Row.behind row.values) := by
          intro k hk
          rw [ih hk (by omega)]
          cases T.upTo a next with
          | error e => rfl
          | ok row => exact map_map_behind _ _ _
        dsimp only
        by_cases hpos : next.pos = s.pos
        · -- The turn at `next` takes nothing either, so the turns from there stall as well.
          have hagain : T.toEnd (n + 1) next = .error (.fault (.grammar .manyStalled)) := by
            rw [toEnd, hT.turn_again hturn hpos, hturn]
            dsimp only
            rw [if_pos rfl]
          rw [← hrest (k := n + 1) (by omega), hagain, toEnd, hturn]
          dsimp only
          rw [if_pos hpos]
          rfl
        · have hlt := hT.length_rest_lt hturn hpos
          rw [← hrest (k := n) (by omega), toEnd, hturn]
          dsimp only
          rw [if_neg hpos]

end Forward

/-- An element that takes nothing is found again wherever the turns lead. -/
theorem Stalls.exists_next (h : T.Stalls s) (hT : T.Forward) :
    ∃ next, T s = .ok (some next) ∧ T.Stalls next := by
  cases h with
  | @here _ next hturn hpos =>
    have hagain : T next = .ok (some next) := (hT.turn_again hturn hpos).trans hturn
    exact ⟨next, hturn, .here hagain rfl⟩
  | later hturn hrest => exact ⟨_, hturn, hrest⟩

/-- Up to a number of times such turns all go on, and they lead to such a turn again. -/
theorem Stalls.upTo (h : T.Stalls s) (hT : T.Forward) (n : Nat) :
    ∃ row, T.upTo n s = .ok row ∧ T.Stalls row.state := by
  induction n generalizing s with
  | zero => exact ⟨⟨s, []⟩, rfl, h⟩
  | succ n ih =>
    obtain ⟨next, hturn, hnext⟩ := h.exists_next hT
    obtain ⟨row, hrow, hstalls⟩ := ih hnext
    refine ⟨row.behind [next.value], ?_, hstalls⟩
    rw [Turn.upTo, hturn]
    dsimp only
    rw [hrow]
    rfl

/-- Without a bound on their number they come to a fault. -/
theorem Stalls.toEnd (h : T.Stalls s) (hT : T.Forward) {n : Nat} (hn : s.rest.length < n) :
    T.toEnd n s = .error (.fault (.grammar .manyStalled)) := by
  induction h generalizing n with
  | @here s next hturn hpos =>
    obtain ⟨n, rfl⟩ : ∃ k, n = k + 1 := ⟨n - 1, by omega⟩
    rw [Turn.toEnd, hturn]
    dsimp only
    rw [if_pos hpos]
  | @later s next hturn _ ih =>
    obtain ⟨n, rfl⟩ : ∃ k, n = k + 1 := ⟨n - 1, by omega⟩
    rw [Turn.toEnd, hturn]
    dsimp only
    split
    · rfl
    · next hpos =>
      have hlt := hT.length_rest_lt hturn hpos
      rw [ih (n := n) (by omega)]
      rfl

/-- Turns up to a number of times, or to the end if that is zero. -/
def times (T : Turn) (n k : Nat) (s : State) : Except Stop Row :=
  if k = 0 then T.toEnd n s else T.upTo k s

/-- The value in the state at which turns start has no part in what they come to. -/
theorem times_withValue (hT : T.Forward) (n k : Nat) (s : State) (v : Value) :
    listed (T.times n k (s.withValue v)) = listed (T.times n k s) := by
  unfold times
  split
  · cases n with
    | zero => rfl
    | succ n =>
      rw [toEnd, toEnd, hT.withValue]
      cases T s with
      | error e => rfl
      | ok o => cases o <;> rfl
  · cases k with
    | zero => rfl
    | succ k =>
      rw [upTo, upTo, hT.withValue]
      cases T s with
      | error e => rfl
      | ok o => cases o <;> rfl

/-- Some turns, and then some more or all that there are. -/
theorem times_add (hT : T.Forward) (a b : Nat) {n : Nat} (ha : 0 < a) (hn : s.rest.length < n) :
    T.times n (if b = 0 then 0 else a + b) s
      = T.upTo a s >>= fun row => (T.times n b row.state).map (Row.behind row.values) := by
  unfold times
  by_cases hb : b = 0
  · simp only [if_pos hb, if_true]
    exact hT.toEnd_eq a hn hn
  · have hab : ¬ a + b = 0 := by omega
    simp only [if_neg hb, if_neg hab]
    exact upTo_add T a b s

end Turn

end Descent

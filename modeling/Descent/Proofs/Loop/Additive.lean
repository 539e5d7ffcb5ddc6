/-
  Descent.Proofs.Loop.Additive

  A repetition in two parts.  In a session the attempts of a repetition are settled, so that it
  is an iteration of its turns, in the memory in which it starts (`outcome_loop_times`).  Then
  the laws of turns are laws of repetitions (`Session.many_additive`): one bounded repetition
  and another from where the first has ended come to what the whole does, for whatever reason
  each of them ends.
-/
import Descent.Proofs.Lazy.Outcome
import Descent.Proofs.Loop.Turn

namespace Descent

namespace Repetition

open Run

variable {r : Repetition} {inv : Memory → Prop}
  (hinv : ∀ m m', m.cells = m'.cells → inv m → inv m') (hr : ∀ s, Settled inv (r.element s))
  {m : Memory} (hm : inv m)

/-- What the turns come to in a memory. -/
def turnIn (r : Repetition) (m : Memory) : Turn := fun s => outcome (r.turn s m)

theorem result_of_atLeast (hleast : r.bounds.atLeast = 0) (s : State) (values : List Value) :
    r.result s values = some (Turn.Row.listed ⟨s, values⟩) := by
  rw [result, if_neg (fun h => h.1 hleast), State.make_place]
  rfl

include hinv hr hm

/-- A turn of the loop, as a function of the state. -/
theorem outcome_loop (fuel : Nat) (s : State) (behind : List Value) :
    outcome (r.loop (fuel + 1) s behind m)
      = if r.bounds.reached behind.length then .ok (r.result s behind)
        else match r.turnIn m s with
          | .error e => .error e
          | .ok none => .ok (r.result s behind)
          | .ok (some next) =>
            if r.bounds.unlimited && next.pos == s.pos then
              .error (.fault (.grammar .manyStalled))
            else outcome (r.loop fuel next (behind ++ [next.value]) m) := by
  rw [loop_turn]
  split
  · rfl
  · rw [Settled.outcome_bind (turn_settled hinv hr s) _ hm hm, turnIn]
    · cases outcome (r.turn s m) with
      | error e => rfl
      | ok o =>
        cases o with
        | none => rfl
        | some next =>
          dsimp only
          show outcome ((if _ then _ else _ : Run _) m) = _
          split <;> rfl
    · -- What follows the turn is settled too, so the memory that the turn leaves does not count.
      intro _ o _ _
      cases o with
      | none => exact .pure _
      | some next =>
        dsimp only
        split
        · exact .throw _
        · exact loop_settled hinv hr fuel next _

/-- With an upper bound, a repetition makes turns up to that number. -/
theorem outcome_loop_upTo (hleast : r.bounds.atLeast = 0) (n : Nat) {fuel : Nat} (hn : n < fuel)
    (s : State) (behind : List Value) (hmost : r.bounds.atMost = (behind.length + n : Nat))
    (hbound : 0 < behind.length + n) :
    outcome (r.loop fuel s behind m)
      = Turn.listed (((r.turnIn m).upTo n s).map (Turn.Row.behind behind)) := by
  -- On the turns that are left: with those behind they make up the bound.
  induction n generalizing fuel s behind with
  | zero =>
    obtain ⟨fuel, rfl⟩ : ∃ k, fuel = k + 1 := ⟨fuel - 1, by omega⟩
    have hreached : r.bounds.reached behind.length = true := by
      simp only [Bounds.reached, hmost, Bool.and_eq_true, bne_iff_ne, decide_eq_true_iff]
      omega
    rw [outcome_loop hinv hr hm, if_pos hreached, result_of_atLeast hleast, Turn.upTo,
      ← Turn.Row.behind_of_nil]
    rfl
  | succ n ih =>
    obtain ⟨fuel, rfl⟩ : ∃ k, fuel = k + 1 := ⟨fuel - 1, by omega⟩
    have hopen : ¬ r.bounds.reached behind.length = true := by
      simp only [Bounds.reached, hmost, Bool.and_eq_true, bne_iff_ne, decide_eq_true_iff]
      omega
    have hlimited : r.bounds.unlimited = false := by
      rw [Bounds.unlimited, hmost, beq_eq_false_iff_ne]
      omega
    rw [outcome_loop hinv hr hm, if_neg hopen, hlimited, result_of_atLeast hleast, Turn.upTo,
      ← Turn.Row.behind_of_nil]
    cases r.turnIn m s with
    | error e => rfl
    | ok o =>
      cases o with
      | none => rfl
      | some next =>
        have hcount : behind.length + (n + 1) = (behind ++ [next.value]).length + n := by
          rw [List.length_append, List.length_singleton]
          omega
        have hrest := ih (by omega : n < fuel) next (behind ++ [next.value])
          (by rw [hmost, hcount]) (by omega)
        exact hrest.trans (congrArg Turn.listed (Turn.map_map_behind _ _ _).symm)

/-- Without one, it makes turns to the end. -/
theorem outcome_loop_toEnd (hleast : r.bounds.atLeast = 0) (hmost : r.bounds.atMost = 0)
    (fuel : Nat) (s : State) (behind : List Value) :
    outcome (r.loop fuel s behind m)
      = Turn.listed (((r.turnIn m).toEnd fuel s).map (Turn.Row.behind behind)) := by
  induction fuel generalizing s behind with
  | zero => rfl
  | succ fuel ih =>
    have hopen : ¬ r.bounds.reached behind.length = true := by simp [Bounds.reached, hmost]
    have hunlimited : r.bounds.unlimited = true := by simp [Bounds.unlimited, hmost]
    rw [outcome_loop hinv hr hm, if_neg hopen, hunlimited, result_of_atLeast hleast, Turn.toEnd,
      ← Turn.Row.behind_of_nil]
    cases r.turnIn m s with
    | error e => rfl
    | ok o =>
      cases o with
      | none => rfl
      | some next =>
        simp only [Bool.true_and, beq_iff_eq]
        split
        · rfl
        · exact (ih next _).trans (congrArg Turn.listed (Turn.map_map_behind _ _ _).symm)

/-- A stall in the memory of the run is one of the turns alone. -/
theorem Stalls.turns {s : State} {m' : Memory} (h : r.Stalls s m') (hm' : inv m') :
    (r.turnIn m).Stalls s := by
  have hsame : ∀ {s next m₁ m₂}, inv m₁ → r.turn s m₁ = .ok (some next) m₂ →
      r.turnIn m s = .ok (some next) := by
    intro s next m₁ m₂ hm₁ hturn
    rw [turnIn, (turn_settled hinv hr s).same hm hm₁, hturn]
    rfl
  induction h with
  | here hturn hpos => exact .here (hsame hm' hturn) hpos
  | later hturn _ ih =>
    exact .later (hsame hm' hturn) (ih ((turn_settled hinv hr _).keeps hm' hturn))

/-- A repetition within an upper bound, or without one, as a row of turns. -/
theorem outcome_loop_times (hleast : r.bounds.atLeast = 0) {k n : Nat}
    (hmost : r.bounds.atMost = k) (hk : k < n) (s : State) :
    outcome (r.loop n s [] m) = Turn.listed ((r.turnIn m).times n k s) := by
  rw [← Turn.map_behind_nil ((r.turnIn m).times n k s), Turn.times]
  by_cases hzero : k = 0
  · rw [if_pos hzero]
    exact outcome_loop_toEnd hinv hr hm hleast (by omega) n s []
  · rw [if_neg hzero]
    refine outcome_loop_upTo hinv hr hm hleast k hk s [] ?_ ?_
    · rw [hmost, List.length_nil, Nat.zero_add]
    · rw [List.length_nil]
      omega

omit hinv hr hm

/-- The turns of a plain parser go forward. -/
theorem turnIn_forward {p : Parser Ref} (hp : p.Plain) {env : Env} (henv : env.Plain) {n : Nat}
    (helement : r.element = p.eval env n) (hcells : m.cells.Plain) : (r.turnIn m).Forward where
  withValue _ _ := rfl
  forward := by
    intro s next h
    obtain ⟨m', hturn⟩ := outcome_eq_ok_iff.1 h
    obtain ⟨hlt, m₁, hask, hattempt⟩ := turn_eq_some hturn
    rw [attempt, helement] at hattempt
    have hcells₁ : m₁.cells.Plain := by rw [wantsMore_cells hask]; exact hcells
    have hwithin : (State.make s.text s.pos r.carried).Within s.text s.pos :=
      ⟨rfl, Nat.le_refl _, Nat.le_of_lt hlt⟩
    obtain ⟨hnext, -⟩ := Parser.eval_within hp henv hcells₁ hwithin hattempt
    exact ⟨hnext.text, hnext.low, hlt⟩

/-- One repetition in two: what the first part comes to, what the second comes to from where
    the first has ended, and what the whole comes to.  Neither part fails to match. -/
inductive InTwo (first : Except Stop (Option State))
    (second : State → Except Stop (Option State)) : Except Stop (Option State) → Prop
  | first {e} : first = .error e → InTwo first second (.error e)
  | second {t xs e} : first = .ok (some t) → t.value = .list xs → second t = .error e →
      InTwo first second (.error e)
  | both {t xs u ys} : first = .ok (some t) → t.value = .list xs →
      second t = .ok (some u) → u.value = .list ys →
      InTwo first second (.ok (some (u.withValue (.list (xs ++ ys)))))

/-- Rows of turns in a row are one repetition in two. -/
theorem inTwo_bind (x : Except Stop Turn.Row) (f : State → Except Stop Turn.Row)
    {second : State → Except Stop (Option State)}
    (hsecond : ∀ row : Turn.Row, second row.listed = Turn.listed (f row.state)) :
    InTwo (Turn.listed x) second
      (Turn.listed (x >>= fun row => (f row.state).map (Turn.Row.behind row.values))) := by
  cases x with
  | error e => exact .first rfl
  | ok row =>
    have hrest := hsecond row
    show InTwo _ _ (Turn.listed ((f row.state).map (Turn.Row.behind row.values)))
    generalize f row.state = y at hrest
    cases y with
    | error e => exact .second rfl rfl hrest
    | ok rest => exact .both (u := rest.listed) rfl rfl hrest rfl

/-- A fault behind a first part that matches is one of the second. -/
theorem InTwo.second_eq {first : Except Stop (Option State)}
    {second : State → Except Stop (Option State)} {t : State} {e : Stop}
    (h : InTwo first second (.error e)) (hfirst : first = .ok (some t)) :
    second t = .error e := by
  cases h with
  | first herror =>
    rw [hfirst] at herror
    cases herror
  | second ht _ hsecond =>
    rw [hfirst] at ht
    cases ht
    exact hsecond

end Repetition

/-! ## In a session -/

namespace Session

open Run

variable {σ : Session} {bound : Nat} {p : Parser Ref}

/-- What a parser comes to in the session, followed to a depth of `n` links. -/
def comesTo (σ : Session) (n : Nat) (p : Parser Ref) (s : State) : Except Stop (Option State) :=
  Run.outcome (p.eval σ.env n s ⟨σ.cells, []⟩)

/-- A repetition of a parser within an upper bound, or without one if that is zero. -/
def upTo (σ : Session) (n : Nat) (p : Parser Ref) (condition : Option (Callback Text Bool))
    (k : Nat) (s : State) : Except Stop (Option State) :=
  σ.comesTo n (.many p ⟨0, k⟩ condition) s

theorem Later.of_cells {hσ : σ.Over (fun _ => True) bound} {m m' : Memory}
    (h : m.cells = m'.cells) (hm : Later hσ m) : Later hσ m' :=
  ⟨hm.holds.of_cells h, h ▸ hm.plain⟩

/-- A plain parser comes to the same in all memories that runs of the session can leave. -/
theorem settled_eval (hσ : σ.Over (fun _ => True) bound) (hplain : σ.Plain) (hp : σ.Has p)
    (n : Nat) (s : State) : Settled (Later hσ) (p.eval σ.env n s) where
  same hm hm' := (hσ.settled hp.scope n s).same hm.holds hm'.holds
  keeps hm h := hm.eval_ok hplain hp h

/-- The turns of a repetition in the session. -/
def turns (σ : Session) (n : Nat) (p : Parser Ref) (condition : Option (Callback Text Bool))
    (carried : Value) : Turn :=
  Repetition.turnIn ⟨p.eval σ.env n, {}, condition, carried⟩ ⟨σ.cells, []⟩

section Turns

variable (hσ : σ.Over (fun _ => True) bound) (hplain : σ.Plain) (hp : σ.Has p)
  (condition : Option (Callback Text Bool)) {n : Nat}

include hplain hp in
theorem turns_forward (v : Value) : (σ.turns n p condition v).Forward :=
  Repetition.turnIn_forward hp.plain hplain.env rfl hplain.cells

include hσ hplain hp

/-- The bounds do not matter for a turn: a repetition makes its turns within whatever bound. -/
theorem upTo_eq_listed {k : Nat} (hk : k < n) (s : State) :
    σ.upTo n p condition k s = Turn.listed ((σ.turns n p condition s.value).times n k s) :=
  Repetition.outcome_loop_times (r := ⟨p.eval σ.env n, ⟨0, k⟩, condition, s.value⟩)
    (fun _ _ => Later.of_cells) (settled_eval hσ hplain hp n) hplain.later rfl rfl hk s

/-- It is the same from the end of a row, with the value that was carried into the first turn. -/
theorem upTo_row {k : Nat} (hk : k < n) (v : Value) (row : Turn.Row) :
    σ.upTo n p condition k (State.make row.listed.text row.listed.pos v)
      = Turn.listed ((σ.turns n p condition v).times n k row.state) := by
  have hplace : State.make row.listed.text row.listed.pos v = row.state.withValue v :=
    State.make_place row.listed v
  rw [hplace, upTo_eq_listed hσ hplain hp condition hk,
    ← Turn.times_withValue (turns_forward hplain hp condition v) n k row.state v]
  rfl

theorem stalls_turns {s : State}
    (h : Repetition.Stalls ⟨p.eval σ.env n, {}, condition, s.value⟩ s ⟨σ.cells, []⟩) :
    (σ.turns n p condition s.value).Stalls s :=
  have hlater : Later hσ ⟨σ.cells, []⟩ := hplain.later
  h.turns (fun _ _ => Later.of_cells) (settled_eval hσ hplain hp n) hlater hlater

end Turns

/-- Bounded repetition splits additively.  A repetition up to `a + b` times is one up to `a`
    times and then, from where that has ended and with the value carried into the whole, one up
    to `b` times: it comes to a fault exactly where one of them does, and to the same, and
    otherwise to the place where the second has ended, with the values of both in a row.  So it
    is without an upper bound, that is with `b` and the sum being zero.  Where the repetition
    comes upon an element that takes nothing, both sides come to the fault of a repetition that
    stalls if `b` is zero, and if it is not, both match.  The depth `n` is enough for what lies
    ahead and for the bounds, so that the loops themselves never run out of it. -/
theorem many_additive (hσ : σ.Over (fun _ => True) bound) (hplain : σ.Plain) (hp : σ.Has p)
    (condition : Option (Callback Text Bool)) {a : Nat} (ha : 0 < a) (b : Nat) (s : State)
    {n : Nat} (hn : s.rest.length + a + b < n) :
    let first := σ.upTo n p condition a s
    let second (t : State) := σ.upTo n p condition b (State.make t.text t.pos s.value)
    let whole := σ.upTo n p condition (if b = 0 then 0 else a + b) s
    Repetition.InTwo first second whole ∧
    (Repetition.Stalls ⟨p.eval σ.env n, {}, condition, s.value⟩ s ⟨σ.cells, []⟩ →
      ∃ t, first = .ok (some t) ∧
        if b = 0 then second t = .error (.fault (.grammar .manyStalled)) ∧
          whole = .error (.fault (.grammar .manyStalled))
        else ∃ u w, second t = .ok (some u) ∧ whole = .ok (some w)) := by
  intro first second whole
  -- All three are rows of the same turns, in the memory in which the whole starts.
  let T := σ.turns n p condition s.value
  have hT : T.Forward := turns_forward hplain hp condition s.value
  have hfirst : first = Turn.listed (T.upTo a s) := by
    have hbounded : T.times n a s = T.upTo a s := if_neg (Nat.ne_of_gt ha)
    rw [← hbounded]
    exact upTo_eq_listed hσ hplain hp condition (by omega) s
  have hsecond : ∀ row : Turn.Row, second row.listed = Turn.listed (T.times n b row.state) :=
    upTo_row hσ hplain hp condition (by omega) s.value
  have hwhole : whole = Turn.listed (T.times n (if b = 0 then 0 else a + b) s) := by
    refine upTo_eq_listed hσ hplain hp condition ?_ s
    split <;> omega
  have hsplit : Repetition.InTwo first second whole := by
    rw [hfirst, hwhole, Turn.times_add hT a b ha (by omega)]
    exact Repetition.inTwo_bind _ _ hsecond
  refine ⟨hsplit, fun hstalls => ?_⟩
  have hturns : T.Stalls s := stalls_turns hσ hplain hp condition hstalls
  -- The first part goes on to its bound, and from there the turns stall again.
  obtain ⟨row, hrow, hagain⟩ := hturns.upTo hT a
  have hreached : first = .ok (some row.listed) := by
    rw [hfirst, hrow]
    rfl
  refine ⟨row.listed, hreached, ?_⟩
  split
  · next hb =>
    have hend : whole = .error (.fault (.grammar .manyStalled)) := by
      rw [hwhole, if_pos hb, Turn.times, if_pos rfl, hturns.toEnd hT (by omega)]
      rfl
    rw [hend] at hsplit
    exact ⟨hsplit.second_eq hreached, hend⟩
  · next hb =>
    have hab : ¬ a + b = 0 := by omega
    obtain ⟨rest, hrest, -⟩ := hagain.upTo hT b
    obtain ⟨all, hall, -⟩ := hturns.upTo hT (a + b)
    refine ⟨rest.listed, all.listed, ?_, ?_⟩
    · rw [hsecond, Turn.times, if_neg hb, hrest]
      rfl
    · rw [hwhole, if_neg hb, Turn.times, if_neg hab, hall]
      rfl

end Session

namespace Sample

/-- A group, or nothing. -/
def perhaps : Parser Ref :=
  .orDefault (.seqInside (.bracketed '(' ')') (.link (.cell 0)) none) .none

theorem perhaps_has : session.Has perhaps where
  scope := .orDefault (.seqInside (.bracketed _ _) (.link (by decide)) _) _
  plain := .orDefault (.seqInside (.bracketed _ _) (.link trivial) _) _

end Sample

/-- Two groups and then nothing, three times of five, as one repetition in two.  Where no group
    lies ahead the unbounded repetition stalls. -/
theorem Session.many_additive_perhaps :
    Sample.session.Over (fun _ => True) 2 ∧ Sample.session.Plain ∧
    Sample.session.Has Sample.perhaps ∧
    (match Sample.session.upTo 20 Sample.perhaps none 5 (State.start "(a)((b))c".toList) with
      | .ok (some t) => (t.pos, t.value.asList?.map List.length)
      | _ => (0, none)) = (8, some 5) ∧
    Repetition.InTwo (Sample.session.upTo 20 Sample.perhaps none 3 (State.start "(a)((b))c".toList))
      (fun t => Sample.session.upTo 20 Sample.perhaps none 2 (State.make t.text t.pos .none))
      (Sample.session.upTo 20 Sample.perhaps none 5 (State.start "(a)((b))c".toList)) ∧
    Sample.session.upTo 20 Sample.perhaps none 0 (State.start "c".toList)
      = .error (.fault (.grammar .manyStalled)) := by
  have hsplit := Session.many_additive (Sample.session_over _) Sample.session_plain
    Sample.perhaps_has none (a := 3) (by decide) 2 (State.start "(a)((b))c".toList) (n := 20)
    (by decide)
  have hstop := Session.many_additive (Sample.session_over _) Sample.session_plain
    Sample.perhaps_has none (a := 3) (by decide) 0 (State.start "c".toList) (n := 20) (by decide)
  have hstalls : Repetition.Stalls ⟨Sample.perhaps.eval Sample.session.env 20, {}, none, .none⟩
      (State.start "c".toList) ⟨Sample.session.cells, []⟩ := .here rfl rfl
  obtain ⟨t, -, hend⟩ := hstop.2 hstalls
  exact ⟨Sample.session_over _, Sample.session_plain, Sample.perhaps_has, by decide +kernel,
    hsplit.1, hend.2⟩

end Descent

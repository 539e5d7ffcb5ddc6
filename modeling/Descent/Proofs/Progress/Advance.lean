/-
  Descent.Proofs.Progress.Advance

  Where actions end.  Of a match it is said that it is where the action was applied
  (`Stays`), there or further on (`Rises`), the same and in the text (`Forward`), or further
  on (`Advances`).  The lemmas come in the order of the combinators' definitions: a sequence
  advances if one side does and the other goes forward, a repetition if its element does and
  at least one result is asked for, and a scan always, if its element does not go back.
-/
import Descent.Proofs.Loop.Run
import Descent.Proofs.Forward

namespace Descent

open Run

namespace Action

/-! ## Ends -/

/-- A match is where the action was applied. -/
def Stays (a : Action) : Prop := ∀ s m t m', a s m = .ok (some t) m' → t.pos = s.pos

/-- From inside a text, a match is there or further on. -/
def Rises (a : Action) : Prop :=
  ∀ s m t m', s.pos ≤ s.text.length → a s m = .ok (some t) m' → s.pos ≤ t.pos

/-- From inside a text, a match is in the same text, there or further on, but not beyond the
    end. -/
def Forward (a : Action) : Prop :=
  ∀ s m t m', s.pos ≤ s.text.length → a s m = .ok (some t) m' → t.Within s.text s.pos

/-- From inside a text, a match is further on. -/
def Advances (a : Action) : Prop :=
  ∀ s m t m', s.pos ≤ s.text.length → a s m = .ok (some t) m' → s.pos < t.pos

variable {p q next : Action}

theorem Forward.rises (h : p.Forward) : p.Rises := fun s m t m' hs ht => (h s m t m' hs ht).low

/-! ## One after the other -/

/-- One side of a sequence must advance, and neither may go back. -/
theorem Advances.andThen (h : p.Advances ∨ next.Advances) (hp : p.Forward) (hnext : next.Rises) :
    (p.andThen next).Advances := by
  intro s m t m' hs hr
  obtain ⟨l, m₁, hl, ht⟩ := exists_of_andThen hr
  have hwithin := hp s m l m₁ hs hl
  have hin : l.pos ≤ l.text.length := hwithin.text ▸ hwithin.high
  have hlow : s.pos ≤ l.pos := hwithin.low
  have hlater : l.pos ≤ t.pos := hnext l m₁ t m' hin ht
  rcases h with h | h
  · exact Nat.lt_of_lt_of_le (h s m l m₁ hs hl) hlater
  · exact Nat.lt_of_le_of_lt hlow (h l m₁ t m' hin ht)

/-- What is done with a match may depend on where the parser was applied. -/
theorem Advances.andStay {k : State → Action} (hp : p.Advances) (hk : ∀ s, (k s).Stays) :
    Advances fun s => p.andThen (k s) s := by
  intro s m t m' hs h
  obtain ⟨l, m₁, hl, ht⟩ := exists_of_andThen h
  rw [hk s l m₁ t m' ht]
  exact hp s m l m₁ hs hl

theorem Rises.andStay {k : State → Action} (hp : p.Rises) (hk : ∀ s, (k s).Stays) :
    Rises fun s => p.andThen (k s) s := by
  intro s m t m' hs h
  obtain ⟨l, m₁, hl, ht⟩ := exists_of_andThen h
  rw [hk s l m₁ t m' ht]
  exact hp s m l m₁ hs hl

/-- So it is where something is done with the match in the end. -/
theorem Advances.andThenStay {k : State → Action} (h : p.Advances ∨ q.Advances) (hp : p.Forward)
    (hq : q.Rises) (hk : ∀ l, (k l).Stays) :
    (p.andThen fun l => q.andThen (k l) l).Advances :=
  .andThen (h.imp id fun h => h.andStay hk) hp (hq.andStay hk)

/-! ## Staying -/

theorem stays_withValue (f : State → Value) : Stays fun r => pure (some (r.withValue (f r))) := by
  intro s m t m' h
  cases h
  rfl

theorem stays_call (f : Callback Value Value) :
    Stays (fun r => do let v ← call f r.value; pure (some (r.withValue v))) := by
  intro s m t m' h
  obtain ⟨v, m₁, -, ht⟩ := exists_of_bind h
  cases ht
  rfl

theorem stays_merged (l : State) : Stays (fun r => do
    let older ← fieldsOf .left l.value
    let newer ← fieldsOf .right r.value
    pure (some (r.withValue (.fields (older.merge newer))))) := by
  intro s m t m' h
  obtain ⟨older, m₁, -, h⟩ := exists_of_bind h
  obtain ⟨newer, m₂, -, ht⟩ := exists_of_bind h
  cases ht
  rfl

/-- What a parser does inside of another's result moves nothing outside. -/
theorem stays_seqInside (q : Action) (key : Option String) : Stays (fun l => do
    let text ← innerText l.value key
    q.andThen (fun r => pure (some (l.withValue r.value))) (State.start text)) := by
  intro s m t m' h
  obtain ⟨text, m₁, -, h⟩ := exists_of_bind h
  obtain ⟨r, m₂, -, ht⟩ := exists_of_andThen h
  cases ht
  rfl

theorem stays_mergeInside (q : Action) (key : Option String) : Stays (fun l => do
    let text ← innerText l.value key
    q.andThen (fun r => do
      let older ← fieldsOf .left l.value
      let newer ← fieldsOf .right r.value
      pure (some (l.withValue (.fields (older.merge newer))))) (State.start text)) := by
  intro s m t m' h
  obtain ⟨text, m₁, -, h⟩ := exists_of_bind h
  obtain ⟨r, m₂, -, h⟩ := exists_of_andThen h
  obtain ⟨older, m₃, -, h⟩ := exists_of_bind h
  obtain ⟨newer, m₄, -, ht⟩ := exists_of_bind h
  cases ht
  rfl

/-! ## Leaves -/

theorem advances_satisfy (test : Callback Char Bool) : (satisfy test).Advances := by
  intro s m t m' _ h
  cases hrest : s.rest with
  | nil =>
    simp only [satisfy, hrest] at h
    cases h
  | cons c rest =>
    simp only [satisfy, hrest] at h
    obtain ⟨passed, m₁, -, h⟩ := exists_of_bind h
    cases passed with
    | true =>
      cases h
      exact Nat.lt_succ_self _
    | false => cases h

theorem advances_literal {text : Text} (htext : text ≠ []) : (literal text).Advances := by
  intro s m t m' _ h
  have hlen : 0 < text.length := List.length_pos_iff.2 htext
  unfold literal at h
  split at h
  · cases h
    exact Nat.lt_add_of_pos_right hlen
  · cases h

theorem advances_bracketed (left right : Char) : (bracketed left right).Advances := by
  intro s m t m' _ h
  unfold bracketed at h
  split at h
  · cases h
  · split at h
    · next c inside _ _ =>
      cases hclose : Text.closing? left right inside with
      | none =>
        rw [hclose] at h
        cases h
      | some n =>
        rw [hclose] at h
        cases h
        exact Nat.lt_add_of_pos_right (Nat.succ_pos n)
    · cases h

/-! ## Alternatives and single parts -/

theorem Advances.orElse (hp : p.Advances) (hq : q.Advances) : (p.orElse q).Advances := by
  intro s m t m' hs h
  obtain ⟨o, m₁, hr, h⟩ := exists_of_bind h
  cases o with
  | none => exact hq s m₁ t m' hs h
  | some r =>
    cases h
    exact hp s m t m' hs hr

theorem Advances.traced (hp : p.Advances) (label : String) : (p.traced label).Advances := by
  intro s m t m' hs h
  obtain ⟨_, m₁, -, h⟩ := exists_of_bind h
  obtain ⟨o, m₂, hr, h⟩ := exists_of_bind h
  cases o with
  | none =>
    obtain ⟨_, m₃, -, h⟩ := exists_of_bind h
    cases h
  | some r =>
    obtain ⟨_, m₃, -, h⟩ := exists_of_bind h
    cases h
    exact hp s m₁ t m₂ hs hr

/-! ## Loops -/

/-- A repetition of what advances ends where it stands or further on, and further on if it
    has too few results yet. -/
theorem Advances.repeatFrom (hp : p.Advances) (bounds : Bounds)
    (condition : Option (Callback Text Bool)) (carried : Value) (n : Nat) (s : State)
    (count : Nat) (values : List Value) (m : Memory) (t : State) (m' : Memory)
    (h : repeatFrom p bounds condition carried n s count values m = .ok (some t) m') :
    s.pos ≤ t.pos ∧ (bounds.lacking count = true → s.pos < t.pos) := by
  -- The end without a further attempt.
  have hend : ∀ (s : State) m (count : Nat) values,
      (pure (collected bounds s count values) : Run (Option State)) m = .ok (some t) m' →
      s.pos ≤ t.pos ∧ (bounds.lacking count = true → s.pos < t.pos) := by
    intro s m count values h
    unfold collected at h
    split at h
    · cases h
    · next henough =>
      cases h
      exact ⟨Nat.le_refl _, fun hlacking => absurd hlacking henough⟩
  -- Whatever the count, a turn that matches has moved on; later turns do not go back.
  induction n generalizing s count values m with
  | zero => cases h
  | succ n ih =>
    rw [Action.repeatFrom] at h
    split at h
    · exact hend _ _ _ _ h
    · next hopen =>
      have hin : s.pos ≤ s.text.length := by
        rw [Bool.or_eq_true, State.atEnd_iff] at hopen
        omega
      obtain ⟨wanted, m₁, -, h⟩ := exists_of_bind h
      cases wanted with
      | false => exact hend _ _ _ _ h
      | true =>
        obtain ⟨o, m₂, hr, h⟩ := exists_of_bind h
        cases o with
        | none => exact hend _ _ _ _ h
        | some next =>
          have hmore : s.pos < next.pos := hp (s.withValue carried) m₁ next m₂ hin hr
          dsimp only at h
          split at h
          · cases h
          · have hrest := (ih next _ _ _ h).1
            exact ⟨by omega, fun _ => by omega⟩

/-- A scan ends where it stands or further on, and further on if nothing is behind it: it has
    to find something, or to pass a character at which it finds nothing. -/
theorem Rises.scanFrom (hp : p.Rises) (ofRun : Callback Text Value)
    (condition : Callback Text Bool) (n : Nat) (s : State) (run : Text) (items : List Value)
    (m : Memory) (t : State) (m' : Memory)
    (h : scanFrom p ofRun condition n s run items m = .ok (some t) m') :
    s.pos ≤ t.pos ∧ (run = [] → items = [] → s.pos < t.pos) := by
  -- A scan that ends with nothing behind it does not match.
  have hend : ∀ (s : State) run items m, scanned ofRun s run items m = .ok (some t) m' →
      s.pos ≤ t.pos ∧ (run = [] → items = [] → s.pos < t.pos) := by
    intro s run items m h
    obtain ⟨all, m₁, hflush, h⟩ := exists_of_bind h
    split at h
    · cases h
    · next hsome =>
      cases h
      refine ⟨Nat.le_refl _, ?_⟩
      rintro rfl rfl
      cases hflush
      exact absurd rfl hsome
  induction n generalizing s run items m with
  | zero => cases h
  | succ n ih =>
    rw [Action.scanFrom] at h
    cases hrest : s.rest with
    | nil =>
      simp only [hrest] at h
      exact hend _ _ _ _ h
    | cons c rest =>
      simp only [hrest] at h
      have hin : s.pos ≤ s.text.length := by
        have hlen := congrArg List.length hrest
        rw [s.rest_eq, List.length_drop, List.length_cons] at hlen
        omega
      obtain ⟨holds, m₁, -, h⟩ := exists_of_bind h
      cases holds with
      | false => exact hend _ _ _ _ h
      | true =>
        obtain ⟨o, m₂, hr, h⟩ := exists_of_bind h
        cases o with
        | none =>
          have hlater := (ih _ _ _ _ h).1
          rw [State.advance_pos] at hlater
          exact ⟨by omega, fun _ _ => by omega⟩
        | some next =>
          have hlow : s.pos ≤ next.pos := hp (s.withValue .none) m₁ next m₂ hin hr
          dsimp only at h
          split at h
          · cases h
          · -- An element that does not go back and has not stalled has moved on.
            next hmoved =>
            rw [beq_iff_eq] at hmoved
            obtain ⟨all, m₃, -, h⟩ := exists_of_bind h
            have hlater := (ih _ _ _ _ h).1
            rw [State.moveTo_pos] at hlater
            exact ⟨by omega, fun _ _ => by omega⟩

theorem Advances.many (hp : p.Advances) {bounds : Bounds} (hbounds : 1 ≤ bounds.atLeast)
    (condition : Option (Callback Text Bool)) (n : Nat) :
    (p.many bounds condition n).Advances := by
  intro s m t m' _ h
  have hlacking : bounds.lacking 0 = true := by
    rw [Bounds.lacking, Bool.and_eq_true, bne_iff_ne, decide_eq_true_iff]
    omega
  exact (hp.repeatFrom bounds condition s.value n s 0 [] m t m' h).2 hlacking

theorem Rises.interleave (hp : p.Rises) (ofRun : Callback Text Value)
    (condition : Callback Text Bool) (n : Nat) : (p.interleave ofRun condition n).Advances :=
  fun s m t m' _ h => (hp.scanFrom ofRun condition n s [] [] m t m' h).2 rfl rfl

end Action

end Descent

/-
  Descent.Proofs.Loop.Tagged

  A scan is a repetition over tagged alternatives.  Where the element of a scan matches, a
  repetition of "the element, or else any character" takes it as well; where it does not, the
  repetition takes one character, and the scan lets one join its run.  So the two loops go
  through a text side by side, from one look at a place to the next (`Action.look`), and what
  has to be shown is that the flushes of the scan come where a maximal run of characters ends.
  `Segment.Beside` says how the entries of the repetition and the run and items of the scan
  are made of the segments behind them; every turn keeps it, and at the end nothing is left
  but to read it off (`Segment.Coalesced`).
-/
import Descent.Proofs.Loop.Fusion
import Descent.Proofs.Loop.Turn
import Descent.Proofs.Reading.Action

namespace Descent

/-- A value with a tag before it. -/
def Value.tagged (tag : String) (v : Value) : Value := .list [.str tag.toList, v]

/-- The element, or else any character, each with a tag that says which it was. -/
def Parser.tagged {σ : Type} (p : Parser σ) : Parser σ :=
  orElse (map p (.total (Value.tagged "element"))) (map anyChar (.total (Value.tagged "char")))

/-! ## Segments and their entries -/

namespace Segment

/-- The entries of the repetition that a segment stands for: one for each character of a run,
    and one for an item. -/
def tagged : Segment → List Value
  | run text => text.map fun c => Value.tagged "char" (.str [c])
  | item _ value => [Value.tagged "element" value]

/-- The segments cut a text as coarsely as can be: none of them is empty, and no run follows
    another. -/
structure Maximal (segments : List Segment) : Prop where
  ne_nil : ∀ segment ∈ segments, segment.text ≠ []
  isChain : segments.IsChain fun a b => ¬ (a.isRun = true ∧ b.isRun = true)

/-- A run that has not ended yet, its last character first, as a segment if there is one. -/
def growing (run : Text) : List Segment := if run.isEmpty then [] else [.run run.reverse]

theorem Maximal.nil : Maximal [] where
  ne_nil _ h := absurd h List.not_mem_nil
  isChain := .nil

/-- One more segment, which is not a run behind another one. -/
theorem Maximal.concat {segments : List Segment} {last : Segment} (h : Maximal segments)
    (hlast : last.text ≠ [])
    (hrun : ∀ segment ∈ segments.getLast?, ¬ (segment.isRun = true ∧ last.isRun = true)) :
    Maximal (segments ++ [last]) where
  ne_nil := List.forall_mem_append.2 ⟨h.ne_nil, List.forall_mem_singleton.2 hlast⟩
  isChain := by
    refine h.isChain.append (.singleton _) fun a ha b hb => ?_
    rw [List.head?_cons, Option.mem_some_iff] at hb
    rw [← hb]
    exact hrun a ha

/-- What is behind the two loops where they stand at one place, in a text that began like this.
    The segments before the run that still grows are over, and the last of them is no run. -/
structure Beside (convert : Text → Value) (whole : Text) (segments : List Segment) (run : Text)
    (behind items : List Value) (rest : Text) : Prop where
  maximal : Maximal segments
  settled : ∀ segment ∈ segments.getLast?, segment.isRun = false
  text_eq : whole = ((segments ++ growing run).map text).flatten ++ rest
  behind_eq : behind = (segments ++ growing run).flatMap tagged
  items_eq : items = (segments.map (entry convert)).reverse

theorem growing_text (run : Text) : ((growing run).map text).flatten = run.reverse := by
  cases run with
  | nil => rfl
  | cons c run => exact List.flatten_singleton

theorem growing_tagged (run : Text) :
    (growing run).flatMap tagged = run.reverse.map fun c => Value.tagged "char" (.str [c]) := by
  cases run with
  | nil => rfl
  | cons c run => exact List.flatMap_singleton _ _

variable {convert : Text → Value} {whole : Text} {segments : List Segment} {run : Text}
  {behind items : List Value} {rest : Text}

theorem tagged_ne_nil {segment : Segment} (h : segment.text ≠ []) : segment.tagged ≠ [] := by
  cases segment with
  | run text => exact fun hnil => h (List.map_eq_nil_iff.1 hnil)
  | item text value => exact List.cons_ne_nil _ _

namespace Beside

theorem start (convert : Text → Value) (whole : Text) : Beside convert whole [] [] [] [] whole where
  maximal := .nil
  settled _ h := absurd h (Option.not_mem_none _)
  text_eq := rfl
  behind_eq := rfl
  items_eq := rfl

/-- With the run that still grows, the segments are maximal too. -/
theorem maximal_growing (h : Beside convert whole segments run behind items rest) :
    Maximal (segments ++ growing run) := by
  cases run with
  | nil =>
    rw [growing, List.isEmpty_nil, if_pos rfl, List.append_nil]
    exact h.maximal
  | cons c run =>
    show Maximal (segments ++ [.run (c :: run).reverse])
    refine h.maximal.concat ?_ fun segment hlast => ?_
    · exact fun hnil => List.cons_ne_nil c run (List.reverse_eq_nil_iff.1 hnil)
    · rw [h.settled segment hlast]
      exact fun hrun => absurd hrun.1 Bool.false_ne_true

/-- A character joins the run, and is an entry of the repetition. -/
theorem char {c : Char} (h : Beside convert whole segments run behind items (c :: rest)) :
    Beside convert whole segments (c :: run) (behind ++ [Value.tagged "char" (.str [c])]) items
      rest where
  maximal := h.maximal
  settled := h.settled
  text_eq := by
    rw [h.text_eq, List.map_append, List.map_append, List.flatten_append, List.flatten_append,
      growing_text, growing_text, List.reverse_cons]
    simp
  behind_eq := by
    rw [h.behind_eq, List.flatMap_append, List.flatMap_append, growing_tagged, growing_tagged,
      List.reverse_cons, List.map_append, List.append_assoc]
    rfl
  items_eq := h.items_eq

/-- The run is over, and an item follows. -/
theorem item {taken : Text} {v : Value} (htaken : taken ≠ [])
    (h : Beside convert whole segments run behind items (taken ++ rest)) :
    Beside convert whole (segments ++ growing run ++ [.item taken v]) []
      (behind ++ [Value.tagged "element" v])
      (v :: ((segments ++ growing run).map (entry convert)).reverse) rest where
  maximal := h.maximal_growing.concat htaken fun _ _ hrun => absurd hrun.2 Bool.false_ne_true
  settled segment hlast := by
    rw [List.getLast?_concat, Option.mem_some_iff] at hlast
    rw [← hlast]
    rfl
  text_eq := by
    rw [h.text_eq]
    simp [growing, text]
  behind_eq := by
    rw [h.behind_eq]
    simp [growing, tagged]
  items_eq := by simp [entry]

end Beside

/-- What comes of the repetition from a place with this ahead, and what comes of the scan beside
    it.  They match together, at one place: the repetition with an entry for each character and
    item, the scan with one for each maximal run of characters, converted, and for each item.
    Where the repetition stalls, each of them raises a fault of its own, and there alone.  Any
    other fault they raise together. -/
inductive Coalesced (convert : Text → Value) (whole : Text) (stalls : Prop) :
    Except Stop (Option State) → Except Stop (Option State) → Prop
  | failed : ¬ stalls → Coalesced convert whole stalls (.ok none) (.ok none)
  | matched {t segments} : ¬ stalls → Maximal segments →
      whole = (segments.map text).flatten ++ t.rest →
      t.value = .list (segments.flatMap tagged) →
      Coalesced convert whole stalls (.ok (some t))
        (.ok (some (t.withValue (.list (segments.map (entry convert))))))
  | stalled : stalls → Coalesced convert whole stalls (.error (.fault (.grammar .manyStalled)))
      (.error (.fault (.grammar .interleaveStalled)))
  | ended {e} : ¬ stalls → Coalesced convert whole stalls (.error e) (.error e)

end Segment

/-! ## Turns of both loops -/

namespace Action

open Run

/-- A look at a place: whether the condition holds there, and what the element then comes to. -/
def look (p : Action) (condition : Callback Text Bool) (s : State) :
    Run (Option (Option State)) := do
  if ← call condition s.rest then
    let o ← p (s.withValue .none)
    pure (some o)
  else pure none

variable {p : Action} {condition : Callback Text Bool} {ofRun : Callback Text Value} {s : State}
  {c : Char} {rest : Text}

/-- A turn of the scan goes by a look at its place. -/
theorem scanFrom_look (h : s.rest = c :: rest) (fuel : Nat) (run : Text) (items : List Value) :
    scanFrom p ofRun condition (fuel + 1) s run items
      = (look p condition s >>= fun seen => match seen with
        | none => scanned ofRun s run items
        | some none => scanFrom p ofRun condition fuel (s.advance 1 .none) (c :: run) items
        | some (some next) =>
          if next.pos == s.pos then reject .interleaveStalled
          else flush ofRun run items >>= fun items => scanFrom p ofRun condition fuel
            (s.moveTo next.pos .none) [] (next.value :: items)) := by
  rw [scanFrom, look, bind_assoc]
  split
  · next hnil => exact absurd (h.symm.trans hnil) (List.cons_ne_nil c rest)
  · next ch tail hcons =>
    obtain ⟨rfl, rfl⟩ := List.cons.inj (h.symm.trans hcons)
    refine congrArg _ (funext fun holds => ?_)
    cases holds with
    | false => rfl
    | true =>
      simp only [if_true, bind_assoc, pure_bind]
      refine congrArg _ (funext fun o => ?_)
      cases o <;> rfl

section Looked

variable {next : State} {m m₁ : Memory} {fuel : Nat} {run : Text} {items : List Value}
  (h : s.rest = c :: rest)

include h

theorem scanFrom_of_look_error {e : Stop} (hseen : look p condition s m = .error e m₁) :
    scanFrom p ofRun condition (fuel + 1) s run items m = .error e m₁ := by
  rw [scanFrom_look h, bind_of_error hseen]

theorem scanFrom_of_look_none (hseen : look p condition s m = .ok none m₁) :
    scanFrom p ofRun condition (fuel + 1) s run items m = scanned ofRun s run items m₁ := by
  rw [scanFrom_look h, bind_of_ok hseen]

theorem scanFrom_of_look_unmatched (hseen : look p condition s m = .ok (some none) m₁) :
    scanFrom p ofRun condition (fuel + 1) s run items m
      = scanFrom p ofRun condition fuel (s.advance 1 .none) (c :: run) items m₁ := by
  rw [scanFrom_look h, bind_of_ok hseen]

theorem scanFrom_of_look_stalled (hseen : look p condition s m = .ok (some (some next)) m₁)
    (hpos : next.pos = s.pos) : scanFrom p ofRun condition (fuel + 1) s run items m
      = .error (.fault (.grammar .interleaveStalled)) m₁ := by
  rw [scanFrom_look h, bind_of_ok hseen]
  simp only [hpos, beq_self_eq_true, if_true]
  rfl

theorem scanFrom_of_look_matched (hseen : look p condition s m = .ok (some (some next)) m₁)
    (hpos : next.pos ≠ s.pos) : scanFrom p ofRun condition (fuel + 1) s run items m
      = (flush ofRun run items >>= fun items => scanFrom p ofRun condition fuel
          (s.moveTo next.pos .none) [] (next.value :: items)) m₁ := by
  rw [scanFrom_look h, bind_of_ok hseen]
  simp only [beq_iff_eq, hpos, if_false]

end Looked

/-- What the alternatives make of what the element has come to, where a character lies ahead. -/
def taggedState (s : State) (c : Char) : Option State → State
  | none => s.advance 1 (Value.tagged "char" (.str [c]))
  | some next => next.withValue (Value.tagged "element" next.value)

theorem eval_tagged (p : Parser Ref) (env : Env) (n : Nat) (h : s.rest = c :: rest) :
    p.tagged.eval env n s
      = (p.eval env n s >>= fun o => pure (some (taggedState s c o))) := by
  have htagged : p.tagged.eval env n s
      = orElse (map (p.eval env n) (.total (Value.tagged "element")))
        (map (satisfy (.total fun _ => true)) (.total (Value.tagged "char"))) s := rfl
  rw [htagged, orElse, map, andThen, bind_assoc]
  refine congrArg _ (funext fun o => ?_)
  cases o with
  | some next => rfl
  | none =>
    simp only [pure_bind, map, andThen, satisfy, h]
    rfl

end Action

namespace Repetition

open Run

/-- The repetition of the tagged alternatives. -/
def overTagged (p : Parser Ref) (env : Env) (n : Nat) (condition : Callback Text Bool) :
    Repetition := ⟨p.tagged.eval env n, ⟨1, 0⟩, some condition, .none⟩

variable {p : Parser Ref} {env : Env} {n : Nat} {condition : Callback Text Bool} {s : State}
  {c : Char} {rest : Text}

/-- A turn of the repetition goes by a look at its place too. -/
theorem turn_overTagged (h : s.rest = c :: rest) :
    (overTagged p env n condition).turn s
      = (Action.look (p.eval env n) condition s >>= fun seen =>
        pure (seen.map (Action.taggedState (s.withValue .none) c))) := by
  have hend : s.atEnd = false := by rw [State.atEnd, h]; rfl
  have hattempt : (overTagged p env n condition).attempt s
      = (p.eval env n (s.withValue .none) >>= fun o =>
        pure (some (Action.taggedState (s.withValue .none) c o))) := by
    have hahead : (s.withValue .none).rest = c :: rest := h
    rw [← Action.eval_tagged p env n hahead, ← State.make_place]
    rfl
  rw [turn, hend, if_neg Bool.false_ne_true, Action.look, bind_assoc, hattempt]
  refine congrArg _ (funext fun holds => ?_)
  cases holds with
  | false => rfl
  | true =>
    simp only [if_true, bind_assoc, pure_bind]
    rfl

variable {m m₁ : Memory}

theorem turn_of_look (h : s.rest = c :: rest) {seen : Option (Option State)}
    (hseen : Action.look (p.eval env n) condition s m = .ok seen m₁) :
    (overTagged p env n condition).turn s m
      = .ok (seen.map (Action.taggedState (s.withValue .none) c)) m₁ := by
  rw [turn_overTagged h]
  exact bind_of_ok hseen

theorem turn_of_look_error (h : s.rest = c :: rest) {e : Stop}
    (hseen : Action.look (p.eval env n) condition s m = .error e m₁) :
    (overTagged p env n condition).turn s m = .error e m₁ := by
  rw [turn_overTagged h]
  exact bind_of_error hseen

end Repetition

/-! ## Side by side -/

/-- What was taken on the way to a later place. -/
theorem State.Within.exists_taken {s t : State} (h : t.Within s.text s.pos)
    (hs : s.pos ≤ s.text.length) (hpos : t.pos ≠ s.pos) :
    ∃ taken, taken ≠ [] ∧ s.rest = taken ++ t.rest := by
  obtain ⟨taken, htaken⟩ := h.rest_suffix
  have hlow := h.low
  have hhigh := h.high
  have hlength := congrArg List.length htaken
  rw [List.length_append, t.rest_eq, s.rest_eq, h.text, List.length_drop, List.length_drop]
    at hlength
  refine ⟨taken, ?_, htaken.symm⟩
  rw [← List.length_pos_iff]
  omega

/-- Ends that agree are of one kind, with the same result or the same reason to stop. -/
theorem Run.Agree.ended_or_ok {α : Type} {M : Memory → Memory → Prop}
    {r r' : EStateM.Result Stop Memory α} (h : Agree M Eq r r') :
    (∃ e m m', r = .error e m ∧ r' = .error e m') ∨
      ∃ a m m', r = .ok a m ∧ r' = .ok a m' ∧ M m m' := by
  cases h with
  | ok ha hm => exact .inr ⟨_, _, _, rfl, by rw [ha], hm⟩
  | fault => exact .inl ⟨_, _, _, rfl, rfl⟩
  | exhausted => exact .inl ⟨_, _, _, rfl, rfl⟩

section Beside

open Run Repetition

variable {p : Parser Ref} (hp : p.Plain) {env : Env} (henv : env.Plain) {n : Nat}
  {condition : Callback Text Bool} {ofRun : Callback Text Value} {convert : Text → Value}
  (hofRun : ∀ t, ofRun.answer t = .ok (convert t)) {whole : Text} {segments : List Segment}
  {run : Text} {behind items : List Value} {s next : State} {m m' : Memory}

include hp henv in
/-- What is seen at a place does not depend on the trace. -/
theorem Run.alike_look (condition : Callback Text Bool) (s : State) :
    Alike Eq (Action.look (p.eval env n) condition s) (Action.look (p.eval env n) condition s) := by
  refine .bind (.call_self condition s.rest) ?_
  rintro holds _ rfl
  cases holds with
  | false => exact .pure rfl
  | true =>
    refine .bind (alike_eval hp henv n (s.withValue .none)) fun o o' ho => ?_
    cases ho with
    | none => exact .pure rfl
    | some h => exact .pure (by rw [h])

include hp henv in
theorem Action.within_of_look (hm : m.cells.Plain) (hs : s.pos ≤ s.text.length)
    (h : look (p.eval env n) condition s m = .ok (some (some next)) m') :
    next.Within s.text s.pos := by
  obtain ⟨holds, m₁, hask, hrest⟩ := exists_of_bind h
  cases holds with
  | false => cases hrest
  | true =>
    obtain ⟨o, m₂, hattempt, hseen⟩ := exists_of_bind hrest
    cases hseen
    have hm₁ : m₁.cells.Plain := by rw [(call_ok hask).2]; exact hm
    have hwithin : (s.withValue .none).Within s.text s.pos := (State.Within.self hs).withValue _
    exact (Parser.eval_within hp henv hm₁ hwithin hattempt).1

include hofRun in
/-- The run behind the scan is converted, if there is one. -/
theorem Segment.Beside.flush_eq {rest : Text}
    (h : Segment.Beside convert whole segments run behind items rest) (m : Memory) :
    ∃ w, Action.flush ofRun run items m
      = .ok ((segments ++ Segment.growing run).map (Segment.entry convert)).reverse (m.log w) := by
  rw [h.items_eq]
  cases run with
  | nil =>
    rw [Segment.growing, List.isEmpty_nil, if_pos rfl, List.append_nil]
    exact ⟨[], rfl⟩
  | cons c run =>
    rw [Segment.growing, List.isEmpty_cons, if_neg Bool.false_ne_true, List.map_append,
      List.reverse_append]
    exact ⟨_, bind_of_ok (call_of_answer (hofRun (c :: run).reverse) m)⟩

include hofRun in
/-- Where both loops stop, they come to what is behind them. -/
theorem Segment.Beside.ends (h : Segment.Beside convert whole segments run behind items s.rest)
    (m' : Memory) {stalls : Prop} (hstalls : ¬ stalls) :
    Segment.Coalesced convert whole stalls (.ok ((overTagged p env n condition).result s behind))
      (outcome (Action.scanned ofRun (s.withValue .none) run items m')) := by
  obtain ⟨w, hflush⟩ := h.flush_eq hofRun m'
  rw [Action.scanned, bind_of_ok hflush, List.isEmpty_reverse, List.isEmpty_map,
    List.reverse_reverse, Repetition.result]
  cases hall : segments ++ Segment.growing run with
  | nil =>
    have hnone : behind.length = 0 := by rw [h.behind_eq, hall]; rfl
    rw [if_pos ⟨Int.one_ne_zero, by rw [hnone]; exact Int.zero_lt_one⟩]
    exact .failed hstalls
  | cons first others =>
    have hmaximal := h.maximal_growing
    have htext := h.text_eq
    have hbehind := h.behind_eq
    rw [hall] at hmaximal htext hbehind
    -- There is a segment, so there is an entry.
    have hfirst : first.tagged ≠ [] :=
      Segment.tagged_ne_nil (hmaximal.ne_nil first List.mem_cons_self)
    have hsome : 0 < behind.length := by
      rw [hbehind, List.flatMap_cons, List.length_append]
      have hlength := List.length_pos_iff.2 hfirst
      omega
    rw [if_neg (by show ¬ (_ ∧ (behind.length : Int) < 1); omega)]
    rw [State.make_place]
    exact .matched (t := s.withValue (.list behind)) hstalls hmaximal htext
      (by rw [State.withValue_value, hbehind])

include hp henv hofRun in
/-- From one place the two loops come to ends that belong together.  The fuel is enough for
    what lies ahead. -/
theorem Segment.Beside.coalesced (fuel : Nat) (hfuel : s.rest.length < fuel)
    (hs : s.pos ≤ s.text.length)
    (h : Segment.Beside convert whole segments run behind items s.rest)
    (hm : Simulation.anyTrace.mem m m') :
    Segment.Coalesced convert whole ((overTagged p env n condition).Stalls s m)
      (outcome ((overTagged p env n condition).loop fuel s behind m))
      (outcome (Action.scanFrom (p.eval env n) ofRun condition fuel (s.withValue .none) run items
        m')) := by
  -- On the fuel: `Beside` is what each turn keeps, and the traces of the two sides drift apart.
  induction fuel generalizing s segments run behind items m m' with
  | zero => exact absurd hfuel (Nat.not_lt_zero _)
  | succ fuel ih =>
    cases hrest : s.rest with
    | nil =>
      have hturn : (overTagged p env n condition).turn s m = .ok none m := by
        rw [Repetition.turn, State.atEnd, hrest]
        rfl
      have hscan : Action.scanFrom (p.eval env n) ofRun condition (fuel + 1) (s.withValue .none)
          run items = Action.scanned ofRun (s.withValue .none) run items := by
        rw [Action.scanFrom, State.withValue_rest, hrest]
      rw [loop_of_turn_none rfl hturn, hscan]
      exact h.ends hofRun m' (not_stalls (by simp [hturn]))
    | cons c rest =>
      have hahead : (s.withValue .none).rest = c :: rest := hrest
      -- Both turns begin with the same look.
      rcases (Run.alike_look hp henv (n := n) condition s m m' hm).ended_or_ok with
        ⟨e, m₁, m₁', hseen, hseen'⟩ | ⟨seen, m₁, m₁', hseen, hseen', hm₁⟩
      · have hturn := turn_of_look_error hrest hseen
        rw [loop_of_turn_error rfl hturn, Action.scanFrom_of_look_error hahead hseen']
        exact .ended (not_stalls (by simp [hturn]))
      have hturn := turn_of_look hrest hseen
      rcases seen with _ | _ | next
      · rw [loop_of_turn_none rfl hturn, Action.scanFrom_of_look_none hahead hseen']
        exact h.ends hofRun m₁' (not_stalls (by simp [hturn]))
      · -- The element does not match, so both take one character.
        have hmoved : s.pos + 1 ≠ s.pos := Nat.succ_ne_self _
        have hlt : s.pos < s.text.length := State.pos_lt_of_rest hrest
        rw [stalls_iff_of_moved hturn hmoved, loop_of_turn_some rfl hturn hmoved,
          Action.scanFrom_of_look_unmatched hahead hseen']
        rw [hrest] at h hfuel
        have hrest₁ : (s.advance 1 .none).rest = rest := congrArg (List.drop 1) hrest
        rw [← hrest₁] at h hfuel
        exact ih (Nat.lt_of_succ_lt_succ hfuel) hlt h.char hm₁
      · have hwithin := Action.within_of_look hp henv (hm.1.1 ▸ hm.1.2) hs hseen
        by_cases hpos : next.pos = s.pos
        · rw [loop_of_turn_stalled rfl hturn hpos,
            Action.scanFrom_of_look_stalled hahead hseen' hpos]
          exact .stalled ((stalls_iff hturn).2 (.inl hpos))
        · -- The element takes some of what lies ahead, and the run before it is over.
          obtain ⟨taken, hne, htaken⟩ := hwithin.exists_taken hs hpos
          obtain ⟨w, hflush⟩ := h.flush_eq hofRun m₁'
          have hplace : (s.withValue .none).moveTo next.pos .none
              = (next.withValue (Value.tagged "element" next.value)).withValue .none := by
            rw [State.moveTo_eq_make]
            exact State.ext hwithin.text.symm rfl rfl
          have hend : next.pos ≤ next.text.length := by
            rw [hwithin.text]
            exact hwithin.high
          rw [stalls_iff_of_moved hturn hpos, loop_of_turn_some rfl hturn hpos,
            Action.scanFrom_of_look_matched hahead hseen' hpos, bind_of_ok hflush, hplace]
          rw [htaken] at h hfuel
          rw [List.length_append] at hfuel
          have hpositive := List.length_pos_iff.2 hne
          exact ih (s := next.withValue _) (by rw [State.withValue_rest]; omega) hend (h.item hne)
            (Alike.mem_log hm₁ [] w)

end Beside

/-- A scan agrees with a repetition over tagged alternatives.  From a state that carries no value,
    the repetition of the element or else any character, at least once and as long as the
    condition holds, and the scan for the element match together or not at all, and raise the
    same faults, but that each has its own for an element that takes nothing.  Where they match,
    they do so at one place, and the list of the scan is that of the repetition with every
    maximal run of characters converted as a whole, and with the values of the elements as they
    are. -/
theorem Parser.interleave_tagged {p : Parser Ref} (hp : p.Plain) {env : Env} (henv : env.Plain)
    {m : Memory} (hm : m.cells.Plain) {ofRun : Callback Text Value} {convert : Text → Value}
    (hofRun : ∀ t, ofRun.answer t = .ok (convert t)) (condition : Callback Text Bool) {s : State}
    (hvalue : s.value = .none) (hs : s.pos ≤ s.text.length) {n : Nat} (hn : s.rest.length < n) :
    Segment.Coalesced convert s.rest ((Repetition.overTagged p env n condition).Stalls s m)
      (Run.outcome ((many p.tagged ⟨1, 0⟩ (some condition)).eval env n s m))
      (Run.outcome ((interleave p ofRun condition).eval env n s m)) := by
  let r := Repetition.overTagged p env n condition
  have hsides : Segment.Coalesced convert s.rest (r.Stalls s m) (Run.outcome (r.loop n s [] m))
      (Run.outcome ((p.eval env n).scanFrom ofRun condition n (s.withValue .none) [] [] m)) :=
    (Segment.Beside.start convert s.rest).coalesced hp henv hofRun n hn hs ⟨⟨rfl, hm⟩, trivial⟩
  have hself : s.withValue .none = s := by rw [← hvalue, State.withValue_self]
  have hmany : (many p.tagged ⟨1, 0⟩ (some condition)).eval env n s = r.loop n s [] :=
    congrArg (fun v => Action.repeatFrom (p.tagged.eval env n) ⟨1, 0⟩ (some condition) v n s 0 [])
      hvalue
  rw [hself] at hsides
  rw [hmany]
  exact hsides

/-- As long as no dot lies ahead. -/
def Sample.untilDot : Callback Text Bool := .total fun rest => rest.head? != some '.'

/-- Two runs and two groups, the groups next to each other: five entries for four, up to a dot. -/
theorem Parser.interleave_tagged_groups :
    Sample.group.Plain ∧ Env.Plain ⟨[], []⟩ ∧ Sample.cells.Plain ∧
    (∀ t, (Callback.total Value.str).answer t = .ok (.str t)) ∧
    [Run.outcome ((many Sample.group.tagged ⟨1, 0⟩ (some Sample.untilDot)).eval ⟨[], []⟩ 20
        (State.start "xy(a)(b)z.".toList) ⟨Sample.cells, []⟩),
      Run.outcome ((interleave Sample.group (.total .str) Sample.untilDot).eval ⟨[], []⟩ 20
        (State.start "xy(a)(b)z.".toList) ⟨Sample.cells, []⟩)].map (fun o => match o with
          | .ok (some t) => (t.pos, t.value.asList?.map List.length)
          | _ => (0, none)) = [(9, some 5), (9, some 4)] ∧
    Segment.Coalesced .str "xy(a)(b)z.".toList
      ((Repetition.overTagged Sample.group ⟨[], []⟩ 20 Sample.untilDot).Stalls
        (State.start "xy(a)(b)z.".toList) ⟨Sample.cells, []⟩)
      (Run.outcome ((many Sample.group.tagged ⟨1, 0⟩ (some Sample.untilDot)).eval ⟨[], []⟩ 20
        (State.start "xy(a)(b)z.".toList) ⟨Sample.cells, []⟩))
      (Run.outcome ((interleave Sample.group (.total .str) Sample.untilDot).eval ⟨[], []⟩ 20
        (State.start "xy(a)(b)z.".toList) ⟨Sample.cells, []⟩)) := by
  refine ⟨Sample.group_plain, Sample.env_plain, Sample.cells_plain, fun _ => rfl, ?_, ?_⟩
  · decide +kernel
  · exact Parser.interleave_tagged Sample.group_plain Sample.env_plain (m := ⟨Sample.cells, []⟩)
      Sample.cells_plain (fun _ => rfl) Sample.untilDot (s := State.start "xy(a)(b)z.".toList) rfl
      (by decide) (by decide)

end Descent

/-
  Descent.Proofs.Loop.Interleave

  What a scan comes to is the end of what it reaches, and the other way round
  (`Scanning.outcome_iff`).  The loop keeps the characters of the last run apart until the
  run is over; `Scanning.Stands` ties its two cursors to the segments, and every turn
  keeps it: a character joins the run (`Stands.unmatched`), or the run is over and an item
  follows (`Stands.matched`).  From left to right by induction on the fuel, from right to
  left along what is reached.
-/
import Descent.Proofs.Loop.Segments

namespace Descent

namespace Scanning

open Run

variable (c : Scanning)

/-! ## The loop -/

/-- The segments behind a place, the run that has not ended yet included. -/
def closed (segments : List Segment) (low pos : Nat) : List Segment :=
  if low < pos then segments ++ [.run (c.slice low pos)] else segments

/-- The loop stands in a state, with a run and items behind it, the last character and the
    last item first.  The segments before the run are over. -/
structure Stands (convert : Text → Value) (segments : List Segment) (low : Nat) (cells : Cells)
    (s : State) (run : Text) (items : List Value) (m : Memory) : Prop where
  text : s.text = c.text
  reached : c.Reached segments low cells
  settled : ∀ segment ∈ segments.getLast?, segment.isRun = false
  passed : c.Passed low cells s.pos m.cells
  run_eq : run = (c.slice low s.pos).reverse
  items_eq : items = (segments.map (Segment.entry convert)).reverse

/-- The callbacks of a loop answer as the scan says. -/
structure Answers (ofRun : Callback Text Value) (convert : Text → Value)
    (condition : Callback Text Bool) : Prop where
  ofRun : ∀ t, ofRun.answer t = .ok (convert t)
  condition : ∀ t, condition.answer t = .ok (c.goesOn t)

/-- If the last segment is no run, no run is behind the loop. -/
theorem closed_settled {segments segments' : List Segment} {low pos : Nat}
    (h : c.closed segments' low pos = segments)
    (hlast : ∀ segment ∈ segments.getLast?, segment.isRun = false) :
    ¬ low < pos ∧ segments' = segments := by
  have hlow : ¬ low < pos := by
    intro hlow
    rw [closed, if_pos hlow] at h
    have hrun := hlast (.run (c.slice low pos)) (by rw [← h, List.getLast?_concat]; rfl)
    cases hrun
  rw [closed, if_neg hlow] at h
  exact ⟨hlow, h⟩

section Loop

variable {c} {ofRun : Callback Text Value} {convert : Text → Value}
  {condition : Callback Text Bool} (hk : c.Answers ofRun convert condition) (hc : c.Plain)
  {segments : List Segment} {low : Nat} {cells cells' : Cells} {s next : State} {run : Text}
  {items : List Value} {m : Memory}

theorem Stands.rest (h : c.Stands convert segments low cells s run items m) :
    s.rest = c.text.drop s.pos := by
  rw [s.rest_eq, h.text]

theorem Stands.place (h : c.Stands convert segments low cells s run items m) :
    s.withValue .none = State.make c.text s.pos .none := by
  apply State.ext
  · exact h.text
  · rfl
  · rfl

/-- The place where the loop stands is reached. -/
theorem Stands.reached_closed (h : c.Stands convert segments low cells s run items m) :
    c.Reached (c.closed segments low s.pos) s.pos m.cells := by
  unfold closed
  split
  · next hlow => exact h.reached.run h.settled hlow h.passed
  · next hlow =>
    obtain ⟨hpos, hsame⟩ := h.passed.of_not_lt hlow
    rw [hpos, hsame]
    exact h.reached

include hc in
theorem Stands.bounds (h : c.Stands convert segments low cells s run items m) :
    m.cells.Plain ∧ c.start ≤ s.pos ∧ s.pos ≤ c.text.length :=
  h.reached_closed.bounds hc

include hk hc in
/-- The run behind the loop is converted, if there is one. -/
theorem Stands.flush_eq (h : c.Stands convert segments low cells s run items m)
    (cells' : Cells) (w : Trace) :
    ∃ w', Action.flush ofRun run items ⟨cells', w⟩
      = .ok ((c.closed segments low s.pos).map (Segment.entry convert)).reverse ⟨cells', w'⟩ := by
  unfold Action.flush closed
  -- The run is empty where the last segment has just ended, and then nothing is converted.
  by_cases hlow : low < s.pos
  · have hrun : ¬ run.isEmpty = true := by
      rw [h.run_eq, List.isEmpty_iff, List.reverse_eq_nil_iff]
      exact c.slice_ne_nil hlow (h.bounds hc).2.2
    rw [if_neg hrun, if_pos hlow, h.run_eq, List.reverse_reverse,
      bind_of_ok (call_of_answer (hk.ofRun _) _), h.items_eq, List.map_append, List.reverse_append]
    exact ⟨_, rfl⟩
  · have hpos : s.pos = low := (h.passed.of_not_lt hlow).1
    rw [h.run_eq, hpos, slice_self, if_neg (Nat.lt_irrefl low), h.items_eq]
    exact ⟨_, rfl⟩

include hk in
theorem Stands.scanFrom_stop (h : c.Stands convert segments low cells s run items m)
    (hstop : ¬ c.GoesOn s.pos) (fuel : Nat) :
    ∃ w, Action.scanFrom c.element ofRun condition (fuel + 1) s run items m
      = Action.scanned ofRun s run items ⟨m.cells, w⟩ := by
  cases hrest : s.rest with
  | nil =>
    refine ⟨m.trace, ?_⟩
    rw [Action.scanFrom, hrest]
  | cons ch rest =>
    have hfalse : c.goesOn (ch :: rest) = false := by
      rw [h.rest] at hrest
      refine Bool.eq_false_iff.2 fun hholds => hstop ⟨?_, hrest ▸ hholds⟩
      rw [← Nat.not_le, ← List.drop_eq_nil_iff, hrest]
      exact List.cons_ne_nil ch rest
    refine ⟨(m.log (condition.record (ch :: rest))).trace, ?_⟩
    rw [Action.scanFrom, hrest]
    refine (bind_of_ok (call_of_answer (hk.condition (ch :: rest)) m)).trans ?_
    rw [hfalse]
    rfl

include hk hc in
/-- Where the scan does not go on, the loop ends with all segments behind it. -/
theorem Stands.stopped (h : c.Stands convert segments low cells s run items m)
    (hstop : ¬ c.GoesOn s.pos) (fuel : Nat) :
    outcome (Action.scanFrom c.element ofRun condition (fuel + 1) s run items m)
      = .ok (if (c.closed segments low s.pos).isEmpty then none else some (State.make c.text s.pos
        (.list ((c.closed segments low s.pos).map (Segment.entry convert))))) := by
  obtain ⟨w, hturn⟩ := h.scanFrom_stop hk hstop fuel
  obtain ⟨w', hflush⟩ := h.flush_eq hk hc m.cells w
  have hplace : ∀ v, s.withValue v = State.make c.text s.pos v := fun v =>
    State.ext h.text rfl rfl
  rw [hturn, Action.scanned, bind_of_ok hflush, List.isEmpty_reverse, List.isEmpty_map,
    List.reverse_reverse, hplace]
  rfl

section Attempt

include hk

/-- Where the scan goes on, the element is tried, and its answer says how. -/
theorem Stands.scanFrom_goesOn (h : c.Stands convert segments low cells s run items m)
    (hgoes : c.GoesOn s.pos) :
    ∃ w ch rest, c.text.drop s.pos = ch :: rest ∧
      ∀ fuel, Action.scanFrom c.element ofRun condition (fuel + 1) s run items m
        = (c.element (State.make c.text s.pos .none) >>= fun o =>
            match o with
            | none =>
              Action.scanFrom c.element ofRun condition fuel (s.advance 1 .none) (ch :: run) items
            | some next =>
              if next.pos == s.pos then reject .interleaveStalled
              else do
                let items ← Action.flush ofRun run items
                Action.scanFrom c.element ofRun condition fuel (s.moveTo next.pos .none) []
                  (next.value :: items)) ⟨m.cells, w⟩ := by
  cases hrest : s.rest with
  | nil =>
    rw [h.rest, List.drop_eq_nil_iff] at hrest
    exact absurd hgoes.ahead (Nat.not_lt.2 hrest)
  | cons ch rest =>
    have hdrop : c.text.drop s.pos = ch :: rest := h.rest ▸ hrest
    refine ⟨(m.log (condition.record (ch :: rest))).trace, ch, rest, hdrop, fun fuel => ?_⟩
    rw [Action.scanFrom, hrest]
    -- The condition is called first and holds; its entries are all that the trace has more.
    refine (bind_of_ok (call_of_answer (hk.condition (ch :: rest)) m)).trans ?_
    rw [← hdrop, hgoes.holds, ← h.place]
    rfl

include hc

/-- Where the element does not match, a character joins the run. -/
theorem Stands.unmatched (h : c.Stands convert segments low cells s run items m)
    (htried : c.Tried s.pos m.cells none cells') :
    ∃ s' run' m', s'.pos = s.pos + 1 ∧ m'.cells = cells' ∧
      c.Stands convert segments low cells s' run' items m' ∧
      ∀ fuel, Action.scanFrom c.element ofRun condition (fuel + 1) s run items m
        = Action.scanFrom c.element ofRun condition fuel s' run' items m' := by
  obtain ⟨w, ch, rest, hdrop, hturn⟩ := h.scanFrom_goesOn hk htried.goesOn
  obtain ⟨w', hanswer⟩ := htried.answers hc (h.bounds hc).1 w
  have hrun : ch :: run = (c.slice low (s.pos + 1)).reverse := by
    rw [c.slice_succ h.passed.le hdrop, List.reverse_append, h.run_eq]
    rfl
  refine ⟨s.advance 1 .none, ch :: run, ⟨cells', w'⟩, rfl, rfl, ?_, fun fuel => ?_⟩
  · exact ⟨h.text, h.reached, h.settled, h.passed.one htried, hrun, h.items_eq⟩
  · rw [hturn, bind_of_ok hanswer]

/-- Through places where the element never matches the loop goes turn by turn, and the run
    behind it grows. -/
theorem Stands.pass {high : Nat} (h : c.Stands convert segments low cells s run items m)
    (hpassed : c.Passed s.pos m.cells high cells') :
    ∃ s' run' m', s'.pos = high ∧ m'.cells = cells' ∧
      c.Stands convert segments low cells s' run' items m' ∧
      ∀ fuel, Action.scanFrom c.element ofRun condition (fuel + (high - s.pos)) s run items m
        = Action.scanFrom c.element ofRun condition fuel s' run' items m' := by
  induction hpassed with
  | none =>
    refine ⟨s, run, m, rfl, rfl, h, fun fuel => ?_⟩
    rw [Nat.sub_self]
    rfl
  | one hpassed htried ih =>
    obtain ⟨t, run₁, m₁, rfl, rfl, hstands, hloop⟩ := ih
    obtain ⟨s', run', m', hpos, hm', hstands', hturn⟩ := hstands.unmatched hk hc htried
    refine ⟨s', run', m', hpos, hm', hstands', fun fuel => ?_⟩
    have hfuel : fuel + (t.pos + 1 - s.pos) = fuel + 1 + (t.pos - s.pos) := by
      have hle := hpassed.le
      omega
    rw [hfuel, hloop, hturn]

/-- Where the element matches and takes something, the run is over and an item follows. -/
theorem Stands.matched (h : c.Stands convert segments low cells s run items m)
    (htried : c.Tried s.pos m.cells (some next) cells') (hnext : s.pos < next.pos) :
    ∃ s' items' m', s'.pos = next.pos ∧ m'.cells = cells' ∧
      c.Stands convert
        (c.closed segments low s.pos ++ [.item (c.slice s.pos next.pos) next.value])
        next.pos cells' s' [] items' m' ∧
      ∀ fuel, Action.scanFrom c.element ofRun condition (fuel + 1) s run items m
        = Action.scanFrom c.element ofRun condition fuel s' [] items' m' := by
  obtain ⟨w, ch, rest, -, hturn⟩ := h.scanFrom_goesOn hk htried.goesOn
  obtain ⟨w', hanswer⟩ := htried.answers hc (h.bounds hc).1 w
  obtain ⟨w'', hflush⟩ := h.flush_eq hk hc cells' w'
  have hmoved : ¬ (next.pos == s.pos) = true := by
    rw [beq_iff_eq]
    omega
  have hitems : next.value :: ((c.closed segments low s.pos).map (Segment.entry convert)).reverse
      = ((c.closed segments low s.pos ++ [Segment.item (c.slice s.pos next.pos) next.value]).map
          (Segment.entry convert)).reverse := by
    rw [List.map_append, List.reverse_append]
    rfl
  -- The new run begins where the item ends, so no place has been passed yet.
  refine ⟨s.moveTo next.pos .none, next.value :: _, ⟨cells', w''⟩, s.moveTo_pos next.pos .none, rfl,
    (⟨?_, h.reached_closed.item htried hnext, ?_, ?_, ?_, hitems⟩ : c.Stands _ _ _ _ _ _ _ _),
    fun fuel => ?_⟩
  · rw [State.moveTo_text, h.text]
  · intro segment hlast
    rw [List.getLast?_append, List.getLast?_singleton, Option.some_or,
      Option.mem_some_iff] at hlast
    rw [← hlast]
    rfl
  · rw [State.moveTo_pos]
    exact .none
  · rw [State.moveTo_pos, slice_self]
    rfl
  · rw [hturn, bind_of_ok hanswer]
    dsimp only
    rw [if_neg hmoved, bind_of_ok hflush]

theorem Stands.stalled (h : c.Stands convert segments low cells s run items m)
    (htried : c.Tried s.pos m.cells (some next) cells') (hnext : next.pos = s.pos)
    (fuel : Nat) :
    outcome (Action.scanFrom c.element ofRun condition (fuel + 1) s run items m)
      = .error (.fault (.grammar .interleaveStalled)) := by
  obtain ⟨w, ch, rest, -, hturn⟩ := h.scanFrom_goesOn hk htried.goesOn
  obtain ⟨w', hanswer⟩ := htried.answers hc (h.bounds hc).1 w
  rw [hturn, bind_of_ok hanswer]
  dsimp only
  rw [if_pos (beq_iff_eq.2 hnext)]
  rfl

theorem Stands.broken {e : Stop} (h : c.Stands convert segments low cells s run items m)
    (hbroken : c.Broken s.pos m.cells e) (fuel : Nat) :
    outcome (Action.scanFrom c.element ofRun condition (fuel + 1) s run items m) = .error e := by
  obtain ⟨w, ch, rest, -, hturn⟩ := h.scanFrom_goesOn hk hbroken.goesOn
  obtain ⟨m', hanswer⟩ := hbroken.answers hc (h.bounds hc).1 w
  rw [hturn, bind_of_error hanswer]
  rfl

end Attempt

/-! ## What a scan comes to -/

section Outcome

include hk hc

/-- Where a scan ends, so does the loop that stands there. -/
theorem Stands.outcome_eq (h : c.Stands convert segments low cells s run items m)
    {o : Except Stop (Option State)}
    (hends : c.Ends convert (c.closed segments low s.pos) s.pos m.cells o) (fuel : Nat) :
    outcome (Action.scanFrom c.element ofRun condition (fuel + 1) s run items m) = o := by
  cases hends with
  | stopped hstop => exact h.stopped hk hc hstop fuel
  | stalled htried hpos => exact h.stalled hk hc htried hpos fuel
  | broken hbroken => exact h.broken hk hc hbroken fuel

/-- With a turn for every character ahead, the loop comes to an end of the scan. -/
theorem Stands.exists_end (h : c.Stands convert segments low cells s run items m) {fuel : Nat}
    (hfuel : c.text.length - s.pos < fuel) :
    ∃ segments' pos cells', c.Reached segments' pos cells' ∧
      c.Ends convert segments' pos cells'
        (outcome (Action.scanFrom c.element ofRun condition fuel s run items m)) := by
  induction fuel generalizing segments low cells s run items m with
  | zero => exact absurd hfuel (Nat.not_lt_zero _)
  | succ fuel ih =>
    -- The scan ends where the loop stands.
    have hends : ∀ o, c.Ends convert (c.closed segments low s.pos) s.pos m.cells o →
        ∃ segments' pos cells', c.Reached segments' pos cells' ∧
          c.Ends convert segments' pos cells'
            (outcome (Action.scanFrom c.element ofRun condition (fuel + 1) s run items m)) := by
      intro o ho
      refine ⟨_, _, _, h.reached_closed, ?_⟩
      rw [h.outcome_eq hk hc ho]
      exact ho
    by_cases hgoes : c.GoesOn s.pos
    case neg => exact hends _ (.stopped hgoes)
    have hahead := hgoes.ahead
    cases hanswer : c.element (State.make c.text s.pos .none) ⟨m.cells, []⟩ with
    | error e m' => exact hends _ (.broken ⟨hgoes, [], m', hanswer⟩)
    | ok o m' =>
      have htried : c.Tried s.pos m.cells o m'.cells := ⟨hgoes, [], m'.trace, hanswer⟩
      cases o with
      | none =>
        obtain ⟨s', run', m'', hpos, -, hstands, hturn⟩ := h.unmatched hk hc htried
        rw [hturn]
        exact ih hstands (by omega)
      | some next =>
        have hforward := htried.forward hc (h.bounds hc).1
        by_cases hnext : next.pos = s.pos
        case pos => exact hends _ (.stalled htried hnext)
        have hlt : s.pos < next.pos := by omega
        obtain ⟨s', items', m'', hpos, -, hstands, hturn⟩ := h.matched hk hc htried hlt
        rw [hturn]
        exact ih hstands (by omega)

/-- Whatever is reached from where the loop begins, the loop comes there, with at most a
    turn for every character on the way. -/
theorem Reached.exists_stands {pos : Nat} (h : c.Reached segments pos cells')
    (hbegin : c.Stands convert [] c.start c.cells s [] [] m) (hpos : s.pos = c.start)
    (hm : m.cells = c.cells) :
    ∃ segments₀ low cells₀ t run items m' turns,
      c.Stands convert segments₀ low cells₀ t run items m' ∧
      c.closed segments₀ low t.pos = segments ∧ t.pos = pos ∧ m'.cells = cells' ∧
      c.start + turns ≤ pos ∧
      ∀ fuel, Action.scanFrom c.element ofRun condition (fuel + turns) s [] [] m
        = Action.scanFrom c.element ofRun condition fuel t run items m' := by
  induction h with
  | start =>
    refine ⟨_, _, _, _, _, _, _, 0, hbegin, ?_, hpos, hm, Nat.le_refl _, fun _ => rfl⟩
    rw [hpos, closed, if_neg (Nat.lt_irrefl _)]
  | @run segments _ _ high cells' hreached hlast hlow hpassed ih =>
    obtain ⟨segments₀, low, cells₀, t, run, items, m₁, turns, hstands, hclosed, rfl, rfl, hturns,
      hloop⟩ := ih
    -- The last segment is over where the loop stands, so the run begins here.
    obtain ⟨hover, rfl⟩ := c.closed_settled hclosed hlast
    have hbegins : low = t.pos := Nat.le_antisymm hstands.passed.le (Nat.not_lt.1 hover)
    obtain ⟨t', run', m', ht', hm', hstands', hpass⟩ := hstands.pass hk hc hpassed
    refine ⟨_, low, _, t', run', items, m', high - t.pos + turns, hstands', ?_, ht', hm',
      by omega, fun fuel => ?_⟩
    · rw [ht', hbegins, closed, if_pos hlow]
    · rw [← Nat.add_assoc, hloop, hpass]
  | @item segments _ _ next cells' hreached htried hpos ih =>
    obtain ⟨segments₀, low, cells₀, t, run, items, m₁, turns, hstands, hclosed, rfl, rfl, hturns,
      hloop⟩ := ih
    obtain ⟨t', items', m', ht', hm', hstands', hturn⟩ := hstands.matched hk hc htried hpos
    refine ⟨_, _, _, t', _, items', m', 1 + turns, hstands', ?_, ht', hm', by omega,
      fun fuel => ?_⟩
    · rw [ht', hclosed, closed, if_neg (Nat.lt_irrefl _)]
    · rw [← Nat.add_assoc, hloop, hturn]

/-- With a turn for every character ahead, the loop comes to the end of what is reached,
    and to nothing else. -/
theorem outcome_iff (hbegin : c.Stands convert [] c.start c.cells s [] [] m)
    (hpos : s.pos = c.start) (hm : m.cells = c.cells) {fuel : Nat}
    (hfuel : c.text.length - c.start < fuel) {o : Except Stop (Option State)} :
    outcome (Action.scanFrom c.element ofRun condition fuel s [] [] m) = o ↔
      ∃ segments pos cells, c.Reached segments pos cells ∧ c.Ends convert segments pos cells o := by
  refine ⟨?_, ?_⟩
  · rintro rfl
    exact hbegin.exists_end hk hc (by rwa [hpos])
  · rintro ⟨segments, pos, cells, hreached, hends⟩
    obtain ⟨_, hfrom, hto⟩ := hreached.bounds hc
    obtain ⟨segments₀, low, cells₀, t, run, items, m', turns, hstands, rfl, rfl, rfl, hturns,
      hloop⟩ := hreached.exists_stands hk hc hbegin hpos hm
    obtain ⟨left, rfl⟩ : ∃ left, fuel = left + 1 + turns := ⟨fuel - 1 - turns, by omega⟩
    rw [hloop]
    exact hstands.outcome_eq hk hc hends left

end Outcome

end Loop

end Scanning

namespace Parser

/-- With a turn for every character ahead, a scan comes to the end of what it reaches.
    Whatever it reaches, the text behind it is the segments in a row; none of them is empty,
    and no run follows another.  A match gives one entry for each segment and stops at the
    end of the text or where the condition fails.  There is no match if the scan does not
    go on at the start, and only then.  If the element raises no fault at a place that is
    reached, there is one fault left: the element matches at such a place and takes
    nothing. -/
theorem interleave_segments {p : Parser Ref} (hp : p.Plain) {env : Env} (henv : env.Plain)
    {m : Memory} (hm : m.cells.Plain) {ofRun : Callback Text Value} {convert : Text → Value}
    (hofRun : ∀ t, ofRun.answer t = .ok (convert t)) {condition : Callback Text Bool}
    {goesOn : Text → Bool} (hcondition : ∀ t, condition.answer t = .ok (goesOn t)) {s : State}
    (hs : s.pos ≤ s.text.length) {n : Nat} (hn : s.rest.length < n) :
    let c : Scanning := ⟨p.eval env n, goesOn, s.text, s.pos, m.cells⟩
    let scan := Run.outcome ((interleave p ofRun condition).eval env n s m)
    (∀ o, scan = o ↔ ∃ segments pos cells,
      c.Reached segments pos cells ∧ c.Ends convert segments pos cells o) ∧
    (∀ segments pos cells, c.Reached segments pos cells →
      s.pos ≤ pos ∧ pos ≤ s.text.length ∧
      c.slice s.pos pos = (segments.map Segment.text).flatten ∧
      (∀ segment ∈ segments, segment.text ≠ []) ∧
      segments.IsChain fun a b => ¬ (a.isRun = true ∧ b.isRun = true)) ∧
    (∀ s', scan = .ok (some s') → s'.text = s.text ∧ ∃ segments cells,
      c.Reached segments s'.pos cells ∧
      s'.value = .list (segments.map (Segment.entry convert)) ∧
      (s'.pos = s.text.length ∨ goesOn (s.text.drop s'.pos) = false)) ∧
    (scan = .ok none ↔ s.pos = s.text.length ∨ goesOn (s.text.drop s.pos) = false) ∧
    ((∀ segments pos cells f, c.Reached segments pos cells → ¬ c.Broken pos cells (.fault f)) →
      ∀ f, scan = .error (.fault f) ↔ f = .grammar .interleaveStalled ∧
        ∃ segments pos cells next cells', c.Reached segments pos cells ∧
          c.Tried pos cells (some next) cells' ∧ next.pos = pos) := by
  intro c scan
  have hc : c.Plain := ⟨⟨p, env, n, hp, henv, rfl⟩, hm, hs⟩
  have hk : c.Answers ofRun convert condition := ⟨hofRun, hcondition⟩
  -- At the start nothing lies behind, neither segments nor a run.
  have hbegin : c.Stands convert [] s.pos m.cells s [] [] m :=
    ⟨rfl, .start, fun _ h => (nomatch h), .none, by rw [c.slice_self]; rfl, rfl⟩
  have hfuel : c.text.length - c.start < n := by
    rwa [s.rest_eq, List.length_drop] at hn
  have hscan : ∀ o, scan = o ↔ ∃ segments pos cells,
      c.Reached segments pos cells ∧ c.Ends convert segments pos cells o := fun o =>
    Scanning.outcome_iff hk hc hbegin rfl rfl hfuel
  refine ⟨hscan, fun segments pos cells hreached => ?_, fun s' h => ?_, ⟨fun h => ?_, fun h => ?_⟩,
    fun hbroken f => ⟨fun h => ?_, ?_⟩⟩
  · obtain ⟨-, hfrom, hto⟩ := hreached.bounds hc
    exact ⟨hfrom, hto, hreached.slice_eq hc, hreached.ne_nil hc, hreached.isChain⟩
  · obtain ⟨segments, pos, cells, hreached, hends⟩ := (hscan _).1 h
    obtain ⟨-, -, hto⟩ := hreached.bounds hc
    obtain ⟨hstop, rfl⟩ := hends.reached
    exact ⟨rfl, segments, cells, hreached, rfl, (c.not_goesOn_iff hto).1 hstop⟩
  · obtain ⟨segments, pos, cells, hreached, hends⟩ := (hscan _).1 h
    exact (c.not_goesOn_iff hs).1 (hends.failed hreached)
  · exact (hscan _).2 ⟨[], s.pos, m.cells, .start, .stopped ((c.not_goesOn_iff hs).2 h)⟩
  · obtain ⟨segments, pos, cells, hreached, hends⟩ := (hscan _).1 h
    -- The fault is the complaint of the scan, or else the element has raised it.
    rcases hends.faulted with ⟨hf, next, cells', htried, hpos⟩ | hraised
    · exact ⟨hf, segments, pos, cells, next, cells', hreached, htried, hpos⟩
    · exact absurd hraised (hbroken segments pos cells f hreached)
  · rintro ⟨rfl, segments, pos, cells, next, cells', hreached, htried, hpos⟩
    exact (hscan _).2 ⟨segments, pos, cells, hreached, .stalled htried hpos⟩

/-- Two groups with a run between them, and a run before a full stop, where the scan ends. -/
theorem interleave_segments_groups :
    Sample.group.Plain ∧ Env.Plain ⟨[], []⟩ ∧ Sample.cells.Plain ∧
    ∃ s', Run.outcome ((interleave Sample.group (Callback.ofRuns (.total id))
        (.condition fun t => .ok (t.head? != some '.'))).eval ⟨[], []⟩ 20
        (State.make "(a)bc(d)(e)f.(g)".toList 0 .none) ⟨Sample.cells, []⟩) = .ok (some s') ∧
      s'.pos = 12 ∧
      ∃ segments cells, Scanning.Reached ⟨Sample.group.eval ⟨[], []⟩ 20,
          fun t => t.head? != some '.', "(a)bc(d)(e)f.(g)".toList, 0, Sample.cells⟩
          segments 12 cells ∧
        s'.value = .list (segments.map (Segment.entry .str)) := by
  have hreached : (Run.matched? ((interleave Sample.group (Callback.ofRuns (.total id))
      (.condition fun t => .ok (t.head? != some '.'))).eval ⟨[], []⟩ 20
      (State.make "(a)bc(d)(e)f.(g)".toList 0 .none) ⟨Sample.cells, []⟩)).map State.pos
      = some 12 := by
    decide +kernel
  obtain ⟨s', hs', hpos⟩ := Option.map_eq_some_iff.1 hreached
  obtain ⟨m', h⟩ := Run.matched?_eq_some hs'
  have hofRun : ∀ t, (Callback.ofRuns (.total id)).answer t = .ok (.str t) := fun _ => rfl
  have hcondition : ∀ t, (Callback.condition fun t => .ok (t.head? != some '.')).answer t
      = .ok (t.head? != some '.') := fun _ => rfl
  obtain ⟨-, -, hmatch, -⟩ := interleave_segments Sample.group_plain Sample.env_plain
    (m := ⟨Sample.cells, []⟩) Sample.cells_plain hofRun hcondition
    (s := State.make "(a)bc(d)(e)f.(g)".toList 0 .none) (by decide) (n := 20) (by decide)
  obtain ⟨-, segments, cells, hsegments, hvalue, -⟩ := hmatch s' (by rw [h]; rfl)
  rw [hpos] at hsegments
  exact ⟨Sample.group_plain, Sample.env_plain, Sample.cells_plain, s', by rw [h]; rfl, hpos,
    segments, cells, hsegments, hvalue⟩

end Parser
end Descent

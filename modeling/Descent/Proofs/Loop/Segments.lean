/-
  Descent.Proofs.Loop.Segments

  A scan cuts what it goes through into segments: what the element took, and the runs of
  characters between at which it did not match.  `Scanning.Reached` says how far a scan
  comes and which segments lie behind it; it goes by the delayed parts that each attempt
  finds and leaves, and lets the trace be what it may, since no outcome depends on it
  (`Parser.eval_any_trace`).  `Scanning.Ends` says for what reasons a scan ends.  Whatever
  is reached, the segments behind it are the text in order and without gaps
  (`Reached.slice_eq`), none of them is empty (`Reached.ne_nil`) and no run follows
  another (`Reached.isChain`).
-/
import Descent.Proofs.Loop.Run
import Descent.Proofs.Forward
import Mathlib.Data.List.Chain

namespace Descent

/-! ## Traces decide nothing -/

/-- A run beside itself, with other entries in the trace. -/
def Simulation.anyTrace : Simulation where
  View := Unit
  state _ s s' := s = s'
  cells := Cells.SamePlain
  trace _ _ := True
  value_eq h := by rw [h]
  rest_eq h := by rw [h]
  inBounds_eq h := by rw [h]
  pos_eq_iff h ht := by rw [h, ht]
  withValue h _ := by rw [h]
  advance h _ _ _ := by rw [h]
  toEnd h _ := by rw [h]
  moveTo h ht _ := by rw [h, ht]
  start _ := ⟨(), rfl⟩
  write _ _ := trivial
  log _ _ _ := trivial

namespace Run

/-- What a run comes to, whatever it leaves in the memory. -/
def outcome {α : Type} : EStateM.Result Stop Memory α → Except Stop α
  | .ok a _ => .ok a
  | .error e _ => .error e

end Run

section AnyTrace

variable {p : Parser Ref} (hp : p.Plain) {env : Env} (henv : env.Plain) {cells : Cells}
  (hcells : cells.Plain) {n : Nat} {s : State} {w : Trace} {m : Memory}

include hp henv hcells

/-- What a plain parser comes to depends on the delayed parts, and not on the trace. -/
theorem Parser.eval_any_trace (w v : Trace) :
    Run.Agree Simulation.anyTrace.mem (Option.Rel Eq) (p.eval env n s ⟨cells, w⟩)
      (p.eval env n s ⟨cells, v⟩) := by
  -- The two memories have the same cells; of their traces nothing is asked.
  have hmem : Simulation.anyTrace.mem ⟨cells, w⟩ ⟨cells, v⟩ := ⟨⟨rfl, hcells⟩, trivial⟩
  exact Simulation.agree_eval (σ := .anyTrace) (fun _ _ => Iff.rfl) henv hp (v := ()) rfl hmem n

theorem Parser.eval_ok_any_trace {o : Option State} (h : p.eval env n s ⟨cells, w⟩ = .ok o m)
    (v : Trace) :
    m.cells.Plain ∧ ∃ v', p.eval env n s ⟨cells, v⟩ = .ok o ⟨m.cells, v'⟩ := by
  have hagree := Parser.eval_any_trace hp henv hcells (n := n) (s := s) w v
  rw [h] at hagree
  generalize p.eval env n s ⟨cells, v⟩ = r at hagree
  cases hagree with
  | @ok _ o' _ m' hstate hmem =>
    obtain ⟨hsame, hplain⟩ := hmem.1
    have ho : o = o' := by
      cases hstate with
      | none => rfl
      | some hs => rw [hs]
    exact ⟨hplain, m'.trace, by rw [ho, hsame]⟩

theorem Parser.eval_error_any_trace {e : Stop} (h : p.eval env n s ⟨cells, w⟩ = .error e m)
    (v : Trace) : ∃ m', p.eval env n s ⟨cells, v⟩ = .error e m' := by
  have hagree := Parser.eval_any_trace hp henv hcells (n := n) (s := s) w v
  rw [h] at hagree
  generalize p.eval env n s ⟨cells, v⟩ = r at hagree
  cases hagree with
  | fault => exact ⟨_, rfl⟩
  | exhausted => exact ⟨_, rfl⟩

end AnyTrace

/-! ## Segments -/

/-- A piece of a text that was scanned: a run of characters, or what an element took, with
    the value it gave. -/
inductive Segment where
  | run (text : Text)
  | item (text : Text) (value : Value)

namespace Segment

/-- The characters of a segment. -/
def text : Segment → Text
  | run text => text
  | item text _ => text

/-- Whether the segment is a run of characters. -/
def isRun : Segment → Bool
  | run _ => true
  | item _ _ => false

/-- The entry that a segment makes in the result, if runs are converted like this. -/
def entry (convert : Text → Value) : Segment → Value
  | run text => convert text
  | item _ value => value

end Segment

/-- A scan: what it looks for, as long as what holds, in which text and from where, and the
    delayed parts that it finds. -/
structure Scanning where
  element : Action
  goesOn : Text → Bool
  text : Text
  start : Nat
  cells : Cells

namespace Scanning

open Run

variable (c : Scanning)

/-- The characters from one place up to another. -/
def slice (low high : Nat) : Text := (c.text.drop low).take (high - low)

/-- There is a character at the place, and the condition holds there. -/
structure GoesOn (pos : Nat) : Prop where
  ahead : pos < c.text.length
  holds : c.goesOn (c.text.drop pos) = true

/-- The element is tried at a place where the scan goes on, without a value, and answers. -/
structure Tried (pos : Nat) (cells : Cells) (o : Option State) (cells' : Cells) : Prop where
  goesOn : c.GoesOn pos
  answer : ∃ w w', c.element (State.make c.text pos .none) ⟨cells, w⟩ = .ok o ⟨cells', w'⟩

/-- The element is tried at a place where the scan goes on, and ends the run: it raises a
    fault or gives up. -/
structure Broken (pos : Nat) (cells : Cells) (e : Stop) : Prop where
  goesOn : c.GoesOn pos
  answer : ∃ w m', c.element (State.make c.text pos .none) ⟨cells, w⟩ = .error e m'

/-- From one place up to another the element is tried at every place and never matches. -/
inductive Passed (low : Nat) (cells : Cells) : Nat → Cells → Prop
  | none : Passed low cells low cells
  | one {pos cells₁ cells'} : Passed low cells pos cells₁ → c.Tried pos cells₁ none cells' →
      Passed low cells (pos + 1) cells'

/-- The scan comes to a place, with these segments behind it.  A run is as long as it can
    be: it is not empty, and it does not follow another one. -/
inductive Reached : List Segment → Nat → Cells → Prop
  | start : Reached [] c.start c.cells
  | run {segments low cells high cells'} : Reached segments low cells →
      (∀ segment ∈ segments.getLast?, segment.isRun = false) → low < high →
      c.Passed low cells high cells' →
      Reached (segments ++ [.run (c.slice low high)]) high cells'
  | item {segments pos cells next cells'} : Reached segments pos cells →
      c.Tried pos cells (some next) cells' → pos < next.pos →
      Reached (segments ++ [.item (c.slice pos next.pos) next.value]) next.pos cells'

/-- The element is a plain parser, the delayed parts are plain, and the scan starts within
    its text. -/
structure Plain : Prop where
  element : ∃ (p : Parser Ref) (env : Env) (n : Nat),
    p.Plain ∧ env.Plain ∧ c.element = p.eval env n
  cells : c.cells.Plain
  start_le : c.start ≤ c.text.length

/-- What comes of a scan that has come to a place and goes no further.  It does not match
    if there is nothing behind it. -/
inductive Ends (convert : Text → Value) (segments : List Segment) (pos : Nat) (cells : Cells) :
    Except Stop (Option State) → Prop
  | stopped : ¬ c.GoesOn pos → Ends convert segments pos cells
      (.ok (if segments.isEmpty then none
        else some (State.make c.text pos (.list (segments.map (Segment.entry convert))))))
  | stalled {next cells'} : c.Tried pos cells (some next) cells' → next.pos = pos →
      Ends convert segments pos cells (.error (.fault (.grammar .interleaveStalled)))
  | broken {e} : c.Broken pos cells e → Ends convert segments pos cells (.error e)

/-! ## Slices -/

@[simp] theorem slice_self (pos : Nat) : c.slice pos pos = [] := by
  rw [slice, Nat.sub_self, List.take_zero]

theorem slice_append {low mid high : Nat} (hlow : low ≤ mid) (hhigh : mid ≤ high) :
    c.slice low mid ++ c.slice mid high = c.slice low high := by
  have hsplit : high - low = (mid - low) + (high - mid) := by omega
  have hdrop : c.text.drop mid = (c.text.drop low).drop (mid - low) := by
    rw [List.drop_drop, Nat.add_sub_cancel' hlow]
  rw [slice, slice, slice, hsplit, List.take_add, hdrop]

theorem slice_succ {low pos : Nat} (hlow : low ≤ pos) {ch : Char} {rest : Text}
    (h : c.text.drop pos = ch :: rest) : c.slice low (pos + 1) = c.slice low pos ++ [ch] := by
  have hone : c.slice pos (pos + 1) = [ch] := by
    rw [slice, h, Nat.add_sub_cancel_left]
    rfl
  rw [← c.slice_append hlow (Nat.le_succ pos), hone]

theorem slice_ne_nil {low high : Nat} (hlow : low < high) (hhigh : high ≤ c.text.length) :
    c.slice low high ≠ [] := by
  rw [← List.length_pos_iff, slice, List.length_take, List.length_drop]
  omega

theorem flatten_concat (segments : List Segment) (last : Segment) :
    ((segments ++ [last]).map Segment.text).flatten
      = (segments.map Segment.text).flatten ++ last.text := by
  rw [List.map_append, List.flatten_append, List.map_singleton, List.flatten_singleton]

theorem not_goesOn_iff {pos : Nat} (hpos : pos ≤ c.text.length) :
    ¬ c.GoesOn pos ↔ pos = c.text.length ∨ c.goesOn (c.text.drop pos) = false := by
  refine ⟨fun h => ?_, ?_⟩
  · by_cases hend : pos = c.text.length
    · exact .inl hend
    · exact .inr (Bool.eq_false_iff.2 fun hholds => h ⟨by omega, hholds⟩)
  · rintro (hend | hfalse) ⟨hahead, hholds⟩
    · omega
    · rw [hfalse] at hholds
      cases hholds

/-! ## What is reached -/

section Plain

variable {c} (hc : c.Plain)

include hc

/-- An attempt has the same answer whatever the trace. -/
theorem Tried.answers {pos : Nat} {cells cells' : Cells} {o : Option State}
    (h : c.Tried pos cells o cells') (hcells : cells.Plain) (w : Trace) :
    ∃ w', c.element (State.make c.text pos .none) ⟨cells, w⟩ = .ok o ⟨cells', w'⟩ := by
  obtain ⟨-, v, v', hanswer⟩ := h
  obtain ⟨p, env, n, hp, henv, helement⟩ := hc.element
  rw [helement] at hanswer ⊢
  exact (Parser.eval_ok_any_trace hp henv hcells hanswer w).2

theorem Broken.answers {pos : Nat} {cells : Cells} {e : Stop} (h : c.Broken pos cells e)
    (hcells : cells.Plain) (w : Trace) :
    ∃ m', c.element (State.make c.text pos .none) ⟨cells, w⟩ = .error e m' := by
  obtain ⟨-, v, m', hanswer⟩ := h
  obtain ⟨p, env, n, hp, henv, helement⟩ := hc.element
  rw [helement] at hanswer ⊢
  exact Parser.eval_error_any_trace hp henv hcells hanswer w

theorem Tried.plain {pos : Nat} {cells cells' : Cells} {o : Option State}
    (h : c.Tried pos cells o cells') (hcells : cells.Plain) : cells'.Plain := by
  obtain ⟨-, w, w', hanswer⟩ := h
  obtain ⟨p, env, n, hp, henv, helement⟩ := hc.element
  rw [helement] at hanswer
  exact (Parser.eval_ok_any_trace hp henv hcells hanswer w).1

/-- A match goes forward and not beyond the end. -/
theorem Tried.forward {pos : Nat} {cells cells' : Cells} {next : State}
    (h : c.Tried pos cells (some next) cells') (hcells : cells.Plain) :
    pos ≤ next.pos ∧ next.pos ≤ c.text.length := by
  obtain ⟨⟨hahead, -⟩, w, w', hanswer⟩ := h
  obtain ⟨p, env, n, hp, henv, helement⟩ := hc.element
  rw [helement] at hanswer
  have hin : (State.make c.text pos .none).pos ≤ (State.make c.text pos .none).text.length :=
    Nat.le_of_lt hahead
  obtain ⟨hwithin, -⟩ := Parser.eval_within hp henv hcells (State.Within.self hin) hanswer
  exact ⟨hwithin.low, hwithin.high⟩

theorem Passed.plain {low pos : Nat} {cells cells' : Cells} (h : c.Passed low cells pos cells')
    (hcells : cells.Plain) : cells'.Plain := by
  induction h with
  | none => exact hcells
  | one _ htried ih => exact htried.plain hc ih

omit hc in
theorem Passed.le {low pos : Nat} {cells cells' : Cells} (h : c.Passed low cells pos cells') :
    low ≤ pos := by
  induction h with
  | none => exact Nat.le_refl _
  | one _ _ ih => exact Nat.le_succ_of_le ih

omit hc in
theorem Passed.of_not_lt {low pos : Nat} {cells cells' : Cells}
    (h : c.Passed low cells pos cells') (hlow : ¬ low < pos) : pos = low ∧ cells' = cells := by
  cases h with
  | none => exact ⟨rfl, rfl⟩
  | one hpassed _ => exact absurd (Nat.lt_succ_of_le hpassed.le) hlow

omit hc in
theorem Passed.bounds {low pos : Nat} {cells cells' : Cells} (h : c.Passed low cells pos cells')
    (hlow : low ≤ c.text.length) : low ≤ pos ∧ pos ≤ c.text.length := by
  induction h with
  | none => exact ⟨Nat.le_refl _, hlow⟩
  | one _ htried ih => exact ⟨Nat.le_succ_of_le ih.1, htried.goesOn.ahead⟩

theorem Reached.bounds {segments : List Segment} {pos : Nat} {cells : Cells}
    (h : c.Reached segments pos cells) :
    cells.Plain ∧ c.start ≤ pos ∧ pos ≤ c.text.length := by
  induction h with
  | start => exact ⟨hc.cells, Nat.le_refl _, hc.start_le⟩
  | run _ _ hlow hpassed ih =>
    obtain ⟨hplain, hfrom, hto⟩ := ih
    have hend := (hpassed.bounds hto).2
    exact ⟨hpassed.plain hc hplain, by omega, hend⟩
  | item _ htried hpos ih =>
    obtain ⟨hplain, hfrom, -⟩ := ih
    have hend := (htried.forward hc hplain).2
    exact ⟨htried.plain hc hplain, by omega, hend⟩

/-- The segments are what lies between the start and the place that was reached, in order
    and without gaps. -/
theorem Reached.slice_eq {segments : List Segment} {pos : Nat} {cells : Cells}
    (h : c.Reached segments pos cells) :
    c.slice c.start pos = (segments.map Segment.text).flatten := by
  induction h with
  | start => rw [slice_self]; rfl
  | run hreached _ hlow _ ih =>
    obtain ⟨-, hfrom, -⟩ := hreached.bounds hc
    rw [flatten_concat, ← ih]
    exact (c.slice_append hfrom (Nat.le_of_lt hlow)).symm
  | item hreached _ hpos ih =>
    obtain ⟨-, hfrom, -⟩ := hreached.bounds hc
    rw [flatten_concat, ← ih]
    exact (c.slice_append hfrom (Nat.le_of_lt hpos)).symm

theorem Reached.ne_nil {segments : List Segment} {pos : Nat} {cells : Cells}
    (h : c.Reached segments pos cells) : ∀ segment ∈ segments, segment.text ≠ [] := by
  induction h with
  | start => exact fun _ hmem => absurd hmem List.not_mem_nil
  | run hreached hlast hlow hpassed ih =>
    have hend := ((hreached.run hlast hlow hpassed).bounds hc).2.2
    exact List.forall_mem_append.2 ⟨ih, List.forall_mem_singleton.2 (c.slice_ne_nil hlow hend)⟩
  | item hreached htried hpos ih =>
    have hend := ((hreached.item htried hpos).bounds hc).2.2
    exact List.forall_mem_append.2 ⟨ih, List.forall_mem_singleton.2 (c.slice_ne_nil hpos hend)⟩

omit hc in
/-- No run follows another. -/
theorem Reached.isChain {segments : List Segment} {pos : Nat} {cells : Cells}
    (h : c.Reached segments pos cells) :
    segments.IsChain fun a b => ¬ (a.isRun = true ∧ b.isRun = true) := by
  induction h with
  | start => exact .nil
  | run _ hlast _ _ ih =>
    refine ih.append (.singleton _) fun a ha b _ hab => ?_
    rw [hlast a ha] at hab
    exact absurd hab.1 Bool.false_ne_true
  | item _ _ _ ih =>
    refine ih.append (.singleton _) fun a _ b hb hab => ?_
    rw [List.head?_cons, Option.mem_some_iff] at hb
    rw [← hb] at hab
    exact absurd hab.2 Bool.false_ne_true

end Plain

/-! ## Ends -/

section Ends

variable {c} {convert : Text → Value} {segments : List Segment} {pos : Nat} {cells : Cells}

theorem Ends.reached {s : State} (h : c.Ends convert segments pos cells (.ok (some s))) :
    ¬ c.GoesOn pos ∧ s = State.make c.text pos (.list (segments.map (Segment.entry convert))) := by
  generalize ho : (Except.ok (some s) : Except Stop (Option State)) = o at h
  cases h with
  | stopped hstop =>
    rw [Except.ok.injEq] at ho
    split at ho
    · cases ho
    · exact ⟨hstop, Option.some.inj ho⟩
  | stalled => cases ho
  | broken => cases ho

/-- A scan that does not match has nothing behind it, so it stops where it starts. -/
theorem Ends.failed (hreached : c.Reached segments pos cells)
    (h : c.Ends convert segments pos cells (.ok none)) : ¬ c.GoesOn c.start := by
  generalize ho : (Except.ok none : Except Stop (Option State)) = o at h
  cases h with
  | stopped hstop =>
    rw [Except.ok.injEq] at ho
    split at ho
    · next hempty =>
      cases hreached with
      | start => exact hstop
      | run => simp at hempty
      | item => simp at hempty
    · cases ho
  | stalled => cases ho
  | broken => cases ho

/-- A scan that raises a fault complains of an element that took nothing, or the element
    has raised the fault. -/
theorem Ends.faulted {f : Fault} (h : c.Ends convert segments pos cells (.error (.fault f))) :
    (f = .grammar .interleaveStalled ∧
      ∃ next cells', c.Tried pos cells (some next) cells' ∧ next.pos = pos) ∨
    c.Broken pos cells (.fault f) := by
  cases h with
  | stalled htried hpos => exact .inl ⟨rfl, _, _, htried, hpos⟩
  | broken hbroken => exact .inr hbroken

end Ends

end Scanning

end Descent

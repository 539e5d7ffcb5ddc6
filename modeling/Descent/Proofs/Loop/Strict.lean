/-
  Descent.Proofs.Loop.Strict

  Loops make strict progress.  A repetition without an upper bound and a scan compare
  positions only for equality; that they go forward is a matter of what they apply, for a
  plain parser never goes back (`Parser.eval_within`).  With it each turn leads further on in
  the text, so the places of a course ascend (`State.Ascending`), what lies ahead bounds
  their number, and a loop ends wherever all that it applies does.  An upper bound counts
  the turns instead, and then they may stay where they are.  That these are all applications
  of the element is a matter of `Loop.run_eq_of_applied`.
-/
import Descent.Proofs.Loop.Course
import Descent.Proofs.Loop.Segments

namespace Descent

/-- Places in the text of a state, each further on than those before it, none before the
    state and none at the end. -/
structure State.Ascending (s : State) (places : List State) : Prop where
  inside : ∀ t ∈ places, t.text = s.text ∧ s.pos ≤ t.pos ∧ t.pos < s.text.length
  ordered : places.Pairwise fun t u => t.pos < u.pos

namespace Loop

open Run

variable {α : Type} (L : Loop α)

/-- The loop stands in a text, not before a place, among plain delayed parts. -/
structure Placed (whole : Text) (low : Nat) (x : α) (m : Memory) : Prop where
  place : (L.place x).Within whole low
  cells : m.cells.Plain

/-- From a stand at the place of a state the loop goes strictly forward: the places at which
    it applies its element ascend, and so do those at which it calls its condition.  The
    applications are no more than the characters ahead, and with fuel for so many turns the
    loop is given up only where one of them is. -/
structure StrictFrom (s : State) (fuel : Nat) (x : α) (m : Memory) : Prop where
  applied : s.Ascending ((L.applications fuel x m).map Prod.fst)
  asked : s.Ascending (L.questions fuel x m)
  few : (L.applications fuel x m).length ≤ s.text.length - s.pos
  ends : s.rest.length < fuel → GaveUp (L.run fuel x m) →
    ∃ a ∈ L.applications fuel x m, GaveUp (L.element a.1 a.2)

section Places

variable {L} {whole : Text} {low : Nat} {next : α → α → Prop} {x : α} {m : Memory}

/-- What is read off the open stands of a course, where text lies ahead of them, lies in the
    text; and as the stands are related, so are the places. -/
theorem Invariant.places (h : L.Invariant (L.Placed whole low) next)
    (hahead : ∀ x, L.isOpen x = true → (L.place x).pos < (L.place x).text.length)
    (rel : Nat → Nat → Prop) (hrel : ∀ {x y}, next x y → rel (L.place x).pos (L.place y).pos)
    (htrans : ∀ {x y z}, next x y → next y z → next x z)
    {read : α × Memory → Option State}
    (hread : ∀ a t, read a = some t → t = L.place a.1 ∧ L.isOpen a.1 = true)
    (fuel : Nat) (hx : L.Placed whole low x m) :
    (∀ t ∈ (L.stands fuel x m).filterMap read,
      t.text = whole ∧ low ≤ t.pos ∧ t.pos < whole.length) ∧
    ((L.stands fuel x m).filterMap read).Pairwise fun t u => rel t.pos u.pos := by
  constructor
  · intro t ht
    obtain ⟨a, ha, hat⟩ := List.mem_filterMap.1 ht
    obtain ⟨rfl, hopen⟩ := hread a t hat
    have hplace := (h.stands fuel hx a ha).place
    have hlt := hahead a.1 hopen
    rw [hplace.text] at hlt
    exact ⟨hplace.text, hplace.low, hlt⟩
  · refine List.Pairwise.filterMap read ?_ (h.stands_pairwise htrans fuel hx).1
    intro a b hab t ht u hu
    obtain ⟨rfl, -⟩ := hread a t ht
    obtain ⟨rfl, -⟩ := hread b u hu
    exact hrel hab

theorem applications_map_fst (fuel : Nat) (x : α) (m : Memory) :
    (L.applications fuel x m).map Prod.fst
      = (L.stands fuel x m).filterMap fun a => (L.application? a).map Prod.fst := by
  rw [applications, List.map_filterMap]

theorem applied_open (a : α × Memory) (t : State)
    (h : (L.application? a).map Prod.fst = some t) : t = L.place a.1 ∧ L.isOpen a.1 = true := by
  obtain ⟨⟨s, m'⟩, happlied, rfl⟩ := Option.map_eq_some_iff.1 h
  obtain ⟨hplace, hask⟩ := application?_eq_some happlied
  exact ⟨hplace, (asks_eq_true hask).1⟩

theorem asked_open (a : α × Memory) (t : State) (h : L.question? a = some t) :
    t = L.place a.1 ∧ L.isOpen a.1 = true := by
  unfold question? at h
  split at h
  · next hasked =>
    cases h
    exact ⟨rfl, (Bool.and_eq_true_iff.1 hasked).1⟩
  · cases h

/-- A loop whose turns each go on further in the text goes strictly forward. -/
theorem Invariant.strictFrom {s : State}
    (h : L.Invariant (L.Placed s.text s.pos) fun x y => (L.place x).pos < (L.place y).pos)
    (hahead : ∀ x, L.isOpen x = true → (L.place x).pos < (L.place x).text.length)
    (hanswers : L.Keeps answering) (fuel : Nat) (hx : L.Placed s.text s.pos x m)
    (hstart : (L.place x).pos = s.pos) : L.StrictFrom s fuel x m := by
  have hsize : ∀ {x m y m'}, L.Placed s.text s.pos x m → L.isOpen x = true →
      L.Placed s.text s.pos y m' → (L.place x).pos < (L.place y).pos →
      s.text.length - (L.place y).pos < s.text.length - (L.place x).pos := by
    intro x m y m' _ _ hy hlt
    have hhigh := hy.place.high
    omega
  have hleft : ∀ {x m}, L.Placed s.text s.pos x m → L.isOpen x = true →
      0 < s.text.length - (L.place x).pos := by
    intro x m hx hopen
    have hlt := hahead x hopen
    rw [hx.place.text] at hlt
    omega
  have happlied := h.places hahead (· < ·) id Nat.lt_trans applied_open fuel hx
  rw [← applications_map_fst] at happlied
  have hasked := h.places hahead (· < ·) id Nat.lt_trans asked_open fuel hx
  refine ⟨⟨happlied.1, happlied.2⟩, ⟨hasked.1, hasked.2⟩, ?_, fun hfuel => ?_⟩
  · rw [← hstart]
    exact h.applications_length_le _ hsize hleft fuel hx
  · rw [s.rest_eq, List.length_drop, ← hstart] at hfuel
    exact h.exists_of_gaveUp _ hsize hanswers hx hfuel

end Places

/-! ## What a plain element keeps -/

section Plain

variable {p : Parser Ref} (hp : p.Plain) {env : Env} (henv : env.Plain) {n : Nat}

include hp henv

/-- An application of a plain element does not go back, and leaves the delayed parts plain. -/
theorem Placed.applied {L : Loop α} {whole : Text} {low : Nat} {x : α} {m m₁ m₂ : Memory}
    {o : Option State} (hx : L.Placed whole low x m) (hask : L.asks x m = .ok true m₁)
    (helement : p.eval env n (L.place x) m₁ = .ok o m₂) :
    m₂.cells.Plain ∧ ∀ t ∈ o, t.Within whole (L.place x).pos := by
  have hm₁ : m₁.cells.Plain := by
    rw [asks_cells hask]
    exact hx.cells
  have hplace : (L.place x).Within whole (L.place x).pos :=
    ⟨hx.place.text, Nat.le_refl _, hx.place.high⟩
  refine ⟨(Parser.eval_ok_any_trace hp henv hm₁ helement []).1, fun t ht => ?_⟩
  cases ht
  exact (Parser.eval_within hp henv hm₁ hplace helement).1

/-! ## Repetitions -/

/-- A turn of a repetition does not go back and has one more result, and without an upper
    bound it goes forward. -/
theorem many_invariant (bounds : Bounds) (condition : Option (Callback Text Bool))
    (carried : Value) (whole : Text) (low : Nat) :
    let L := many (p.eval env n) bounds condition carried
    L.Invariant (L.Placed whole low) fun x y => x.state.pos ≤ y.state.pos ∧
      x.count < y.count ∧ (bounds.atMost = 0 → x.state.pos < y.state.pos) := by
  refine ⟨fun {x m y m'} hx hturn => ?_⟩
  obtain ⟨m₁, o, m₂, hask, helement, hgo⟩ := exists_of_turn hturn
  obtain ⟨hm₂, hwithin⟩ := hx.applied hp henv hask helement
  cases o with
  | none => cases hgo
  | some t =>
    have ht := hwithin t rfl
    have hlow := hx.place.low
    have hle : x.state.pos ≤ t.pos := ht.low
    unfold many at hgo
    dsimp only at hgo
    split at hgo
    · cases hgo
    · -- The guard refuses an attempt that has stayed where it was, but only without a bound.
      next hmoved =>
      cases hgo
      rw [Bool.and_eq_true, Bounds.unlimited, beq_iff_eq, beq_iff_eq, not_and] at hmoved
      exact ⟨⟨⟨ht.text, Nat.le_trans hlow hle, ht.high⟩, hm₂⟩, hle, Nat.lt_succ_self _,
        fun hmost => Nat.lt_of_le_of_ne hle fun heq => hmoved hmost heq.symm⟩

/-- Under an upper bound a repetition applies its element so often at most, inside the text
    and never going back. -/
theorem many_bounded {bounds : Bounds} (hmost : 0 < bounds.atMost)
    (condition : Option (Callback Text Bool)) {s : State} {m : Memory}
    (hs : s.pos ≤ s.text.length) (hm : m.cells.Plain) (fuel : Nat) :
    let applied := (many (p.eval env n) bounds condition s.value).applications fuel ⟨s, 0, []⟩ m
    (applied.length : Int) ≤ bounds.atMost ∧
    (∀ a ∈ applied, a.1.text = s.text ∧ s.pos ≤ a.1.pos ∧ a.1.pos < s.text.length) ∧
    applied.Pairwise fun a b => a.1.pos ≤ b.1.pos := by
  intro applied
  let L := many (p.eval env n) bounds condition s.value
  have hx : L.Placed s.text s.pos ⟨s, 0, []⟩ m := ⟨⟨rfl, Nat.le_refl _, hs⟩, hm⟩
  have hturns : L.Invariant (L.Placed s.text s.pos) fun x y =>
      x.state.pos ≤ y.state.pos ∧ x.count < y.count :=
    (many_invariant hp henv bounds condition s.value s.text s.pos).weaken
      fun h => ⟨h.1, h.2.1⟩
  have hbelow : ∀ {x : Repeated}, L.isOpen x = true → (x.count : Int) < bounds.atMost := by
    intro x hopen
    have hreached := (many_open hopen).2
    rw [Bounds.reached, Bool.and_eq_false_iff, bne_eq_false_iff_eq, decide_eq_false_iff_not]
      at hreached
    omega
  constructor
  · -- What each turn makes smaller is the number of results that are still allowed.
    have hle : applied.length ≤ (bounds.atMost - ((0 : Nat) : Int)).toNat :=
      hturns.applications_length_le (fun x => (bounds.atMost - x.count).toNat)
        (fun {x _ y _} _ hopen _ hxy => by
          have hlt := hbelow hopen
          have hcount := hxy.2
          omega)
        (fun {x _} _ hopen => by
          have hlt := hbelow hopen
          omega)
        fuel hx
    omega
  · obtain ⟨hinside, hordered⟩ := hturns.places (fun _ h => (many_open h).1) (· ≤ ·)
      (fun h => h.1) (fun hxy hyz => ⟨Nat.le_trans hxy.1 hyz.1, Nat.lt_trans hxy.2 hyz.2⟩)
      applied_open fuel hx
    rw [← applications_map_fst] at hinside hordered
    rw [List.pairwise_map] at hordered
    exact ⟨fun a ha => hinside a.1 (List.mem_map_of_mem ha), hordered⟩

/-! ## Scans -/

/-- A turn of a scan goes forward. -/
theorem scan_invariant (ofRun : Callback Text Value) (condition : Callback Text Bool)
    (whole : Text) (low : Nat) :
    let L := scan (p.eval env n) ofRun condition
    L.Invariant (L.Placed whole low) fun x y => x.state.pos < y.state.pos := by
  refine ⟨fun {x m y m'} hx hturn => ?_⟩
  obtain ⟨m₁, o, m₂, hask, helement, hgo⟩ := exists_of_turn hturn
  obtain ⟨hm₂, hwithin⟩ := hx.applied hp henv hask helement
  have hlow := hx.place.low
  cases o with
  | none =>
    -- One character joins the run, and there is one, since the stand is open.
    cases hgo
    have hahead : x.state.pos < x.state.text.length := scan_open (asks_eq_true hask).1
    have hwhole : x.state.text = whole := hx.place.text
    have hhigh : x.state.pos + 1 ≤ whole.length := hwhole ▸ hahead
    exact ⟨⟨⟨hwhole, Nat.le_succ_of_le hlow, hhigh⟩, hm₂⟩, Nat.lt_succ_self _⟩
  | some t =>
    have ht := hwithin t rfl
    have hle : x.state.pos ≤ t.pos := ht.low
    unfold scan at hgo
    dsimp only at hgo
    split at hgo
    · cases hgo
    · -- The guard compares positions for equality only; that the element has not gone back
      -- is a matter of its own.
      next hmoved =>
      obtain ⟨items, m₃, hflush, hend⟩ := exists_of_bind hgo
      cases hend
      rw [beq_iff_eq] at hmoved
      have hpos : (x.state.moveTo t.pos .none).pos = t.pos := State.moveTo_pos _ _ _
      have htext : (x.state.moveTo t.pos .none).text = whole :=
        (State.moveTo_text _ _ _).trans hx.place.text
      have hm' : m'.cells.Plain := by
        rw [flush_cells hflush]
        exact hm₂
      refine ⟨⟨⟨htext, ?_, ?_⟩, hm'⟩, ?_⟩
      · exact hpos.symm ▸ Nat.le_trans hlow hle
      · exact hpos.symm ▸ ht.high
      · exact hpos.symm ▸ Nat.lt_of_le_of_ne hle (Ne.symm hmoved)

end Plain

end Loop

namespace Parser

open Run Loop

/-- A repetition without an upper bound and a scan make strict progress: from a state in its
    text, the places at which a plain element is applied ascend, and so do those at which the
    condition is called, from the state on and never at the end of the text.  So the element
    is applied at most once for each character ahead, and with fuel for so many turns the
    loop comes to an end wherever each application does.  With an upper bound the element is
    applied so often at most, inside the text and never going back, also where it takes
    nothing.  There are no other applications: a loop over any element that does the same in
    these makes the same run. -/
theorem loops_strict {p : Parser Ref} (hp : p.Plain) {env : Env} (henv : env.Plain)
    {m : Memory} (hm : m.cells.Plain) {s : State} (hs : s.pos ≤ s.text.length) (n : Nat) :
    (∀ bounds condition,
      let L := Loop.many (p.eval env n) bounds condition s.value
      let x : Repeated := ⟨s, 0, []⟩
      (many p bounds condition).eval env n s = L.run n x ∧
      (∀ q : Action, (∀ a ∈ L.applications n x m, q a.1 a.2 = p.eval env n a.1 a.2) →
        q.many bounds condition n s m = (many p bounds condition).eval env n s m) ∧
      (bounds.atMost = 0 → L.StrictFrom s n x m) ∧
      (0 < bounds.atMost →
        (L.applications n x m).length ≤ bounds.atMost ∧
        (∀ a ∈ L.applications n x m,
          a.1.text = s.text ∧ s.pos ≤ a.1.pos ∧ a.1.pos < s.text.length) ∧
        (L.applications n x m).Pairwise fun a b => a.1.pos ≤ b.1.pos)) ∧
    (∀ ofRun condition,
      let L := Loop.scan (p.eval env n) ofRun condition
      let x : Scanned := ⟨s, [], []⟩
      (interleave p ofRun condition).eval env n s = L.run n x ∧
      (∀ q : Action, (∀ a ∈ L.applications n x m, q a.1 a.2 = p.eval env n a.1 a.2) →
        q.interleave ofRun condition n s m = (interleave p ofRun condition).eval env n s m) ∧
      L.StrictFrom s n x m) := by
  refine ⟨fun bounds condition => ?_, fun ofRun condition => ?_⟩
  · intro L x
    have hx : L.Placed s.text s.pos x m := ⟨⟨rfl, Nat.le_refl _, hs⟩, hm⟩
    have hturns := many_invariant hp henv (n := n) bounds condition s.value s.text s.pos
    have hopen : ∀ x, L.isOpen x = true → (L.place x).pos < (L.place x).text.length :=
      fun x hx => (many_open hx).1
    refine ⟨many_run n s 0 [], fun q hq => ?_, fun hmost => ?_, fun hmost => ?_⟩
    · have hrun : (many p bounds condition).eval env n s m = L.run n x m :=
        congrFun (many_run n s 0 []) m
      rw [Action.many, many_run, hrun]
      exact L.run_eq_of_applied hq
    · have hforward := hturns.weaken fun h => h.2.2 hmost
      exact hforward.strictFrom hopen (many_keeps answering_complains) n hx rfl
    · exact many_bounded hp henv hmost condition hs hm n
  · intro L x
    have hx : L.Placed s.text s.pos x m := ⟨⟨rfl, Nat.le_refl _, hs⟩, hm⟩
    have hforward := scan_invariant hp henv (n := n) ofRun condition s.text s.pos
    have hkeeps : L.Keeps answering :=
      scan_keeps answering_complains ofRun.notes_any
    refine ⟨scan_run n s [] [], fun q hq => ?_,
      hforward.strictFrom (fun _ => scan_open) hkeeps n hx rfl⟩
    have hrun : (interleave p ofRun condition).eval env n s m = L.run n x m :=
      congrFun (scan_run n s [] []) m
    rw [Action.interleave, scan_run, hrun]
    exact L.run_eq_of_applied hq

/-- Of two groups with a character between them, the repetition finds the first and is
    applied once more; the scan is applied at each place where it has not gone behind a
    group. -/
theorem loops_strict_groups :
    let s := State.start "(ab)x(c d)".toList
    let m : Memory := ⟨Sample.cells, []⟩
    let repeated := Loop.many (Sample.group.eval ⟨[], []⟩ 20) {} none .none
    let scanned := Loop.scan (Sample.group.eval ⟨[], []⟩ 20) (.total .str) (.total fun _ => true)
    Sample.group.Plain ∧ Env.Plain ⟨[], []⟩ ∧ m.cells.Plain ∧ s.pos ≤ s.text.length ∧
    (repeated.applications 20 ⟨s, 0, []⟩ m).map (fun a => a.1.pos) = [0, 4] ∧
    repeated.StrictFrom s 20 ⟨s, 0, []⟩ m ∧
    (scanned.applications 20 ⟨s, [], []⟩ m).map (fun a => a.1.pos) = [0, 4, 5] ∧
    (scanned.questions 20 ⟨s, [], []⟩ m).map State.pos = [0, 4, 5] ∧
    scanned.StrictFrom s 20 ⟨s, [], []⟩ m := by
  intro s m repeated scanned
  have hs : s.pos ≤ s.text.length := Nat.zero_le _
  obtain ⟨hmany, hscan⟩ := loops_strict Sample.group_plain Sample.env_plain
    (m := m) Sample.cells_plain hs 20
  exact ⟨Sample.group_plain, Sample.env_plain, Sample.cells_plain, hs, by decide +kernel,
    (hmany {} none).2.2.1 rfl, by decide +kernel, by decide +kernel, (hscan _ _).2.2⟩

end Parser
end Descent

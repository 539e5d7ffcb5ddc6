/-
  Descent.Proofs.Markup.Span

  What the parser of spans accepts (`starSpan_iff_ahead`).  The stars on the right are found by
  a search for the first run of so many stars, and such a run overlaps itself: if the text
  between the stars ended with a star, the run would be found one character early.  So a span
  lies ahead only if that text ends with another character, and then the stars found first are
  those behind it.  No stars at all delimit nothing, which cannot begin a span.
-/
import Descent.Proofs.Markup.Adequacy
import Descent.Proofs.Quoted.RoundTrip

namespace Descent.Markup

open Run Descent.Action

/-! ## The grammar of spans -/

/-- A text begins with a span: with `n` stars, with something that neither begins nor ends with
    a star and has no `n` stars in a row, and with `n` stars again. -/
structure SpanAhead (n : Nat) (t x tail : Text) : Prop where
  text : t = List.replicate n '*' ++ (x ++ (List.replicate n '*' ++ tail))
  nonempty : x ≠ []
  opens : x.head? ≠ some '*'
  closes : x.getLast? ≠ some '*'
  free : ¬List.replicate n '*' <:+: x

variable {n : Nat} {t x : Text}

theorem opensSpan_iff : opensSpan x = true ↔ x ≠ [] ∧ x.head? ≠ some '*' := by
  cases x with
  | nil => simp [opensSpan]
  | cons c rest => simp [opensSpan]

/-- A span lies ahead if and only if its content is what the search for the stars finds, and
    can begin a span. -/
theorem exists_spanAhead_iff (hn : 0 < n) : (∃ tail, SpanAhead n t x tail) ↔
    Text.quoted? (List.replicate n '*') t = some x ∧ opensSpan x = true := by
  rw [Text.quoted?_eq_some_iff, Text.quotable_replicate_iff hn, opensSpan_iff]
  refine ⟨?_, ?_⟩
  · rintro ⟨tail, htext, hnonempty, hopens, hcloses, hfree⟩
    exact ⟨⟨⟨hcloses, hfree⟩, tail, htext⟩, hnonempty, hopens⟩
  · rintro ⟨⟨⟨hcloses, hfree⟩, tail, htext⟩, hnonempty, hopens⟩
    exact ⟨tail, htext, hnonempty, hopens, hcloses, hfree⟩

/-- What stands between no stars is nothing. -/
theorem eq_nil_of_quoted?_nil (h : Text.quoted? [] t = some x) : x = [] := by
  obtain ⟨hquotable, -⟩ := Text.quoted?_eq_some_iff.1 h
  by_contra hne
  exact hquotable 0 (List.length_pos_iff.2 hne) List.nil_prefix

/-! ## The parser of spans -/

/-- What the parser of spans does, in every state and with any fuel. -/
theorem eval_starSpan (n : Nat) (env : Env) (fuel : Nat) (s : State) :
    (starSpan n).eval env fuel s = pure (if s.inBounds then
      ((Text.quoted? (List.replicate n '*') s.rest).filter opensSpan).map fun x =>
        s.advance (n + x.length + n) (.str x)
      else none) := by
  have hquoted : (Parser.quoted (List.replicate n '*')).eval env fuel s
      = pure (s.quoted? (List.replicate n '*')) :=
    funext fun m => Parser.eval_quoted _ env fuel s m
  change seqInside ((Parser.quoted (List.replicate n '*')).eval env fuel) _ none s = _
  rw [State.quoted?] at hquoted
  by_cases hin : s.inBounds = true
  · rw [if_pos hin] at hquoted ⊢
    cases hfound : Text.quoted? (List.replicate n '*') s.rest with
    | none =>
      rw [hfound] at hquoted
      exact andThen_of_none hquoted
    | some x =>
      rw [hfound, List.length_replicate] at hquoted
      rw [seqInside, andThen_of_some hquoted]
      -- The text between the stars is looked at on its own.
      obtain ⟨o, hinner, hvalue⟩ := gives_remaining x
      rw [Option.filter_some]
      by_cases hopens : opensSpan x = true
      · rw [if_pos hopens] at hvalue ⊢
        obtain ⟨r, rfl, hr⟩ := Option.map_eq_some_iff.1 hvalue
        refine (andThen_of_some hinner).trans ?_
        rw [hr]
        rfl
      · rw [if_neg hopens] at hvalue ⊢
        rw [Option.map_none, Option.map_eq_none_iff] at hvalue
        subst hvalue
        exact andThen_of_none hinner
  · rw [if_neg hin] at hquoted ⊢
    exact andThen_of_none hquoted

/-- What the parser of spans accepts is exactly its grammar, in every state and with any fuel:

    - it always answers and leaves the memory alone;
    - with one star or more it matches if and only if a span lies ahead, whose content it
      gives, and then it goes on behind the stars on the right;
    - no text begins with two such spans;
    - everywhere else it fails, and without stars it fails everywhere. -/
theorem starSpan_iff_ahead (n : Int) (env : Env) (fuel : Nat) (m : Memory) :
    let run := fun s => (starSpan n.toNat).eval env fuel s m
    (∀ s, ∃ o, run s = .ok o m) ∧
    (1 ≤ n → ∀ s s', run s = .ok (some s') m ↔ ∃ x tail, SpanAhead n.toNat s.rest x tail ∧
      s'.value = .str x ∧ s'.text = s.text ∧ (s'.pos : Int) = s.pos + (x.length + 2 * n)) ∧
    (1 ≤ n → ∀ s, run s = .ok none m ↔ ¬∃ x tail, SpanAhead n.toNat s.rest x tail) ∧
    (1 ≤ n → ∀ t x x' tail tail', SpanAhead n.toNat t x tail → SpanAhead n.toNat t x' tail' →
      x = x') ∧
    (n ≤ 0 → ∀ s, run s = .ok none m) := by
  intro run
  -- The parser quotes between its stars, and then looks at what it has quoted.
  have hrun : ∀ s, run s = .ok (if s.inBounds then
      ((Text.quoted? (List.replicate n.toNat '*') s.rest).filter opensSpan).map fun x =>
        s.advance (n.toNat + x.length + n.toNat) (.str x) else none) m :=
    fun s => congrFun (eval_starSpan n.toNat env fuel s) m
  have hmatch : 1 ≤ n → ∀ s s', run s = .ok (some s') m ↔
      ∃ x tail, SpanAhead n.toNat s.rest x tail ∧ s'.value = .str x ∧ s'.text = s.text ∧
        (s'.pos : Int) = s.pos + (x.length + 2 * n) := by
    intro hn s s'
    have hpos : 0 < n.toNat := by omega
    rw [hrun]
    refine ⟨fun h => ?_, ?_⟩
    · injection h with h
      obtain ⟨-, h⟩ := Option.ite_none_right_eq_some.1 h
      obtain ⟨x, hfound, rfl⟩ := Option.map_eq_some_iff.1 h
      obtain ⟨tail, hahead⟩ := (exists_spanAhead_iff hpos).2 (Option.filter_eq_some_iff.1 hfound)
      refine ⟨x, tail, hahead, rfl, rfl, ?_⟩
      rw [State.advance_pos]
      omega
    · rintro ⟨x, tail, hahead, hvalue, htext, hplace⟩
      have hstars : List.replicate n.toNat '*' ≠ [] :=
        mt (List.replicate_eq_nil_iff _).1 (Nat.ne_of_gt hpos)
      -- With stars ahead the place is inside the text.
      have hin : s.inBounds = true := by
        refine inBounds_of_prefix hstars ?_
        rw [hahead.text]
        exact List.prefix_append _ _
      have hfound := Option.filter_eq_some_iff.2 ((exists_spanAhead_iff hpos).1 ⟨tail, hahead⟩)
      have hreached : s' = s.advance (n.toNat + x.length + n.toNat) (.str x) := by
        refine State.ext htext ?_ hvalue
        rw [State.advance_pos]
        omega
      rw [if_pos hin, hfound, hreached, Option.map_some]
  have hsome : 1 ≤ n → ∀ s, (∃ s', run s = .ok (some s') m) ↔
      ∃ x tail, SpanAhead n.toNat s.rest x tail := by
    refine fun hn s => ⟨?_, ?_⟩
    · rintro ⟨s', h⟩
      obtain ⟨x, tail, hahead, -⟩ := (hmatch hn s s').1 h
      exact ⟨x, tail, hahead⟩
    · rintro ⟨x, tail, hahead⟩
      refine ⟨s.advance (x.length + 2 * n.toNat) (.str x), (hmatch hn s _).2
        ⟨x, tail, hahead, rfl, rfl, ?_⟩⟩
      rw [State.advance_pos]
      omega
  refine ⟨fun s => ⟨_, hrun s⟩, hmatch, fun hn s => ?_, ?_, fun hn s => ?_⟩
  · rw [← hsome hn s, hrun]
    generalize (if s.inBounds then _ else none) = o
    cases o with
    | none => simp
    | some s' => simp
  · intro hn t x x' tail tail' hx hx'
    have hpos : 0 < n.toNat := by omega
    have hfound := ((exists_spanAhead_iff hpos).1 ⟨tail, hx⟩).1
    have hfound' := ((exists_spanAhead_iff hpos).1 ⟨tail', hx'⟩).1
    exact Option.some_inj.1 (hfound.symm.trans hfound')
  · rw [hrun, Int.toNat_of_nonpos hn]
    -- Between no stars nothing is quoted, and nothing is no span.
    have hnothing : (Text.quoted? [] s.rest).filter opensSpan = none := by
      rw [Option.filter_eq_none_iff]
      intro x hfound
      rw [eq_nil_of_quoted?_nil hfound]
      decide
    rw [List.replicate_zero, hnothing, Option.map_none, ite_self]

/-- A span between two stars on either side, inside a text: a single star belongs to its
    content, and a third one behind it is left.  Three stars on the left are too many, and no
    stars are too few. -/
theorem starSpan_iff_ahead_doubled :
    let s := State.make "a **b*c***".toList 2 .none
    SpanAhead 2 s.rest "b*c".toList ['*'] ∧
    (∃ s', (starSpan 2).eval ⟨[], []⟩ 0 s ⟨#[], []⟩ = .ok (some s') ⟨#[], []⟩ ∧
      s'.value = .str "b*c".toList ∧ s'.pos = 9) ∧
    (¬∃ x tail, SpanAhead 2 "***b**".toList x tail) ∧
    (starSpan 0).eval ⟨[], []⟩ 0 s ⟨#[], []⟩ = .ok none ⟨#[], []⟩ := by
  intro s
  obtain ⟨-, hmatch, hnone, -⟩ := starSpan_iff_ahead 2 ⟨[], []⟩ 0 ⟨#[], []⟩
  obtain ⟨-, -, -, -, hwithout⟩ := starSpan_iff_ahead 0 ⟨[], []⟩ 0 ⟨#[], []⟩
  have hahead : SpanAhead 2 s.rest "b*c".toList ['*'] :=
    ⟨rfl, by decide, by decide, by decide, by decide⟩
  refine ⟨hahead, ⟨State.make "a **b*c***".toList 9 (.str "b*c".toList), ?_, rfl, rfl⟩, ?_,
    hwithout (Int.le_refl 0) s⟩
  · exact (hmatch (by decide) s _).2 ⟨_, _, hahead, rfl, rfl, rfl⟩
  · exact (hnone (by decide) (State.start "***b**".toList)).1 rfl

end Descent.Markup

/-
  Descent.Proofs.Quoted.RoundTrip

  Quoted texts.  What the parser does in a state is said by the text ahead alone
  (`eval_quoted`), if the state is not beyond the end of the text; there not even the empty
  delimiter occurs.  A text between two delimiters is given back under the condition of
  `Descent.Proofs.Text.Quoting`, whatever stands behind.
-/
import Descent.Proofs.Reading.Action
import Descent.Proofs.Text.Quoting

namespace Descent

namespace State

variable {d : Text} {s : State}

theorem inBounds_advance (h : s.inBounds = true) {n : Nat} (hn : n ≤ s.rest.length) (v : Value) :
    (s.advance n v).inBounds = true := by
  rw [inBounds_iff] at h ⊢
  rw [s.rest_eq, List.length_drop] at hn
  rw [advance_pos, advance_text]
  omega

/-- The state behind a quoted text, which it carries. -/
def quoted? (d : Text) (s : State) : Option State :=
  if s.inBounds then
    (Text.quoted? d s.rest).map fun x => s.advance (d.length + x.length + d.length) (.str x)
  else none

theorem quoted?_of_open (hin : s.inBounds = true) (hd : d <+: s.rest) :
    s.quoted? d = (Text.offset? d (s.rest.drop d.length)).map fun k =>
      s.advance (d.length + k + d.length) (.str ((s.rest.drop d.length).take k)) := by
  rw [quoted?, if_pos hin, Text.quoted?, if_pos (List.isPrefixOf_iff_prefix.2 hd), Option.map_map]
  refine Option.map_congr fun k hk => ?_
  rw [Function.comp_apply, List.length_take_of_le (Text.offset?_le hk)]

theorem quoted?_of_not_open (h : ¬ (s.inBounds = true ∧ d <+: s.rest)) : s.quoted? d = none := by
  rw [quoted?, Text.quoted?]
  by_cases hin : s.inBounds = true
  · have hd : ¬ d.isPrefixOf s.rest = true := fun hd => h ⟨hin, List.isPrefixOf_iff_prefix.1 hd⟩
    rw [if_neg hd, Option.map_none, ite_self]
  · rw [if_neg hin]

/-- A quoted text stands between two delimiters, and can be quoted. -/
theorem quoted?_eq_some_iff {s' : State} : s.quoted? d = some s' ↔ s.inBounds = true ∧
    ∃ t tail, s.rest = d ++ t ++ d ++ tail ∧ Text.Quotable d t ∧
      s' = s.advance (2 * d.length + t.length) (.str t) := by
  have hlength : ∀ t : Text, d.length + t.length + d.length = 2 * d.length + t.length := by
    intro t
    omega
  rw [quoted?, Option.ite_none_right_eq_some, Option.map_eq_some_iff]
  refine and_congr_right fun _ => ⟨?_, ?_⟩
  · rintro ⟨t, h, rfl⟩
    obtain ⟨ht, tail, hrest⟩ := Text.quoted?_eq_some_iff.1 h
    refine ⟨t, tail, ?_, ht, by rw [hlength]⟩
    rw [hrest, List.append_assoc, List.append_assoc]
  · rintro ⟨t, tail, hrest, ht, rfl⟩
    refine ⟨t, Text.quoted?_eq_some_iff.2 ⟨ht, tail, ?_⟩, by rw [hlength]⟩
    rw [hrest, List.append_assoc, List.append_assoc]

end State

namespace Action

/-- On texts shorter than a bound the action takes as many characters as are said. -/
def Takes (p : Action) (bound : Nat) (count? : Text → Option Nat) : Prop :=
  ∀ s : State, s.inBounds = true → s.rest.length < bound →
    p s = pure ((count? s.rest).map fun k => s.advance k (.str (s.rest.take k)))

/-- Behind a text the literal is passed, and the text is kept. -/
theorem literal_behind {d : Text} {s : State} (hin : d <+: s.rest → s.inBounds = true) :
    (literal d).andThen (fun r => pure (some (r.withValue s.value))) s
      = pure (if d.isPrefixOf s.rest then some (s.advance d.length s.value) else none) := by
  by_cases hd : d <+: s.rest
  · rw [andThen_of_some (literal_matches (hin hd) hd),
      if_pos (List.isPrefixOf_iff_prefix.2 hd)]
    rfl
  · rw [andThen_of_none (literal_fails fun h => hd h.2),
      if_neg (mt List.isPrefixOf_iff_prefix.1 hd)]

/-- Behind a literal, as before it, an action takes as many characters as are said. -/
theorem Takes.seq_literal {p : Action} {bound : Nat} {count? : Text → Option Nat}
    (hp : p.Takes bound count?) {d : Text} {s : State} (hs : s.rest.length < bound)
    (hin : s.inBounds = true) (hd : d <+: s.rest) :
    (literal d).seq p s = pure ((count? (s.rest.drop d.length)).map fun k =>
      s.advance (d.length + k) (.str ((s.rest.drop d.length).take k))) := by
  have hin₁ := State.inBounds_advance hin hd.length_le (.str d)
  have htake := hp (s.advance d.length (.str d)) hin₁ (length_drop_lt hs d.length)
  simp only [State.advance_advance, State.advance_rest] at htake
  exact (andThen_of_some (literal_matches hin hd)).trans htake

/-- Between two delimiters, an action takes a quoted text if what it takes before a delimiter is
    what the search finds before the first one. -/
theorem Takes.delimited {p : Action} {bound : Nat} {count? : Text → Option Nat} {d : Text}
    (hp : p.Takes bound count?)
    (hfirst : ∀ t, ((count? t).filter fun k => d.isPrefixOf (t.drop k)) = Text.offset? d t)
    (s : State) (hs : s.rest.length < bound) :
    ((literal d).seq p).thenSkip (literal d) s = pure (s.quoted? d) := by
  by_cases hopen : s.inBounds = true ∧ d <+: s.rest
  · obtain ⟨hin, hd⟩ := hopen
    have htaken := hp.seq_literal hs hin hd
    rw [State.quoted?_of_open hin hd, ← hfirst]
    cases hcount : count? (s.rest.drop d.length) with
    | none =>
      rw [hcount, Option.map_none] at htaken
      rw [thenSkip, andThen_of_none htaken]
      rfl
    | some k =>
      rw [hcount, Option.map_some] at htaken
      have hrest : ∀ v, (s.advance (d.length + k) v).rest = (s.rest.drop d.length).drop k := by
        intro v
        rw [State.advance_rest, List.drop_drop]
      -- A delimiter behind what was taken is the first one, so it stands in the text.
      have hstands : ∀ v, d <+: (s.advance (d.length + k) v).rest →
          (s.advance (d.length + k) v).inBounds = true := by
        intro v hclose
        rw [hrest] at hclose
        have hk : k ≤ (s.rest.drop d.length).length := by
          refine Text.offset?_le (d := d) ?_
          rw [← hfirst, hcount, Option.filter_some, if_pos (List.isPrefixOf_iff_prefix.2 hclose)]
        have hle := hd.length_le
        rw [List.length_drop] at hk
        exact State.inBounds_advance hin (by omega) v
      rw [thenSkip, andThen_of_some htaken, literal_behind (hstands _), hrest,
        Option.filter_some]
      split
      · rw [State.advance_advance]
        rfl
      · rfl
  · have hclosed : (literal d).seq p s = pure none := andThen_of_none (literal_fails hopen)
    rw [thenSkip, andThen_of_none hclosed, State.quoted?_of_not_open hopen]

end Action

namespace Parser

/-- What the parser of a quoted text does, in every state and with any fuel. -/
theorem eval_quoted (d : Text) (env : Env) (n : Nat) (s : State) (m : Memory) :
    (quoted d).eval env n s m = .ok (s.quoted? d) m := by
  have htakes : (Action.upTo d).Takes (s.rest.length + 1) (Text.offset? d) := by
    intro s hin _
    rw [Action.upTo, if_pos hin]
  have hfirst : ∀ t, ((Text.offset? d t).filter fun k => d.isPrefixOf (t.drop k))
      = Text.offset? d t := by
    intro t
    cases hfind : Text.offset? d t with
    | none => rfl
    | some k =>
      have hclose := List.isPrefixOf_iff_prefix.2 (Text.prefix_drop_offset? hfind)
      rw [Option.filter_some, if_pos hclose]
  exact congrFun (htakes.delimited hfirst s (Nat.lt_succ_self _)) m

/-- A text that is put between two delimiters is given back, and what stands behind is left, if
    and only if no delimiter begins in the text when one stands behind it:

    - so it is if the delimiter does not occur in the text and has no border, and a single
      character has none;
    - in any state, a parser that matches has read such a text between two delimiters, and
      gives it. -/
theorem quoted_round_trip (d : Text) (env : Env) (n : Nat) (m : Memory) :
    let run := fun s => (quoted d).eval env n s m
    let GivenBack := fun t tail => ∃ s', run (State.start (d ++ t ++ d ++ tail)) = .ok (some s') m ∧
      s'.value = .str t ∧ s'.pos = 2 * d.length + t.length
    (∀ t tail, GivenBack t tail ↔ Text.Quotable d t) ∧
    (Text.Borderless d ↔ ∀ t tail, ¬ d <:+: t → GivenBack t tail) ∧
    (∀ c, d = [c] → Text.Borderless d) ∧
    (∀ s s' m', run s = .ok (some s') m' → ∃ t tail, s.rest = d ++ t ++ d ++ tail ∧
      Text.Quotable d t ∧ s'.value = .str t ∧ s'.text = s.text ∧
      s'.pos = s.pos + (2 * d.length + t.length)) := by
  intro run GivenBack
  have hrun : ∀ s, run s = .ok (s.quoted? d) m := fun s => eval_quoted d env n s m
  have hsound : ∀ s s' m', run s = .ok (some s') m' → ∃ t tail, s.rest = d ++ t ++ d ++ tail ∧
      Text.Quotable d t ∧ s'.value = .str t ∧ s'.text = s.text ∧
      s'.pos = s.pos + (2 * d.length + t.length) := by
    intro s s' m' h
    rw [hrun] at h
    injection h with hquoted
    obtain ⟨-, t, tail, hrest, ht, rfl⟩ := State.quoted?_eq_some_iff.1 hquoted
    exact ⟨t, tail, hrest, ht, rfl, rfl, rfl⟩
  have hround : ∀ t tail, GivenBack t tail ↔ Text.Quotable d t := by
    refine fun t tail => ⟨?_, fun ht => ?_⟩
    · rintro ⟨s', h, hvalue, -⟩
      -- What is given back has been read, and only what is quotable can be read.
      obtain ⟨t', -, -, ht', hvalue', -⟩ := hsound _ s' m h
      rw [hvalue] at hvalue'
      obtain rfl := Value.str.inj hvalue'
      exact ht'
    · have hin : (State.start (d ++ t ++ d ++ tail)).inBounds = true :=
        (State.inBounds_iff _).2 (Nat.zero_le _)
      have hquoted := State.quoted?_eq_some_iff.2 ⟨hin, t, tail, State.start_rest _, ht, rfl⟩
      exact ⟨_, by rw [hrun, hquoted], rfl, Nat.zero_add _⟩
  refine ⟨hround, Text.borderless_iff.trans ⟨fun h t tail ht => ?_, fun h t ht => ?_⟩, ?_, hsound⟩
  · exact (hround t tail).2 (h t ht)
  · exact (hround t []).1 (h t [] ht)
  · rintro c rfl
    exact Text.borderless_singleton c

/-- A text between single characters is given back.  One between doubled characters is not,
    although the delimiter does not occur in it: the delimiter is found one character early. -/
theorem quoted_round_trip_doubled :
    (¬ ['*'] <:+: "it".toList ∧ Text.Borderless ['*'] ∧
      ∃ s', (quoted ['*']).eval ⟨[], []⟩ 0
          (State.start (['*'] ++ "it".toList ++ ['*'] ++ " is".toList))
          ⟨#[], []⟩ = .ok (some s') ⟨#[], []⟩ ∧
        s'.value = .str "it".toList ∧ s'.pos = 4) ∧
    (¬ "**".toList <:+: "*".toList ∧ ¬ Text.Quotable "**".toList "*".toList ∧
      ∃ s', (quoted "**".toList).eval ⟨[], []⟩ 0
          (State.start ("**".toList ++ "*".toList ++ "**".toList ++ " is".toList))
          ⟨#[], []⟩ = .ok (some s') ⟨#[], []⟩ ∧
        s'.value = .str [] ∧ s'.pos = 4) := by
  obtain ⟨-, hgiven, hsingle, -⟩ := quoted_round_trip ['*'] ⟨[], []⟩ 0 ⟨#[], []⟩
  have hfree : ¬ ['*'] <:+: "it".toList := by decide
  have hborder := hsingle '*' rfl
  refine ⟨⟨hfree, hborder, ?_⟩, by decide, by decide, ?_⟩
  · exact hgiven.1 hborder "it".toList " is".toList hfree
  · -- Read so, the quoted text is empty.
    obtain ⟨hround, -⟩ := quoted_round_trip "**".toList ⟨[], []⟩ 0 ⟨#[], []⟩
    have htext : "**".toList ++ "*".toList ++ "**".toList ++ " is".toList
        = "**".toList ++ [] ++ "**".toList ++ "* is".toList := by decide
    rw [htext]
    exact (hround [] "* is".toList).2 (by decide)

end Parser
end Descent

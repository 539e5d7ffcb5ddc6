/-
  Descent.Proofs.Markup.Content

  What becomes of the text between stars (`span_content`).  Spans are delimited without regard
  to lines, while inline markup ends with its line.  So the children of a span are the inline
  markup of what stands between its stars up to a line break at the most; that break and what
  follows it are in no child (`span_content_break`).  Nothing else is lost at this level: each
  child accounts for a piece of the text, and the pieces follow one another without gaps
  (`covers_scan`).
-/
import Descent.Proofs.Markup.Lines

namespace Descent.Markup

/-! ## Pieces of a text -/

/-- A link or a span takes this piece from the start of a text. -/
def TakesElement (names : Names) (m : Memory) (piece rest : Text) (i : Inline) : Prop :=
  ∃ s, ((Parser.orElse (.orElse link bold) italic).apply ⟨names, rules⟩
      (State.start (piece ++ rest))).run m = .ok (some s) m ∧
    s.rest = rest ∧ s.value = i.toValue

/-- A text is cut into pieces, one for each item, up to what is left: a run of characters within
    a line for a text, and what it takes for an element. -/
inductive Covers (names : Names) (m : Memory) : Text → List Inline → Text → Prop
  | nil {t : Text} : Covers names m t [] t
  | text {run t rest : Text} {is : List Inline} (ne_nil : run ≠ []) (line : '\n' ∉ run)
    (behind : Covers names m t is rest) : Covers names m (run ++ t) (.text run :: is) rest
  | element {piece t rest : Text} {i : Inline} {is : List Inline} (ne_nil : piece ≠ [])
    (takes : TakesElement names m piece t i) (behind : Covers names m t is rest) :
    Covers names m (piece ++ t) (i :: is) rest

variable {names : Names} {m : Memory}

theorem takesElement_of_readElement {t : Text} {n : Nat} {i : Inline}
    (h : readElement readInner t = some (n, i)) :
    TakesElement names m (t.take n) (t.drop n) i := by
  rw [TakesElement, apply_element, State.start_rest, List.take_append_drop, h]
  refine ⟨_, rfl, ?_, rfl⟩
  rw [State.advance_rest, State.start_rest]

theorem Covers.close {run t rest : Text} {is : List Inline} (hrun : '\n' ∉ run)
    (h : Covers names m t is rest) :
    Covers names m (run ++ t) (Reading.close .text run ++ is) rest := by
  by_cases hne : run = []
  · rw [hne]
    exact h
  · rw [Reading.close_of_ne_nil hne]
    exact .text hne hrun h

/-- What a scan finds covers the text as far as the scan goes, with the run behind it in
    front. -/
theorem covers_scan {run t : Text} (hrun : '\n' ∉ run) :
    Covers names m (run ++ t)
      ((readElement readInner).scan .text insideLine run t).2
      (t.drop ((readElement readInner).scan .text insideLine run t).1) := by
  have hstop : ∀ {run t : Text}, '\n' ∉ run →
      Covers names m (run ++ t) (Reading.close .text run) t := by
    intro run t hrun
    have hnil : Covers names m t [] t := .nil
    have hclosed := hnil.close hrun
    rwa [List.append_nil] at hclosed
  fun_induction Reading.scan (readElement readInner) .text insideLine run t with
  | case1 run => exact hstop hrun
  | case2 run c rest hgoes n i hread k is hrest ih =>
    rw [hrest] at ih
    -- The run behind is closed, and the scan begins anew behind the element.
    have htakes : TakesElement names m ((c :: rest).take (n + 1)) (rest.drop n) i :=
      takesElement_of_readElement hread
    have hdrop : (c :: rest).drop (n + 1 + k) = (rest.drop n).drop k := by
      rw [List.drop_drop, Nat.add_right_comm, List.drop_succ_cons]
    rw [hdrop]
    have hfound := Covers.element (List.cons_ne_nil c (rest.take n)) htakes (ih List.not_mem_nil)
    rw [List.cons_append, List.take_append_drop] at hfound
    exact hfound.close hrun
  | case3 run c rest hgoes k is hrest hnone ih =>
    -- The scan went on at this character, so it is not a line break.
    have hlonger : '\n' ∉ run ++ [c] := by
      rw [List.mem_append, List.mem_singleton, not_or]
      refine ⟨hrun, ?_⟩
      rintro rfl
      cases hgoes
    have hfound := ih hlonger
    rw [hrest, List.append_assoc, List.singleton_append] at hfound
    exact hfound
  | case4 run c rest hgoes => exact hstop hrun

/-- Inline markup covers what it reads. -/
theorem covers_of_readInline {t : Text} {n : Nat} {is : List Inline}
    (h : readInline t = some (n, is)) : Covers names m t is (t.drop n) := by
  rw [readInline_eq, Reading.interleave_eq_some] at h
  have hcovers : Covers names m ([] ++ t) _ _ := covers_scan List.not_mem_nil
  rw [h.1] at hcovers
  exact hcovers

/-! ## Spans -/

/-- The two kinds of spans. -/
inductive Emphasis where
  | bold
  | italic

namespace Emphasis

/-- How many stars stand on either side. -/
def stars : Emphasis → Nat
  | bold => 2
  | italic => 1

/-- The parser of such spans. -/
def parser : Emphasis → Parser Ref
  | bold => Markup.bold
  | italic => Markup.italic

/-- The item that such a span makes. -/
def item : Emphasis → List Inline → Inline
  | bold => .bold
  | italic => .italic

/-- The reading of such spans. -/
def read (k : Emphasis) : Reading Inline :=
  ((readSpan k.stars).inside readInner).map fun x => k.item x.2

theorem apply_eq (k : Emphasis) (names : Names) (s : State) :
    k.parser.apply ⟨names, rules⟩ s
      = pure ((k.read s.rest).map fun x => s.advance x.1 x.2.toValue) := by
  cases k with
  | bold => exact apply_bold names s
  | italic => exact apply_italic names s

theorem read_eq_some {k : Emphasis} {t : Text} {n : Nat} {i : Inline}
    (h : k.read t = some (n, i)) : ∃ x tail l is,
      t = List.replicate k.stars '*' ++ (x ++ (List.replicate k.stars '*' ++ tail)) ∧
      n = k.stars + x.length + k.stars ∧ readInline x = some (l, is) ∧ i = k.item is := by
  obtain ⟨⟨x, is⟩, hinside, rfl⟩ := Reading.map_eq_some.1 h
  obtain ⟨hspan, hinner⟩ := Reading.inside_eq_some.1 hinside
  obtain ⟨⟨l, is'⟩, hinline, rfl⟩ := Option.map_eq_some_iff.1 hinner
  obtain ⟨-, tail, htext⟩ := readQuoted_eq_some (readSpan_eq_some hspan).1
  exact ⟨x, tail, l, is', htext, (readSpan_length hspan).1, hinline, rfl⟩

theorem read_of_readInline {k : Emphasis} {t x : Text} {n l : Nat} {is : List Inline}
    (hspan : readSpan k.stars t = some (n, x)) (hinline : readInline x = some (l, is)) :
    k.read t = some (n, k.item is) := by
  have hinner : readInner x = some is := by rw [readInner, hinline, Option.map_some]
  exact Reading.map_eq_some.2 ⟨(x, is), Reading.inside_eq_some.2 ⟨hspan, hinner⟩, rfl⟩

end Emphasis

/-- Where a span is read, its children are the inline markup of the text between its stars.
    That markup is read up to the end of the text or up to a line break in it, so all of it if
    there is no line break; and the children cover what is read. -/
theorem span_content (k : Emphasis) (names : Names) (m : Memory) (s s' : State)
    (h : (k.parser.apply ⟨names, rules⟩ s).run m = .ok (some s') m) :
    ∃ (x tail : Text) (e : State) (is : List Inline),
      s.rest = List.replicate k.stars '*' ++ (x ++ (List.replicate k.stars '*' ++ tail)) ∧
      s'.text = s.text ∧ s'.pos = s.pos + (k.stars + x.length + k.stars) ∧
      s'.value = (k.item is).toValue ∧
      (inline.apply ⟨names, rules⟩ (State.start x)).run m = .ok (some e) m ∧
      e.text = x ∧ e.value = .list (is.map Inline.toValue) ∧
      (e.rest = [] ∨ e.rest.head? = some '\n') ∧ ('\n' ∉ x → e.pos = x.length) ∧
      Covers names m x is e.rest := by
  rw [k.apply_eq] at h
  cases hread : k.read s.rest with
  | none =>
    rw [hread] at h
    cases h
  | some y =>
    rw [hread] at h
    cases h
    obtain ⟨x, tail, l, is, htext, hn, hinline, hi⟩ := Emphasis.read_eq_some hread
    have hrest : ∀ v, ((State.start x).advance l v).rest = x.drop l := by
      intro v
      rw [State.advance_rest, State.start_rest]
    have hstop := readInline_stop hinline
    rw [insideLine_eq_false_iff] at hstop
    refine ⟨x, tail, (State.start x).advance l (.list (is.map Inline.toValue)), is, htext, rfl,
      ?_, ?_, ?_, rfl, rfl, ?_, fun hline => ?_, ?_⟩
    · rw [State.advance_pos, hn]
    · rw [State.advance_value, hi]
    · rw [apply_inline, State.start_rest, hinline]
      rfl
    · rw [hrest]
      exact hstop
    · -- A line break ahead would be one in the text.
      have hdrop : x.drop l = [] := hstop.resolve_right fun hhead =>
        hline (List.mem_of_mem_drop (List.mem_of_mem_head? hhead))
      have hle := (readInline_consuming _ _ _ hinline).2
      rw [List.drop_eq_nil_iff] at hdrop
      rw [State.advance_pos, State.start_pos]
      omega
    · rw [hrest]
      exact covers_of_readInline hinline

/-- A span in the middle of a text. -/
theorem span_content_word :
    let s := State.make "a *b* c".toList 2 .none
    let s' := State.make "a *b* c".toList 5 (Inline.italic [.text ['b']]).toValue
    (Emphasis.italic.parser.apply ⟨[], rules⟩ s).run ⟨#[], []⟩ = .ok (some s') ⟨#[], []⟩ ∧
    ∃ (x tail : Text) (e : State) (is : List Inline),
      s.rest = ['*'] ++ (x ++ (['*'] ++ tail)) ∧
      s'.text = s.text ∧ s'.pos = s.pos + (1 + x.length + 1) ∧
      s'.value = (Inline.italic is).toValue ∧
      (inline.apply ⟨[], rules⟩ (State.start x)).run ⟨#[], []⟩ = .ok (some e) ⟨#[], []⟩ ∧
      e.text = x ∧ e.value = .list (is.map Inline.toValue) ∧
      (e.rest = [] ∨ e.rest.head? = some '\n') ∧ ('\n' ∉ x → e.pos = x.length) ∧
      Covers [] ⟨#[], []⟩ x is e.rest := by
  intro s s'
  have hspan : readSpan 1 s.rest = some (3, ['b']) := by decide
  have hinline : readInline (['b'] ++ []) = some (1, [.text ['b']]) :=
    readInline_line (by decide) ⟨by decide, by decide⟩ (by decide) (.inl rfl)
  have hrun : (Emphasis.italic.parser.apply ⟨[], rules⟩ s).run ⟨#[], []⟩
      = .ok (some s') ⟨#[], []⟩ := by
    have hread : Emphasis.italic.read s.rest = some (3, .italic [.text ['b']]) :=
      Emphasis.read_of_readInline (k := .italic) hspan hinline
    rw [Emphasis.apply_eq, hread]
    rfl
  exact ⟨hrun, span_content .italic [] ⟨#[], []⟩ s s' hrun⟩

/-- Not all that stands between stars is read: here inline markup ends after the first of three
    characters, and the other two are in no child of the span. -/
theorem span_content_break : ∃ s' e : State,
    (bold.apply ⟨[], rules⟩ (State.start "**a\nb**".toList)).run ⟨#[], []⟩
      = .ok (some s') ⟨#[], []⟩ ∧
    s'.pos = 7 ∧ s'.value = (Inline.bold [.text ['a']]).toValue ∧
    (inline.apply ⟨[], rules⟩ (State.start "a\nb".toList)).run ⟨#[], []⟩
      = .ok (some e) ⟨#[], []⟩ ∧
    e.pos = 1 ∧ e.pos ≠ "a\nb".toList.length := by
  have hspan : readSpan 2 "**a\nb**".toList = some (7, "a\nb".toList) := by decide
  have hinline : readInline (['a'] ++ ['\n', 'b']) = some (1, [.text ['a']]) :=
    readInline_line (by decide) ⟨by decide, by decide⟩ (by decide) (.inr rfl)
  have hread : readBold readInner "**a\nb**".toList = some (7, .bold [.text ['a']]) :=
    Emphasis.read_of_readInline (k := .bold) hspan hinline
  refine ⟨State.make "**a\nb**".toList 7 (Inline.bold [.text ['a']]).toValue,
    State.make "a\nb".toList 1 (.list [textNode ['a']]), ?_, rfl, rfl, ?_, rfl, by decide⟩
  · rw [apply_bold, State.start_rest, hread]
    rfl
  · have hinline' : readInline "a\nb".toList = some (1, [.text ['a']]) := hinline
    rw [apply_inline, State.start_rest, hinline']
    rfl

end Descent.Markup

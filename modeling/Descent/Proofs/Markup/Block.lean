/-
  Descent.Proofs.Markup.Block

  Which block is read where.  `Opening` says how a block begins, in terms of the text alone:
  like a heading, like a list item, or like neither.  The three alternatives are tried in
  that order, and one that fails may have gone a long way before it does (past seven marks,
  or past the spaces at the end of a line); still the next begins where the block does, so an
  opening decides what is read (`Opening.readBlock_eq`).  Wherever there is text and no line
  break, there is one opening (`exists_opening`), and `block_opening` says it of the parser.
-/
import Descent.Proofs.Markup.Total
import Descent.Proofs.Reading.Stretch

namespace Descent.Markup

/-! ## Openings -/

/-- A text begins like a heading: with one to six marks, with spaces, and with something that
    can be the text of a heading. -/
structure Heading (t : Text) (level spaces : Nat) (body : Text) : Prop where
  text : t = List.replicate level '#' ++ (List.replicate spaces ' ' ++ body)
  one_le : 1 ≤ level
  le_six : level ≤ 6
  spaced : 1 ≤ spaces
  nonempty : body ≠ []
  flush : body.head? ≠ some ' '
  inside : body.head? ≠ some '\n'

/-- A text begins like a list item: with a star and a space, and with something that can be the
    text of an item. -/
structure Item (t body : Text) : Prop where
  text : t = '*' :: ' ' :: body
  nonempty : body ≠ []
  inside : body.head? ≠ some '\n'

/-- How a block begins: its inline content starts so many characters further on, and makes this
    block. -/
inductive Opening (t : Text) : Nat → (List Inline → Block) → Prop where
  | header {level spaces : Nat} {body : Text} (heading : Heading t level spaces body) :
    Opening t (level + spaces) (.header level)
  | listItem {body : Text} (no_heading : ∀ level spaces body, ¬Heading t level spaces body)
    (item : Item t body) : Opening t 2 .listItem
  | paragraph (no_heading : ∀ level spaces body, ¬Heading t level spaces body)
    (no_item : ∀ body, ¬Item t body) (nonempty : t ≠ []) (inside : t.head? ≠ some '\n') :
    Opening t 0 .paragraph

variable {t body : Text} {level spaces n : Nat} {b : Block}

theorem Heading.drop_eq (h : Heading t level spaces body) : t.drop (level + spaces) = body := by
  have hlength : (List.replicate level '#' ++ List.replicate spaces ' ').length
      = level + spaces := by
    rw [List.length_append, List.length_replicate, List.length_replicate]
  rw [h.text, ← List.append_assoc, ← hlength, List.drop_left]

theorem Heading.head?_eq (h : Heading t level spaces body) : t.head? = some '#' := by
  obtain ⟨k, hk⟩ := Nat.exists_eq_add_of_le' h.one_le
  rw [h.text, hk, List.replicate_succ, List.cons_append, List.head?_cons]

theorem Item.head?_eq (h : Item t body) : t.head? = some '*' := by
  rw [h.text, List.head?_cons]

/-- Wherever there is text and no line break, a block begins in one way or another. -/
theorem exists_opening (ht : t ≠ []) (hinside : t.head? ≠ some '\n') :
    ∃ k node, Opening t k node := by
  by_cases hheading : ∃ level spaces body, Heading t level spaces body
  · obtain ⟨level, spaces, body, h⟩ := hheading
    exact ⟨_, _, .header h⟩
  · have hno : ∀ level spaces body, ¬Heading t level spaces body :=
      fun level spaces body h => hheading ⟨level, spaces, body, h⟩
    by_cases hitem : ∃ body, Item t body
    · obtain ⟨body, h⟩ := hitem
      exact ⟨_, _, .listItem hno h⟩
    · exact ⟨_, _, .paragraph hno (fun body h => hitem ⟨body, h⟩) ht hinside⟩

/-- Inline content stands behind every opening. -/
theorem Opening.content {k : Nat} {node : List Inline → Block} (h : Opening t k node) :
    t.drop k ≠ [] ∧ (t.drop k).head? ≠ some '\n' := by
  cases h with
  | header heading =>
    rw [heading.drop_eq]
    exact ⟨heading.nonempty, heading.inside⟩
  | listItem _ item =>
    rw [item.text]
    exact ⟨item.nonempty, item.inside⟩
  | paragraph _ _ nonempty inside => exact ⟨nonempty, inside⟩

/-! ## The three alternatives -/

theorem readInline_of_inside (ht : t ≠ []) (hinside : t.head? ≠ some '\n') :
    ∃ n is, readInline t = some (n, is) :=
  readInline_isSome ht (insideLine_eq_true_iff.2 hinside)

/-- Inline markup is read where there is text and no line break, and nowhere else. -/
theorem inside_of_readInline {is : List Inline} (h : readInline t = some (n, is)) :
    t ≠ [] ∧ t.head? ≠ some '\n' := by
  refine ⟨?_, fun hhead => ?_⟩
  · rintro rfl
    rw [readInline_eq_none (.inl rfl)] at h
    cases h
  · rw [readInline_eq_none (.inr (insideLine_eq_false_iff.2 hhead))] at h
    cases h

/-- Where a text begins like a heading, a heading with its inline content is read. -/
theorem Heading.readHeader_eq (h : Heading t level spaces body) {is : List Inline}
    (hinline : readInline body = some (n, is)) :
    readHeader t = some (level + spaces + n, .header level is) := by
  obtain ⟨htext, hone, hsix, hspaced, -, hflush, -⟩ := id h
  have hone' : (1 : Int) ≤ level := by omega
  have hsix' : (level : Int) ≤ 6 := by omega
  have hspaced' : (1 : Int) ≤ spaces := by omega
  -- The marks end where the spaces begin, and these end where the text begins.
  have hnext : (List.replicate spaces ' ' ++ body).head? ≠ some '#' := by
    obtain ⟨k, rfl⟩ := Nat.exists_eq_add_of_le' hspaced
    rw [List.replicate_succ, List.cons_append, List.head?_cons]
    decide
  have hmarks : (Reading.char fun c => [c] == ['#']).many ⟨1, 6⟩ t
      = some (level, List.replicate level '#') := by
    rw [htext]
    exact Reading.many_exact_replicate hnext hone' (.inr hsix')
  have hspaces : (Reading.char fun c => [c] == [' ']).many ⟨1, 0⟩ (t.drop level)
      = some (spaces, List.replicate spaces ' ') := by
    have hdrop : t.drop level = List.replicate spaces ' ' ++ body := by
      rw [htext, List.drop_left' List.length_replicate]
    rw [hdrop]
    exact Reading.many_exact_replicate hflush hspaced' (.inl rfl)
  have hboth := Reading.seq_eq_some (x := (_, _)) |>.2 ⟨level, spaces, hmarks, hspaces, rfl⟩
  have hinline' : readInline (t.drop (level + spaces)) = some (n, is) := by
    rw [h.drop_eq, hinline]
  refine Reading.map_eq_some.2 ⟨(_, is), Reading.seq_eq_some.2
    ⟨level + spaces, n, hboth, hinline', rfl⟩, ?_⟩
  rw [List.length_replicate]

/-- A heading is read nowhere else. -/
theorem heading_of_readHeader (h : readHeader t = some (n, b)) :
    ∃ level spaces body, Heading t level spaces body := by
  obtain ⟨⟨⟨marks, gap⟩, is⟩, hall, -⟩ := Reading.map_eq_some.1 h
  obtain ⟨i, l, hfirst, hinline, -⟩ := Reading.seq_eq_some.1 hall
  obtain ⟨level, spaces, hmarks, hspaces, rfl⟩ := Reading.seq_eq_some.1 hfirst
  dsimp only at hmarks hspaces hinline
  have hlevel := Reading.many_bounds hmarks
  have hgap := Reading.many_bounds hspaces
  obtain ⟨rfl, htext⟩ := Reading.many_exact_taken hmarks
  obtain ⟨rfl, hbehind⟩ := Reading.many_exact_taken hspaces
  rw [List.length_replicate] at hlevel hgap
  -- The bounds of the two repetitions are those of a heading.
  have hone : (1 : Int) ≤ level := hlevel.1
  have hsix : (level : Int) ≤ 6 := hlevel.2 (by decide)
  have hspaced : (1 : Int) ≤ spaces := hgap.1
  obtain ⟨hnonempty, hinside⟩ := inside_of_readInline hinline
  rw [← List.drop_drop] at hnonempty hinside
  refine ⟨level, spaces, (t.drop level).drop spaces, ?_, by omega, by omega, by omega,
    hnonempty, ?_, hinside⟩
  · rw [← hbehind, ← htext]
  · -- The spaces are the longest run of spaces, so another character follows them.
    rw [Reading.singleton_beq] at hspaces
    obtain ⟨-, -, rest, hstretch⟩ := (Reading.many_char_eq_some_iff rfl).1 hspaces
    have hrest := hstretch.drop_eq
    rw [List.length_replicate] at hrest
    rw [hrest]
    exact hstretch.head?_ne

theorem Item.readListItem_eq (h : Item t body) {is : List Inline}
    (hinline : readInline body = some (n, is)) :
    readListItem t = some (2 + n, .listItem is) := by
  have hmark : Reading.exactly ['*', ' '] t = some (2, ['*', ' ']) :=
    Reading.exactly_eq_some.2 ⟨rfl, rfl, body, h.text.symm⟩
  have hinline' : readInline (t.drop 2) = some (n, is) := by
    rw [h.text]
    exact hinline
  exact Reading.map_eq_some.2 ⟨(_, is), Reading.seq_eq_some.2 ⟨2, n, hmark, hinline', rfl⟩, rfl⟩

theorem item_of_readListItem (h : readListItem t = some (n, b)) : ∃ body, Item t body := by
  obtain ⟨⟨mark, is⟩, hall, -⟩ := Reading.map_eq_some.1 h
  obtain ⟨i, l, hmark, hinline, -⟩ := Reading.seq_eq_some.1 hall
  obtain ⟨rfl, -, ⟨body, rfl⟩⟩ := Reading.exactly_eq_some.1 hmark
  obtain ⟨hnonempty, hinside⟩ := inside_of_readInline hinline
  exact ⟨body, rfl, hnonempty, hinside⟩

/-! ## The block -/

theorem readHeader_eq_none (h : ∀ level spaces body, ¬Heading t level spaces body) :
    readHeader t = none := by
  rw [Option.eq_none_iff_forall_not_mem]
  rintro ⟨n, b⟩ hread
  obtain ⟨level, spaces, body, hheading⟩ := heading_of_readHeader hread
  exact h level spaces body hheading

theorem readListItem_eq_none (h : ∀ body, ¬Item t body) : readListItem t = none := by
  rw [Option.eq_none_iff_forall_not_mem]
  rintro ⟨n, b⟩ hread
  obtain ⟨body, hitem⟩ := item_of_readListItem hread
  exact h body hitem

/-- An opening decides what is read: the block that it makes of the inline content, and the
    line breaks behind it. -/
theorem Opening.readBlock_eq {k : Nat} {node : List Inline → Block} (h : Opening t k node)
    {is : List Inline} (hinline : readInline (t.drop k) = some (n, is)) {breaks rest : Text}
    (hbreaks : Text.Stretch (· == '\n') (t.drop (k + n)) breaks rest) :
    readBlock t = some (k + n + breaks.length, node is) := by
  have hfirst : (readHeader.orElse readListItem).orElse readParagraph t
      = some (k + n, node is) := by
    -- The openings come in the order in which they are tried, each with the earlier ones ruled
    -- out.
    cases h with
    | header heading =>
      rw [heading.drop_eq] at hinline
      rw [Reading.orElse, Reading.orElse, heading.readHeader_eq hinline]
      rfl
    | listItem no_heading item =>
      rw [item.text] at hinline
      rw [Reading.orElse, Reading.orElse, readHeader_eq_none no_heading,
        item.readListItem_eq hinline]
      rfl
    | paragraph no_heading no_item =>
      have hparagraph : readParagraph t = some (n, .paragraph is) :=
        Reading.map_eq_some.2 ⟨is, hinline, rfl⟩
      rw [Reading.orElse, Reading.orElse, readHeader_eq_none no_heading,
        readListItem_eq_none no_item, hparagraph, Nat.zero_add]
      rfl
  exact Reading.map_eq_some.2 ⟨(node is, breaks), Reading.seq_eq_some.2
    ⟨k + n, breaks.length, hfirst, readLineEnd_eq hbreaks, rfl⟩, rfl⟩

theorem readBlock_eq_none (h : t = [] ∨ t.head? = some '\n') : readBlock t = none := by
  have hline : t = [] ∨ insideLine t = false := h.imp_right insideLine_eq_false_iff.2
  have hhead : ∀ c, t.head? = some c → c = '\n' := by
    rcases h with rfl | h
    · exact fun c hc => nomatch hc
    · exact fun c hc => Option.some_inj.1 (hc.symm.trans h)
  have hheader : readHeader t = none := readHeader_eq_none fun level spaces body hheading =>
    absurd (hhead '#' hheading.head?_eq) (by decide)
  have hitem : readListItem t = none := readListItem_eq_none fun body hitem =>
    absurd (hhead '*' hitem.head?_eq) (by decide)
  have hparagraph : readParagraph t = none := by
    rw [readParagraph, Reading.map, readInline_eq_none hline]
    rfl
  have hfirst : (readHeader.orElse readListItem).orElse readParagraph t = none :=
    Reading.orElse_eq_none.2 ⟨Reading.orElse_eq_none.2 ⟨hheader, hitem⟩, hparagraph⟩
  rw [readBlock, Reading.map, Reading.seq, hfirst]
  rfl

/-- In a state the parser of blocks reads what the parser of inline content gives so many
    characters further on, makes this block of it, and passes the line breaks behind it. -/
def ReadsContent (names : Names) (m : Memory) (s : State) (k : Nat)
    (node : List Inline → Block) : Prop :=
  ∃ (e s' : State) (is : List Inline) (breaks : Text),
    (inline.apply ⟨names, rules⟩ (s.advance k .none)).run m = .ok (some e) m ∧
    (block.apply ⟨names, rules⟩ s).run m = .ok (some s') m ∧
    e.value = .list (is.map Inline.toValue) ∧ s'.value = (node is).toValue ∧
    s'.text = s.text ∧ s'.pos = e.pos + breaks.length ∧
    Text.Stretch (· == '\n') e.rest breaks s'.rest

theorem Opening.readsContent {s : State} {k : Nat} {node : List Inline → Block}
    (h : Opening s.rest k node) (names : Names) (m : Memory) : ReadsContent names m s k node := by
  obtain ⟨hnonempty, hinside⟩ := h.content
  obtain ⟨n, is, hinline⟩ := readInline_of_inside hnonempty hinside
  obtain ⟨breaks, rest, hbreaks⟩ :
      ∃ breaks rest, Text.Stretch (· == '\n') (s.rest.drop (k + n)) breaks rest :=
    ⟨_, _, Text.stretch_takeWhile _ _⟩
  have hrest : ∀ v, (s.advance (k + n + breaks.length) v).rest = rest := by
    intro v
    rw [State.advance_rest, ← List.drop_drop, hbreaks.drop_eq]
  refine ⟨s.advance (k + n) (.list (is.map Inline.toValue)),
    s.advance (k + n + breaks.length) (node is).toValue, is, breaks, ?_, ?_, rfl, rfl, rfl, ?_, ?_⟩
  · rw [apply_inline, State.advance_rest, hinline, Option.map_some, State.advance_advance]
    rfl
  · rw [apply_block, h.readBlock_eq hinline hbreaks]
    rfl
  · exact (Nat.add_assoc _ _ _).symm
  · rw [State.advance_rest, hrest]
    exact hbreaks

/-- Which block is read is decided by how the text begins, in every state:

    - the parser fails at the end of the text and in front of a line break, and nowhere else;
    - everywhere else the text begins like a heading, like a list item or like neither;
    - and then the block is the one that this opening makes of the inline content behind it. -/
theorem block_opening (names : Names) (s : State) (m : Memory) :
    ((block.apply ⟨names, rules⟩ s).run m = .ok none m ↔
      s.rest = [] ∨ s.rest.head? = some '\n') ∧
    (s.rest ≠ [] → s.rest.head? ≠ some '\n' → ∃ k node, Opening s.rest k node) ∧
    (∀ k node, Opening s.rest k node → ReadsContent names m s k node) := by
  refine ⟨⟨fun hnone => ?_, fun hstop => ?_⟩, exists_opening, fun _ _ h => h.readsContent names m⟩
  · -- Anywhere else there is an opening, and a block is read.
    by_contra hgoes
    obtain ⟨hnonempty, hinside⟩ := not_or.1 hgoes
    obtain ⟨k, node, hopening⟩ := exists_opening hnonempty hinside
    obtain ⟨e, s', is, breaks, -, hblock, -⟩ := hopening.readsContent names m
    rw [hblock] at hnone
    cases hnone
  · rw [apply_block, readBlock_eq_none hstop]
    rfl

/-- Two marks in the middle of a text make a heading.  Seven make none, and the paragraph that
    is read instead begins with them. -/
theorem block_opening_marks :
    let s := State.make "x\n## it\n* y".toList 2 .none
    let s' := State.start "####### x".toList
    s.rest ≠ [] ∧ s.rest.head? ≠ some '\n' ∧ (∃ k node, Opening s.rest k node) ∧
    Opening s.rest 3 (.header 2) ∧ ReadsContent [] ⟨#[], []⟩ s 3 (.header 2) ∧
    Opening s'.rest 0 .paragraph ∧ ReadsContent [] ⟨#[], []⟩ s' 0 .paragraph := by
  intro s s'
  obtain ⟨-, hexists, hreads⟩ := block_opening [] s ⟨#[], []⟩
  obtain ⟨-, -, hreads'⟩ := block_opening [] s' ⟨#[], []⟩
  have hnonempty : s.rest ≠ [] := by decide
  have hinside : s.rest.head? ≠ some '\n' := by decide
  have hheading : Opening s.rest (2 + 1) (.header 2) :=
    .header ⟨rfl, by decide, by decide, by decide, by decide, by decide, by decide⟩
  have hno_heading : ∀ level spaces body, ¬Heading s'.rest level spaces body := by
    rintro level spaces body ⟨htext, -, hsix, hspaced, -⟩
    -- Behind six marks or fewer there would be a space.
    obtain ⟨k, rfl⟩ := Nat.exists_eq_add_of_le' hspaced
    have hspace : s'.rest[level]? = some ' ' := by
      rw [htext, List.getElem?_append_right (by simp)]
      simp [List.replicate_succ]
    have hmark : ∀ i < 7, "####### x".toList[i]? = some '#' := by decide
    have heq := (hmark level (Nat.lt_succ_of_le hsix)).symm.trans hspace
    cases heq
  have hparagraph : Opening s'.rest 0 .paragraph :=
    .paragraph hno_heading (by rintro body ⟨htext, -⟩; cases htext) (by decide) (by decide)
  exact ⟨hnonempty, hinside, hexists hnonempty hinside, hheading, hreads _ _ hheading,
    hparagraph, hreads' _ _ hparagraph⟩

end Descent.Markup

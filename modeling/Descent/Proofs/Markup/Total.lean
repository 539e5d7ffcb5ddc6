/-
  Descent.Proofs.Markup.Total

  Every text is a document (`document_total`): the parser of documents answers, raises
  nothing, leaves the memory alone and ends at the end of the text.  Inline markup is read
  wherever a line goes on, and to the end of that line; so a block is read wherever no
  line break is ahead, and the line breaks behind it are read with it.
-/
import Descent.Proofs.Markup.Adequacy
import Descent.Proofs.Reading.Stretch

namespace Descent.Markup

/-! ## Lines -/

theorem insideLine_eq_true_iff {t : Text} : insideLine t = true ↔ t.head? ≠ some '\n' := by
  unfold insideLine
  split
  · simp
  · next hline =>
    refine iff_of_true rfl fun hhead => ?_
    obtain ⟨rest, rfl⟩ := List.head?_eq_some_iff.1 hhead
    exact hline rest rfl

theorem insideLine_eq_false_iff {t : Text} : insideLine t = false ↔ t.head? = some '\n' := by
  rw [← Bool.not_eq_true, insideLine_eq_true_iff, Decidable.not_not]

theorem readLineEnd_eq {t breaks rest : Text} (h : Text.Stretch (· == '\n') t breaks rest) :
    readLineEnd t = some (breaks.length, breaks) := by
  rw [readLineEnd, Reading.singleton_beq]
  exact Reading.many_char_of_stretch h (Int.natCast_nonneg _) (.inl rfl)

/-- Line breaks are read to the last. -/
theorem readLineEnd_total (t : Text) :
    ∃ n x, readLineEnd t = some (n, x) ∧ n ≤ t.length ∧ insideLine (t.drop n) = true := by
  have hbreaks := Text.stretch_takeWhile (· == '\n') t
  refine ⟨_, _, readLineEnd_eq hbreaks, (List.takeWhile_prefix _).length_le, ?_⟩
  rw [hbreaks.drop_eq, insideLine_eq_true_iff]
  exact hbreaks.head?_ne

/-! ## Readings that always match -/

theorem readInline_isSome {t : Text} (ht : t ≠ []) (hline : insideLine t = true) :
    ∃ n is, readInline t = some (n, is) := by
  obtain ⟨n, is, h⟩ : ∃ n is,
      (readElement readInner).interleave .text insideLine t = some (n, is) :=
    Reading.interleave_isSome ht hline
  exact ⟨n, is, by rw [readInline_eq, h]⟩

theorem readInline_eq_none {t : Text} (h : t = [] ∨ insideLine t = false) :
    readInline t = none := by
  rw [Option.eq_none_iff_forall_not_mem]
  rintro ⟨n, is⟩ hread
  rw [Option.mem_def, readInline_eq] at hread
  obtain ⟨c, rest, rfl, hline⟩ := Reading.interleave_start hread
  rcases h with h | h
  · exact absurd h (List.cons_ne_nil c rest)
  · rw [h] at hline
    cases hline

theorem readInline_stop {t : Text} {n : Nat} {is : List Inline}
    (h : readInline t = some (n, is)) : t.drop n = [] ∨ insideLine (t.drop n) = false := by
  rw [readInline_eq] at h
  exact Reading.interleave_stop h

/-- A block is read wherever there is text and no line break ahead, and there is none
    behind it. -/
theorem readBlock_isSome {t : Text} (ht : t ≠ []) (hline : insideLine t = true) :
    ∃ n b, readBlock t = some (n, b) ∧ insideLine (t.drop n) = true := by
  obtain ⟨k, is, hinline⟩ := readInline_isSome ht hline
  have hparagraph : readParagraph t = some (k, .paragraph is) :=
    Reading.map_eq_some.2 ⟨is, hinline, rfl⟩
  -- Where neither a heading nor a list item is read, a paragraph is.
  obtain ⟨⟨n, b⟩, hblock⟩ :
      ∃ x, (readHeader.orElse readListItem).orElse readParagraph t = some x := by
    rw [← Option.ne_none_iff_exists']
    intro hnone
    rw [Reading.orElse_eq_none, hparagraph] at hnone
    cases hnone.2
  obtain ⟨l, x, hend, -, hnext⟩ := readLineEnd_total (t.drop n)
  refine ⟨n + l, b, Reading.map_eq_some.2 ⟨(b, x), Reading.seq_eq_some.2 ?_, rfl⟩, ?_⟩
  · exact ⟨n, l, hblock, hend, rfl⟩
  · rw [← List.drop_drop]
    exact hnext

/-- A document takes the whole text. -/
theorem readDocument_total (t : Text) : ∃ bs, readDocument t = some (t.length, bs) := by
  obtain ⟨n, x, hend, hn, hline⟩ := readLineEnd_total t
  have hall := Reading.collect_all (P := fun u => insideLine u = true) readBlock_consuming
    (fun _ hu hline => readBlock_isSome hu hline) 0 (t.drop n) hline
  rw [List.length_drop] at hall
  have hblocks : readBlock.many {} (t.drop n)
      = some (t.length - n, (readBlock.collect {} 0 (t.drop n)).2) :=
    Reading.many_eq_some.2 ⟨by rw [← hall], rfl⟩
  have hboth : readLineEnd.seq (readBlock.many {}) t = some (t.length, (x, _)) :=
    Reading.seq_eq_some.2 ⟨n, t.length - n, hend, hblocks, by omega⟩
  exact ⟨_, Reading.map_eq_some.2 ⟨_, hboth, rfl⟩⟩

/-! ## Parsers that always answer -/

/-- Every text is a document: the parser answers without a fault and ends at the end of the
    text.  Inline markup is read wherever a line goes on and nowhere else; something is
    taken, and the reading ends with the line. -/
theorem document_total (names : Names) (m : Memory) :
    (∀ text, ∃ s, (document.apply ⟨names, rules⟩ (State.start text)).run m = .ok (some s) m
      ∧ s.text = text ∧ s.pos = text.length)
    ∧ (∀ s : State, s.rest ≠ [] → s.rest.head? ≠ some '\n' →
      ∃ s', (inline.apply ⟨names, rules⟩ s).run m = .ok (some s') m
        ∧ s'.text = s.text ∧ s.pos < s'.pos ∧ s'.pos ≤ s.text.length
        ∧ (s'.rest = [] ∨ s'.rest.head? = some '\n'))
    ∧ (∀ s : State, s.rest = [] ∨ s.rest.head? = some '\n' →
      (inline.apply ⟨names, rules⟩ s).run m = .ok none m) := by
  refine ⟨fun text => ?_, fun s hrest hhead => ?_, fun s hstop => ?_⟩
  · obtain ⟨bs, hread⟩ := readDocument_total text
    rw [apply_document, State.start_rest, hread]
    exact ⟨_, rfl, rfl, Nat.zero_add _⟩
  · -- Something can be read here, and the reading takes something.
    obtain ⟨n, is, hread⟩ := readInline_isSome hrest (insideLine_eq_true_iff.2 hhead)
    obtain ⟨hpos, hle⟩ := readInline_consuming _ _ _ hread
    have hstop := readInline_stop hread
    rw [insideLine_eq_false_iff] at hstop
    have hlength : s.rest.length = s.text.length - s.pos := by
      rw [s.rest_eq, List.length_drop]
    rw [apply_inline, hread]
    refine ⟨_, rfl, rfl, ?_, ?_, hstop⟩
    · rw [State.advance_pos]
      omega
    · rw [State.advance_pos]
      omega
  · rw [← insideLine_eq_false_iff] at hstop
    rw [apply_inline, readInline_eq_none hstop]
    rfl

theorem document_total_line :
    (∃ s', (inline.apply ⟨[], rules⟩ (State.start ['*', 'a', '*', '\n', 'b'])).run ⟨#[], []⟩
        = .ok (some s') ⟨#[], []⟩
      ∧ 0 < s'.pos ∧ (s'.rest = [] ∨ s'.rest.head? = some '\n'))
    ∧ (inline.apply ⟨[], rules⟩ (State.start ['\n', 'b'])).run ⟨#[], []⟩
        = .ok none ⟨#[], []⟩ := by
  obtain ⟨-, hinside, houtside⟩ := document_total [] ⟨#[], []⟩
  refine ⟨?_, houtside (State.start ['\n', 'b']) (.inr rfl)⟩
  obtain ⟨s', hrun, -, hpos, -, hstop⟩ :=
    hinside (State.start ['*', 'a', '*', '\n', 'b']) (List.cons_ne_nil _ _) (by decide)
  exact ⟨s', hrun, hpos, hstop⟩

end Descent.Markup

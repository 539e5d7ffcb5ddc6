/-
  Descent.Proofs.Markup.Lines

  Text without stars and square brackets is read line by line (`document_lines`).  No element
  matches in it, whatever stands behind; so inline markup is a single run of characters up to
  the end of the line, and each line that is not empty makes one block.  Line breaks are taken
  by the document before the first block and by each block behind its content; which of the
  two takes them makes no difference (`blocks_break`), and this lets the induction go from
  one line to the next.
-/
import Descent.Proofs.Markup.Block
import Descent.Proofs.Markup.Shape
import Mathlib.Data.List.Forall2
import Mathlib.Data.List.TakeWhile

namespace Descent.Markup

/-! ## Lines and their blocks -/

/-- The lines of a text that are not empty. -/
def lines (t : Text) : List Text := (t.splitOn '\n').filter (· ≠ [])

/-- The block of a line without markup: a heading if the line begins like one, and a paragraph
    otherwise. -/
inductive LineBlock (line : Text) : Block → Prop where
  | header {level spaces : Nat} {body : Text} (heading : Heading line level spaces body) :
    LineBlock line (.header level [.text body])
  | paragraph (no_heading : ∀ level spaces body, ¬Heading line level spaces body) :
    LineBlock line (.paragraph [.text line])

/-- A text is read as a document of these blocks, and the memory is left alone. -/
def IsDocument (names : Names) (m : Memory) (text : Text) (bs : List Block) : Prop :=
  ∃ s, (document.apply ⟨names, rules⟩ (State.start text)).run m = .ok (some s) m ∧
    s.value = .list (bs.map Block.toValue)

/-- Neither a span nor a link begins anywhere in a text. -/
structure Unmarked (t : Text) : Prop where
  no_star : '*' ∉ t
  no_bracket : '[' ∉ t

/-- A text ends here, or a line of it does. -/
def EndsLine (t : Text) : Prop := t = [] ∨ t.head? = some '\n'

variable {line rest t a : Text} {n : Nat}

theorem Unmarked.of_subset {x y : Text} (h : Unmarked y) (hsub : x ⊆ y) : Unmarked x :=
  ⟨fun hx => h.no_star (hsub hx), fun hx => h.no_bracket (hsub hx)⟩

theorem EndsLine.append {x y : Text} (hx : EndsLine x) (hy : EndsLine y) : EndsLine (x ++ y) := by
  rcases hx with rfl | hx
  · exact hy
  · obtain ⟨x, rfl⟩ := List.head?_eq_some_iff.1 hx
    exact .inr rfl

/-- A line is the stretch before the next line break. -/
theorem stretch_line (hline : '\n' ∉ line) (hrest : EndsLine rest) :
    Text.Stretch (· != '\n') (line ++ rest) line rest := by
  refine ⟨rfl, fun c hc => ?_, fun c hc => ?_⟩
  · rw [bne_iff_ne]
    rintro rfl
    exact hline hc
  · rcases hrest with rfl | hrest
    · cases hc
    · rw [hrest] at hc
      rw [← Option.some_inj.1 hc]
      rfl

/-- Induction over the lines of a text: it is empty, or it begins with a line break, or with a
    line that is not empty. -/
theorem line_induction {P : Text → Prop} (nil : P []) (next : ∀ t, P t → P ('\n' :: t))
    (line : ∀ line rest, '\n' ∉ line → line ≠ [] → EndsLine rest → P rest → P (line ++ rest))
    (t : Text) : P t := by
  induction hlength : t.length using Nat.strongRecOn generalizing t with
  | ind length ih =>
    cases t with
    | nil => exact nil
    | cons c t =>
      by_cases hc : c = '\n'
      · subst hc
        exact next t (ih t.length (by rw [← hlength]; exact Nat.lt_succ_self _) t rfl)
      · -- The line goes up to the next break, and what is left of the text is shorter.
        have hstretch := Text.stretch_takeWhile (· != '\n') t
        have hrest : EndsLine (t.dropWhile (· != '\n')) := by
          cases hhead : (t.dropWhile (· != '\n')).head? with
          | none => exact .inl (List.head?_eq_none_iff.1 hhead)
          | some d =>
            have hd := hstretch.ends d hhead
            rw [bne_eq_false_iff_eq] at hd
            exact .inr (hhead.trans (congrArg some hd))
        have hline : '\n' ∉ c :: t.takeWhile (· != '\n') := by
          intro hmem
          rcases List.mem_cons.1 hmem with heq | hmem
          · exact hc heq.symm
          · exact absurd (hstretch.each _ hmem) (by decide)
        have hlt : (t.dropWhile (· != '\n')).length < length := by
          rw [← hlength, List.length_cons]
          exact Nat.lt_succ_of_le (List.dropWhile_suffix _).length_le
        have hall := line _ _ hline (List.cons_ne_nil _ _) hrest (ih _ hlt _ rfl)
        rwa [List.cons_append, List.takeWhile_append_dropWhile] at hall

theorem lines_nil : lines [] = [] := rfl

theorem lines_break (t : Text) : lines ('\n' :: t) = lines t := by
  have hsplit : ([] ++ '\n' :: t).splitOn '\n' = [] :: t.splitOn '\n' :=
    List.splitOn_append_cons_self_of_not_mem List.not_mem_nil t
  rw [List.nil_append] at hsplit
  rw [lines, hsplit, List.filter_cons_of_neg (by decide), lines]

theorem lines_line (hline : '\n' ∉ line) (hne : line ≠ []) (hrest : EndsLine rest) :
    lines (line ++ rest) = line :: lines rest := by
  have hkeep : ∀ ls : List Text, (line :: ls).filter (· ≠ []) = line :: ls.filter (· ≠ []) :=
    fun ls => List.filter_cons_of_pos (decide_eq_true hne)
  rcases hrest with rfl | hrest
  · rw [List.append_nil, lines, List.splitOn_eq_singleton hline, hkeep, List.filter_nil, lines_nil]
  · obtain ⟨rest, rfl⟩ := List.head?_eq_some_iff.1 hrest
    rw [lines, List.splitOn_append_cons_self_of_not_mem hline, hkeep, lines_break, lines]

/-! ## Inline markup of a line -/

/-- An element begins with a star or with a square bracket. -/
theorem readElement_eq_none {inner : Text → Option (List Inline)} {c : Char} (hstar : c ≠ '*')
    (hbracket : c ≠ '[') : readElement inner (c :: t) = none := by
  rw [Option.eq_none_iff_forall_not_mem]
  rintro ⟨n, i⟩ hread
  have hspan : ∀ {k : Nat} {x : Text}, 0 < k → readSpan k (c :: t) ≠ some (n, x) := by
    intro k x hk hx
    obtain ⟨j, rfl⟩ := Nat.exists_eq_add_of_le' hk
    obtain ⟨after, hafter⟩ := readSpan_starts hx
    exact hstar (List.cons.inj hafter).1.symm
  rcases readElement_cases hread with hlink | ⟨x, is, hx, -, -⟩ | ⟨x, is, hx, -, -⟩
  · -- What closes the brackets may be anywhere behind; what opens them comes first.
    obtain ⟨label, target, tail, -, -, hahead, -⟩ := readLink_eq_some_iff.1 hlink
    exact hbracket (List.cons.inj hahead.text).1
  · exact hspan Nat.two_pos hx
  · exact hspan Nat.one_pos hx

/-- The inline markup of a line without markup is one text. -/
theorem readInline_line (hline : '\n' ∉ line) (hplain : Unmarked line) (hne : line ≠ [])
    (hrest : EndsLine rest) : readInline (line ++ rest) = some (line.length, [.text line]) := by
  have hgoes : ∀ c ∈ line, ∀ u, insideLine (c :: u) = true := by
    intro c hc u
    rw [insideLine_eq_true_iff, List.head?_cons]
    rintro heq
    exact hline (Option.some_inj.1 heq ▸ hc)
  have hnone : ∀ c ∈ line, ∀ u, readElement readInner (c :: u) = none := by
    intro c hc u
    refine readElement_eq_none ?_ ?_
    · rintro rfl
      exact hplain.no_star hc
    · rintro rfl
      exact hplain.no_bracket hc
  rw [readInline_eq, Reading.interleave_eq_some, Reading.scan_append hgoes hnone,
    Reading.scan_end (hrest.imp_right insideLine_eq_false_iff.2), List.nil_append,
    Reading.close_of_ne_nil hne]
  exact ⟨rfl, List.cons_ne_nil _ _⟩

/-! ## The block of a line -/

theorem Heading.append {level spaces : Nat} {body : Text} (h : Heading t level spaces body)
    (rest : Text) : Heading (t ++ rest) level spaces (body ++ rest) := by
  obtain ⟨htext, hone, hsix, hspaced, hne, hflush, hinside⟩ := h
  obtain ⟨c, body, rfl⟩ := List.exists_cons_of_ne_nil hne
  exact ⟨by rw [htext, List.append_assoc, List.append_assoc], hone, hsix, hspaced,
    List.cons_ne_nil _ _, hflush, hinside⟩

/-- Whether a text begins like a heading is decided by its first line. -/
theorem Heading.of_append {level spaces : Nat} {body : Text}
    (h : Heading (line ++ rest) level spaces body) (hline : '\n' ∉ line)
    (hrest : EndsLine rest) :
    Heading line level spaces (body.takeWhile (· != '\n')) := by
  obtain ⟨htext, hone, hsix, hspaced, hne, hflush, hinside⟩ := h
  obtain ⟨c, body, rfl⟩ := List.exists_cons_of_ne_nil hne
  have hbody : (c :: body).takeWhile (· != '\n') = c :: body.takeWhile (· != '\n') := by
    rw [List.takeWhile_cons_of_pos]
    rw [bne_iff_ne]
    rintro rfl
    exact hinside rfl
  -- Neither the marks nor the spaces are line breaks, so the line goes on into the body.
  have hskip : ∀ {d : Char}, d ≠ '\n' → ∀ k (u : Text), (List.replicate k d ++ u).takeWhile
      (· != '\n') = List.replicate k d ++ u.takeWhile (· != '\n') := by
    intro d hd k u
    refine List.takeWhile_append_of_pos fun e he => ?_
    rw [List.eq_of_mem_replicate he, bne_iff_ne]
    exact hd
  have hcut : line = List.replicate level '#' ++
      (List.replicate spaces ' ' ++ (c :: body).takeWhile (· != '\n')) := by
    rw [← (stretch_line hline hrest).takeWhile_eq, htext, hskip (by decide), hskip (by decide)]
  rw [hbody] at hcut ⊢
  exact ⟨hcut, hone, hsix, hspaced, List.cons_ne_nil _ _, hflush, hinside⟩

theorem exists_lineBlock (line : Text) : ∃ b, LineBlock line b := by
  by_cases hheading : ∃ level spaces body, Heading line level spaces body
  · obtain ⟨level, spaces, body, h⟩ := hheading
    exact ⟨_, .header h⟩
  · exact ⟨_, .paragraph fun level spaces body h => hheading ⟨level, spaces, body, h⟩⟩

theorem exists_lineBlocks (ls : List Text) : ∃ bs, List.Forall₂ LineBlock ls bs := by
  induction ls with
  | nil => exact ⟨[], .nil⟩
  | cons line ls ih =>
    obtain ⟨b, hb⟩ := exists_lineBlock line
    obtain ⟨bs, hbs⟩ := ih
    exact ⟨b :: bs, .cons hb hbs⟩

/-- A line makes its block, which takes the line breaks behind it. -/
theorem LineBlock.readBlock_eq {b : Block} (h : LineBlock line b) (hline : '\n' ∉ line)
    (hplain : Unmarked line) (hne : line ≠ []) (hrest : EndsLine rest) {breaks after : Text}
    (hbreaks : Text.Stretch (· == '\n') rest breaks after) :
    readBlock (line ++ rest) = some (line.length + breaks.length, b) := by
  have hbehind : Text.Stretch (· == '\n') ((line ++ rest).drop line.length) breaks after := by
    rwa [List.drop_left]
  cases h with
  | @header level spaces body heading =>
    -- The body is within the line, so it is a line without markup itself.
    have hsub : body ⊆ line := by
      rw [heading.text]
      exact List.Subset.trans (List.subset_append_right _ _) (List.subset_append_right _ _)
    have hbody : '\n' ∉ body := fun hmem => hline (hsub hmem)
    have hplain' : Unmarked body := hplain.of_subset hsub
    have hopening := Opening.header (heading.append rest)
    have hinline : readInline ((line ++ rest).drop (level + spaces))
        = some (body.length, [.text body]) := by
      rw [(heading.append rest).drop_eq]
      exact readInline_line hbody hplain' heading.nonempty hrest
    have hlength : line.length = level + spaces + body.length := by
      rw [heading.text]
      simp only [List.length_append, List.length_replicate]
      omega
    rw [hlength] at hbehind ⊢
    exact hopening.readBlock_eq hinline hbehind
  | paragraph no_heading =>
    obtain ⟨c, line, rfl⟩ := List.exists_cons_of_ne_nil hne
    have hno : ∀ level spaces body, ¬Heading (c :: line ++ rest) level spaces body :=
      fun level spaces body hheading => no_heading _ _ _ (hheading.of_append hline hrest)
    -- An item would begin with a star.
    have hno_item : ∀ body, ¬Item (c :: line ++ rest) body := by
      intro body hitem
      have hc : c = '*' := (List.cons.inj hitem.text).1
      exact hplain.no_star (hc ▸ List.mem_cons_self)
    have hinside : (c :: line ++ rest).head? ≠ some '\n' := by
      intro hhead
      have hc : c = '\n' := Option.some_inj.1 hhead
      exact hline (hc ▸ List.mem_cons_self)
    have hopening := Opening.paragraph hno hno_item (List.cons_ne_nil _ _) hinside
    have hinline := readInline_line hline hplain hne hrest
    have hread := hopening.readBlock_eq hinline (by rwa [Nat.zero_add])
    rwa [Nat.zero_add] at hread

/-! ## The blocks of a text -/

/-- The blocks that a text is read as. -/
def blocks (t : Text) : List Block := (readBlock.collect {} 0 (t.dropWhile (· == '\n'))).2

theorem readDocument_eq (t : Text) : readDocument t = some (t.length, blocks t) := by
  obtain ⟨bs, hread⟩ := readDocument_total t
  obtain ⟨⟨breaks, bs'⟩, hall, rfl⟩ := Reading.map_eq_some.1 hread
  obtain ⟨k, l, hend, hblocks, -⟩ := Reading.seq_eq_some.1 hall
  have hbreaks := Text.stretch_takeWhile (· == '\n') t
  rw [readLineEnd_eq hbreaks] at hend
  cases hend
  rw [hbreaks.drop_eq] at hblocks
  obtain ⟨hcollect, -⟩ := Reading.many_eq_some.1 hblocks
  rw [hread, blocks, hcollect]

theorem blocks_nil : blocks [] = [] := by
  rw [blocks, List.dropWhile_nil, Reading.collect]

/-- Line breaks in front of the first block make no difference. -/
theorem blocks_break (t : Text) : blocks ('\n' :: t) = blocks t := by
  rw [blocks, List.dropWhile_cons_of_pos rfl, blocks]

/-- Where no line break is ahead, the blocks are found from there on. -/
theorem blocks_inside (h : t.head? ≠ some '\n') : blocks t = (readBlock.collect {} 0 t).2 := by
  have hkeep : t.dropWhile (· == '\n') = t := (Text.stretch_replicate 0 h).dropWhile_eq
  rw [blocks, hkeep]

theorem blocks_dropWhile (t : Text) : blocks (t.dropWhile (· == '\n')) = blocks t := by
  rw [blocks_inside (Text.stretch_takeWhile _ t).head?_ne, blocks]

/-- The first block of a text comes first, if no line break is left behind it. -/
theorem blocks_cons {b : Block} (h : readBlock t = some (n, b))
    (hnext : (t.drop n).head? ≠ some '\n') : blocks t = b :: blocks (t.drop n) := by
  obtain ⟨hne, hinside⟩ : t ≠ [] ∧ t.head? ≠ some '\n' := by
    rw [← not_or]
    intro hstop
    rw [readBlock_eq_none hstop] at h
    cases h
  obtain ⟨c, rest, rfl⟩ := List.exists_cons_of_ne_nil hne
  obtain ⟨k, rfl, -⟩ := readBlock_consuming.match_cons h
  rw [blocks_inside hinside, Reading.collect_cons_match rfl h,
    Reading.collect_unlimited rfl _ 0, blocks_inside hnext, List.drop_succ_cons]

/-- A line makes its block, and what stands behind makes the others. -/
theorem LineBlock.blocks_eq {b : Block} (h : LineBlock line b) (hline : '\n' ∉ line)
    (hplain : Unmarked line) (hne : line ≠ []) (hrest : EndsLine rest) :
    blocks (line ++ rest) = b :: blocks rest := by
  have hbreaks := Text.stretch_takeWhile (· == '\n') rest
  have hread := h.readBlock_eq hline hplain hne hrest hbreaks
  have hdrop : (line ++ rest).drop (line.length + (rest.takeWhile (· == '\n')).length)
      = rest.dropWhile (· == '\n') := by
    rw [← List.drop_drop, List.drop_left, hbreaks.drop_eq]
  rw [blocks_cons hread (by rw [hdrop]; exact hbreaks.head?_ne), hdrop, blocks_dropWhile]

/-- The lines of a text without markup make their blocks, and what stands behind the text makes
    the others. -/
theorem blocks_append (hplain : Unmarked a) (hrest : EndsLine rest) {bs : List Block}
    (hbs : List.Forall₂ LineBlock (lines a) bs) : blocks (a ++ rest) = bs ++ blocks rest := by
  induction a using line_induction generalizing bs with
  | nil =>
    cases hbs
    rfl
  | next t ih =>
    rw [lines_break] at hbs
    rw [List.cons_append, blocks_break]
    exact ih (hplain.of_subset (List.subset_cons_self _ _)) hbs
  | line line t hline hne ht ih =>
    -- The first line makes its block in front of all that follows, also what is not in `a`.
    rw [lines_line hline hne ht] at hbs
    obtain ⟨b, bs', hb, hbs', rfl⟩ := List.forall₂_cons_left_iff.1 hbs
    have hplain_line := hplain.of_subset (List.subset_append_left line t)
    have hplain_rest := hplain.of_subset (List.subset_append_right line t)
    rw [List.append_assoc, hb.blocks_eq hline hplain_line hne (ht.append hrest),
      ih hplain_rest hbs', List.cons_append]

/-- Lines without markup make one block each, whatever follows them:

    - every line that is not empty has a block;
    - a text without markup is read as the blocks of its lines, in order;
    - with a line break and any text behind it, it is read as those blocks with the blocks of
      that text behind them. -/
theorem document_lines (names : Names) (m : Memory) {a : Text} (hstar : '*' ∉ a)
    (hbracket : '[' ∉ a) :
    (∃ bs, List.Forall₂ LineBlock (lines a) bs) ∧
    ∀ bs, List.Forall₂ LineBlock (lines a) bs → IsDocument names m a bs ∧
      ∀ b, ∃ cs, IsDocument names m b cs ∧ IsDocument names m (a ++ '\n' :: b) (bs ++ cs) := by
  have hdocument : ∀ {t : Text} {bs : List Block}, blocks t = bs → IsDocument names m t bs := by
    rintro t bs rfl
    rw [IsDocument, apply_document, State.start_rest, readDocument_eq]
    exact ⟨_, rfl, rfl⟩
  have hplain : Unmarked a := ⟨hstar, hbracket⟩
  refine ⟨exists_lineBlocks _, fun bs hbs => ⟨hdocument ?_, fun b => ?_⟩⟩
  · have hall := blocks_append hplain (.inl rfl) hbs
    rwa [List.append_nil, blocks_nil, List.append_nil] at hall
  · refine ⟨blocks b, hdocument rfl, hdocument ?_⟩
    rw [blocks_append hplain (.inr rfl) hbs, blocks_break]

/-- A heading and a paragraph with an empty line between them, and a list item behind. -/
theorem document_lines_heading :
    let a := "# One\n\n two".toList
    let bs := [Block.header 1 [.text "One".toList], .paragraph [.text " two".toList]]
    '*' ∉ a ∧ '[' ∉ a ∧ List.Forall₂ LineBlock (lines a) bs ∧
    IsDocument [] ⟨#[], []⟩ a bs ∧
    ∃ cs, IsDocument [] ⟨#[], []⟩ "* x".toList cs ∧
      IsDocument [] ⟨#[], []⟩ "# One\n\n two\n* x".toList (bs ++ cs) := by
  intro a bs
  have hstar : '*' ∉ a := by decide
  have hbracket : '[' ∉ a := by decide
  have hheading : Heading "# One".toList 1 1 "One".toList :=
    ⟨rfl, by decide, by decide, by decide, by decide, by decide, by decide⟩
  have hno_heading : ∀ level spaces body, ¬Heading " two".toList level spaces body := by
    intro level spaces body h
    have hhead := h.head?_eq
    cases hhead
  have hbs : List.Forall₂ LineBlock (lines a) bs :=
    .cons (.header hheading) (.cons (.paragraph hno_heading) .nil)
  obtain ⟨-, hall⟩ := document_lines [] ⟨#[], []⟩ hstar hbracket
  obtain ⟨hdocument, hbehind⟩ := hall bs hbs
  exact ⟨hstar, hbracket, hbs, hdocument, hbehind "* x".toList⟩

end Descent.Markup

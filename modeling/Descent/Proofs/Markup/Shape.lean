/-
  Descent.Proofs.Markup.Shape

  The shape of every tree that the parser of documents makes (`document_shape`).  What
  stands between stars does not contain the stars that delimit it and does not begin with
  a star; so a span in it has fewer stars or none, and does not come first.  The rest is
  said by what a link is (`Descent.Proofs.Markup.Link`) and by the scan, which finds no empty
  runs and no two in a row.
-/
import Descent.Proofs.Markup.Link
import Descent.Proofs.Markup.Total

namespace Descent.Markup

/-! ## Well-formed trees -/

namespace Inline

def IsText : Inline → Prop
  | text _ => True
  | _ => False

def IsBold : Inline → Prop
  | bold _ => True
  | _ => False

/-- Text between stars, of whichever kind. -/
def IsSpan : Inline → Prop
  | bold _ | italic _ => True
  | _ => False

/-- There are items, and no two texts stand in a row. -/
structure Siblings (is : List Inline) : Prop where
  nonempty : is ≠ []
  separated : is.IsChain fun i j => ¬(i.IsText ∧ j.IsText)

inductive WellFormed : Inline → Prop where
  /-- A text is not empty and lies within a line. -/
  | text {content : Text} (nonempty : content ≠ []) (line : '\n' ∉ content) :
    WellFormed (text content)
  /-- A link has a balanced label, a target without white space, and no quote in its hint. -/
  | link {label href : Text} {hint : Option Text} (balanced : Text.Balanced '[' ']' label)
    (nonempty : href ≠ []) (solid : ∀ c ∈ href, Text.isBlank c = false)
    (unquoted : ∀ x, hint = some x → '"' ∉ x) : WellFormed (link label href hint)
  /-- Nothing in double stars is in double stars, and nothing in stars comes first. -/
  | bold {children : List Inline} (siblings : Siblings children)
    (each : ∀ i ∈ children, WellFormed i) (no_bold : ∀ i ∈ children, ¬i.IsBold)
    (first : ∀ i, children.head? = some i → ¬i.IsSpan) : WellFormed (bold children)
  /-- Nothing in single stars is in stars. -/
  | italic {children : List Inline} (siblings : Siblings children)
    (each : ∀ i ∈ children, WellFormed i) (no_span : ∀ i ∈ children, ¬i.IsSpan) :
    WellFormed (italic children)

mutual

/-- How deep spans are nested. -/
def depth : Inline → Nat
  | text _ | link .. => 0
  | bold children | italic children => depths children + 1

/-- The greatest depth of some items. -/
def depths : List Inline → Nat
  | [] => 0
  | i :: rest => max i.depth (depths rest)

end

theorem depths_le {n : Nat} {is : List Inline} (h : ∀ i ∈ is, i.depth ≤ n) : depths is ≤ n := by
  induction is with
  | nil => exact Nat.zero_le n
  | cons i rest ih =>
    have hi := h i List.mem_cons_self
    have hrest := ih fun j hj => h j (List.mem_cons_of_mem i hj)
    rw [depths]
    omega

theorem depth_le_zero {i : Inline} (h : ¬i.IsSpan) : i.depth ≤ 0 := by
  cases i with
  | text => exact Nat.le_refl 0
  | link => exact Nat.le_refl 0
  | bold => exact absurd trivial h
  | italic => exact absurd trivial h

theorem depth_italic_le {children : List Inline} (h : ∀ i ∈ children, ¬i.IsSpan) :
    (italic children).depth ≤ 1 := by
  have hle := depths_le fun i hi => depth_le_zero (h i hi)
  rw [depth]
  omega

theorem WellFormed.depth_le_one {i : Inline} (h : i.WellFormed) (hbold : ¬i.IsBold) :
    i.depth ≤ 1 := by
  cases h with
  | text => exact Nat.zero_le 1
  | link => exact Nat.zero_le 1
  | bold => exact absurd trivial hbold
  | italic _ _ no_span => exact depth_italic_le no_span

/-- No span stands inside a span inside a span. -/
theorem WellFormed.depth_le_two {i : Inline} (h : i.WellFormed) : i.depth ≤ 2 := by
  by_cases hbold : i.IsBold
  · cases h with
    | text => exact absurd hbold id
    | link => exact absurd hbold id
    | bold _ each no_bold _ =>
      have hle := depths_le fun i hi => (each i hi).depth_le_one (no_bold i hi)
      rw [depth]
      omega
    | italic => exact absurd hbold id
  · exact Nat.le_succ_of_le (h.depth_le_one hbold)

end Inline

/-- The children of a block: well formed as siblings, and each by itself. -/
structure Children (is : List Inline) : Prop where
  siblings : Inline.Siblings is
  each : ∀ i ∈ is, i.WellFormed

def Block.children : Block → List Inline
  | header _ children | listItem children | paragraph children => children

inductive Block.WellFormed : Block → Prop where
  | header {level : Nat} {children : List Inline} (one_le : 1 ≤ level) (le_six : level ≤ 6)
    (all : Children children) : WellFormed (header level children)
  | listItem {children : List Inline} (all : Children children) : WellFormed (listItem children)
  | paragraph {children : List Inline} (all : Children children) :
    WellFormed (paragraph children)

theorem Block.WellFormed.all {b : Block} (h : b.WellFormed) : Children b.children := by
  cases h with
  | header _ _ all => exact all
  | listItem all => exact all
  | paragraph all => exact all

/-! ## Links -/

theorem readLink_wellFormed {t : Text} {n : Nat} {i : Inline} (h : readLink t = some (n, i)) :
    i.WellFormed ∧ ¬i.IsText ∧ ¬i.IsSpan := by
  obtain ⟨label, target, tail, href, hint, hahead, hparts, rfl, -⟩ := readLink_eq_some_iff.1 h
  have hne := hparts.ne_nil_iff.2 hahead.solid
  obtain ⟨after, hstretch, hhint⟩ := hparts
  refine ⟨.link hahead.label_balanced hne (fun c hc => ?_) (fun x hx => ((hhint x).1 hx).1),
    id, id⟩
  have hsolid := hstretch.each c hc
  rw [Bool.not_eq_true'] at hsolid
  exact hsolid

/-! ## Elements -/

section Elements

variable {inner : Text → Option (List Inline)} {t : Text} {n : Nat} {i : Inline}

/-- An element is a link, or a span of one kind or the other. -/
theorem readElement_cases (h : readElement inner t = some (n, i)) :
    readLink t = some (n, i)
      ∨ (∃ x is, readSpan 2 t = some (n, x) ∧ inner x = some is ∧ i = .bold is)
      ∨ ∃ x is, readSpan 1 t = some (n, x) ∧ inner x = some is ∧ i = .italic is := by
  have hspan : ∀ {k : Nat} {of : List Inline → Inline},
      ((readSpan k).inside inner).map (fun x => of x.2) t = some (n, i) →
      ∃ x is, readSpan k t = some (n, x) ∧ inner x = some is ∧ i = of is := by
    intro k of hread
    obtain ⟨⟨x, is⟩, hinside, rfl⟩ := Reading.map_eq_some.1 hread
    obtain ⟨hx, his⟩ := Reading.inside_eq_some.1 hinside
    exact ⟨x, is, hx, his, rfl⟩
  rcases Reading.orElse_eq_some.1 h with h | ⟨-, hitalic⟩
  · rcases Reading.orElse_eq_some.1 h with hlink | ⟨-, hbold⟩
    · exact .inl hlink
    · exact .inr (.inl (hspan hbold))
  · exact .inr (.inr (hspan hitalic))

theorem readElement_not_isText (h : readElement inner t = some (n, i)) : ¬i.IsText := by
  rcases readElement_cases h with hlink | ⟨x, is, -, -, rfl⟩ | ⟨x, is, -, -, rfl⟩
  · exact (readLink_wellFormed hlink).2.1
  · exact id
  · exact id

/-- A span begins with its stars. -/
theorem readSpan_starts {k : Nat} {x : Text} (h : readSpan k t = some (n, x)) :
    List.replicate k '*' <+: t := by
  obtain ⟨-, after, rfl⟩ := readQuoted_eq_some (readSpan_eq_some h).1
  exact List.prefix_append _ _

theorem readElement_starts_of_isBold (h : readElement inner t = some (n, i)) (hi : i.IsBold) :
    ['*', '*'] <+: t := by
  rcases readElement_cases h with hlink | ⟨x, is, hspan, -, -⟩ | ⟨x, is, -, -, rfl⟩
  · have hflat := (readLink_wellFormed hlink).2.2
    cases i with
    | text => exact absurd hi id
    | link => exact absurd hi id
    | bold => exact absurd trivial hflat
    | italic => exact absurd hi id
  · exact readSpan_starts hspan
  · exact absurd hi id

theorem readElement_starts_of_isSpan (h : readElement inner t = some (n, i)) (hi : i.IsSpan) :
    ['*'] <+: t := by
  rcases readElement_cases h with hlink | ⟨x, is, hspan, -, -⟩ | ⟨x, is, hspan, -, -⟩
  · exact absurd hi (readLink_wellFormed hlink).2.2
  · exact (List.prefix_append ['*'] ['*']).trans (readSpan_starts hspan)
  · exact readSpan_starts hspan

end Elements

/-! ## Inline markup -/

section Inlines

variable {t : Text} {n : Nat} {is : List Inline}

/-- What inline markup holds is a text within a line, or an element on an end of the text. -/
theorem readInline_mem (h : readInline t = some (n, is)) {i : Inline} (hi : i ∈ is) :
    (∃ x, x ≠ [] ∧ '\n' ∉ x ∧ i = .text x)
      ∨ ∃ u k, u <:+ t ∧ readElement readInner u = some (k, i) := by
  rw [readInline_eq] at h
  have hline : ∀ (c : Char) rest, insideLine (c :: rest) = true → c ≠ '\n' := by
    rintro c rest hgoes rfl
    cases hgoes
  rcases Reading.mem_interleave h hline hi with ⟨x, hne, hx, rfl⟩ | hfound
  · exact .inl ⟨x, hne, fun hmem => hx _ hmem rfl, rfl⟩
  · exact .inr hfound

theorem readInline_no_bold (h : readInline t = some (n, is)) (ht : ¬['*', '*'] <:+: t) :
    ∀ i ∈ is, ¬i.IsBold := by
  intro i hi hbold
  rcases readInline_mem h hi with ⟨x, -, -, rfl⟩ | ⟨u, k, hu, hread⟩
  · exact hbold
  · -- Two stars would stand where the span begins.
    have hstars := readElement_starts_of_isBold hread hbold
    exact ht (hstars.isInfix.trans hu.isInfix)

theorem readInline_no_span (h : readInline t = some (n, is)) (ht : ¬['*'] <:+: t) :
    ∀ i ∈ is, ¬i.IsSpan := by
  intro i hi hspan
  rcases readInline_mem h hi with ⟨x, -, -, rfl⟩ | ⟨u, k, hu, hread⟩
  · exact hspan
  · have hstars := readElement_starts_of_isSpan hread hspan
    exact ht (hstars.isInfix.trans hu.isInfix)

/-- Markup that does not begin with a star does not begin with a span. -/
theorem readInline_first (h : readInline t = some (n, is)) (ht : opensSpan t = true) :
    ∀ i, is.head? = some i → ¬i.IsSpan := by
  intro i hi hspan
  rw [readInline_eq] at h
  rcases Reading.head?_interleave h hi with ⟨x, rfl⟩ | ⟨k, hread⟩
  · exact hspan
  · obtain ⟨after, rfl⟩ := readElement_starts_of_isSpan hread hspan
    cases ht

/-- An element is well formed if what stands between its stars has well-formed children.
    That is inline markup of its own, without those stars and not beginning with a star. -/
theorem readElement_wellFormed {i : Inline} (h : readElement readInner t = some (n, i))
    (hshorter : ∀ x m js, x.length < t.length → readInline x = some (m, js) → Children js) :
    i.WellFormed := by
  have hspan : ∀ {k : Nat} {x : Text} {js : List Inline}, 0 < k → readSpan k t = some (n, x) →
      readInner x = some js → ∃ m, readInline x = some (m, js) ∧ Children js
        ∧ ¬List.replicate k '*' <:+: x ∧ opensSpan x = true := by
    intro k x js hk hx hjs
    obtain ⟨⟨m, js'⟩, hread, rfl⟩ := Option.map_eq_some_iff.1 hjs
    obtain ⟨hquoted, hopens⟩ := readSpan_eq_some hx
    have hlength := readSpan_length hx
    have hstars : List.replicate k '*' ≠ [] :=
      mt (List.replicate_eq_nil_iff _).1 (Nat.ne_of_gt hk)
    exact ⟨m, hread, hshorter x m js' (by omega) hread, readQuoted_not_infix hstars hquoted,
      hopens⟩
  rcases readElement_cases h with hlink | ⟨x, js, hx, hjs, rfl⟩ | ⟨x, js, hx, hjs, rfl⟩
  · exact (readLink_wellFormed hlink).1
  · obtain ⟨m, hread, hchildren, hstars, hopens⟩ := hspan Nat.two_pos hx hjs
    exact .bold hchildren.siblings hchildren.each (readInline_no_bold hread hstars)
      (readInline_first hread hopens)
  · obtain ⟨m, hread, hchildren, hstars, -⟩ := hspan Nat.one_pos hx hjs
    exact .italic hchildren.siblings hchildren.each (readInline_no_span hread hstars)

theorem readInline_siblings (h : readInline t = some (n, is)) : Inline.Siblings is := by
  rw [readInline_eq] at h
  have hflat : ∀ u k i, readElement readInner u = some (k, i) → ¬i.IsText :=
    fun _ _ _ hread => readElement_not_isText hread
  exact ⟨(Reading.interleave_eq_some.1 h).2, Reading.isChain_interleave h hflat⟩

/-- By induction on the length of the text: what stands between stars is shorter than the
    text it stands in. -/
theorem readInline_children (h : readInline t = some (n, is)) : Children is := by
  induction hlength : t.length using Nat.strongRecOn generalizing t n is with
  | ind length ih =>
    refine ⟨readInline_siblings h, fun i hi => ?_⟩
    rcases readInline_mem h hi with ⟨x, hx, hline, rfl⟩ | ⟨u, k, hu, hread⟩
    · exact .text hx hline
    · have hle := hu.length_le
      exact readElement_wellFormed hread fun x m js hx hread => ih x.length (by omega) hread rfl

end Inlines

/-! ## Blocks -/

theorem readHeader_wellFormed {t : Text} {n : Nat} {b : Block}
    (h : readHeader t = some (n, b)) : b.WellFormed := by
  obtain ⟨⟨⟨marks, spaces⟩, is⟩, hall, rfl⟩ := Reading.map_eq_some.1 h
  obtain ⟨k, l, hfirst, hinline, -⟩ := Reading.seq_eq_some.1 hall
  obtain ⟨i, j, hmarks, -, -⟩ := Reading.seq_eq_some.1 hfirst
  obtain ⟨hone, hsix⟩ := Reading.many_bounds hmarks
  have hone' : (1 : Int) ≤ marks.length := hone
  have hsix' : (marks.length : Int) ≤ 6 := hsix (by decide)
  exact .header (by dsimp only; omega) (by dsimp only; omega) (readInline_children hinline)

theorem readListItem_wellFormed {t : Text} {n : Nat} {b : Block}
    (h : readListItem t = some (n, b)) : b.WellFormed := by
  obtain ⟨⟨mark, is⟩, hall, rfl⟩ := Reading.map_eq_some.1 h
  obtain ⟨k, l, -, hinline, -⟩ := Reading.seq_eq_some.1 hall
  exact .listItem (readInline_children hinline)

theorem readParagraph_wellFormed {t : Text} {n : Nat} {b : Block}
    (h : readParagraph t = some (n, b)) : b.WellFormed := by
  obtain ⟨is, hinline, rfl⟩ := Reading.map_eq_some.1 h
  exact .paragraph (readInline_children hinline)

theorem readBlock_wellFormed {t : Text} {n : Nat} {b : Block}
    (h : readBlock t = some (n, b)) : b.WellFormed := by
  obtain ⟨⟨b', breaks⟩, hall, rfl⟩ := Reading.map_eq_some.1 h
  obtain ⟨k, l, hblock, -, -⟩ := Reading.seq_eq_some.1 hall
  rcases Reading.orElse_eq_some.1 hblock with hblock | ⟨-, hparagraph⟩
  · rcases Reading.orElse_eq_some.1 hblock with hheader | ⟨-, hitem⟩
    · exact readHeader_wellFormed hheader
    · exact readListItem_wellFormed hitem
  · exact readParagraph_wellFormed hparagraph

theorem readDocument_wellFormed {t : Text} {n : Nat} {bs : List Block}
    (h : readDocument t = some (n, bs)) : ∀ b ∈ bs, b.WellFormed := by
  obtain ⟨⟨breaks, bs'⟩, hall, rfl⟩ := Reading.map_eq_some.1 h
  obtain ⟨k, l, -, hblocks, -⟩ := Reading.seq_eq_some.1 hall
  obtain ⟨hcollect, -⟩ := Reading.many_eq_some.1 hblocks
  intro b hb
  have hb' : b ∈ (readBlock.collect {} 0 (t.drop k)).2 := by
    rw [hcollect]
    exact hb
  obtain ⟨u, m, hread⟩ := Reading.mem_collect hb'
  exact readBlock_wellFormed hread

/-- On every text the parser of documents gives a list of blocks.  Each is well formed, and
    no span in it stands deeper than in one other. -/
theorem document_shape (names : Names) (text : Text) (m : Memory) :
    ∃ (s : State) (blocks : List Block),
      (document.apply ⟨names, rules⟩ (State.start text)).run m = .ok (some s) m
      ∧ s.value = .list (blocks.map Block.toValue)
      ∧ ∀ b ∈ blocks, b.WellFormed ∧ ∀ i ∈ b.children, i.depth ≤ 2 := by
  obtain ⟨blocks, hread⟩ := readDocument_total text
  rw [apply_document, State.start_rest, hread]
  refine ⟨_, blocks, rfl, rfl, fun b hb => ?_⟩
  have hb' := readDocument_wellFormed hread b hb
  exact ⟨hb', fun i hi => (hb'.all.each i hi).depth_le_two⟩

end Descent.Markup

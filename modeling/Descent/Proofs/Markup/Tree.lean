/-
  Descent.Proofs.Markup.Tree

  Documents as trees, and the readings of the grammar's rules that make them.  The rule for
  inline markup applies itself to what stands between stars; its reading is by recursion on
  the length of the text, and `readInline_eq` gives it in the words of the grammar.  That
  the parsers do what the readings say is shown in `Descent.Proofs.Markup.Adequacy`.
-/
import Descent.Markup.Grammar
import Descent.Proofs.Reading.Scan
import Descent.Proofs.Text.Quoting

namespace Descent.Markup

/-! ## Trees -/

/-- What stands inside a block. -/
inductive Inline where
  | text (content : Text)
  | link (label href : Text) (hint : Option Text)
  | bold (children : List Inline)
  | italic (children : List Inline)

/-- A block of a document. -/
inductive Block where
  | header (level : Nat) (children : List Inline)
  | listItem (children : List Inline)
  | paragraph (children : List Inline)

mutual

/-- The node of a tree. -/
def Inline.toValue : Inline → Value
  | .text content => textNode content
  | .link label href hint =>
    .node "Link" [("text", .str label), ("href", .str href), ("hint", hint.elim .none .str)]
  | .bold children => branch "Bold" (.list (Inline.toValues children))
  | .italic children => branch "Italic" (.list (Inline.toValues children))

/-- The nodes of trees. -/
def Inline.toValues : List Inline → List Value
  | [] => []
  | i :: rest => i.toValue :: Inline.toValues rest

end

theorem Inline.toValues_eq_map (is : List Inline) :
    Inline.toValues is = is.map Inline.toValue := by
  induction is with
  | nil => rfl
  | cons i rest ih => rw [Inline.toValues, List.map_cons, ih]

theorem Inline.toValue_bold (is : List Inline) :
    (Inline.bold is).toValue = branch "Bold" (.list (is.map Inline.toValue)) := by
  rw [Inline.toValue, Inline.toValues_eq_map]

theorem Inline.toValue_italic (is : List Inline) :
    (Inline.italic is).toValue = branch "Italic" (.list (is.map Inline.toValue)) := by
  rw [Inline.toValue, Inline.toValues_eq_map]

/-- The node of a block. -/
def Block.toValue : Block → Value
  | .header level children =>
    .node "Header" [("level", .int level), ("children", .list (children.map Inline.toValue))]
  | .listItem children => branch "ListItem" (.list (children.map Inline.toValue))
  | .paragraph children => branch "Paragraph" (.list (children.map Inline.toValue))

/-! ## Readings of inline markup -/

/-- What stands between a delimiter and its next occurrence. -/
def readQuoted (delimiter : Text) : Reading Text :=
  (((Reading.exactly delimiter).seq (.upTo delimiter)).seq (.exactly delimiter)).map
    fun x => x.1.2

/-- What stands between `n` stars on either side, if it can begin a span. -/
def readSpan (n : Nat) : Reading Text :=
  ((readQuoted (List.replicate n '*')).inside fun x =>
    if opensSpan x then some x else none).map Prod.snd

/-- Everything up to white space. -/
def readWord : Reading Text := (Reading.char fun c => !Text.isBlank c).many ⟨1, 0⟩

/-- A quoted text after spaces. -/
def readHint : Reading Text :=
  (((Reading.char fun c => [c] == [' ']).many {}).seq (readQuoted ['"'])).map Prod.snd

/-- A target, and a hint if there is one. -/
def readTarget : Reading (Text × Option Text) := readWord.seq readHint.optional

/-- A link. -/
def readLink : Reading Inline :=
  (((Reading.group '[' ']').seq (.group '(' ')')).inside fun x =>
    (readTarget x.2).map Prod.snd).map fun x => .link x.1.1 x.2.1 x.2.2

/-- Text between double stars, whose content is read by `inner`. -/
def readBold (inner : Text → Option (List Inline)) : Reading Inline :=
  ((readSpan 2).inside inner).map fun x => .bold x.2

/-- Text between single stars, whose content is read by `inner`. -/
def readItalic (inner : Text → Option (List Inline)) : Reading Inline :=
  ((readSpan 1).inside inner).map fun x => .italic x.2

/-- A link or a span. -/
def readElement (inner : Text → Option (List Inline)) : Reading Inline :=
  (readLink.orElse (readBold inner)).orElse (readItalic inner)

/-- The content of a block or span.  What stands between stars is shorter than the text
    that they stand in (`readInline_eq`). -/
def readInline (t : Text) : Option (Nat × List Inline) :=
  (readElement fun x =>
    if x.length < t.length then (readInline x).map Prod.snd else none).interleave .text insideLine t
termination_by t.length

/-! ## Quoted texts and spans -/

/-- A quoted text stands between two delimiters. -/
theorem readQuoted_eq_some {delimiter t x : Text} {n : Nat}
    (h : readQuoted delimiter t = some (n, x)) :
    n = delimiter.length + x.length + delimiter.length
      ∧ ∃ after, t = delimiter ++ (x ++ (delimiter ++ after)) := by
  obtain ⟨⟨⟨d, y⟩, d'⟩, hall, rfl⟩ := Reading.map_eq_some.1 h
  obtain ⟨k, l, hfirst, hclose, rfl⟩ := Reading.seq_eq_some.1 hall
  obtain ⟨i, j, hopen, hinside, rfl⟩ := Reading.seq_eq_some.1 hfirst
  dsimp only at hinside
  obtain ⟨rfl, -, ⟨t', rfl⟩⟩ := Reading.exactly_eq_some.1 hopen
  obtain ⟨rfl, -, ⟨after, hafter⟩⟩ := Reading.exactly_eq_some.1 hclose
  rw [List.drop_left] at hinside
  obtain ⟨hoffset, rfl⟩ := Reading.upTo_eq_some.1 hinside
  have hle := Text.offset?_le hoffset
  rw [← List.drop_drop, List.drop_left] at hafter
  refine ⟨?_, after, ?_⟩
  · simp only [List.length_take, Nat.min_eq_left hle]
  · rw [hafter, List.take_append_drop]

/-- The delimiter does not occur in what it delimits. -/
theorem readQuoted_not_infix {delimiter t x : Text} {n : Nat} (hd : delimiter ≠ [])
    (h : readQuoted delimiter t = some (n, x)) : ¬delimiter <:+: x := by
  obtain ⟨⟨⟨d, y⟩, d'⟩, hall, rfl⟩ := Reading.map_eq_some.1 h
  obtain ⟨k, l, hfirst, -, -⟩ := Reading.seq_eq_some.1 hall
  obtain ⟨i, j, -, hinside, -⟩ := Reading.seq_eq_some.1 hfirst
  dsimp only at hinside
  obtain ⟨hoffset, rfl⟩ := Reading.upTo_eq_some.1 hinside
  exact Text.not_infix_take_offset? hd hoffset

/-- A text that can be quoted is read back from between two delimiters. -/
theorem readQuoted_of_quotable {delimiter x : Text} (h : Text.Quotable delimiter x)
    (after : Text) : readQuoted delimiter (delimiter ++ (x ++ (delimiter ++ after)))
      = some (delimiter.length + x.length + delimiter.length, x) := by
  have hopen : Reading.exactly delimiter (delimiter ++ (x ++ (delimiter ++ after)))
      = some (delimiter.length, delimiter) :=
    Reading.exactly_eq_some.2 ⟨rfl, rfl, List.prefix_append _ _⟩
  have hinside : Reading.upTo delimiter (x ++ (delimiter ++ after)) = some (x.length, x) :=
    Reading.upTo_eq_some.2 ⟨(Text.offset?_eq_length_iff delimiter x after).2 h,
      List.take_left.symm⟩
  have hclose : Reading.exactly delimiter (delimiter ++ after)
      = some (delimiter.length, delimiter) :=
    Reading.exactly_eq_some.2 ⟨rfl, rfl, List.prefix_append _ _⟩
  refine Reading.map_eq_some.2 ⟨((delimiter, x), delimiter), Reading.seq_eq_some.2
    ⟨delimiter.length + x.length, delimiter.length, Reading.seq_eq_some.2
      ⟨delimiter.length, x.length, hopen, ?_, rfl⟩, ?_, rfl⟩, rfl⟩
  · rw [List.drop_left]
    exact hinside
  · rw [← List.drop_drop, List.drop_left, List.drop_left]
    exact hclose

theorem readSpan_eq_some {k n : Nat} {t x : Text} (h : readSpan k t = some (n, x)) :
    readQuoted (List.replicate k '*') t = some (n, x) ∧ opensSpan x = true := by
  obtain ⟨⟨y, z⟩, hinside, rfl⟩ := Reading.map_eq_some.1 h
  obtain ⟨hquoted, hopens⟩ := Reading.inside_eq_some.1 hinside
  dsimp only at hquoted hopens
  obtain ⟨hstart, heq⟩ := Option.ite_none_right_eq_some.1 hopens
  cases heq
  exact ⟨hquoted, hstart⟩

theorem readSpan_length {k n : Nat} {t x : Text} (h : readSpan k t = some (n, x)) :
    n = k + x.length + k ∧ n ≤ t.length := by
  obtain ⟨hn, after, rfl⟩ := readQuoted_eq_some (readSpan_eq_some h).1
  rw [List.length_replicate] at hn
  refine ⟨hn, ?_⟩
  simp only [List.length_append, List.length_replicate]
  omega

/-! ## Elements -/

theorem readLink_consuming : readLink.Consuming :=
  (((Reading.group_consuming _ _).seq (Reading.group_consuming _ _).bounded).inside _).map _

theorem readBold_consuming (inner : Text → Option (List Inline)) :
    (readBold inner).Consuming := by
  refine Reading.Consuming.map (Reading.Consuming.inside ?_ inner) _
  intro t n x h
  have hlength := readSpan_length h
  omega

theorem readItalic_consuming (inner : Text → Option (List Inline)) :
    (readItalic inner).Consuming := by
  refine Reading.Consuming.map (Reading.Consuming.inside ?_ inner) _
  intro t n x h
  have hlength := readSpan_length h
  omega

theorem readElement_consuming (inner : Text → Option (List Inline)) :
    (readElement inner).Consuming :=
  (readLink_consuming.orElse (readBold_consuming inner)).orElse (readItalic_consuming inner)

/-- An element depends on its inner reading only for shorter texts. -/
theorem readElement_congr {inner inner' : Text → Option (List Inline)} {t : Text}
    (h : ∀ x, x.length < t.length → inner x = inner' x) :
    readElement inner t = readElement inner' t := by
  have hspan : ∀ k, 0 < k → (readSpan k).inside inner t = (readSpan k).inside inner' t := by
    intro k hk
    refine Reading.inside_congr fun n x hx => h x ?_
    have hlength := readSpan_length hx
    omega
  simp only [readElement, Reading.orElse, readBold, readItalic, Reading.map,
    hspan 1 Nat.one_pos, hspan 2 Nat.two_pos]

/-- What stands between stars, as inline markup.  Where the markup ends does not matter. -/
def readInner (x : Text) : Option (List Inline) := (readInline x).map Prod.snd

/-- Inline markup is links and spans with plain text between them, up to the end of the
    line. -/
theorem readInline_eq (t : Text) :
    readInline t = (readElement readInner).interleave .text insideLine t := by
  rw [readInline, Reading.interleave, Reading.interleave]
  rw [Reading.scan_congr fun u hu => readElement_congr fun x hx => ?_]
  rw [if_pos (Nat.lt_of_lt_of_le hx hu.length_le), readInner]

theorem readInline_consuming : Reading.Consuming readInline := by
  intro t n is h
  rw [readInline_eq] at h
  exact (readElement_consuming _).interleave t n is h

/-! ## Readings of blocks -/

/-- Line breaks, or none. -/
def readLineEnd : Reading Text := (Reading.char fun c => [c] == ['\n']).many {}

/-- A heading of one of six levels. -/
def readHeader : Reading Block :=
  ((((Reading.char fun c => [c] == ['#']).many ⟨1, 6⟩).seq
    ((Reading.char fun c => [c] == [' ']).many ⟨1, 0⟩)).seq readInline).map
      fun x => .header x.1.1.length x.2

/-- A list item. -/
def readListItem : Reading Block :=
  ((Reading.exactly ['*', ' ']).seq readInline).map fun x => .listItem x.2

/-- A paragraph. -/
def readParagraph : Reading Block := Reading.map .paragraph readInline

/-- A block with the line breaks behind it. -/
def readBlock : Reading Block :=
  (((readHeader.orElse readListItem).orElse readParagraph).seq readLineEnd).map Prod.fst

/-- A whole document. -/
def readDocument : Reading (List Block) := (readLineEnd.seq (readBlock.many {})).map Prod.snd

theorem readLineEnd_bounded : readLineEnd.Bounded := (Reading.char_consuming _).bounded.many _

/-- A heading begins with one mark at least, and there is text behind the marks. -/
theorem readHeader_consuming : readHeader.Consuming := by
  intro t n b h
  obtain ⟨x, h, -⟩ := Reading.map_eq_some.1 h
  obtain ⟨k, l, hmarks, hinline, rfl⟩ := Reading.seq_eq_some.1 h
  have hk := ((Reading.char_consuming _).bounded.many _).seq
    ((Reading.char_consuming _).bounded.many _) t k x.1 hmarks
  have hl := readInline_consuming _ _ _ hinline
  rw [List.length_drop] at hl
  omega

theorem readListItem_consuming : readListItem.Consuming :=
  ((Reading.exactly_consuming (List.cons_ne_nil '*' [' '])).seq
    readInline_consuming.bounded).map _

theorem readParagraph_consuming : readParagraph.Consuming := readInline_consuming.map _

theorem readBlock_consuming : readBlock.Consuming :=
  (((readHeader_consuming.orElse readListItem_consuming).orElse readParagraph_consuming).seq
    readLineEnd_bounded).map _

end Descent.Markup

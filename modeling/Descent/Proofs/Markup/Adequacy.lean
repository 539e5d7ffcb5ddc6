/-
  Descent.Proofs.Markup.Adequacy

  The parsers of the markup grammar do what the readings of its rules say, with any names
  bound and whatever the memory holds: `reads_inline` for the rule that refers to itself,
  `reads_document` for a whole document.  Following the rule once more costs one unit of
  fuel, and what stands between stars is shorter by at least two characters; so fuel that
  exceeds the length of a text suffices for it, and the induction is on the fuel.
-/
import Descent.Proofs.Markup.Tree
import Descent.Proofs.Reading.Action

namespace Descent.Markup

open Run Descent.Action

variable {follow : Ref → Action} {fuel bound : Nat}

/-! ## Quoted texts, spans and words -/

theorem reads_quoted {delimiter : Text} (hd : delimiter ≠ []) :
    ((Parser.quoted delimiter).act follow fuel).Reads bound .str (readQuoted delimiter) :=
  Reads.to_map (((reads_literal hd).seq (reads_upTo hd)).thenSkip (reads_literal hd))

/-- A repeated character. -/
theorem reads_chars (follow : Ref → Action) (text : Text) (bounds : Bounds)
    (hfuel : bound ≤ fuel) :
    ((Parser.many (Parser.exactChar text) bounds none).act follow fuel).Reads bound
      (fun cs => .list (cs.map fun c => .str [c]))
      ((Reading.char fun c => [c] == text).many bounds) :=
  (reads_satisfy _).many (Reading.char_consuming _) bounds hfuel

/-- What is left of a text if it can begin a span. -/
theorem gives_remaining (x : Text) :
    ((lookAhead (.total opensSpan)).seq remaining).Gives x
      ((if opensSpan x then some x else none).map .str) := by
  unfold Gives Action.seq andThen lookAhead
  rw [State.start_rest, call_total, pure_bind]
  by_cases hopens : opensSpan x = true
  · rw [if_pos hopens, if_pos hopens, pure_bind]
    exact ⟨_, rfl, rfl⟩
  · rw [if_neg hopens, if_neg hopens, pure_bind]
    exact ⟨_, rfl, rfl⟩

theorem reads_starSpan {n : Nat} (hn : 0 < n) :
    ((starSpan n).act follow fuel).Reads bound .str (readSpan n) := by
  have hstars : List.replicate n '*' ≠ [] := mt (List.replicate_eq_nil_iff _).1 (Nat.ne_of_gt hn)
  exact Reads.to_map ((reads_quoted hstars).seqInside fun _ _ x _ _ => gives_remaining x)

theorem join?_chars (cs : Text) :
    join? (.list (cs.map fun c => .str [c])) = some (.str cs) := by
  rw [join?, Value.joined?_chars, Option.map_some]

theorem count?_chars (cs : Text) :
    count? (.list (cs.map fun c => .str [c])) = some (.int cs.length) := by
  simp [count?, Value.length?]

theorem reads_word (hfuel : bound ≤ fuel) :
    (word.act follow fuel).Reads bound .str readWord := by
  have hchars : (many (satisfy (.total fun c => !Text.isBlank c)) ⟨1, 0⟩ none fuel).Reads bound
      (fun cs => .list (cs.map fun c => .str [c])) readWord :=
    (reads_satisfy _).many (Reading.char_consuming _) _ hfuel
  exact hchars.mapValue fun cs => call_orFault "word of no texts" (join?_chars cs)

theorem reads_hint (hfuel : bound ≤ fuel) :
    (hint.act follow fuel).Reads bound .str readHint :=
  Reads.to_map ((reads_chars follow [' '] {} hfuel).seq
    (reads_quoted (List.cons_ne_nil '"' [])))

/-! ## Links -/

theorem reads_target (hfuel : bound ≤ fuel) :
    (target.act follow fuel).Reads bound
      (fun x => .fields [("href", .str x.1), ("hint", x.2.elim .none .str)]) readTarget :=
  ((reads_word hfuel).field "href").merge (((reads_hint hfuel).orDefault .none).field "hint")

/-- The fields that a link is made of. -/
def linkFields (x : (Text × Text) × Text × Option Text) : Fields :=
  [("text", .str x.1.1), ("target", .str x.1.2), ("href", .str x.2.1),
    ("hint", x.2.2.elim .none .str)]

theorem reads_link (hfuel : bound ≤ fuel) :
    (link.act follow fuel).Reads bound Inline.toValue readLink := by
  have hgroups : (merge (field (bracketed '[' ']') "text")
      (field (bracketed '(' ')') "target")).Reads bound
      (fun x => .fields [("text", .str x.1), ("target", .str x.2)])
      ((Reading.group '[' ']').seq (.group '(' ')')) :=
    ((reads_bracketed '[' ']').field "text").merge ((reads_bracketed '(' ')').field "target")
  have htarget : ∀ t n x, t.length < bound →
      (Reading.group '[' ']').seq (.group '(' ')') t = some (n, x) →
      (target.act follow fuel).Gives x.2 (((readTarget x.2).map Prod.snd).map fun y =>
        .fields [("href", .str y.1), ("hint", y.2.elim .none .str)]) := by
    -- The fuel suffices for what stands in parentheses, since it lies in the same text.
    intro t n x ht hx
    obtain ⟨k, l, -, hparens, -⟩ := Reading.seq_eq_some.1 hx
    obtain ⟨hl, -, after, hafter⟩ := Reading.group_eq_some hparens
    have hshorter : x.2.length < (t.drop k).length := by
      rw [hafter, List.length_cons, List.length_append]
      omega
    have hdrop : (t.drop k).length ≤ t.length := by
      rw [List.length_drop]
      omega
    exact (reads_target hfuel).gives (by omega)
  have hall : (mergeInside _ (target.act follow fuel) (some "target")).Reads bound
      (fun x => .fields (linkFields x)) _ := hgroups.mergeInside (fun _ => rfl) htarget
  exact Reads.to_map (hall.mapValue fun _ => rfl)

/-! ## Inline markup -/

section Spans

variable {inner : Text → Option (List Inline)}
  (hinner : ∀ x, x.length + 2 < bound →
    (follow (.rule "inline")).Gives x ((inner x).map fun is => .list (is.map Inline.toValue)))
include hinner

/-- What stands between stars on either side goes to the inner reading. -/
theorem reads_branch {n : Nat} (hn : 0 < n) (tag : String) :
    (((starSpan n).seqInside inline none).map (.total (branch tag))).act follow fuel |>.Reads bound
      (fun x => branch tag (.list (x.2.map Inline.toValue))) ((readSpan n).inside inner) := by
  refine ((reads_starSpan hn).seqInside fun t k x ht hx => hinner x ?_).mapValue fun _ => rfl
  have hlength := readSpan_length hx
  omega

theorem reads_bold : (bold.act follow fuel).Reads bound Inline.toValue (readBold inner) := by
  refine Reads.to_map (f := Inline.toValue) ?_
  simp only [Inline.toValue_bold]
  exact reads_branch hinner Nat.two_pos "Bold"

theorem reads_italic :
    (italic.act follow fuel).Reads bound Inline.toValue (readItalic inner) := by
  refine Reads.to_map (f := Inline.toValue) ?_
  simp only [Inline.toValue_italic]
  exact reads_branch hinner Nat.one_pos "Italic"

end Spans

/-- The parser reads inline markup, if following its rule gives what stands between stars. -/
def ReadsInline (content : Parser Ref) : Prop :=
  ∀ ⦃follow : Ref → Action⦄ ⦃fuel bound : Nat⦄ ⦃inner : Text → Option (List Inline)⦄,
    (∀ x, x.length + 2 < bound →
      (follow (.rule "inline")).Gives x ((inner x).map fun is => .list (is.map Inline.toValue))) →
    bound ≤ fuel → (content.act follow fuel).Reads bound
      (fun is => .list (is.map Inline.toValue)) ((readElement inner).interleave .text insideLine)

theorem reads_inlineContent : ReadsInline inlineContent := by
  intro follow fuel bound inner hinner hfuel
  exact Reads.interleave (fun _ => rfl)
    (((reads_link hfuel).orElse (reads_bold hinner)).orElse (reads_italic hinner))
    (readElement_consuming inner) insideLine hfuel

/-- Following a rule for inline markup reads inline markup, on texts that are shorter than the
    fuel that is left. -/
theorem ReadsInline.reads_rule {content : Parser Ref} (hcontent : ReadsInline content)
    (names : Names) (n : Nat) :
    ((Env.mk names [("inline", content)]).follow (n + 1) (.rule "inline")).Reads n
      (fun is => .list (is.map Inline.toValue)) readInline := by
  induction n with
  | zero => exact fun s hs => absurd hs (Nat.not_lt_zero _)
  | succ n ih =>
    -- One unit of fuel goes to the link, and two characters at least to the stars.
    have hinner : ∀ x : Text, x.length + 2 < n + 1 →
        ((Env.mk names [("inline", content)]).follow (n + 1) (.rule "inline")).Gives x
          ((readInner x).map fun is => .list (is.map Inline.toValue)) :=
      fun x hx => ih.gives (by omega)
    intro s hs
    rw [readInline_eq]
    exact hcontent hinner (Nat.le_refl _) s hs

theorem reads_inline (names : Names) (n : Nat) :
    ((Env.mk names rules).follow (n + 1) (.rule "inline")).Reads n
      (fun is => .list (is.map Inline.toValue)) readInline :=
  ReadsInline.reads_rule reads_inlineContent names n

/-! ## Blocks -/

theorem reads_lineEnd (hfuel : bound ≤ fuel) : (lineEnd.act follow fuel).Reads bound
    (fun cs => .list (cs.map fun c => .str [c])) readLineEnd :=
  reads_chars follow ['\n'] {} hfuel

section Blocks

variable
  (hinline : (follow (.rule "inline")).Reads bound (fun is => .list (is.map Inline.toValue))
    readInline)
include hinline

theorem reads_header (hfuel : bound ≤ fuel) :
    (header.act follow fuel).Reads bound Block.toValue readHeader := by
  have hmarks := reads_chars follow ['#'] ⟨1, 6⟩ hfuel
  have hlevel := hmarks.mapValue (h := fun cs => .int cs.length)
    fun cs => call_orFault "level of no list" (count?_chars cs)
  have hspaces := reads_chars follow [' '] ⟨1, 0⟩ hfuel
  have hall := ((hlevel.field "level").thenSkip hspaces).merge (hinline.field "children")
  exact Reads.to_map (hall.mapValue fun _ => rfl)

theorem reads_listItem :
    (listItem.act follow fuel).Reads bound Block.toValue readListItem :=
  Reads.to_map (((reads_literal (List.cons_ne_nil '*' [' '])).seq hinline).mapValue fun _ => rfl)

theorem reads_paragraph :
    (paragraph.act follow fuel).Reads bound Block.toValue readParagraph :=
  Reads.to_map (hinline.mapValue fun _ => rfl)

theorem reads_block (hfuel : bound ≤ fuel) :
    (block.act follow fuel).Reads bound Block.toValue readBlock :=
  Reads.to_map ((((reads_header hinline hfuel).orElse (reads_listItem hinline)).orElse
    (reads_paragraph hinline)).thenSkip (reads_lineEnd hfuel))

theorem reads_document (hfuel : bound ≤ fuel) :
    (document.act follow fuel).Reads bound (fun bs => .list (bs.map Block.toValue))
      readDocument :=
  Reads.to_map ((reads_lineEnd hfuel).seq
    ((reads_block hinline hfuel).many readBlock_consuming {} hfuel))

end Blocks

/-! ## Applying the grammar -/

/-- A parser that reads texts shorter than the fuel reads what lies ahead when it is applied. -/
theorem apply_of_reads {α : Type} {env : Env} {p : Parser Ref} {value : α → Value}
    {r : Reading α}
    (h : ∀ n, (p.act (env.follow (n + 2)) (n + 2)).Reads (n + 1) value r) (s : State) :
    p.apply env s = pure ((r s.rest).map fun x => s.advance x.1 (value x.2)) := by
  obtain ⟨n, hbudget, hn⟩ := Parser.length_lt_budget s
  rw [Parser.apply, hbudget]
  exact h n s (by omega)

theorem apply_link (env : Env) (s : State) :
    link.apply env s = pure ((readLink s.rest).map fun x => s.advance x.1 x.2.toValue) :=
  apply_of_reads (p := link) (fun n => reads_link (by omega)) s

theorem apply_inline (names : Names) (s : State) :
    inline.apply ⟨names, rules⟩ s
      = pure ((readInline s.rest).map fun x => s.advance x.1 (.list (x.2.map Inline.toValue))) :=
  apply_of_reads (p := inline) (fun n => reads_inline names (n + 1)) s

/-- Following the rule on what stands between stars gives its inline markup. -/
theorem gives_inner (names : Names) (n : Nat) (x : Text) (hx : x.length + 2 < n + 1) :
    ((Env.mk names rules).follow (n + 2) (.rule "inline")).Gives x
      ((readInner x).map fun is => .list (is.map Inline.toValue)) :=
  (reads_inline names (n + 1)).gives (by omega)

theorem apply_bold (names : Names) (s : State) : bold.apply ⟨names, rules⟩ s
    = pure ((readBold readInner s.rest).map fun x => s.advance x.1 x.2.toValue) :=
  apply_of_reads (p := bold) (fun n => reads_bold (gives_inner names n)) s

theorem apply_italic (names : Names) (s : State) : italic.apply ⟨names, rules⟩ s
    = pure ((readItalic readInner s.rest).map fun x => s.advance x.1 x.2.toValue) :=
  apply_of_reads (p := italic) (fun n => reads_italic (gives_inner names n)) s

theorem apply_element (names : Names) (s : State) :
    (Parser.orElse (.orElse link bold) italic).apply ⟨names, rules⟩ s
      = pure ((readElement readInner s.rest).map fun x => s.advance x.1 x.2.toValue) :=
  apply_of_reads (p := .orElse (.orElse link bold) italic)
    (fun n => ((reads_link (by omega)).orElse (reads_bold (gives_inner names n))).orElse
      (reads_italic (gives_inner names n))) s

theorem apply_block (names : Names) (s : State) :
    block.apply ⟨names, rules⟩ s
      = pure ((readBlock s.rest).map fun x => s.advance x.1 x.2.toValue) :=
  apply_of_reads (fun n => reads_block (reads_inline names (n + 1)) (by omega)) s

theorem apply_document (names : Names) (s : State) :
    document.apply ⟨names, rules⟩ s
      = pure ((readDocument s.rest).map fun x =>
          s.advance x.1 (.list (x.2.map Block.toValue))) :=
  apply_of_reads (fun n => reads_document (reads_inline names (n + 1)) (by omega)) s

end Descent.Markup

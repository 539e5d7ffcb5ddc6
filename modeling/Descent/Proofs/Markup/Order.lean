/-
  Descent.Proofs.Markup.Order

  The order in which links and spans are tried does not matter (`alternatives_any_order`).  The
  first alternative that matches is taken, but no text begins with two of them: a link begins
  with a bracket and a span with a star, and what stands between single stars cannot begin with
  the second star of a span between double ones (`readSpan_apart`).  The grammar with its
  alternatives in another order reads what stands between stars by its own rule again; that
  rule reads the same inline markup by the induction of `ReadsInline.reads_rule`.
-/
import Descent.Proofs.Markup.Link
import Descent.Proofs.Markup.Total

namespace Descent.Markup

open Run Descent.Action

/-! ## The grammar with its alternatives in some order -/

/-- What the elements of inline markup are. -/
inductive Alternative where
  | link
  | bold
  | italic
  deriving DecidableEq

namespace Alternative

/-- The parser of such elements. -/
def parser : Alternative → Parser Ref
  | link => Markup.link
  | bold => Markup.bold
  | italic => Markup.italic

/-- The reading of such elements. -/
def read (inner : Text → Option (List Inline)) : Alternative → Reading Inline
  | link => readLink
  | bold => readBold inner
  | italic => readItalic inner

/-- All alternatives, as the grammar tries them. -/
def all : List Alternative := [link, bold, italic]

end Alternative

/-- The content of a block or span, with alternatives that are tried in some order. -/
def inlineContentBy (order : List Alternative) : Parser Ref :=
  .interleave (.choice (order.map Alternative.parser)) (.total textNode) (.total insideLine)

/-- The rules of the grammar, with alternatives that are tried in some order. -/
def rulesBy (order : List Alternative) : Names := [("inline", inlineContentBy order)]

theorem rulesBy_all : rulesBy Alternative.all = rules := rfl

/-! ## No text begins with two elements -/

/-- A span between some stars is not one between fewer. -/
theorem readSpan_apart {j k : Nat} (hjk : j < k) : (readSpan j).Apart (readSpan k) := by
  intro t
  rw [or_iff_not_imp_left]
  intro hj
  obtain ⟨⟨n, x⟩, hj⟩ := Option.ne_none_iff_exists'.1 hj
  obtain ⟨hquoted, hopens⟩ := readSpan_eq_some hj
  obtain ⟨-, after, htext⟩ := readQuoted_eq_some hquoted
  rw [Option.eq_none_iff_forall_not_mem]
  rintro ⟨l, y⟩ hk
  obtain ⟨-, after', htext'⟩ := readQuoted_eq_some (readSpan_eq_some hk).1
  -- Behind the fewer stars there would be a star.
  obtain ⟨i, rfl⟩ := Nat.exists_eq_add_of_lt hjk
  rw [htext', Nat.add_assoc, List.replicate_add, List.append_assoc] at htext
  have hstars := List.append_cancel_left htext
  cases x with
  | nil => cases hopens
  | cons c rest =>
    rw [List.replicate_succ, List.cons_append, List.cons_append] at hstars
    injection hstars with hc
    subst hc
    cases hopens

/-- A link is no span. -/
theorem readLink_apart_readSpan {k : Nat} (hk : 0 < k) : readLink.Apart (readSpan k) := by
  intro t
  rw [or_iff_not_imp_left]
  intro hlink
  obtain ⟨⟨n, i⟩, hlink⟩ := Option.ne_none_iff_exists'.1 hlink
  obtain ⟨label, target, tail, -, -, hahead, -⟩ := readLink_eq_some_iff.1 hlink
  rw [Option.eq_none_iff_forall_not_mem]
  rintro ⟨l, x⟩ hspan
  obtain ⟨-, after, htext⟩ := readQuoted_eq_some (readSpan_eq_some hspan).1
  -- One begins with a bracket, and the other with a star.
  obtain ⟨j, rfl⟩ := Nat.exists_eq_add_of_le' hk
  rw [hahead.text, List.replicate_succ, List.cons_append] at htext
  injection htext with hc
  exact absurd hc (by decide)

/-- No text begins with two elements of different kinds. -/
theorem Alternative.read_apart (inner : Text → Option (List Inline)) {a b : Alternative}
    (hab : a ≠ b) : (a.read inner).Apart (b.read inner) := by
  have hbold : readLink.Apart (readBold inner) :=
    ((readLink_apart_readSpan Nat.two_pos).inside inner).map _
  have hitalic : readLink.Apart (readItalic inner) :=
    ((readLink_apart_readSpan Nat.one_pos).inside inner).map _
  have hspans : (readItalic inner).Apart (readBold inner) := by
    have hstars : (readSpan 1).Apart (readBold inner) :=
      ((readSpan_apart (Nat.lt_succ_self 1)).inside inner).map _
    exact ((hstars.symm.inside inner).map _).symm
  -- Three pairs, each in both orders.
  cases a with
  | link =>
    cases b with
    | link => exact absurd rfl hab
    | bold => exact hbold
    | italic => exact hitalic
  | bold =>
    cases b with
    | link => exact hbold.symm
    | bold => exact absurd rfl hab
    | italic => exact hspans.symm
  | italic =>
    cases b with
    | link => exact hitalic.symm
    | bold => exact hspans
    | italic => exact absurd rfl hab

/-! ## Any order reads the same -/

theorem reads_alternative {follow : Ref → Action} {fuel bound : Nat}
    {inner : Text → Option (List Inline)}
    (hinner : ∀ x, x.length + 2 < bound →
      (follow (.rule "inline")).Gives x ((inner x).map fun is => .list (is.map Inline.toValue)))
    (hfuel : bound ≤ fuel) (a : Alternative) :
    (a.parser.act follow fuel).Reads bound Inline.toValue (a.read inner) := by
  cases a with
  | link => exact reads_link hfuel
  | bold => exact reads_bold hinner
  | italic => exact reads_italic hinner

section Order

variable {order : List Alternative} (h : order.Perm Alternative.all)
include h

theorem choice_read_eq (inner : Text → Option (List Inline)) :
    Reading.choice (order.map (Alternative.read inner)) = readElement inner := by
  have hapart : (Alternative.all.map (Alternative.read inner)).Pairwise Reading.Apart := by
    have hdistinct : Alternative.all.Pairwise (· ≠ ·) := by decide
    exact List.pairwise_map.2 (hdistinct.imp (Alternative.read_apart inner))
  calc Reading.choice (order.map (Alternative.read inner))
      = Reading.choice (Alternative.all.map (Alternative.read inner)) :=
        (Reading.choice_perm (h.symm.map _) hapart).symm
    _ = readLink.orElse ((readBold inner).orElse ((readItalic inner).orElse fun _ => none)) := rfl
    _ = readElement inner := by rw [Reading.orElse_nothing, ← Reading.orElse_assoc, readElement]

theorem reads_inlineContentBy : ReadsInline (inlineContentBy order) := by
  intro follow fuel bound inner hinner hfuel
  have hchoice := Reads.choice fun a (_ : a ∈ order) => reads_alternative hinner hfuel a
  rw [choice_read_eq h] at hchoice
  exact Reads.interleave (fun _ => rfl) hchoice (readElement_consuming inner) insideLine hfuel

theorem apply_alternative (names : Names) (a : Alternative) (s : State) :
    a.parser.apply ⟨names, rulesBy order⟩ s
      = pure ((a.read readInner s.rest).map fun x => s.advance x.1 x.2.toValue) := by
  have hinner : ∀ n (x : Text), x.length + 2 < n + 1 →
      ((Env.mk names (rulesBy order)).follow (n + 2) (.rule "inline")).Gives x
        ((readInner x).map fun is => .list (is.map Inline.toValue)) :=
    fun n x hx => ((reads_inlineContentBy h).reads_rule names (n + 1)).gives (by omega)
  exact apply_of_reads (fun n => reads_alternative (hinner n) (by omega) a) s

end Order

/-- The order in which the alternatives are tried does not matter, at whatever depth:

    - each of them answers in every state, with the alternatives inside it in either order, and
      at most one of them matches;
    - so inline markup, blocks and documents are the same. -/
theorem alternatives_any_order (names : Names) {order : List Alternative}
    (h : order.Perm Alternative.all) :
    (∀ (s : State) (m : Memory), ∃ o : Alternative → Option State,
      (∀ a : Alternative, (a.parser.apply ⟨names, rules⟩ s).run m = .ok (o a) m) ∧
      (∀ a : Alternative, (a.parser.apply ⟨names, rulesBy order⟩ s).run m = .ok (o a) m) ∧
      ∀ a b r r', o a = some r → o b = some r' → a = b) ∧
    ∀ s : State, inline.apply ⟨names, rulesBy order⟩ s = inline.apply ⟨names, rules⟩ s ∧
      block.apply ⟨names, rulesBy order⟩ s = block.apply ⟨names, rules⟩ s ∧
      document.apply ⟨names, rulesBy order⟩ s = document.apply ⟨names, rules⟩ s := by
  have hinline := fun n => (reads_inlineContentBy h).reads_rule names n
  refine ⟨fun s m => ?_, fun s => ⟨?_, ?_, ?_⟩⟩
  · refine ⟨fun a => (a.read readInner s.rest).map fun x => s.advance x.1 x.2.toValue,
      fun a => ?_, fun a => ?_, fun a b r r' ha hb => ?_⟩
    · rw [← rulesBy_all, apply_alternative (.refl _)]
      rfl
    · rw [apply_alternative h]
      rfl
    · by_contra hab
      -- Two kinds that both match would have to be read on one text.
      obtain ⟨x, hx, -⟩ := Option.map_eq_some_iff.1 ha
      obtain ⟨y, hy, -⟩ := Option.map_eq_some_iff.1 hb
      rcases Alternative.read_apart readInner hab s.rest with hnone | hnone
      · rw [hnone] at hx
        cases hx
      · rw [hnone] at hy
        cases hy
  · rw [apply_inline]
    exact apply_of_reads (p := inline) (fun n => hinline (n + 1)) s
  · rw [apply_block]
    exact apply_of_reads (fun n => reads_block (hinline (n + 1)) (by omega)) s
  · rw [apply_document]
    exact apply_of_reads (fun n => reads_document (hinline (n + 1)) (by omega)) s

/-- With spans between single stars tried first, a span in a span and a link are read to the
    end of the text, and make the same document. -/
theorem alternatives_any_order_italic :
    let order := [Alternative.italic, .link, .bold]
    let s := State.start "**a *b* c** [d](e)".toList
    order.Perm Alternative.all ∧
    document.apply ⟨[], rulesBy order⟩ s = document.apply ⟨[], rules⟩ s ∧
    ∃ s', (document.apply ⟨[], rulesBy order⟩ s).run ⟨#[], []⟩ = .ok (some s') ⟨#[], []⟩ ∧
      s'.pos = 18 := by
  intro order s
  have h : order.Perm Alternative.all := by decide
  have hsame := ((alternatives_any_order [] h).2 s).2.2
  obtain ⟨bs, hread⟩ := readDocument_total s.rest
  refine ⟨h, hsame, ?_⟩
  rw [hsame, apply_document, hread]
  exact ⟨_, rfl, rfl⟩

end Descent.Markup

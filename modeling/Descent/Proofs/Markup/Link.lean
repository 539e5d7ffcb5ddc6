/-
  Descent.Proofs.Markup.Link

  What the parser of links accepts (`link_iff_ahead`).  Two groups in brackets lie ahead, the
  second right behind the first; what stands in the second is a target, and it is looked into
  on its own.  The link goes as far as the second group does, whatever part of the target is
  left over: white space that no quoted text follows, or anything behind a quoted text.
-/
import Descent.Proofs.Markup.Adequacy
import Descent.Proofs.Bracket.Group
import Descent.Proofs.Reading.Stretch
import Mathlib.Data.List.Infix

namespace Descent.Markup

/-! ## The grammar of links -/

/-- A hint stands at the start of a text: between quotes, with spaces before them or none. -/
def HintAhead (t hint : Text) : Prop :=
  '"' ∉ hint ∧ ∃ n tail, t = List.replicate n ' ' ++ '"' :: (hint ++ '"' :: tail)

/-- A target has these parts: all that stands before white space, and a hint if there is one
    behind that. -/
def TargetParts (target href : Text) (hint : Option Text) : Prop :=
  ∃ after, Text.Stretch (fun c => !Text.isBlank c) target href after ∧
    ∀ y, hint = some y ↔ HintAhead after y

/-- A text begins with a link: with a balanced label in square brackets and a balanced target
    in round ones, which begins with something other than white space. -/
structure LinkAhead (t label target tail : Text) : Prop where
  text : t = '[' :: (label ++ ']' :: '(' :: (target ++ ')' :: tail))
  label_balanced : Text.Balanced '[' ']' label
  target_balanced : Text.Balanced '(' ')' target
  solid : ∃ c, target.head? = some c ∧ Text.isBlank c = false

variable {t label target tail href y : Text} {hint : Option Text} {n : Nat}

/-! ## Targets -/

theorem readWord_eq_some_iff : readWord t = some (n, href) ↔
    n = href.length ∧ href ≠ [] ∧
      ∃ after, Text.Stretch (fun c => !Text.isBlank c) t href after := by
  rw [readWord, Reading.many_char_eq_some_iff rfl]
  refine and_congr_right fun hn => and_congr_left fun _ => ?_
  rw [hn, ← List.length_pos_iff]
  exact Int.ofNat_le

theorem readHint_iff_ahead : (∃ n, readHint t = some (n, y)) ↔ HintAhead t y := by
  refine ⟨?_, ?_⟩
  · rintro ⟨n, h⟩
    obtain ⟨⟨spaces, x⟩, hboth, rfl⟩ := Reading.map_eq_some.1 h
    obtain ⟨k, l, hspaces, hquoted, -⟩ := Reading.seq_eq_some.1 hboth
    obtain ⟨-, htext⟩ := Reading.many_exact_taken hspaces
    obtain ⟨-, after, hafter⟩ := readQuoted_eq_some hquoted
    -- The quoted text ends at the first quote behind the one that opens it.
    have hfree := readQuoted_not_infix (List.cons_ne_nil '"' []) hquoted
    rw [List.singleton_infix_iff] at hfree
    exact ⟨hfree, k, after, by rw [htext, hafter]; rfl⟩
  · rintro ⟨hfree, k, after, rfl⟩
    have hspaces : (Reading.char fun c => [c] == [' ']).many {}
        (List.replicate k ' ' ++ '"' :: (y ++ '"' :: after))
        = some (k, List.replicate k ' ') :=
      Reading.many_exact_replicate (by simp) (Int.natCast_nonneg _) (.inl rfl)
    -- One quote does not overlap another, so a text without quotes is read back as a whole.
    have hquotable : Text.Quotable ['"'] y :=
      (Text.borderless_singleton '"').quotable (by rwa [List.singleton_infix_iff])
    have hquoted : readQuoted ['"'] ((List.replicate k ' ' ++ '"' :: (y ++ '"' :: after)).drop k)
        = some (1 + y.length + 1, y) := by
      rw [List.drop_left' List.length_replicate]
      exact readQuoted_of_quotable hquotable after
    exact ⟨_, Reading.map_eq_some.2 ⟨(_, y), Reading.seq_eq_some.2
      ⟨k, _, hspaces, hquoted, rfl⟩, rfl⟩⟩

theorem readHint_optional_iff : (∃ n, readHint.optional t = some (n, hint)) ↔
    ∀ y, hint = some y ↔ HintAhead t y := by
  simp only [← readHint_iff_ahead]
  rw [Reading.optional]
  cases hread : readHint t with
  | none => cases hint <;> simp
  | some x =>
    obtain ⟨k, z⟩ := x
    cases hint with
    | none => simp
    | some w => simp [eq_comm]

/-- What is read of a target are its parts, of which the first must not be empty. -/
theorem readTarget_iff_parts : (∃ n, readTarget t = some (n, (href, hint))) ↔
    href ≠ [] ∧ TargetParts t href hint := by
  refine ⟨?_, ?_⟩
  · rintro ⟨n, h⟩
    obtain ⟨k, l, hword, hhint, -⟩ := Reading.seq_eq_some.1 h
    obtain ⟨rfl, hne, after, hstretch⟩ := readWord_eq_some_iff.1 hword
    rw [hstretch.drop_eq] at hhint
    exact ⟨hne, after, hstretch, readHint_optional_iff.1 ⟨l, hhint⟩⟩
  · rintro ⟨hne, after, hstretch, hparts⟩
    obtain ⟨l, hhint⟩ := readHint_optional_iff.2 hparts
    have hword := readWord_eq_some_iff.2 ⟨rfl, hne, after, hstretch⟩
    rw [← hstretch.drop_eq] at hhint
    exact ⟨_, Reading.seq_eq_some.2 ⟨_, l, hword, hhint, rfl⟩⟩

/-- The first part is empty if and only if the target is or begins with white space. -/
theorem TargetParts.ne_nil_iff (h : TargetParts target href hint) :
    href ≠ [] ↔ ∃ c, target.head? = some c ∧ Text.isBlank c = false := by
  obtain ⟨after, hstretch, -⟩ := h
  rw [hstretch.text]
  cases href with
  | nil =>
    refine iff_of_false (fun hne => hne rfl) ?_
    rintro ⟨c, hc, hsolid⟩
    have hblank := hstretch.ends c hc
    rw [hsolid] at hblank
    cases hblank
  | cons c rest =>
    have hsolid := hstretch.each c List.mem_cons_self
    rw [Bool.not_eq_true'] at hsolid
    exact iff_of_true (List.cons_ne_nil c rest) ⟨c, rfl, hsolid⟩

/-- Every text has parts. -/
theorem exists_targetParts (target : Text) : ∃ href hint, TargetParts target href hint := by
  have hstretch := Text.stretch_takeWhile (fun c => !Text.isBlank c) target
  obtain ⟨n, hint, hread⟩ : ∃ n hint,
      readHint.optional (target.dropWhile fun c => !Text.isBlank c) = some (n, hint) := by
    rw [Reading.optional]
    split
    · exact ⟨_, _, rfl⟩
    · exact ⟨_, _, rfl⟩
  exact ⟨_, hint, _, hstretch, readHint_optional_iff.1 ⟨n, hread⟩⟩

/-! ## Links -/

/-- The two groups of a link, the second right behind the first. -/
theorem readGroups_eq_some_iff :
    (Reading.group '[' ']').seq (.group '(' ')') t = some (n, (label, target)) ↔
      n = label.length + target.length + 4 ∧ Text.Balanced '[' ']' label ∧
      Text.Balanced '(' ')' target ∧
      ∃ tail, t = '[' :: (label ++ ']' :: '(' :: (target ++ ')' :: tail)) := by
  have hsquare : '[' ≠ ']' := by decide
  have hround : '(' ≠ ')' := by decide
  have hbehind : ∀ after : Text, ('[' :: (label ++ ']' :: after)).drop (label.length + 2) = after := by
    intro after
    rw [List.drop_succ_cons, List.drop_length_add_append, List.drop_one, List.tail_cons]
  refine ⟨fun h => ?_, ?_⟩
  · obtain ⟨k, l, hfirst, hsecond, rfl⟩ := Reading.seq_eq_some.1 h
    obtain ⟨rfl, hlabel, after, rfl⟩ := (Reading.group_eq_some_iff hsquare).1 hfirst
    obtain ⟨rfl, htarget, tail, htail⟩ := (Reading.group_eq_some_iff hround).1 hsecond
    -- The second group is looked for right behind the bracket that closes the first.
    dsimp only at hlabel htarget htail ⊢
    rw [hbehind] at htail
    exact ⟨by omega, hlabel, htarget, tail, by rw [htail]⟩
  · rintro ⟨rfl, hlabel, htarget, tail, rfl⟩
    refine Reading.seq_eq_some.2 ⟨label.length + 2, target.length + 2,
      (Reading.group_eq_some_iff hsquare).2 ⟨rfl, hlabel, _, rfl⟩, ?_, by omega⟩
    rw [hbehind]
    exact (Reading.group_eq_some_iff hround).2 ⟨rfl, htarget, tail, rfl⟩

/-- A link is read if and only if one lies ahead, and all of it is. -/
theorem readLink_eq_some_iff {i : Inline} : readLink t = some (n, i) ↔
    ∃ label target tail href hint, LinkAhead t label target tail ∧
      TargetParts target href hint ∧ i = .link label href hint ∧
      n = label.length + target.length + 4 := by
  refine ⟨fun h => ?_, ?_⟩
  · obtain ⟨⟨⟨label, target⟩, href, hint⟩, hall, rfl⟩ := Reading.map_eq_some.1 h
    obtain ⟨hgroups, hinner⟩ := Reading.inside_eq_some.1 hall
    obtain ⟨⟨m, x⟩, hread, rfl⟩ := Option.map_eq_some_iff.1 hinner
    obtain ⟨hn, hlabel, htarget, tail, htext⟩ := readGroups_eq_some_iff.1 hgroups
    obtain ⟨hne, hparts⟩ := readTarget_iff_parts.1 ⟨m, hread⟩
    exact ⟨label, target, tail, _, _, ⟨htext, hlabel, htarget, hparts.ne_nil_iff.1 hne⟩,
      hparts, rfl, hn⟩
  · rintro ⟨label, target, tail, href, hint, hahead, hparts, rfl, rfl⟩
    obtain ⟨htext, hlabel, htarget, hsolid⟩ := hahead
    obtain ⟨m, hread⟩ := readTarget_iff_parts.2 ⟨hparts.ne_nil_iff.2 hsolid, hparts⟩
    have hgroups := readGroups_eq_some_iff.2 ⟨rfl, hlabel, htarget, tail, htext⟩
    have hinner : (readTarget target).map Prod.snd = some (href, hint) := by
      rw [hread, Option.map_some]
    exact Reading.map_eq_some.2 ⟨((label, target), (href, hint)),
      Reading.inside_eq_some.2 ⟨hgroups, hinner⟩, rfl⟩

/-- What the parser of links accepts is exactly its grammar, in every state and with any
    names bound:

    - it always answers and leaves the memory alone;
    - it matches if and only if a link lies ahead, whatever follows the parts of its target;
    - then the value is made of the label and of those parts, and it goes on behind the link;
    - everywhere else it fails. -/
theorem link_iff_ahead (env : Env) (s : State) (m : Memory) :
    let run := (link.apply env s).run m
    (∃ o, run = .ok o m) ∧
    ((∃ s', run = .ok (some s') m) ↔ ∃ label target tail, LinkAhead s.rest label target tail) ∧
    (∀ s', run = .ok (some s') m ↔ ∃ label target tail href hint,
      LinkAhead s.rest label target tail ∧ TargetParts target href hint ∧
      s'.value = (Inline.link label href hint).toValue ∧ s'.text = s.text ∧
      s'.pos = s.pos + (label.length + target.length + 4)) ∧
    (run = .ok none m ↔ ¬∃ label target tail, LinkAhead s.rest label target tail) := by
  intro run
  have hrun : run = .ok ((readLink s.rest).map fun x => s.advance x.1 x.2.toValue) m :=
    congrArg (fun act => act.run m) (apply_link env s)
  have hmatch : ∀ s', run = .ok (some s') m ↔ ∃ label target tail href hint,
      LinkAhead s.rest label target tail ∧ TargetParts target href hint ∧
      s'.value = (Inline.link label href hint).toValue ∧ s'.text = s.text ∧
      s'.pos = s.pos + (label.length + target.length + 4) := by
    intro s'
    rw [hrun]
    refine ⟨fun h => ?_, ?_⟩
    · injection h with h
      obtain ⟨⟨n, i⟩, hread, rfl⟩ := Option.map_eq_some_iff.1 h
      obtain ⟨label, target, tail, href, hint, hahead, hparts, rfl, rfl⟩ :=
        readLink_eq_some_iff.1 hread
      exact ⟨label, target, tail, href, hint, hahead, hparts, rfl, rfl, rfl⟩
    · rintro ⟨label, target, tail, href, hint, hahead, hparts, hvalue, htext, hpos⟩
      have hread := readLink_eq_some_iff.2
        ⟨label, target, tail, href, hint, hahead, hparts, rfl, rfl⟩
      have hreached : s' = s.advance (label.length + target.length + 4)
          (Inline.link label href hint).toValue := State.ext htext hpos hvalue
      rw [hread, hreached, Option.map_some]
  have hsome : (∃ s', run = .ok (some s') m) ↔
      ∃ label target tail, LinkAhead s.rest label target tail := by
    refine ⟨?_, ?_⟩
    · rintro ⟨s', h⟩
      obtain ⟨label, target, tail, -, -, hahead, -⟩ := (hmatch s').1 h
      exact ⟨label, target, tail, hahead⟩
    · rintro ⟨label, target, tail, hahead⟩
      -- No target that is ahead is refused: every target has parts.
      obtain ⟨href, hint, hparts⟩ := exists_targetParts target
      exact ⟨_, (hmatch (s.advance (label.length + target.length + 4) _)).2
        ⟨label, target, tail, href, hint, hahead, hparts, rfl, rfl, rfl⟩⟩
  refine ⟨⟨_, hrun⟩, hsome, hmatch, ?_⟩
  rw [← hsome, hrun]
  cases readLink s.rest with
  | none => simp
  | some x => simp

end Descent.Markup

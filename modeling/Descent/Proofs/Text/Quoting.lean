/-
  Descent.Proofs.Text.Quoting

  Texts between two occurrences of a delimiter.  The first delimiter after the opening one
  closes the quoted text, and this need not be the one that was put there: a delimiter may
  stand across the end of the text, if it overlaps itself.  `Quotable` says that none does,
  and then, and only then, what was quoted is found again (`quoted?_eq_some_iff`).  If the
  delimiter has no border, every text in which it does not occur can be quoted
  (`Borderless.quotable`); if it has one, some such text cannot (`borderless_iff`).
-/
import Descent.Proofs.Text.Search

namespace Descent.Text

variable {d t : Text}

/-- The text that is quoted at the start of a text. -/
def quoted? (d t : Text) : Option Text :=
  if d.isPrefixOf t then
    (offset? d (t.drop d.length)).map fun k => (t.drop d.length).take k
  else none

/-- No delimiter begins in the text if one stands behind it. -/
def Quotable (d t : Text) : Prop := ∀ k < t.length, ¬ d <+: (t ++ d).drop k

instance (d t : Text) : Decidable (Quotable d t) :=
  inferInstanceAs (Decidable (∀ k < t.length, ¬ d <+: (t ++ d).drop k))

/-- No proper part of the delimiter both begins and ends it. -/
def Borderless (d : Text) : Prop := ∀ b, b ≠ [] → b ≠ d → b <+: d → ¬ b <:+ d

/-! ## What is found again -/

/-- A delimiter that begins in a text and ends before what follows it does not depend on what
    follows. -/
theorem prefix_drop_append_iff {k : Nat} (hk : k ≤ t.length) (tail : Text) :
    d <+: (t ++ (d ++ tail)).drop k ↔ d <+: (t ++ d).drop k := by
  have hdrop : (t ++ (d ++ tail)).drop k = (t ++ d).drop k ++ tail := by
    rw [← List.append_assoc, List.drop_append_of_le_length]
    rw [List.length_append]
    omega
  rw [hdrop]
  refine ⟨fun h => ?_, fun h => h.trans (List.prefix_append _ _)⟩
  refine List.prefix_of_prefix_length_le h (List.prefix_append _ tail) ?_
  rw [List.length_drop, List.length_append]
  omega

/-- The search finds the delimiter behind a text if and only if the text can be quoted. -/
theorem offset?_eq_length_iff (d t tail : Text) :
    offset? d (t ++ (d ++ tail)) = some t.length ↔ Quotable d t := by
  rw [offset?_eq_some_iff, List.drop_left, List.length_append]
  refine ⟨?_, fun h => ⟨Nat.le_add_right _ _, List.prefix_append d tail, ?_⟩⟩
  · rintro ⟨-, -, hfirst⟩ k hk
    exact mt (prefix_drop_append_iff (Nat.le_of_lt hk) tail).2 (hfirst k hk)
  · intro k hk
    exact mt (prefix_drop_append_iff (Nat.le_of_lt hk) tail).1 (h k hk)

/-- A text is quoted at the start of another if and only if it can be quoted and stands there
    between two delimiters. -/
theorem quoted?_eq_some_iff {x : Text} :
    quoted? d t = some x ↔ Quotable d x ∧ ∃ tail, t = d ++ (x ++ (d ++ tail)) := by
  rw [quoted?]
  refine ⟨fun h => ?_, ?_⟩
  · obtain ⟨hopen, h⟩ := Option.ite_none_right_eq_some.1 h
    obtain ⟨u, rfl⟩ := List.isPrefixOf_iff_prefix.1 hopen
    rw [List.drop_left] at h
    obtain ⟨k, hk, rfl⟩ := Option.map_eq_some_iff.1 h
    obtain ⟨tail, hclose⟩ := prefix_drop_offset? hk
    have hu : u = u.take k ++ (d ++ tail) := by rw [hclose, List.take_append_drop]
    have hfound : offset? d (u.take k ++ (d ++ tail)) = some (u.take k).length := by
      rw [← hu, hk, List.length_take_of_le (offset?_le hk)]
    exact ⟨(offset?_eq_length_iff d _ tail).1 hfound, tail, by rw [← hu]⟩
  · rintro ⟨hx, tail, rfl⟩
    rw [if_pos (List.isPrefixOf_iff_prefix.2 (List.prefix_append _ _)), List.drop_left,
      (offset?_eq_length_iff d x tail).2 hx, Option.map_some, List.take_left]

theorem Quotable.not_infix (h : Quotable d t) (hd : d ≠ []) : ¬ d <:+: t := by
  rintro ⟨a, b, hab⟩
  have hpos : 0 < d.length := List.length_pos_iff.2 hd
  have hlength : a.length < t.length := by
    rw [← hab, List.length_append, List.length_append]
    omega
  refine h a.length hlength ⟨b ++ d, ?_⟩
  rw [← hab, List.append_assoc, List.append_assoc, List.drop_left]

/-- A run of one character overlaps itself: a text that can be quoted by it must not end with
    that character, besides not containing the run. -/
theorem quotable_replicate_iff {n : Nat} (hn : 0 < n) {c : Char} :
    Quotable (List.replicate n c) t ↔ t.getLast? ≠ some c ∧ ¬ List.replicate n c <:+: t := by
  have hrun : List.replicate n c ≠ [] := mt (List.replicate_eq_nil_iff c).1 (Nat.ne_of_gt hn)
  refine ⟨fun h => ⟨fun hlast => ?_, h.not_infix hrun⟩, ?_⟩
  · obtain ⟨u, rfl⟩ := List.getLast?_eq_some_iff.1 hlast
    -- The run would be found one character early.
    refine h u.length (by simp) ⟨[c], ?_⟩
    rw [List.append_assoc, List.drop_left, List.singleton_append, ← List.replicate_succ,
      List.replicate_succ']
  · rintro ⟨hlast, hfree⟩ k hk hpre
    rw [List.drop_append_of_le_length (Nat.le_of_lt hk)] at hpre
    obtain hshort | hlong := List.prefix_or_prefix_of_prefix hpre (List.prefix_append (t.drop k) _)
    · exact hfree (hshort.isInfix.trans (List.drop_suffix k t).isInfix)
    · -- A run that goes on into the closing one takes the end of the text with it.
      obtain ⟨x, hx⟩ : ∃ x, (t.drop k).getLast? = some x := by
        rw [← Option.isSome_iff_exists, List.getLast?_isSome, ne_eq, List.drop_eq_nil_iff]
        omega
      obtain rfl : x = c := List.eq_of_mem_replicate (hlong.mem (List.mem_of_getLast? hx))
      rw [List.getLast?_drop, if_neg (Nat.not_le.2 hk)] at hx
      exact hlast hx

/-! ## Borders -/

/-- A delimiter without a border cannot stand across the end of a text. -/
theorem Borderless.quotable (hd : Borderless d) (ht : ¬ d <:+: t) : Quotable d t := by
  intro k hk hpre
  rw [List.drop_append_of_le_length (Nat.le_of_lt hk)] at hpre
  obtain ⟨r, hr⟩ := hpre
  obtain ⟨a, ha, -⟩ | ⟨b, hb, hb'⟩ := List.append_eq_append_iff.1 hr
  · -- The delimiter ends in the text.
    have hin : d <+: t.drop k := ⟨a, ha.symm⟩
    exact ht (hin.isInfix.trans (List.drop_suffix k t).isInfix)
  · -- It goes on into the closing one, and the part of it that does so is a border.
    have hlength : d.length = (t.length - k) + b.length := by
      rw [← List.length_drop, ← List.length_append, ← hb]
    refine hd b ?_ ?_ ⟨r, hb'.symm⟩ ⟨t.drop k, hb.symm⟩
    · rintro rfl
      rw [List.append_nil] at hb
      exact ht (hb ▸ (List.drop_suffix k t).isInfix)
    · rintro rfl
      omega

/-- Being without a border is what it takes: then, and only then, every text in which the
    delimiter does not occur can be quoted. -/
theorem borderless_iff : Borderless d ↔ ∀ t, ¬ d <:+: t → Quotable d t := by
  refine ⟨fun hd t ht => hd.quotable ht, fun h b hne hproper hpre hsuf => ?_⟩
  obtain ⟨r, hr⟩ := hpre
  obtain ⟨a, ha⟩ := hsuf
  -- What stands before the border at the end is shorter than the delimiter.
  have hlength : a.length + b.length = d.length := by rw [← List.length_append, ha]
  have hb : 0 < b.length := List.length_pos_iff.2 hne
  have ha0 : 0 < a.length := by
    refine List.length_pos_iff.2 ?_
    rintro rfl
    exact hproper ha
  have hfree : ¬ d <:+: a := by
    intro hin
    have hle := hin.length_le
    omega
  refine h a hfree 0 ha0 ⟨r, ?_⟩
  calc d ++ r = a ++ b ++ r := by rw [ha]
    _ = (a ++ d).drop 0 := by rw [List.append_assoc, hr, List.drop_zero]

theorem borderless_singleton (c : Char) : Borderless [c] := by
  intro b hne hproper hpre
  obtain rfl | ⟨u, rfl, hu⟩ := List.prefix_cons_iff.1 hpre
  · exact absurd rfl hne
  · rw [List.prefix_nil.1 hu] at hproper
    exact absurd rfl hproper

end Descent.Text

/-
  Descent.Proofs.Text.Search

  What the two searches in a text find.  `offset?` finds the first place at which the
  delimiter stands (`offset?_eq_some_iff`); so there is no delimiter in what lies before
  it, and if the delimiter repeats one character, what lies before it does not end with
  that character.  `closing?` finds the end of a group, and what stands between the outer
  brackets is balanced (`closing?_eq_some`).
-/
import Descent.Text.Basic

namespace Descent.Text

/-! ## First occurrence -/

theorem offset?_nil (d : Text) : offset? d [] = if d.isEmpty then some 0 else none := by
  rw [offset?, offsetFrom]

theorem offset?_cons (d : Text) (c : Char) (rest : Text) :
    offset? d (c :: rest)
      = if d.isPrefixOf (c :: rest) then some 0 else (offset? d rest).map (1 + ·) := by
  rw [offset?, offsetFrom]
  split
  · rfl
  · exact offsetFrom_eq d (0 + 1) rest

/-- The search finds the first of all places at which the delimiter stands. -/
theorem offset?_eq_some_iff {d t : Text} {n : Nat} :
    offset? d t = some n ↔
      n ≤ t.length ∧ d <+: t.drop n ∧ ∀ k < n, ¬ d <+: t.drop k := by
  induction t generalizing n with
  | nil =>
    rw [offset?_nil]
    refine ⟨?_, ?_⟩
    · intro h
      split at h
      · next hd =>
        cases h
        exact ⟨Nat.le_refl _, by rw [List.isEmpty_iff.1 hd]; exact List.nil_prefix,
          fun k hk => absurd hk (Nat.not_lt_zero k)⟩
      · cases h
    · rintro ⟨hn, hpre, -⟩
      have hn0 : n = 0 := Nat.le_zero.1 hn
      subst hn0
      rw [if_pos (List.isEmpty_iff.2 (List.prefix_nil.1 hpre))]
  | cons c rest ih =>
    rw [offset?_cons]
    -- Either the delimiter stands at the first place, or the search goes on one place later.
    by_cases hd : d <+: c :: rest
    · rw [if_pos (List.isPrefixOf_iff_prefix.2 hd)]
      refine ⟨?_, ?_⟩
      · intro h
        cases h
        exact ⟨Nat.zero_le _, hd, fun k hk => absurd hk (Nat.not_lt_zero k)⟩
      · rintro ⟨-, -, hfirst⟩
        rcases Nat.eq_zero_or_pos n with hn | hn
        · rw [hn]
        · exact absurd hd (hfirst 0 hn)
    · rw [if_neg (mt List.isPrefixOf_iff_prefix.1 hd), Option.map_eq_some_iff]
      refine ⟨?_, ?_⟩
      · rintro ⟨k, hk, rfl⟩
        obtain ⟨hle, hpre, hfirst⟩ := ih.1 hk
        rw [Nat.add_comm]
        refine ⟨Nat.succ_le_succ hle, hpre, fun j hj => ?_⟩
        cases j with
        | zero => exact hd
        | succ j => exact hfirst j (Nat.lt_of_succ_lt_succ hj)
      · rintro ⟨hle, hpre, hfirst⟩
        cases n with
        | zero => exact absurd hpre hd
        | succ n =>
          exact ⟨n, ih.2 ⟨Nat.le_of_succ_le_succ hle, hpre,
            fun k hk => hfirst (k + 1) (Nat.succ_lt_succ hk)⟩, Nat.add_comm 1 n⟩

theorem offset?_le {d t : Text} {n : Nat} (h : offset? d t = some n) : n ≤ t.length :=
  (offset?_eq_some_iff.1 h).1

theorem prefix_drop_offset? {d t : Text} {n : Nat} (h : offset? d t = some n) :
    d <+: t.drop n :=
  (offset?_eq_some_iff.1 h).2.1

/-- The delimiter does not occur before the place that was found. -/
theorem not_infix_take_offset? {d t : Text} {n : Nat} (hd : d ≠ [])
    (h : offset? d t = some n) : ¬ d <:+: t.take n := by
  obtain ⟨hle, -, hfirst⟩ := offset?_eq_some_iff.1 h
  rintro ⟨a, b, hab⟩
  have hlen : a.length + d.length + b.length = n := by
    have := congrArg List.length hab
    simp only [List.length_append, List.length_take] at this
    omega
  have hdlen : 0 < d.length := List.length_pos_iff.2 hd
  refine hfirst a.length (by omega) ⟨b ++ t.drop n, ?_⟩
  have hdrop : (a ++ d ++ b ++ t.drop n).drop a.length = t.drop a.length := by
    rw [hab, List.take_append_drop]
  rw [← hdrop, List.append_assoc a, List.append_assoc a, List.drop_left, List.append_assoc]

/-! ## Closing bracket -/

/-- Texts in which the two brackets are balanced. -/
inductive Balanced (left right : Char) : Text → Prop
  | nil : Balanced left right []
  | char {c : Char} {t : Text} :
      c ≠ left → c ≠ right → Balanced left right t → Balanced left right (c :: t)
  | group {inner t : Text} : Balanced left right inner → Balanced left right t →
      Balanced left right (left :: (inner ++ right :: t))

/-- Reading on from inside some open groups, a balanced text comes first, then a closing
    bracket, and reading goes on from there with one open group less. -/
theorem closingFrom_eq_some {left right : Char} {depth taken n : Nat} {t : Text}
    (h : closingFrom left right (depth + 1) taken t = some n) :
    ∃ inner after, Balanced left right inner ∧ t = inner ++ right :: after ∧
      closingFrom left right depth (taken + inner.length + 1) after = some n := by
  -- The text after an inner group is read by a second call of the induction hypothesis,
  -- so the induction is on the length.
  induction hlen : t.length using Nat.strongRecOn generalizing depth taken t with
  | ind len ih =>
    cases t with
    | nil => cases h
    | cons c rest =>
      subst hlen
      rw [closingFrom] at h
      split at h
      · next hc =>
        obtain ⟨inner, after, hinner, hrest, h₁⟩ :=
          ih rest.length (Nat.lt_succ_self _) h rfl
        have hafter : after.length < (c :: rest).length := by
          rw [hrest, List.length_cons, List.length_append, List.length_cons]
          omega
        obtain ⟨inner', after', hinner', hrest', h₂⟩ := ih after.length hafter h₁ rfl
        refine ⟨left :: (inner ++ right :: inner'), after', .group hinner hinner', ?_, ?_⟩
        · rw [hc, hrest, hrest']
          simp only [List.cons_append, List.append_assoc]
        · rw [← h₂]
          congr 1
          simp only [List.length_cons, List.length_append]
          omega
      · next hleft =>
        split at h
        · next hright => exact ⟨[], rest, .nil, by rw [hright]; rfl, h⟩
        · next hright =>
          obtain ⟨inner, after, hinner, hrest, h₁⟩ :=
            ih rest.length (Nat.lt_succ_self _) h rfl
          refine ⟨c :: inner, after, .char hleft hright hinner, by rw [hrest]; rfl, ?_⟩
          rw [← h₁]
          congr 1
          rw [List.length_cons]
          omega

/-- A closed group holds a balanced text, and its closing bracket follows. -/
theorem closing?_eq_some {left right : Char} {t : Text} {n : Nat}
    (h : closing? left right t = some n) :
    ∃ inner after, Balanced left right inner ∧ t = inner ++ right :: after ∧
      n = inner.length + 1 := by
  obtain ⟨inner, after, hinner, ht, hn⟩ := closingFrom_eq_some h
  rw [closingFrom] at hn
  exact ⟨inner, after, hinner, ht, by injection hn; omega⟩

theorem closing?_le {left right : Char} {t : Text} {n : Nat}
    (h : closing? left right t = some n) : n ≤ t.length := by
  obtain ⟨inner, after, -, rfl, rfl⟩ := closing?_eq_some h
  rw [List.length_append, List.length_cons]
  omega

end Descent.Text

/-
  Descent.Text.Ranges

  Sets of characters given as ascending lists of closed code-point intervals, the form
  in which character properties are tabulated.  Membership walks the list and stops at
  the first interval that lies above the code point; `contains_iff` says that for an
  ascending list this is membership in one of the intervals.
-/

namespace Descent

/-- Closed intervals of code points, first and last, in ascending order. -/
abbrev Ranges := List (Nat × Nat)

namespace Ranges

/-- Whether the code point lies in one of the intervals. -/
def covers : Ranges → Nat → Bool
  | [], _ => false
  | (first, last) :: rest, n =>
    if n < first then false else if n ≤ last then true else covers rest n

/-- Whether the character lies in one of the intervals. -/
def contains (ranges : Ranges) (c : Char) : Bool := ranges.covers c.toNat

/-- No interval is empty, and each begins above the end of the one before it, the first of
    them not below a bound. -/
def AscendingFrom (bound : Nat) : Ranges → Prop
  | [] => True
  | (first, last) :: rest => bound ≤ first ∧ first ≤ last ∧ AscendingFrom (last + 1) rest

/-- One look at each interval decides it. -/
instance decidableAscendingFrom (bound : Nat) :
    (ranges : Ranges) → Decidable (ranges.AscendingFrom bound)
  | [] => inferInstanceAs (Decidable True)
  | (first, last) :: rest =>
    have := decidableAscendingFrom (last + 1) rest
    inferInstanceAs (Decidable (bound ≤ first ∧ first ≤ last ∧ AscendingFrom (last + 1) rest))

/-- A table whose intervals ascend. -/
abbrev Ascending (ranges : Ranges) : Prop := ranges.AscendingFrom 0

theorem AscendingFrom.bound_le {bound : Nat} {ranges : Ranges} (h : ranges.AscendingFrom bound) :
    ∀ r ∈ ranges, bound ≤ r.1 := by
  induction ranges generalizing bound with
  | nil => exact fun _ hr => absurd hr List.not_mem_nil
  | cons r rest ih =>
    obtain ⟨hbound, hproper, hrest⟩ := h
    refine List.forall_mem_cons.2 ⟨hbound, fun r' hr' => ?_⟩
    have hle := ih hrest r' hr'
    omega

theorem AscendingFrom.covers_iff {bound : Nat} {ranges : Ranges}
    (h : ranges.AscendingFrom bound) (n : Nat) :
    ranges.covers n = true ↔ ∃ r ∈ ranges, r.1 ≤ n ∧ n ≤ r.2 := by
  induction ranges generalizing bound with
  | nil => simp [covers]
  | cons r rest ih =>
    obtain ⟨hbound, hproper, hrest⟩ := h
    simp only [covers, List.mem_cons, or_and_right, exists_or, exists_eq_left, ← ih hrest]
    split
    · next hbelow =>
      -- The walk stops here: the intervals behind this one lie further up.
      have hnone : ¬ covers rest n = true := by
        rw [ih hrest]
        rintro ⟨r', hr', hlow, -⟩
        have hle := hrest.bound_le r' hr'
        omega
      exact iff_of_false Bool.false_ne_true (not_or.2 ⟨by omega, hnone⟩)
    · split
      · exact iff_of_true rfl (.inl (by omega))
      · exact (or_iff_right (by omega)).symm

/-- In an ascending table the walk finds exactly the characters of its intervals. -/
theorem contains_iff {ranges : Ranges} (h : ranges.Ascending) (c : Char) :
    ranges.contains c = true ↔ ∃ r ∈ ranges, r.1 ≤ c.toNat ∧ c.toNat ≤ r.2 :=
  h.covers_iff c.toNat

end Ranges
end Descent

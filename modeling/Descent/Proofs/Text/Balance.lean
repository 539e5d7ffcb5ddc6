/-
  Descent.Proofs.Text.Balance

  The balance of two brackets in a text: the opening brackets less the closing ones.  The
  search for the end of a group carries the balance of what it has read
  (`closingFrom_append`), and no start of a balanced text brings it down; so the search
  comes to the end of every balanced text, and `closing?` finds the closing bracket if
  and only if the text begins with a balanced text and that bracket
  (`closing?_eq_some_iff`).  The peak of a text is the largest balance of its starts.
-/
import Descent.Proofs.Text.Search
import Mathlib.Order.Bounds.Basic
import Mathlib.Data.Int.Order.Basic

namespace Descent.Text

variable {left right : Char}

/-- What a character adds to the number of open groups. -/
def weight (left right c : Char) : Int :=
  if c = left then 1 else if c = right then -1 else 0

/-- The groups that are opened in a text, less those that are closed. -/
def balance (left right : Char) : Text → Int
  | [] => 0
  | c :: rest => weight left right c + balance left right rest

/-- The largest balance of what has been read, from the start of a text to its end. -/
def peak (left right : Char) : Text → Int
  | [] => 0
  | c :: rest => max 0 (weight left right c + peak left right rest)

@[simp] theorem weight_left (left right : Char) : weight left right left = 1 := if_pos rfl

theorem weight_right (h : left ≠ right) : weight left right right = -1 := by
  rw [weight, if_neg h.symm, if_pos rfl]

theorem weight_other {c : Char} (hleft : c ≠ left) (hright : c ≠ right) :
    weight left right c = 0 := by
  rw [weight, if_neg hleft, if_neg hright]

@[simp] theorem balance_nil (left right : Char) : balance left right [] = 0 := rfl

@[simp] theorem balance_cons (left right c : Char) (t : Text) :
    balance left right (c :: t) = weight left right c + balance left right t := rfl

@[simp] theorem balance_append (left right : Char) (t u : Text) :
    balance left right (t ++ u) = balance left right t + balance left right u := by
  induction t with
  | nil => simp
  | cons c rest ih => rw [List.cons_append, balance_cons, balance_cons, ih, Int.add_assoc]

@[simp] theorem peak_nil (left right : Char) : peak left right [] = 0 := rfl

@[simp] theorem peak_cons (left right c : Char) (t : Text) :
    peak left right (c :: t) = max 0 (weight left right c + peak left right t) := rfl

/-! ## The search carries the balance -/

theorem closingFrom_cons (left right : Char) (depth taken : Nat) (c : Char) (rest : Text) :
    closingFrom left right (depth + 1) taken (c :: rest) = closingFrom left right
      ((depth + 1 : Nat) + weight left right c).toNat (taken + 1) rest := by
  rw [closingFrom, weight]
  split
  · congr 1
  · split
    · congr 1
      omega
    · congr 1

/-- As long as a group is open, the search goes on with as many open groups as the balance
    of what it has read says. -/
theorem closingFrom_append {depth taken : Nat} {t : Text} (rest : Text)
    (h : ∀ u, u <+: t → 0 < depth + balance left right u) :
    closingFrom left right depth taken (t ++ rest)
      = closingFrom left right (depth + balance left right t).toNat (taken + t.length) rest := by
  induction t generalizing depth taken with
  | nil => simp
  | cons c t ih =>
    have hopen : 0 < (depth : Int) := by simpa using h [] List.nil_prefix
    obtain ⟨d, rfl⟩ : ∃ d, depth = d + 1 := ⟨depth - 1, by omega⟩
    have hfirst : 0 < ((d + 1 : Nat) : Int) + weight left right c := by
      simpa using h [c] (List.prefix_append [c] t)
    have hrest : ∀ u, u <+: t →
        0 < (((d + 1 : Nat) + weight left right c).toNat : Int) + balance left right u := by
      intro u hu
      have hcons := h (c :: u) (List.cons_prefix_cons.2 ⟨rfl, hu⟩)
      rw [balance_cons] at hcons
      omega
    rw [List.cons_append, closingFrom_cons, ih hrest, balance_cons, List.length_cons]
    congr 1
    · omega
    · omega

/-! ## Balanced texts -/

theorem Balanced.balance_eq (hne : left ≠ right) {t : Text} (h : Balanced left right t) :
    balance left right t = 0 := by
  induction h with
  | nil => rfl
  | char hleft hright _ ih => rw [balance_cons, weight_other hleft hright, ih, Int.add_zero]
  | group _ _ ihinner ih =>
    rw [balance_cons, balance_append, balance_cons, ihinner, ih, weight_left, weight_right hne]
    rfl

/-- No start of a balanced text closes a group that was open before. -/
theorem Balanced.balance_nonneg (hne : left ≠ right) {t u : Text} (h : Balanced left right t)
    (hu : u <+: t) : 0 ≤ balance left right u := by
  induction h generalizing u with
  | nil => rw [List.prefix_nil.1 hu, balance_nil]
  | char hleft hright _ ih =>
    rcases List.prefix_cons_iff.1 hu with rfl | ⟨v, rfl, hv⟩
    · rw [balance_nil]
    · rw [balance_cons, weight_other hleft hright, Int.zero_add]
      exact ih hv
  | @group inner t hinner _ ihinner ih =>
    rcases List.prefix_cons_iff.1 hu with rfl | ⟨v, rfl, hv⟩
    · rw [balance_nil]
    rw [balance_cons, weight_left]
    -- The start ends inside the group, or takes the group and a start of what follows it.
    rcases List.prefix_or_prefix_of_prefix hv (List.prefix_append inner _) with hin | ⟨w, rfl⟩
    · have hnonneg := ihinner hin
      omega
    rw [balance_append, hinner.balance_eq hne]
    have hclose := (List.prefix_append_right_inj inner).1 hv
    rcases List.prefix_cons_iff.1 hclose with rfl | ⟨x, rfl, hx⟩
    · rw [balance_nil]
      decide
    · have hnonneg := ih hx
      rw [balance_cons, weight_right hne]
      omega

/-- Inside a balanced text the search has one more group open than the balance of what it has
    read. -/
theorem Balanced.closing?_append (hne : left ≠ right) {u v : Text}
    (h : Balanced left right (u ++ v)) (after : Text) :
    closing? left right (u ++ v ++ after)
      = closingFrom left right (1 + balance left right u).toNat u.length (v ++ after) := by
  have hopen : ∀ w, w <+: u → 0 < ((1 : Nat) : Int) + balance left right w := by
    intro w hw
    have := h.balance_nonneg hne (hw.trans (List.prefix_append u v))
    omega
  rw [Text.closing?, List.append_assoc, closingFrom_append _ hopen, Nat.zero_add]
  rfl

/-- The search comes to the end of a balanced text and finds the bracket behind it. -/
theorem Balanced.closing? (hne : left ≠ right) {t : Text} (h : Balanced left right t)
    (after : Text) : closing? left right (t ++ right :: after) = some (t.length + 1) := by
  rw [← List.append_nil t] at h
  have hlast : (((0 + 1 : Nat) : Int) + -1).toNat = 0 := rfl
  have hend := h.closing?_append hne (right :: after)
  rw [List.append_nil] at h hend
  rw [hend, h.balance_eq hne, Int.add_zero, Int.toNat_one, List.nil_append, closingFrom_cons,
    weight_right hne, hlast, closingFrom]

/-- A group is closed if and only if a balanced text and the closing bracket come first. -/
theorem closing?_eq_some_iff (hne : left ≠ right) {t : Text} {n : Nat} :
    closing? left right t = some n ↔ ∃ inner after, Balanced left right inner ∧
      t = inner ++ right :: after ∧ n = inner.length + 1 := by
  refine ⟨closing?_eq_some, ?_⟩
  rintro ⟨inner, after, hinner, rfl, rfl⟩
  exact hinner.closing? hne after

/-- There is at most one balanced text that a closing bracket follows. -/
theorem Balanced.unique (hne : left ≠ right) {t t' after after' : Text}
    (h : Balanced left right t) (h' : Balanced left right t')
    (heq : t ++ right :: after = t' ++ right :: after') : t = t' := by
  have hlength : t.length + 1 = t'.length + 1 := by
    rw [← Option.some_inj, ← h.closing? hne after, heq, h'.closing? hne after']
  exact (List.append_inj heq (Nat.succ.inj hlength)).1

/-! ## Peaks -/

/-- The peak is the largest of the balances of all starts of the text. -/
theorem isGreatest_peak (left right : Char) (t : Text) :
    IsGreatest {d | ∃ u, u <+: t ∧ balance left right u = d} (peak left right t) := by
  induction t with
  | nil =>
    refine ⟨⟨[], List.nil_prefix, rfl⟩, ?_⟩
    rintro d ⟨u, hu, rfl⟩
    rw [List.prefix_nil.1 hu, balance_nil, peak_nil]
  | cons c t ih =>
    obtain ⟨⟨v, hv, hpeak⟩, hmax⟩ := ih
    refine ⟨?_, ?_⟩
    · rcases Int.le_total (weight left right c + peak left right t) 0 with hle | hle
      · exact ⟨[], List.nil_prefix, (max_eq_left hle).symm⟩
      · refine ⟨c :: v, List.cons_prefix_cons.2 ⟨rfl, hv⟩, ?_⟩
        rw [balance_cons, hpeak, peak_cons, max_eq_right hle]
    · rintro d ⟨u, hu, rfl⟩
      rcases List.prefix_cons_iff.1 hu with rfl | ⟨w, rfl, hw⟩
      · exact Int.le_max_left 0 _
      · have hle : balance left right w ≤ peak left right t := hmax ⟨w, hw, rfl⟩
        rw [balance_cons, peak_cons]
        omega

theorem peak_nonneg (left right : Char) (t : Text) : 0 ≤ peak left right t :=
  (isGreatest_peak left right t).2 ⟨[], List.nil_prefix, rfl⟩

theorem peak_append (left right : Char) (t u : Text) : peak left right (t ++ u)
    = max (peak left right t) (balance left right t + peak left right u) := by
  induction t with
  | nil =>
    have hnonneg := peak_nonneg left right u
    rw [List.nil_append, peak_nil, balance_nil, Int.zero_add, max_eq_right hnonneg]
  | cons c t ih =>
    rw [List.cons_append, peak_cons, peak_cons, balance_cons, ih]
    omega

/-- A group is one deeper than what stands in it. -/
theorem Balanced.peak_group (hne : left ≠ right) {inner : Text} (h : Balanced left right inner)
    (after : Text) : peak left right (left :: (inner ++ right :: after))
      = max (1 + peak left right inner) (peak left right after) := by
  have hinner := peak_nonneg left right inner
  have hafter := peak_nonneg left right after
  rw [peak_cons, peak_append, peak_cons, h.balance_eq hne, weight_left, weight_right hne]
  omega

end Descent.Text

/-
  Descent.Proofs.Reading.Stretch

  Stretches of characters of a kind, as long as they can be.  A repeated character takes such
  a stretch if no bound cuts it short (`Reading.many_char_eq_some_iff`), and characters of the
  kind in any case (`Reading.many_char_taken`).  If the kind is one character, that is the
  character again and again (`Reading.many_exact_taken`).
-/
import Descent.Proofs.Reading.Scan

namespace Descent

/-! ## Stretches -/

namespace Text

variable {kind : Char → Bool} {a : Char} {t run rest : Text}

/-- A text begins with a run of characters of a kind, and the run ends where the text does or
    at a character of another kind. -/
structure Stretch (kind : Char → Bool) (t run rest : Text) : Prop where
  text : t = run ++ rest
  each : ∀ c ∈ run, kind c = true
  ends : ∀ c, rest.head? = some c → kind c = false

/-- Every text begins with a stretch, which may be empty. -/
theorem stretch_takeWhile (kind : Char → Bool) (t : Text) :
    Stretch kind t (t.takeWhile kind) (t.dropWhile kind) := by
  refine ⟨List.takeWhile_append_dropWhile.symm, fun c hc => ?_, fun c hc => ?_⟩
  · exact List.all_eq_true.1 List.all_takeWhile c hc
  · have hstop := List.head?_dropWhile_not kind t
    rw [hc] at hstop
    exact hstop

theorem Stretch.takeWhile_eq (h : Stretch kind t run rest) : t.takeWhile kind = run := by
  have hrest : rest.takeWhile kind = [] := by
    cases rest with
    | nil => rfl
    | cons c rest => rw [List.takeWhile_cons, h.ends c rfl, if_neg Bool.false_ne_true]
  rw [h.text, List.takeWhile_append_of_pos h.each, hrest, List.append_nil]

theorem Stretch.dropWhile_eq (h : Stretch kind t run rest) : t.dropWhile kind = rest := by
  have htext := h.text
  rw [← List.takeWhile_append_dropWhile (p := kind) (l := t), h.takeWhile_eq] at htext
  exact List.append_cancel_left htext

theorem Stretch.drop_eq (h : Stretch kind t run rest) : t.drop run.length = rest := by
  rw [h.text, List.drop_left]

/-- A character again and again is a stretch if another one follows, or none. -/
theorem stretch_replicate (n : Nat) (h : rest.head? ≠ some a) :
    Stretch (· == a) (List.replicate n a ++ rest) (List.replicate n a) rest := by
  refine ⟨rfl, fun c hc => ?_, fun c hc => ?_⟩
  · rw [List.eq_of_mem_replicate hc, beq_self_eq_true]
  · rw [beq_eq_false_iff_ne]
    rintro rfl
    exact h hc

theorem Stretch.head?_ne (h : Stretch (· == a) t run rest) : rest.head? ≠ some a := by
  intro hhead
  have hother := h.ends a hhead
  rw [beq_self_eq_true] at hother
  cases hother

end Text

/-! ## Repeated characters -/

theorem Bounds.lacking_eq_false {bounds : Bounds} {n : Nat} (h : bounds.atLeast ≤ n) :
    bounds.lacking n = false := by
  rw [lacking, Bool.and_eq_false_iff, decide_eq_false_iff_not]
  exact .inr (by omega)

namespace Reading

variable {kind : Char → Bool} {bounds : Bounds} {a : Char} {t run rest : Text} {n : Nat}

/-- A text of one character is equal to another if the characters are. -/
theorem singleton_beq (a : Char) : (fun c : Char => [c] == [a]) = (· == a) := by
  funext c
  simp

/-- A stretch that keeps to the bounds is taken as a whole. -/
theorem many_char_of_stretch (h : Text.Stretch kind t run rest)
    (hleast : bounds.atLeast ≤ run.length)
    (hmost : bounds.atMost = 0 ∨ run.length ≤ bounds.atMost) :
    (char kind).many bounds t = some (run.length, run) := by
  have hlimit : limit bounds 0 run = run := by
    rw [limit]
    split
    · rfl
    · next hlimited =>
      have hzero : bounds.atMost ≠ 0 := fun hzero => hlimited (beq_iff_eq.2 hzero)
      refine List.take_of_length_le ?_
      omega
  rw [many_char, h.takeWhile_eq, hlimit, Bounds.lacking_eq_false hleast,
    if_neg Bool.false_ne_true]

/-- Whatever the bounds, what is taken are characters of the kind. -/
theorem many_char_taken (h : (char kind).many bounds t = some (n, run)) :
    n = run.length ∧ t = run ++ t.drop n ∧ ∀ c ∈ run, kind c = true := by
  rw [many_char] at h
  obtain ⟨-, heq⟩ := Option.ite_none_left_eq_some.1 h
  have hpre : limit bounds 0 (t.takeWhile kind) <+: t.takeWhile kind := by
    rw [limit]
    split
    · exact List.prefix_rfl
    · exact List.take_prefix _ _
  cases heq
  have hinto := hpre.trans (List.takeWhile_prefix kind)
  refine ⟨rfl, (List.prefix_iff_eq_append.1 hinto).symm, fun c hc => ?_⟩
  exact List.all_eq_true.1 List.all_takeWhile c (hpre.subset hc)

/-- Without an upper bound a repeated character takes the stretch of such characters. -/
theorem many_char_eq_some_iff (hbounds : bounds.atMost = 0) :
    (char kind).many bounds t = some (n, run) ↔
      n = run.length ∧ bounds.atLeast ≤ n ∧ ∃ rest, Text.Stretch kind t run rest := by
  refine ⟨fun h => ?_, ?_⟩
  · have hleast := (many_bounds h).1
    rw [many_char, limit, Bounds.unlimited, hbounds, if_pos (beq_self_eq_true (0 : Int))] at h
    obtain ⟨-, heq⟩ := Option.ite_none_left_eq_some.1 h
    cases heq
    exact ⟨rfl, hleast, _, Text.stretch_takeWhile kind t⟩
  · rintro ⟨rfl, hleast, rest, hstretch⟩
    exact many_char_of_stretch hstretch hleast (.inl hbounds)

/-- A character again and again is taken as a whole if another one follows, or none. -/
theorem many_exact_replicate (hrest : rest.head? ≠ some a) (hleast : bounds.atLeast ≤ n)
    (hmost : bounds.atMost = 0 ∨ n ≤ bounds.atMost) :
    (char fun c => [c] == [a]).many bounds (List.replicate n a ++ rest)
      = some (n, List.replicate n a) := by
  have hlength : (List.replicate n a).length = n := List.length_replicate
  have hread : (char (· == a)).many bounds (List.replicate n a ++ rest)
      = some ((List.replicate n a).length, List.replicate n a) :=
    many_char_of_stretch (Text.stretch_replicate n hrest) (by rwa [hlength]) (by rwa [hlength])
  rw [singleton_beq, hread, hlength]

/-- What a repeated character takes is that character again and again. -/
theorem many_exact_taken (h : (char fun c => [c] == [a]).many bounds t = some (n, run)) :
    run = List.replicate n a ∧ t = List.replicate n a ++ t.drop n := by
  rw [singleton_beq] at h
  obtain ⟨hlength, htext, heach⟩ := many_char_taken h
  have hrun : run = List.replicate n a := by
    rw [hlength]
    exact List.eq_replicate_of_mem fun c hc => beq_iff_eq.1 (heach c hc)
  rw [hrun] at htext
  exact ⟨hrun, htext⟩

end Reading
end Descent

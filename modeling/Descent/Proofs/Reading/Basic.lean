/-
  Descent.Proofs.Reading.Basic

  Readings: functions from what lies ahead to how many characters are taken and what is
  made of them.  They are combined as parsers are, but there is no state to carry, no
  memory and no fuel.  A reading is bounded if it takes no more than there is, and
  consuming if it also takes something; loops are over consuming readings.  That an action
  does what a reading says is a matter for `Descent.Proofs.Reading.Action`.
-/
import Descent.Parser.Basic
import Descent.Proofs.Text.Search

namespace Descent

/-- How many characters are taken from the start of a text, and what they give. -/
abbrev Reading (α : Type) := Text → Option (Nat × α)

namespace Reading

variable {α β : Type}

/-- What is taken lies ahead. -/
def Bounded (r : Reading α) : Prop := ∀ t n a, r t = some (n, a) → n ≤ t.length

/-- What is taken lies ahead and is not nothing. -/
def Consuming (r : Reading α) : Prop := ∀ t n a, r t = some (n, a) → 0 < n ∧ n ≤ t.length

theorem Consuming.bounded {r : Reading α} (h : r.Consuming) : r.Bounded :=
  fun t n a ht => (h t n a ht).2

/-- At a character a match takes that character, and no more than what lies behind it. -/
theorem Consuming.match_cons {r : Reading α} (h : r.Consuming) {c : Char} {rest : Text} {n : Nat}
    {a : α} (ht : r (c :: rest) = some (n, a)) : ∃ k, n = k + 1 ∧ k ≤ rest.length := by
  obtain ⟨hpos, hle⟩ := h _ _ _ ht
  rw [List.length_cons] at hle
  exact ⟨n - 1, by omega, by omega⟩

/-! ## Readings of the leaves -/

/-- One character of a kind. -/
def char (f : Char → Bool) : Reading Char
  | [] => none
  | c :: _ => if f c then some (1, c) else none

/-- Exactly this text. -/
def exactly (text : Text) : Reading Text := fun t =>
  if text.isPrefixOf t then some (text.length, text) else none

/-- Everything before a delimiter. -/
def upTo (delimiter : Text) : Reading Text := fun t =>
  (Text.offset? delimiter t).map fun n => (n, t.take n)

/-- A group between two brackets. -/
def group (left right : Char) : Reading Text
  | [] => none
  | c :: inside =>
    if c = left then (Text.closing? left right inside).map fun n => (n + 1, inside.take (n - 1))
    else none

/-! ## Readings of the combinators -/

/-- One after the other. -/
def seq (p : Reading α) (q : Reading β) : Reading (α × β) := fun t => do
  let (n, a) ← p t
  let (k, b) ← q (t.drop n)
  pure (n + k, (a, b))

/-- One on what the other gave. -/
def inside (p : Reading α) (inner : α → Option β) : Reading (α × β) := fun t => do
  let (n, a) ← p t
  let b ← inner a
  pure (n, (a, b))

/-- The first that matches. -/
def orElse (p q : Reading α) : Reading α := fun t => (p t).or (q t)

/-- The first of some readings that matches. -/
def choice (rs : List (Reading α)) : Reading α := rs.foldr orElse fun _ => none

/-- What there is, or nothing. -/
def optional (p : Reading α) : Reading (Option α) := fun t =>
  match p t with
  | some (n, a) => some (n, some a)
  | none => some (0, none)

/-- Only where a condition on what lies ahead holds. -/
def provided (goesOn : Text → Bool) (r : Reading α) : Reading α := fun t =>
  if goesOn t then r t else none

/-- Something else made of what is taken. -/
def map (f : α → β) (p : Reading α) : Reading β := fun t => (p t).map fun x => (x.1, f x.2)

/-- Again and again, with `count` results behind. -/
def collect (r : Reading α) (bounds : Bounds) (count : Nat) : Text → Nat × List α
  | [] => (0, [])
  | c :: rest =>
    if bounds.reached count then (0, []) else
      match r (c :: rest) with
      | some (n + 1, a) =>
        let (k, as) := collect r bounds (count + 1) (rest.drop n)
        (n + 1 + k, a :: as)
      | _ => (0, [])
termination_by t => t.length
decreasing_by simp only [List.length_drop, List.length_cons]; omega

/-- Again and again within bounds. -/
def many (r : Reading α) (bounds : Bounds) : Reading (List α) := fun t =>
  let x := r.collect bounds 0 t
  if bounds.lacking x.2.length then none else some x

/-- The item made of a run of characters, if there are any. -/
def close (ofRun : Text → α) (run : Text) : List α :=
  if run.isEmpty then [] else [ofRun run]

/-- Items and the runs between them, with a run behind. -/
def scan (r : Reading α) (ofRun : Text → α) (goesOn : Text → Bool) (run : Text) :
    Text → Nat × List α
  | [] => (0, close ofRun run)
  | c :: rest =>
    if goesOn (c :: rest) then
      match r (c :: rest) with
      | some (n + 1, a) =>
        let (k, as) := scan r ofRun goesOn [] (rest.drop n)
        (n + 1 + k, close ofRun run ++ a :: as)
      | _ =>
        let (k, as) := scan r ofRun goesOn (run ++ [c]) rest
        (k + 1, as)
    else (0, close ofRun run)
termination_by t => t.length
decreasing_by all_goals simp only [List.length_drop, List.length_cons]; omega

/-- Items and the runs between them; none at all is no match. -/
def interleave (r : Reading α) (ofRun : Text → α) (goesOn : Text → Bool) :
    Reading (List α) := fun t =>
  let x := r.scan ofRun goesOn [] t
  if x.2.isEmpty then none else some x

/-! ## Results of the combinators -/

variable {p : Reading α} {q : Reading β} {t : Text} {n : Nat}

theorem seq_eq_some {x : α × β} : p.seq q t = some (n, x) ↔
    ∃ k l, p t = some (k, x.1) ∧ q (t.drop k) = some (l, x.2) ∧ n = k + l := by
  rw [seq]
  simp only [Option.bind_eq_bind, Option.bind_eq_some_iff, Option.pure_def, Prod.exists]
  refine ⟨?_, ?_⟩
  · rintro ⟨k, a, hp, l, b, hq, h⟩
    cases h
    exact ⟨k, l, hp, hq, rfl⟩
  · rintro ⟨k, l, hp, hq, rfl⟩
    exact ⟨k, x.1, hp, l, x.2, hq, rfl⟩

theorem inside_eq_some {inner : α → Option β} {x : α × β} :
    p.inside inner t = some (n, x) ↔ p t = some (n, x.1) ∧ inner x.1 = some x.2 := by
  rw [inside]
  simp only [Option.bind_eq_bind, Option.bind_eq_some_iff, Option.pure_def, Prod.exists]
  refine ⟨?_, ?_⟩
  · rintro ⟨k, a, hp, b, hb, h⟩
    cases h
    exact ⟨hp, hb⟩
  · rintro ⟨hp, hb⟩
    exact ⟨n, x.1, hp, x.2, hb, rfl⟩

theorem inside_congr {inner inner' : α → Option β}
    (h : ∀ n a, p t = some (n, a) → inner a = inner' a) : p.inside inner t = p.inside inner' t := by
  rw [inside, inside]
  cases hp : p t with
  | none => rfl
  | some x => simp only [Option.bind_eq_bind, Option.bind_some, h x.1 x.2 hp]

theorem map_eq_some {f : α → β} {b : β} :
    p.map f t = some (n, b) ↔ ∃ a, p t = some (n, a) ∧ f a = b := by
  rw [map, Option.map_eq_some_iff]
  refine ⟨?_, ?_⟩
  · rintro ⟨⟨k, a⟩, hp, h⟩
    cases h
    exact ⟨a, hp, rfl⟩
  · rintro ⟨a, hp, rfl⟩
    exact ⟨(n, a), hp, rfl⟩

theorem orElse_eq_some {q : Reading α} {a : α} : p.orElse q t = some (n, a) ↔
    p t = some (n, a) ∨ p t = none ∧ q t = some (n, a) := by
  rw [orElse]
  cases p t with
  | none => simp
  | some x => simp

theorem orElse_eq_none {q : Reading α} : p.orElse q t = none ↔ p t = none ∧ q t = none := by
  rw [orElse, Option.or_eq_none_iff]

theorem orElse_nothing (p : Reading α) : p.orElse (fun _ => none) = p :=
  funext fun _ => Option.or_none

theorem orElse_assoc (p q r : Reading α) : (p.orElse q).orElse r = p.orElse (q.orElse r) :=
  funext fun _ => Option.or_assoc

theorem choice_cons (p : Reading α) (rs : List (Reading α)) :
    choice (p :: rs) = p.orElse (choice rs) := rfl

/-- No text is matched by both. -/
def Apart (p : Reading α) (q : Reading β) : Prop := ∀ t, p t = none ∨ q t = none

theorem Apart.symm (h : p.Apart q) : q.Apart p := fun t => (h t).symm

theorem Apart.inside (h : p.Apart q) {γ : Type} (inner : β → Option γ) :
    p.Apart (q.inside inner) := fun t => (h t).imp_right fun hq => by rw [Reading.inside, hq]; rfl

theorem Apart.map (h : p.Apart q) {γ : Type} (f : β → γ) : p.Apart (q.map f) :=
  fun t => (h t).imp_right fun hq => by rw [Reading.map, hq]; rfl

theorem Apart.orElse_comm {q : Reading α} (h : p.Apart q) : p.orElse q = q.orElse p := by
  funext t
  rw [orElse, orElse]
  rcases h t with hp | hq
  · rw [hp, Option.none_or, Option.or_none]
  · rw [hq, Option.none_or, Option.or_none]

/-- Where no text is matched by two of the readings, their order does not matter. -/
theorem choice_perm {rs rs' : List (Reading α)} (h : rs.Perm rs') (hapart : rs.Pairwise Apart) :
    choice rs = choice rs' := by
  induction h with
  | nil => rfl
  | cons p _ ih => rw [choice_cons, choice_cons, ih hapart.of_cons]
  | swap p q rs =>
    have hqp : q.Apart p := List.rel_of_pairwise_cons hapart List.mem_cons_self
    rw [choice_cons, choice_cons, ← orElse_assoc, hqp.orElse_comm, orElse_assoc]
    rfl
  | trans h _ ih ih' => exact (ih hapart).trans (ih' (h.pairwise hapart Apart.symm))

theorem provided_true (p : Reading α) : p.provided (fun _ => true) = p := rfl

theorem char_eq_some {f : Char → Bool} {c : Char} :
    char f t = some (n, c) ↔ n = 1 ∧ f c = true ∧ ∃ rest, t = c :: rest := by
  cases t with
  | nil => simp [char]
  | cons d rest =>
    rw [char]
    split
    · next hd =>
      refine ⟨?_, ?_⟩
      · intro h
        cases h
        exact ⟨rfl, hd, rest, rfl⟩
      · rintro ⟨rfl, -, rest', h⟩
        cases h
        rfl
    · next hd =>
      refine ⟨?_, ?_⟩
      · intro h
        cases h
      · rintro ⟨-, hc, rest', h⟩
        cases h
        exact absurd hc hd

theorem exactly_eq_some {text a : Text} :
    exactly text t = some (n, a) ↔ n = text.length ∧ a = text ∧ text <+: t := by
  rw [exactly]
  split
  · next h =>
    refine ⟨?_, ?_⟩
    · intro heq
      cases heq
      exact ⟨rfl, rfl, List.isPrefixOf_iff_prefix.1 h⟩
    · rintro ⟨rfl, rfl, -⟩
      rfl
  · next h =>
    refine ⟨?_, ?_⟩
    · intro heq
      cases heq
    · rintro ⟨-, -, hpre⟩
      exact absurd (List.isPrefixOf_iff_prefix.2 hpre) h

theorem upTo_eq_some {delimiter a : Text} :
    upTo delimiter t = some (n, a) ↔ Text.offset? delimiter t = some n ∧ a = t.take n := by
  rw [upTo, Option.map_eq_some_iff]
  refine ⟨?_, ?_⟩
  · rintro ⟨k, hk, h⟩
    cases h
    exact ⟨hk, rfl⟩
  · rintro ⟨hk, rfl⟩
    exact ⟨n, hk, rfl⟩

/-- A group is a balanced text between the two brackets. -/
theorem group_eq_some {left right : Char} {a : Text} (h : group left right t = some (n, a)) :
    n = a.length + 2 ∧ Text.Balanced left right a ∧ ∃ after, t = left :: (a ++ right :: after) := by
  cases t with
  | nil => cases h
  | cons c inside =>
    rw [group] at h
    split at h
    · next hc =>
      obtain ⟨k, hk, heq⟩ := Option.map_eq_some_iff.1 h
      obtain ⟨inner, after, hbalanced, hinside, rfl⟩ := Text.closing?_eq_some hk
      have ha : a = inner := by
        injection heq with hn ha
        rw [← ha, hinside, Nat.add_sub_cancel, List.take_left]
      subst ha
      injection heq with hn
      exact ⟨hn.symm, hbalanced, after, by rw [hc, hinside]⟩
    · cases h

/-! ## What is taken -/

theorem char_consuming (f : Char → Bool) : (char f).Consuming := by
  intro t n c h
  obtain ⟨rfl, -, rest, rfl⟩ := char_eq_some.1 h
  exact ⟨Nat.one_pos, Nat.succ_pos _⟩

theorem exactly_consuming {text : Text} (htext : text ≠ []) : (exactly text).Consuming := by
  intro t n a h
  obtain ⟨rfl, -, hpre⟩ := exactly_eq_some.1 h
  exact ⟨List.length_pos_iff.2 htext, hpre.length_le⟩

theorem group_consuming (left right : Char) : (group left right).Consuming := by
  intro t n a h
  obtain ⟨rfl, -, after, rfl⟩ := group_eq_some h
  simp only [List.length_cons, List.length_append]
  omega

theorem Bounded.seq (hp : p.Bounded) (hq : q.Bounded) : (p.seq q).Bounded := by
  intro t n x h
  obtain ⟨k, l, hk, hl, rfl⟩ := seq_eq_some.1 h
  have hk := hp _ _ _ hk
  have hl := hq _ _ _ hl
  rw [List.length_drop] at hl
  omega

theorem Consuming.seq (hp : p.Consuming) (hq : q.Bounded) : (p.seq q).Consuming := by
  intro t n x h
  refine ⟨?_, hp.bounded.seq hq t n x h⟩
  obtain ⟨k, l, hk, -, rfl⟩ := seq_eq_some.1 h
  exact Nat.add_pos_left (hp _ _ _ hk).1 l

theorem Consuming.inside (hp : p.Consuming) (inner : α → Option β) :
    (p.inside inner).Consuming := fun _ _ _ h => hp _ _ _ (inside_eq_some.1 h).1

theorem Consuming.map (hp : p.Consuming) (f : α → β) : (p.map f).Consuming := by
  intro t n b h
  obtain ⟨a, ha, -⟩ := map_eq_some.1 h
  exact hp _ _ _ ha

theorem Consuming.orElse {q : Reading α} (hp : p.Consuming) (hq : q.Consuming) :
    (p.orElse q).Consuming := by
  intro t n a h
  rcases orElse_eq_some.1 h with h | ⟨-, h⟩
  · exact hp _ _ _ h
  · exact hq _ _ _ h

theorem collect_le (p : Reading α) (hp : p.Bounded) (bounds : Bounds) (count : Nat) (t : Text) :
    (p.collect bounds count t).1 ≤ t.length := by
  fun_induction collect p bounds count t with
  | case1 => exact Nat.zero_le _
  | case2 => exact Nat.zero_le _
  | case3 count c rest _ n a hmatch k as hrest ih =>
    have hn := hp _ _ _ hmatch
    rw [hrest, List.length_drop] at ih
    rw [List.length_cons] at hn ⊢
    dsimp only at ih ⊢
    omega
  | case4 => exact Nat.zero_le _

theorem Bounded.many (hp : p.Bounded) (bounds : Bounds) : (p.many bounds).Bounded := by
  intro t n as h
  rw [Reading.many] at h
  split at h
  · cases h
  · have hle := collect_le p hp bounds 0 t
    rw [Option.some.inj h] at hle
    exact hle

/-! ## Runs of characters -/

/-- What is left of a run of characters when no more than the bounds allow are taken, with
    `count` of them behind. -/
def limit (bounds : Bounds) (count : Nat) (run : Text) : Text :=
  if bounds.unlimited then run else run.take (bounds.atMost - count).toNat

theorem collect_char (f : Char → Bool) (bounds : Bounds) (count : Nat) (t : Text) :
    (char f).collect bounds count t
      = ((limit bounds count (t.takeWhile f)).length, limit bounds count (t.takeWhile f)) := by
  induction t generalizing count with
  | nil =>
    have hnil : limit bounds count [] = [] := by
      unfold limit
      split
      · rfl
      · exact List.take_nil
    rw [collect, List.takeWhile_nil, hnil]
    rfl
  | cons c rest ih =>
    rw [collect]
    by_cases hreached : bounds.reached count = true
    · -- There are enough already, so nothing is left of the run.
      have hnil : ∀ run, limit bounds count run = [] := by
        intro run
        simp only [Bounds.reached, Bool.and_eq_true, bne_iff_ne, decide_eq_true_eq] at hreached
        have hlimited : bounds.unlimited = false := beq_eq_false_iff_ne.2 hreached.1
        have hzero : (bounds.atMost - count).toNat = 0 := by omega
        rw [limit, hlimited, hzero]
        rfl
      rw [if_pos hreached, hnil]
      rfl
    · -- The first character of the run counts, and one less may follow.
      have hcons : ∀ run, limit bounds count (c :: run) = c :: limit bounds (count + 1) run := by
        intro run
        simp only [Bounds.reached, Bool.and_eq_true, bne_iff_ne, decide_eq_true_eq] at hreached
        unfold limit
        by_cases hlimited : bounds.unlimited = true
        · rw [if_pos hlimited, if_pos hlimited]
        · have hne : bounds.atMost ≠ 0 := fun h => hlimited (beq_iff_eq.2 h)
          have hsucc : (bounds.atMost - count).toNat
              = (bounds.atMost - (count + 1 : Nat)).toNat + 1 := by omega
          rw [if_neg hlimited, if_neg hlimited, hsucc, List.take_succ_cons]
      rw [if_neg hreached, char, List.takeWhile_cons]
      by_cases hc : f c = true
      · rw [if_pos hc, if_pos hc, hcons]
        dsimp only
        rw [List.drop_zero, ih, List.length_cons, Nat.add_comm]
      · have hnil : limit bounds count [] = [] := by
          unfold limit
          split
          · rfl
          · exact List.take_nil
        rw [if_neg hc, if_neg hc, hnil]
        rfl

/-- A repeated character is the longest run of such characters, cut where the bounds say. -/
theorem many_char (f : Char → Bool) (bounds : Bounds) (t : Text) :
    (char f).many bounds t =
      if bounds.lacking (limit bounds 0 (t.takeWhile f)).length then none
      else some ((limit bounds 0 (t.takeWhile f)).length, limit bounds 0 (t.takeWhile f)) := by
  rw [many, collect_char]

end Reading
end Descent

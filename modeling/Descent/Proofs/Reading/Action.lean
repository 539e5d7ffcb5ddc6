/-
  Descent.Proofs.Reading.Action

  Parsers as readings.  A parser whose callbacks always answer, and leave no trace, does
  nothing to the memory; if it also looks at nothing but what lies ahead, a reading says
  all there is to say of it.  `Action.Reads` says that an action does what a reading says,
  for texts up to a length for which the fuel suffices.  The lemmas give the readings of
  the leaves, and of every combinator from those of its parts; the two loops are
  inductions over their fuel.
-/
import Descent.Parser.Eval
import Descent.Proofs.Loop.Run
import Descent.Proofs.Reading.Basic

namespace Descent

/-! ## Actions that read -/

namespace State

@[simp] theorem advance_advance (s : State) (n k : Nat) (a b : Value) :
    (s.advance n a).advance k b = s.advance (n + k) b := by
  ext <;> simp [Nat.add_assoc]

@[simp] theorem withValue_advance (s : State) (n : Nat) (a b : Value) :
    (s.withValue a).advance n b = s.advance n b := rfl

theorem withValue_eq_advance (s : State) (a : Value) : s.withValue a = s.advance 0 a := by
  ext <;> simp

end State

/-- The characters of a text, one by one, are joined to the text. -/
theorem Value.joined?_chars (cs : Text) :
    (Value.list (cs.map fun c => .str [c])).joined? = some cs := by
  have htexts : (cs.map fun c => Value.str [c]).mapM Value.asText?
      = some (cs.map fun c => [c]) := by
    rw [List.mapM_map]
    exact List.mapM_pure
  rw [joined?, asList?, Option.bind_eq_bind, Option.bind_some, htexts]
  simp only [Option.bind_eq_bind, Option.bind_some, Option.pure_def, ← List.flatMap_def,
    List.flatMap_singleton']

/-- Fuel for a state exceeds the length of what lies ahead in it by two and more. -/
theorem Parser.length_lt_budget (s : State) : ∃ n, budget s = n + 2 ∧ s.rest.length < n := by
  have hle : s.rest.length ≤ s.text.length := by
    rw [s.rest_eq, List.length_drop]
    omega
  refine ⟨budget s - 2, ?_, ?_⟩
  · unfold budget
    omega
  · unfold budget
    omega

namespace Action

open Run

variable {α β : Type} {p q : Action} {bound : Nat} {f : α → Value} {g : β → Value}
  {r : Reading α} {r' : Reading β}

/-- On texts shorter than a bound the action does what the reading says, and leaves the
    memory alone. -/
def Reads (p : Action) (bound : Nat) (value : α → Value) (r : Reading α) : Prop :=
  ∀ s : State, s.rest.length < bound →
    p s = pure ((r s.rest).map fun x => s.advance x.1 (value x.2))

/-- What the action gives for a whole text, wherever it ends. -/
def Gives (p : Action) (text : Text) (value : Option Value) : Prop :=
  ∃ o, p (State.start text) = pure o ∧ o.map State.value = value

theorem Reads.gives (h : p.Reads bound f r) {text : Text} (ht : text.length < bound) :
    p.Gives text (((r text).map Prod.snd).map f) := by
  refine ⟨_, h (State.start text) ht, ?_⟩
  rw [Option.map_map, Option.map_map]
  rfl

theorem Reads.to_map {h : β → α} (hp : p.Reads bound (fun b => f (h b)) r') :
    p.Reads bound f (r'.map h) := by
  intro s hs
  rw [hp s hs, Reading.map, Option.map_map]
  rfl

theorem length_drop_lt {t : Text} (ht : t.length < bound) (n : Nat) :
    (t.drop n).length < bound := by
  rw [List.length_drop]
  omega

@[simp] theorem call_total {γ δ : Type} (k : γ → δ) (a : γ) :
    call (.total k) a = pure (k a) := rfl

theorem call_orFault {γ δ : Type} {k : γ → Option δ} {a : γ} {b : δ} (message : String)
    (h : k a = some b) : call (.orFault message k) a = pure b := by
  rw [call, Callback.orFault]
  simp only [h]
  rfl

/-! ## Leaves -/

theorem reads_satisfy (k : Char → Bool) :
    (satisfy (.total k)).Reads bound (fun c => .str [c]) (.char k) := by
  intro s _
  unfold satisfy
  split
  · next hrest => rw [hrest]; rfl
  · next c rest hrest =>
    rw [hrest, call_total, pure_bind, Reading.char]
    split
    · rfl
    · rfl

theorem inBounds_of_rest {s : State} (h : s.rest ≠ []) : s.inBounds = true := by
  rw [State.inBounds, List.isEmpty_eq_false_iff.2 h]
  rfl

theorem inBounds_of_prefix {s : State} {text : Text} (htext : text ≠ [])
    (h : text <+: s.rest) : s.inBounds = true :=
  inBounds_of_rest fun hnil => htext (List.prefix_nil.1 (hnil ▸ h))

theorem literal_matches {text : Text} {s : State} (hin : s.inBounds = true)
    (h : text <+: s.rest) : literal text s = pure (some (s.advance text.length (.str text))) := by
  rw [literal, hin, Bool.true_and, if_pos (List.isPrefixOf_iff_prefix.2 h)]

theorem literal_fails {text : Text} {s : State} (h : ¬ (s.inBounds = true ∧ text <+: s.rest)) :
    literal text s = pure none := by
  rw [← List.isPrefixOf_iff_prefix, ← Bool.and_eq_true] at h
  rw [literal, if_neg h]

/-- The empty text is left out: it is found at the end of a text, but not beyond. -/
theorem reads_literal {text : Text} (htext : text ≠ []) :
    (literal text).Reads bound .str (.exactly text) := by
  intro s _
  rw [Reading.exactly]
  by_cases hpre : text <+: s.rest
  · have hin := inBounds_of_prefix htext hpre
    rw [literal_matches hin hpre, if_pos (List.isPrefixOf_iff_prefix.2 hpre),
      Option.map_some]
  · rw [literal_fails fun h => hpre h.2, if_neg (mt List.isPrefixOf_iff_prefix.1 hpre),
      Option.map_none]

theorem reads_upTo {delimiter : Text} (hd : delimiter ≠ []) :
    (upTo delimiter).Reads bound .str (.upTo delimiter) := by
  intro s _
  unfold upTo Reading.upTo
  cases hfind : Text.offset? delimiter s.rest with
  | none =>
    split
    · rfl
    · rfl
  | some n =>
    have hpre := Text.prefix_drop_offset? hfind
    have hrest : s.rest ≠ [] := by
      intro hnil
      rw [hnil, List.drop_nil] at hpre
      exact hd (List.prefix_nil.1 hpre)
    rw [if_pos (inBounds_of_rest hrest)]
    rfl

theorem reads_bracketed (left right : Char) :
    (bracketed left right).Reads bound .str (.group left right) := by
  intro s _
  unfold bracketed
  congr 1
  cases s.rest with
  | nil => rfl
  | cons c inside =>
    rw [Reading.group]
    dsimp only
    split
    · rw [Option.map_map]
      rfl
    · rfl

/-! ## One after the other -/

/-- The action that goes on is applied where the first one ended. -/
theorem Reads.andThen_some (hp : p.Reads bound f r) {next : Action} {s : State}
    (hs : s.rest.length < bound) {n : Nat} {a : α} (hr : r s.rest = some (n, a)) :
    p.andThen next s = next (s.advance n (f a)) :=
  andThen_of_some (by rw [hp s hs, hr, Option.map_some])

theorem Reads.andThen_none (hp : p.Reads bound f r) {next : Action} {s : State}
    (hs : s.rest.length < bound) (hr : r s.rest = none) : p.andThen next s = pure none :=
  andThen_of_none (by rw [hp s hs, hr, Option.map_none])

/-- Two actions in a row, whose results are put together by an action that keeps to the
    place where the second ended.  The second reads what the first leaves. -/
theorem Reads.andThen_andThen {bound' : Nat} (hp : p.Reads bound f r)
    (hleft : ∀ t n a, t.length < bound → r t = some (n, a) → (t.drop n).length < bound')
    (hq : q.Reads bound' g r') {h : α × β → Value} {join : State → State → Run (Option State)}
    (hjoin : ∀ (s : State) n k a b, join (s.advance n (f a)) (s.advance (n + k) (g b))
      = pure (some (s.advance (n + k) (h (a, b))))) :
    Reads (p.andThen fun l => q.andThen (join l) l) bound h (r.seq r') := by
  intro s hs
  rw [Reading.seq]
  rcases hr : r s.rest with _ | ⟨n, a⟩
  · rw [hp.andThen_none hs hr]
    rfl
  · rw [hp.andThen_some hs hr]
    have hs' : (s.advance n (f a)).rest.length < bound' := hleft s.rest n a hs hr
    rcases hr' : r' (s.rest.drop n) with _ | ⟨k, b⟩
    · rw [hq.andThen_none hs' hr']
      simp only [Option.pure_def, Option.bind_eq_bind, Option.bind_some, hr', Option.bind_none]
      rfl
    · rw [hq.andThen_some hs' hr', State.advance_advance, hjoin]
      simp only [Option.pure_def, Option.bind_eq_bind, Option.bind_some, hr']
      rfl

theorem andThen_pure (p : Action) : (p.andThen fun s => pure (some s)) = p := by
  funext s
  calc p.andThen (fun s => pure (some s)) s
      = p s >>= pure := by
        unfold andThen
        congr 1
        funext o
        cases o with
        | none => rfl
        | some t => rfl
    _ = p s := bind_pure _

/-- Two actions in a row; it is enough that the second reads what the first leaves. -/
theorem Reads.seq_left {bound' : Nat} (hp : p.Reads bound f r)
    (hleft : ∀ t n a, t.length < bound → r t = some (n, a) → (t.drop n).length < bound')
    (hq : q.Reads bound' g r') : (p.seq q).Reads bound (fun x => g x.2) (r.seq r') := by
  have h : Reads (p.andThen fun l => q.andThen (fun t => pure (some t)) l) bound
      (fun x => g x.2) (r.seq r') := hp.andThen_andThen hleft hq fun _ _ _ _ _ => rfl
  simp only [andThen_pure] at h
  exact h

theorem Reads.seq (hp : p.Reads bound f r) (hq : q.Reads bound g r') :
    (p.seq q).Reads bound (fun x => g x.2) (r.seq r') :=
  hp.seq_left (fun _ n _ ht _ => length_drop_lt ht n) hq

theorem Reads.thenSkip (hp : p.Reads bound f r) (hq : q.Reads bound g r') :
    (p.thenSkip q).Reads bound (fun x => f x.1) (r.seq r') :=
  hp.andThen_andThen (fun _ n _ ht _ => length_drop_lt ht n) hq fun _ _ _ _ _ => rfl

theorem Reads.merge {f : α → Fields} {g : β → Fields}
    (hp : p.Reads bound (fun a => .fields (f a)) r)
    (hq : q.Reads bound (fun b => .fields (g b)) r') :
    (p.merge q).Reads bound (fun x => .fields ((f x.1).merge (g x.2))) (r.seq r') :=
  hp.andThen_andThen (fun _ n _ ht _ => length_drop_lt ht n) hq fun _ _ _ _ _ => rfl

/-! ## One inside the other -/

/-- An outer action and an inner one, whose results are put together by an action that
    keeps to the place where the outer one ended. -/
theorem Reads.andThen_inside (hp : p.Reads bound f r) {inner : α → Option β} {x : α → Text}
    {key : Option String} (hkey : ∀ a, innerText (f a) key = pure (x a))
    (hq : ∀ t n a, t.length < bound → r t = some (n, a) →
      q.Gives (x a) ((inner a).map g))
    {h : α × β → Value} {join : State → State → Run (Option State)}
    (hjoin : ∀ (s t : State) n a b, t.value = g b →
      join (s.advance n (f a)) t = pure (some (s.advance n (h (a, b))))) :
    Reads (p.andThen fun l => do
      let text ← innerText l.value key
      q.andThen (join l) (State.start text)) bound h (r.inside inner) := by
  intro s hs
  rw [Reading.inside]
  rcases hr : r s.rest with _ | ⟨n, a⟩
  · rw [hp.andThen_none hs hr]
    rfl
  · rw [hp.andThen_some hs hr, State.advance_value, hkey, pure_bind]
    -- The inner action starts at the beginning of a text of its own.
    obtain ⟨o, ho, hvalue⟩ := hq s.rest n a hs hr
    rw [andThen, ho, pure_bind]
    cases hinner : inner a with
    | none =>
      rw [hinner, Option.map_none, Option.map_eq_none_iff] at hvalue
      subst hvalue
      simp only [Option.pure_def, Option.bind_eq_bind, Option.bind_some, hinner,
        Option.bind_none]
      rfl
    | some b =>
      rw [hinner, Option.map_some, Option.map_eq_some_iff] at hvalue
      obtain ⟨t, rfl, ht⟩ := hvalue
      simp only [Option.pure_def, Option.bind_eq_bind, Option.bind_some, hinner]
      exact hjoin s t n a b ht

theorem Reads.seqInside {r : Reading Text} (hp : p.Reads bound .str r)
    {inner : Text → Option β}
    (hq : ∀ t n x, t.length < bound → r t = some (n, x) → q.Gives x ((inner x).map g)) :
    (p.seqInside q none).Reads bound (fun y => g y.2) (r.inside inner) :=
  hp.andThen_inside (x := id) (fun _ => rfl) hq
    fun _ _ _ _ _ ht => by rw [ht]; rfl

theorem Reads.mergeInside {f : α → Fields} {g : β → Fields}
    (hp : p.Reads bound (fun a => .fields (f a)) r) {inner : α → Option β} {x : α → Text}
    {key : String} (hkey : ∀ a, (f a).lookup key = some (.str (x a)))
    (hq : ∀ t n a, t.length < bound → r t = some (n, a) →
      q.Gives (x a) ((inner a).map fun b => .fields (g b))) :
    (p.mergeInside q (some key)).Reads bound (fun y => .fields ((f y.1).merge (g y.2)))
      (r.inside inner) := by
  have hinner : ∀ a, innerText (.fields (f a)) (some key) = pure (x a) := by
    intro a
    simp only [innerText, fieldsOf, Value.asFields?, pure_bind, hkey]
    rfl
  refine hp.andThen_inside hinner hq fun s t n a b ht => ?_
  rw [ht]
  rfl

/-! ## Alternatives and single parts -/

theorem Reads.orElse {r' : Reading α} (hp : p.Reads bound f r) (hq : q.Reads bound f r') :
    (p.orElse q).Reads bound f (r.orElse r') := by
  intro s hs
  rw [Action.orElse, hp s hs, pure_bind, Reading.orElse]
  rcases r s.rest with _ | ⟨n, a⟩
  · exact hq s hs
  · rfl

/-- The first of some parsers that matches reads like the first of their readings. -/
theorem Reads.choice {ι σ : Type} {follow : σ → Action} {fuel : Nat} {parser : ι → Parser σ}
    {read : ι → Reading α} {l : List ι}
    (h : ∀ i ∈ l, ((parser i).act follow fuel).Reads bound f (read i)) :
    ((Parser.choice (l.map parser)).act follow fuel).Reads bound f (.choice (l.map read)) := by
  -- A choice groups to the left and a list of readings to the right, so the first part of the
  -- choice is any parser that has been read so far.
  have hfoldl : ∀ (rest : List ι) (p : Parser σ) (r : Reading α),
      (∀ i ∈ rest, ((parser i).act follow fuel).Reads bound f (read i)) →
      (p.act follow fuel).Reads bound f r →
      (((rest.map parser).foldl .orElse p).act follow fuel).Reads bound f
        (r.orElse (.choice (rest.map read))) := by
    intro rest
    induction rest with
    | nil =>
      intro p r _ hp
      have hnothing : r.orElse (.choice []) = r := Reading.orElse_nothing r
      rw [List.map_nil, List.map_nil, hnothing]
      exact hp
    | cons i rest ih =>
      intro p r hrest hp
      obtain ⟨hi, hrest⟩ := List.forall_mem_cons.1 hrest
      have hread := ih (.orElse p (parser i)) (r.orElse (read i)) hrest (hp.orElse hi)
      rw [Reading.orElse_assoc] at hread
      exact hread
  cases l with
  | nil => exact fun s _ => rfl
  | cons i rest =>
    obtain ⟨hi, hrest⟩ := List.forall_mem_cons.1 h
    exact hfoldl rest (parser i) (read i) hrest hi

theorem Reads.orDefault (hp : p.Reads bound f r) (a : Value) :
    (p.orDefault a).Reads bound (fun o => o.elim a f) r.optional := by
  intro s hs
  rw [Action.orDefault, Action.orElse, hp s hs, pure_bind, Reading.optional]
  rcases r s.rest with _ | ⟨n, b⟩
  · simp only [Option.map_none, Option.map_some]
    rw [constant, State.withValue_eq_advance]
    rfl
  · rfl

theorem Reads.field (hp : p.Reads bound f r) (key : String) :
    (p.field key).Reads bound (fun a => .fields [(key, f a)]) r := by
  intro s hs
  rcases hr : r s.rest with _ | ⟨n, a⟩
  · rw [Action.field, hp.andThen_none hs hr]
    rfl
  · rw [Action.field, hp.andThen_some hs hr]
    rfl

theorem Reads.mapValue {h : α → Value} (hp : p.Reads bound f r) {k : Callback Value Value}
    (hk : ∀ a, call k (f a) = pure (h a)) : (p.map k).Reads bound h r := by
  intro s hs
  rcases hr : r s.rest with _ | ⟨n, a⟩
  · rw [Action.map, hp.andThen_none hs hr]
    rfl
  · rw [Action.map, hp.andThen_some hs hr, State.advance_value, hk, pure_bind]
    rfl

/-! ## Loops -/

section Loops

variable {s : State} {c : Char} {rest : Text} (hrest : s.rest = c :: rest) (n : Nat)
include hrest

theorem advance_succ_rest (a : Value) : (s.advance (n + 1) a).rest = rest.drop n := by
  rw [State.advance_rest, hrest, List.drop_succ_cons]

theorem moveTo_succ_rest (a : Value) :
    (s.moveTo (s.pos + (n + 1)) a).rest = rest.drop n := by
  rw [State.rest_eq, State.moveTo_text, State.moveTo_pos, ← List.drop_drop, ← s.rest_eq, hrest,
    List.drop_succ_cons]

theorem length_drop_lt_rest : (rest.drop n).length < s.rest.length := by
  rw [hrest, List.length_drop, List.length_cons]
  omega

end Loops

theorem pos_add_succ_beq (s : State) (n : Nat) : ((s.pos + (n + 1)) == s.pos) = false := by
  rw [beq_eq_false_iff_ne]
  omega

/-- What a repetition collects does not depend on the value of its last state. -/
theorem collected_advance (bounds : Bounds) (s : State) (a : Value) (count : Nat)
    (values : List Value) :
    collected bounds (s.advance 0 a) count values = collected bounds s count values := by
  rw [← State.withValue_eq_advance]
  rfl

/-- A repetition with enough fuel collects what the readings one after another give, as
    long as its condition holds. -/
theorem Reads.repeatFrom (hp : p.Reads bound f r) (hr : r.Consuming) (bounds : Bounds)
    {condition : Option (Callback Text Bool)} {goesOn : Text → Bool}
    (hask : ∀ s, wantsMore condition s = pure (goesOn s.rest)) (carried : Value) (fuel : Nat)
    (s : State) (hfuel : s.rest.length < fuel) (hs : s.rest.length < bound) (count : Nat)
    (values : List Value) :
    repeatFrom p bounds condition carried fuel s count values
      = pure (collected bounds
          (s.advance ((r.provided goesOn).collect bounds count s.rest).1 .none)
          (count + ((r.provided goesOn).collect bounds count s.rest).2.length)
          ((((r.provided goesOn).collect bounds count s.rest).2.map f).reverse ++ values)) := by
  -- On the fuel, with the three questions in the order in which the loop asks them.
  induction fuel generalizing s count values with
  | zero => exact absurd hfuel (Nat.not_lt_zero _)
  | succ fuel ih =>
    rw [Action.repeatFrom, State.atEnd]
    rcases hrest : s.rest with _ | ⟨c, rest⟩
    · rw [Reading.collect]
      simp only [List.isEmpty_nil, Bool.true_or, if_true, List.map_nil, List.reverse_nil,
        List.nil_append, List.length_nil, Nat.add_zero, collected_advance]
    · rw [Reading.collect]
      simp only [List.isEmpty_cons, Bool.false_or]
      by_cases hreached : bounds.reached count = true
      · simp only [hreached, if_true, List.map_nil, List.reverse_nil, List.nil_append,
          List.length_nil, Nat.add_zero, collected_advance]
      by_cases hgoes : goesOn (c :: rest) = true
      · have hlast := hp (s.withValue carried) hs
        simp only [hreached, if_false, hask, Reading.provided, hgoes, pure_bind, if_true, hlast,
          State.withValue_rest, hrest, Bool.false_eq_true]
        rcases hmatch : r (c :: rest) with _ | ⟨n, a⟩
        · simp only [Option.map_none, List.map_nil, List.reverse_nil, List.nil_append,
            List.length_nil, Nat.add_zero, collected_advance]
        · -- The reading has taken something, so the guard against standing still lets it pass.
          obtain ⟨k, rfl, -⟩ := hr.match_cons hmatch
          have hnext := advance_succ_rest hrest k (f a)
          have hlen := length_drop_lt_rest hrest k
          have h := ih (s.advance (k + 1) (f a)) (by rw [hnext]; omega) (by rw [hnext]; omega)
            (count + 1) (f a :: values)
          rw [hnext] at h
          simp only [Option.map_some, State.withValue_advance, State.advance_pos,
            pos_add_succ_beq, Bool.and_false, if_false, State.advance_value, h,
            State.advance_advance, List.length_cons, List.map_cons, List.reverse_cons,
            List.append_assoc, List.singleton_append, Bool.false_eq_true]
          rw [Nat.add_assoc count, Nat.add_comm 1]
      · simp only [hreached, if_false, hask, Reading.provided, hgoes, hrest, pure_bind,
          List.map_nil, List.reverse_nil, List.nil_append, List.length_nil, Nat.add_zero,
          collected_advance, Bool.false_eq_true]

/-- A repetition reads like its element, wherever its condition holds. -/
theorem Reads.many_provided (hp : p.Reads bound f r) (hr : r.Consuming) (bounds : Bounds)
    {condition : Option (Callback Text Bool)} {goesOn : Text → Bool}
    (hask : ∀ s, wantsMore condition s = pure (goesOn s.rest)) {fuel : Nat}
    (hfuel : bound ≤ fuel) :
    (p.many bounds condition fuel).Reads bound (fun as => .list (as.map f))
      ((r.provided goesOn).many bounds) := by
  intro s hs
  have hloop :=
    hp.repeatFrom hr bounds hask s.value fuel s (Nat.lt_of_lt_of_le hs hfuel) hs 0 []
  rw [Action.many, hloop, Reading.many, collected, Nat.zero_add]
  dsimp only
  split
  · rfl
  · rw [List.append_nil, List.reverse_reverse]
    rfl

theorem Reads.many (hp : p.Reads bound f r) (hr : r.Consuming) (bounds : Bounds) {fuel : Nat}
    (hfuel : bound ≤ fuel) :
    (p.many bounds none fuel).Reads bound (fun as => .list (as.map f)) (r.many bounds) := by
  have h : (p.many bounds none fuel).Reads bound (fun as => .list (as.map f))
      ((r.provided fun _ => true).many bounds) :=
    hp.many_provided hr bounds (fun _ => rfl) hfuel
  rwa [Reading.provided_true] at h

/-- What a scan gives that has some items behind it and found others. -/
def foundItems (f : α → Value) (s : State) (items : List Value) (x : Nat × List α) :
    Option State :=
  let all := items.reverse ++ x.2.map f
  if all.isEmpty then none else some (s.advance x.1 (.list all))

section Scans

variable {ofRun : Callback Text Value} {run : Text → α}
  (hrun : ∀ t, call ofRun t = pure (f (run t)))
include hrun

/-- Converting the run behind puts its item, if there is one, before the items behind. -/
theorem flush_eq (t : Text) (items : List Value) :
    flush ofRun t items = pure (((Reading.close run t.reverse).map f).reverse ++ items) := by
  unfold flush Reading.close
  rw [List.isEmpty_reverse]
  split
  · rfl
  · rw [hrun, pure_bind]
    rfl

theorem scanned_eq (s : State) (t : Text) (items : List Value) :
    scanned ofRun s t items
      = pure (foundItems f s items (0, Reading.close run t.reverse)) := by
  rw [scanned, flush_eq hrun, pure_bind, foundItems]
  simp only [List.reverse_append, List.reverse_reverse, List.isEmpty_iff,
    List.append_eq_nil_iff, List.reverse_eq_nil_iff, State.withValue_eq_advance, and_comm]

/-- A scan with enough fuel finds the items of the readings and the runs between them. -/
theorem Reads.scanFrom (hp : p.Reads bound f r) (hr : r.Consuming) (goesOn : Text → Bool)
    (fuel : Nat) (s : State) (hfuel : s.rest.length < fuel) (hs : s.rest.length < bound)
    (t : Text) (items : List Value) :
    scanFrom p ofRun (.total goesOn) fuel s t items
      = pure (foundItems f s items (r.scan run goesOn t.reverse s.rest)) := by
  induction fuel generalizing s t items with
  | zero => exact absurd hfuel (Nat.not_lt_zero _)
  | succ fuel ih =>
    rw [Action.scanFrom]
    rcases hrest : s.rest with _ | ⟨c, rest⟩
    · rw [Reading.scan]
      exact scanned_eq hrun s t items
    · rw [Reading.scan]
      dsimp only
      rw [call_total, pure_bind]
      by_cases hgoes : goesOn (c :: rest) = true
      · have hlast := hp (s.withValue .none) hs
        simp only [hgoes, if_true, hlast, State.withValue_rest, hrest, pure_bind]
        rcases hmatch : r (c :: rest) with _ | ⟨n, a⟩
        · -- One character joins the run.
          have hnext := advance_succ_rest hrest 0 .none
          have hlen := length_drop_lt_rest hrest 0
          have h := ih (s.advance 1 .none) (by rw [hnext]; omega) (by rw [hnext]; omega)
            (c :: t) items
          simp only [Option.map_none, h, hnext, foundItems, State.advance_advance,
            List.reverse_cons, List.drop_zero, Nat.add_comm 1]
        · -- The run is closed, and the scan goes on behind the match.
          obtain ⟨k, rfl, -⟩ := hr.match_cons hmatch
          have hnext := moveTo_succ_rest hrest k .none
          have hlen := length_drop_lt_rest hrest k
          have hmove : ∀ l b, (s.moveTo (s.pos + (k + 1)) .none).advance l b
              = s.advance (k + 1 + l) b := by
            intro l b
            ext
            · simp
            · simp [Nat.add_assoc]
            · simp
          have h := ih (s.moveTo (s.pos + (k + 1)) .none) (by rw [hnext]; omega)
            (by rw [hnext]; omega) []
            (f a :: (((Reading.close run t.reverse).map f).reverse ++ items))
          simp only [Option.map_some, State.withValue_advance, State.advance_pos,
            pos_add_succ_beq, if_false, State.advance_value, flush_eq hrun, pure_bind, h, hnext,
            foundItems, hmove, List.reverse_cons, List.reverse_append, List.reverse_reverse,
            List.append_assoc, List.singleton_append, List.map_append, List.map_cons,
            List.reverse_nil, Bool.false_eq_true]
      · simp only [hgoes, if_false, Bool.false_eq_true]
        exact scanned_eq hrun s t items

theorem Reads.interleave (hp : p.Reads bound f r) (hr : r.Consuming) (goesOn : Text → Bool)
    {fuel : Nat} (hfuel : bound ≤ fuel) :
    (p.interleave ofRun (.total goesOn) fuel).Reads bound (fun as => .list (as.map f))
      (r.interleave run goesOn) := by
  intro s hs
  have hloop := Reads.scanFrom hrun hp hr goesOn fuel s (Nat.lt_of_lt_of_le hs hfuel) hs [] []
  rw [Action.interleave, hloop, Reading.interleave, foundItems]
  simp only [List.reverse_nil, List.nil_append, List.isEmpty_iff, List.map_eq_nil_iff]
  split
  · rfl
  · rfl

end Scans

end Action
end Descent

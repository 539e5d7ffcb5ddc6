/-
  Descent.Proofs.Bracket.Nested

  Groups of brackets by recursive descent.  `Parser.spelledGroup` reads a group part by part:
  other characters, and groups through a link to itself.  It goes forward as far as it can
  and never back, and still it accepts what the search for the closing bracket accepts
  (`Reading.spelledGroup_eq`): a bracket that opens no whole group ends the parts, and the
  closing bracket is missing then.  Every level takes a character, so fuel for every
  character suffices (`reads_followBy`).  The depth that comes out is the peak of the balance
  that the search carries.

  In a session the link is a delayed part.  Seen without cells it stands for the whole
  parser (`withNested_find`), in every session that comes of this one by running it.
-/
import Descent.Proofs.Bracket.Group
import Descent.Proofs.Reading.Scan
import Descent.Proofs.Lazy.Reuse

namespace Descent

/-! ## The parser -/

/-- The depth of a group, from the depths of its parts: one more than the largest of them, and
    one if there are none. -/
def Value.groupDepth? (v : Value) : Option Value := do
  let items ← v.asList?
  let depths ← items.mapM Value.asInt?
  pure (.int (1 + depths.max?.getD 0))

/-- A group of brackets, spelled out.  Its parts are other characters, whose depth is zero,
    and groups, which are read by the inner parser; its value is its depth. -/
def Parser.spelledGroup {σ : Type} (left right : Char) (inner : Parser σ) : Parser σ :=
  thenSkip
    (seq (exactChar [left])
      (map (orElse (map (noneOf [[left], [right]]) (.total fun _ => .int 0)) inner).star
        (.orFault "depth of no numbers" Value.groupDepth?)))
    (exactChar [right])

theorem Parser.spelledGroup_over {σ : Type} {links : σ → Prop} {inner : Parser σ}
    {left right : Char} (h : inner.Over (fun _ => True) links) :
    (Parser.spelledGroup left right inner).Over (fun _ => True) links :=
  have hother := .map (.satisfy (Callback.notes_any _)) (Callback.notes_any _)
  .thenSkip (.seq (.satisfy (Callback.notes_any _))
    (.map (.repeated (.orElse hother h) {}) (Callback.notes_any _)))
    (.satisfy (Callback.notes_any _))

/-- A group whose inner groups are read by the parser that the name is bound to. -/
def Expr.nested (left right : Char) (name : String) : Expr :=
  Parser.spelledGroup left right (.link (.lazyNamed name))

/-! ## Readings -/

namespace Reading

variable {left right : Char}

/-- The depth of a group. -/
def nesting (left right : Char) : Reading Int :=
  (group left right).map fun t => 1 + Text.peak left right t

/-- A part of a group: another character or a group. -/
def groupPart (left right : Char) : Reading Int :=
  ((char fun c => !([[left], [right]] : List Text).contains [c]).map fun _ => 0).orElse
    (nesting left right)

/-- A group, part by part. -/
def spelledGroup (left right : Char) : Reading Int :=
  (((char fun c => [c] == [left]).seq
    (((groupPart left right).many {}).map fun depths => 1 + depths.max?.getD 0)).seq
    (char fun c => [c] == [right])).map fun x => x.1.2

theorem groupPart_consuming (left right : Char) : (groupPart left right).Consuming :=
  ((char_consuming _).map _).orElse ((group_consuming left right).map _)

theorem groupPart_other {c : Char} (hleft : c ≠ left) (hright : c ≠ right) (rest : Text) :
    groupPart left right (c :: rest) = some (1, 0) := by
  have hother : (!([[left], [right]] : List Text).contains [c]) = true := by
    simp [hleft, hright]
  rw [groupPart, orElse, map, char, if_pos hother]
  rfl

theorem groupPart_bracket {c : Char} (h : c = left ∨ c = right) (rest : Text) :
    groupPart left right (c :: rest) = nesting left right (c :: rest) := by
  have hbracket : ¬ (!([[left], [right]] : List Text).contains [c]) = true := by
    rcases h with rfl | rfl <;> simp
  rw [groupPart, orElse, map, char, if_neg hbracket]
  rfl

theorem nesting_eq_some_iff (hne : left ≠ right) {t : Text} {n : Nat} {d : Int} :
    nesting left right t = some (n, d) ↔ ∃ inner after, Text.Balanced left right inner ∧
      t = left :: (inner ++ right :: after) ∧ n = inner.length + 2 ∧
      d = 1 + Text.peak left right inner := by
  rw [nesting, map_eq_some]
  refine ⟨?_, ?_⟩
  · rintro ⟨inner, hgroup, rfl⟩
    obtain ⟨rfl, hinner, after, rfl⟩ := (group_eq_some_iff hne).1 hgroup
    exact ⟨inner, after, hinner, rfl, rfl, rfl⟩
  · rintro ⟨inner, after, hinner, rfl, rfl, rfl⟩
    exact ⟨inner, (group_eq_some_iff hne).2 ⟨rfl, hinner, after, rfl⟩, rfl⟩

theorem groupPart_right (hne : left ≠ right) (rest : Text) :
    groupPart left right (right :: rest) = none := by
  rw [groupPart_bracket (.inr rfl), Option.eq_none_iff_forall_ne_some]
  rintro ⟨n, d⟩ h
  obtain ⟨inner, after, -, heq, -⟩ := (nesting_eq_some_iff hne).1 h
  exact hne (List.cons.inj heq).1.symm

/-- The parts that are taken make a balanced text. -/
theorem balanced_take_collect (hne : left ≠ right) (count : Nat) (t : Text) :
    Text.Balanced left right (t.take ((groupPart left right).collect {} count t).1) := by
  fun_induction collect (groupPart left right) {} count t with
  | case1 => exact .nil
  | case2 => exact .nil
  | case3 count c rest _ n d hmatch k depths hrest ih =>
    rw [hrest] at ih
    rw [Nat.add_right_comm, List.take_succ_cons]
    by_cases hbracket : c = left ∨ c = right
    · rw [groupPart_bracket hbracket] at hmatch
      obtain ⟨inner, after, hinner, heq, hn, -⟩ := (nesting_eq_some_iff hne).1 hmatch
      obtain ⟨rfl, rfl⟩ := List.cons.inj heq
      obtain rfl : n = inner.length + 1 := Nat.succ.inj hn
      -- Behind the group stand the parts that were taken after it.
      have htake : (inner ++ right :: after).take (inner.length + 1 + k)
          = inner ++ right :: after.take k := by
        rw [Nat.add_assoc, List.take_length_add_append, Nat.add_comm 1, List.take_succ_cons]
      rw [List.drop_length_add_append, List.drop_one, List.tail_cons] at ih
      rw [htake]
      exact .group hinner ih
    · rw [not_or] at hbracket
      rw [groupPart_other hbracket.1 hbracket.2] at hmatch
      cases hmatch
      rw [Nat.zero_add]
      exact .char hbracket.1 hbracket.2 ih
  | case4 => exact .nil

theorem max?_getD_cons {d : Int} (hd : 0 ≤ d) (ds : List Int) :
    (d :: ds).max?.getD 0 = max d (ds.max?.getD 0) := by
  rw [List.max?_cons, Option.getD_some]
  cases ds.max? with
  | none => exact (max_eq_left hd).symm
  | some e => rfl

/-- A balanced text before a closing bracket is taken whole, part by part, and its peak is the
    largest depth of the parts. -/
theorem collect_balanced (hne : left ≠ right) {t : Text} (h : Text.Balanced left right t)
    (count : Nat) (after : Text) : ∃ depths : List Int,
      (groupPart left right).collect {} count (t ++ right :: after) = (t.length, depths) ∧
      depths.max?.getD 0 = Text.peak left right t := by
  have hreached : ∀ count, Bounds.reached {} count = false := fun _ => rfl
  induction h generalizing count after with
  | nil => exact ⟨[], collect_cons_stop (groupPart_right hne after) {} count, rfl⟩
  | @char c t hleft hright _ ih =>
    obtain ⟨depths, hcollect, hpeak⟩ := ih (count + 1) after
    have hmatch := groupPart_other hleft hright (t ++ right :: after)
    refine ⟨0 :: depths, ?_, ?_⟩
    · rw [List.cons_append, collect_cons_match (hreached count) hmatch, List.drop_zero, hcollect,
        List.length_cons, Nat.zero_add, Nat.add_comm]
    · rw [max?_getD_cons (Int.le_refl 0), hpeak, Text.peak_cons, Text.weight_other hleft hright,
        Int.zero_add]
  | @group inner t hinner _ _ ih =>
    obtain ⟨depths, hcollect, hpeak⟩ := ih (count + 1) after
    have hmatch : groupPart left right (left :: (inner ++ right :: (t ++ right :: after)))
        = some (inner.length + 1 + 1, 1 + Text.peak left right inner) := by
      rw [groupPart_bracket (.inl rfl)]
      exact (nesting_eq_some_iff hne).2 ⟨inner, t ++ right :: after, hinner, rfl, rfl, rfl⟩
    -- A group counts one more than what is inside it.
    have hnonneg := Text.peak_nonneg left right inner
    refine ⟨(1 + Text.peak left right inner) :: depths, ?_, ?_⟩
    · rw [List.cons_append, List.append_assoc, List.cons_append,
        collect_cons_match (hreached count) hmatch, List.drop_length_add_append, List.drop_one,
        List.tail_cons, hcollect]
      simp only [List.length_cons, List.length_append, Prod.mk.injEq, and_true]
      omega
    · rw [max?_getD_cons (by omega), hpeak, hinner.peak_group hne]

/-- Going through a group part by part comes to the same end as counting brackets. -/
theorem spelledGroup_eq (hne : left ≠ right) : spelledGroup left right = nesting left right := by
  have his : ∀ c d : Char, ([c] == [d]) = true ↔ c = d := by simp
  funext t
  refine Option.ext fun ⟨n, d⟩ => ?_
  rw [spelledGroup, map_eq_some, nesting_eq_some_iff hne]
  refine ⟨?_, ?_⟩
  · rintro ⟨⟨⟨c, d⟩, c'⟩, h, rfl⟩
    obtain ⟨k, l, hparts, hclose, rfl⟩ := seq_eq_some.1 h
    obtain ⟨j, i, hopen, hmany, rfl⟩ := seq_eq_some.1 hparts
    obtain ⟨rfl, hc, rest, rfl⟩ := char_eq_some.1 hopen
    obtain ⟨rfl, hc', after, hafter⟩ := char_eq_some.1 hclose
    obtain ⟨depths, hmany, rfl⟩ := map_eq_some.1 hmany
    obtain rfl := (his _ _).1 hc
    obtain rfl := (his _ _).1 hc'
    obtain ⟨hcollect, -⟩ := many_eq_some.1 hmany
    rw [List.drop_one, List.tail_cons] at hcollect
    rw [Nat.add_comm 1, List.drop_succ_cons] at hafter
    have hinner := balanced_take_collect hne 0 rest
    rw [hcollect] at hinner
    have hrest : rest = rest.take i ++ c' :: after := by rw [← hafter, List.take_append_drop]
    have hlength : (rest.take i).length = i := by
      have hle := congrArg List.length hafter
      rw [List.length_drop, List.length_cons] at hle
      exact List.length_take_of_le (by omega)
    -- What was taken is balanced, so it is known what was collected.
    obtain ⟨depths', hcollect', hpeak⟩ := collect_balanced hne hinner 0 after
    rw [← hrest, hcollect] at hcollect'
    obtain rfl : depths = depths' := (Prod.mk.inj hcollect').2
    exact ⟨rest.take i, after, hinner, by rw [← hrest], by rw [hlength]; omega, by rw [hpeak]⟩
  · rintro ⟨inner, after, hinner, rfl, rfl, rfl⟩
    obtain ⟨depths, hcollect, hpeak⟩ := collect_balanced hne hinner 0 after
    have hmany : (groupPart left right).many {} (inner ++ right :: after)
        = some (inner.length, depths) := many_eq_some.2 ⟨hcollect, rfl⟩
    refine ⟨((left, 1 + Text.peak left right inner), right), seq_eq_some.2
      ⟨1 + inner.length, 1, seq_eq_some.2 ⟨1, inner.length, ?_, ?_, rfl⟩, ?_, by omega⟩, rfl⟩
    · exact char_eq_some.2 ⟨rfl, (his _ _).2 rfl, _, rfl⟩
    · exact map_eq_some.2 ⟨depths, hmany, by rw [hpeak]⟩
    · refine char_eq_some.2 ⟨rfl, (his _ _).2 rfl, after, ?_⟩
      rw [Nat.add_comm 1, List.drop_succ_cons, List.drop_left]

end Reading

/-! ## What the parser does -/

namespace Action

open Run

theorem groupDepth?_ints (ds : List Int) :
    Value.groupDepth? (.list (ds.map .int)) = some (.int (1 + ds.max?.getD 0)) := by
  have hints : (ds.map Value.int).mapM Value.asInt? = some ds := by
    rw [List.mapM_map]
    exact List.mapM_pure.trans (congrArg some (List.map_id ds))
  rw [Value.groupDepth?, Value.asList?, Option.bind_eq_bind, Option.bind_some, hints]
  rfl

variable {σ : Type} {left right : Char} {target : σ}

/-- If the link reads groups, so does the parser over it, on texts longer by one character. -/
theorem reads_spelledGroup (hne : left ≠ right) {follow : σ → Action} {fuel : Nat}
    (hlink : (follow target).Reads fuel .int (.nesting left right)) :
    ((Parser.spelledGroup left right (.link target)).act follow fuel).Reads (fuel + 1) .int
      (.nesting left right) := by
  have hother : Reads (map (satisfy (.total fun c => !([[left], [right]] : List Text).contains [c]))
      (.total fun _ => .int 0)) fuel .int ((Reading.char _).map fun _ => 0) :=
    Reads.to_map ((reads_satisfy _).mapValue fun _ => rfl)
  have hparts := (hother.orElse hlink).many (Reading.groupPart_consuming left right) {}
    (Nat.le_refl fuel)
  have hdepth : Reads (map _ (.orFault "depth of no numbers" Value.groupDepth?)) fuel .int
      (((Reading.groupPart left right).many {}).map fun depths => 1 + depths.max?.getD 0) :=
    Reads.to_map (hparts.mapValue fun ds =>
      call_orFault "depth of no numbers" (groupDepth?_ints ds))
  -- The opening bracket has been taken when the parts are read.
  have hshorter : ∀ (t : Text) n c, t.length < fuel + 1 →
      Reading.char (fun c => [c] == [left]) t = some (n, c) → (t.drop n).length < fuel := by
    intro t n c ht hc
    obtain ⟨hpos, hle⟩ := Reading.char_consuming _ _ _ _ hc
    rw [List.length_drop]
    omega
  rw [← Reading.spelledGroup_eq hne]
  exact Reads.to_map (((reads_satisfy _).seq_left hshorter hdepth).thenSkip (reads_satisfy _))

/-- A link that stands for a group over the link itself reads groups, as far as the fuel
    goes. -/
theorem reads_followBy (hne : left ≠ right) {find : σ → Run (Parser σ)}
    (hfind : ∀ m, find target m = .ok (.spelledGroup left right (.link target)) m) (n : Nat) :
    (followBy find n target).Reads n .int (.nesting left right) := by
  induction n with
  | zero => exact fun s hs => absurd hs (Nat.not_lt_zero _)
  | succ n ih =>
    intro s hs
    funext m
    rw [followBy_of_ok (hfind m)]
    exact congrFun (reads_spelledGroup hne ih s hs) m

end Action

/-! ## In a session -/

namespace Base

variable {b : Base fun _ => True} {left right : Char} {o : Origin}

/-- A group over an origin that stands for it reads groups, whatever the state. -/
theorem alone_spelledGroup (hne : left ≠ right)
    (hfind : ∀ m, b.find o m = .ok (.spelledGroup left right (.link o)) m) (s : State) :
    b.alone (.spelledGroup left right (.link o)) s
      = .ok ((Reading.nesting left right s.rest).map fun x => s.advance x.1 (.int x.2))
          ⟨#[], []⟩ := by
  obtain ⟨n, hbudget, hn⟩ := Parser.length_lt_budget s
  have hreads := Action.reads_spelledGroup hne
    (Action.reads_followBy hne hfind (Parser.budget s)) s (by omega)
  exact congrFun hreads ⟨#[], []⟩

end Base

namespace Session

variable {σ : Session} {bound : Nat} {left right : Char} {name : String}

/-- The session in which groups have been bound to a name: a delayed part has been added, and
    the inner groups are read through it. -/
def withNested (σ : Session) (left right : Char) (name : String) : Session :=
  { σ with
    names := (name, .spelledGroup left right (.link (.cell σ.cells.size))) :: σ.names
    cells := σ.cells.push ⟨.named name, none⟩ }

theorem define_nested (σ : Session) (left right : Char) (name : String) :
    σ.define name (.nested left right name) = .ok (σ.withNested left right name) := rfl

theorem withNested_cell (σ : Session) (left right : Char) (name : String) :
    (σ.withNested left right name).cells[σ.cells.size]? = some ⟨.named name, none⟩ :=
  Array.getElem?_push_size

theorem withNested_link (σ : Session) (left right : Char) (name : String) :
    Ref.Below (σ.withNested left right name).cells.size (.cell σ.cells.size) :=
  (Array.getElem?_eq_some_iff.1 (σ.withNested_cell left right name)).1

theorem withNested_over (h : σ.Over (fun _ => True) bound) (left right : Char) (name : String) :
    (σ.withNested left right name).Over (fun _ => True) bound := by
  have hext : σ.cells.Extended (fun _ => True) bound (σ.withNested left right name).cells :=
    .push (.named name)
  have hlink := σ.withNested_link left right name
  exact {
    bound_le := Nat.le_trans h.bound_le hext.size_le
    names := .cons (Parser.spelledGroup_over (.link hlink)) (h.names.mono hext.size_le) name
    rules := h.rules.mono hext.size_le
    cells := h.cells.extended hext }

/-- What has been bound stands for a group over what the delayed part stands for. -/
theorem withNested_denotes (h : (σ.withNested left right name).Over (fun _ => True) bound) :
    h.base.Denotes (σ.withNested left right name).cells
      (.spelledGroup left right (.link (.cell σ.cells.size)))
      (.spelledGroup left right (.link (.delayed (.named name)))) := by
  have hcell := σ.withNested_cell left right name
  refine ⟨Parser.spelledGroup_over (.link (σ.withNested_link left right name)), ?_⟩
  rw [← Cells.origin_delayed (Cells.builtAt_of hcell) hcell]
  rfl

theorem withNested_find (h : (σ.withNested left right name).Over (fun _ => True) bound)
    (m : Memory) : h.base.find (.delayed (.named name)) m
      = .ok (.spelledGroup left right (.link (.delayed (.named name)))) m := by
  have hlookup : h.base.env.names.lookup name
      = some (.spelledGroup left right (.link (.cell σ.cells.size))) := List.lookup_cons_self
  have hexpand : Thunk.expand h.base.env.names h.base.cells (.named name)
      = .ok (.spelledGroup left right (.link (.delayed (.named name)))) := by
    have hdenotes := (withNested_denotes h).eq
    simp only [Thunk.expand, Link.expand, Link.build, Build.expand, Build.named, hlookup]
    rw [← hdenotes]
    rfl
  simp only [Base.find, hexpand]
  rfl

/-- Bind the group that is spelled out to a name, in any session, apply it to any states, and
    then to one more.  There it does what the search for the closing bracket does: either
    neither of them matches, or both end behind the same balanced text and its brackets.  The
    value is then the largest balance that is reached in the group, and this is the balance
    that the search carries: behind a start of the content it has that many groups open. -/
theorem nested_agrees_bracketed (hσ : σ.Over (fun _ => True) bound) (hne : left ≠ right)
    (name : String) : ∃ p σ₁, σ.define name (.nested left right name) = .ok σ₁ ∧
      σ₁.names.lookup name = some p ∧ ∀ (earlier : List State) (s : State),
      let σ₂ := (σ₁.applyEach p earlier).2
      let search := (σ₂.applyTo (.bracketed left right) s).1.answer
      let spelled := (σ₂.applyTo p s).1.answer
      (search = .failed ∧ spelled = .failed) ∨
      ∃ (t tail : Text) (depth : Int), s.rest = left :: (t ++ right :: tail) ∧
        search = .reached (s.advance (t.length + 2) (.str t)) ∧
        spelled = .reached (s.advance (t.length + 2) (.int depth)) ∧
        IsGreatest {d | ∃ u, u <+: left :: (t ++ [right]) ∧ Text.balance left right u = d} depth ∧
        ∀ u v, u ++ v = t → Text.closing? left right (t ++ right :: tail)
          = Text.closingFrom left right (Text.balance left right (left :: u)).toNat u.length
              (v ++ right :: tail) := by
  have hσ₁ := withNested_over hσ left right name
  refine ⟨_, _, define_nested σ left right name, List.lookup_cons_self, fun earlier s => ?_⟩
  have hp := withNested_denotes hσ₁
  intro σ₂ search spelled
  -- Whatever has happened before, the parser shows what it does without cells.
  have hfits := (hσ₁.fits.applyEach hp earlier).2
  have hp₂ := hp.mono hfits.sound.grown
  have hspelled : spelled = (Report.ofRun (.ok ((Reading.nesting left right s.rest).map
      fun x => s.advance x.1 (.int x.2)) ⟨#[], []⟩)).answer := by
    have hshown := congrArg Report.answer (hfits.applyTo hp₂ s).1
    rw [Base.alone_spelledGroup hne (withNested_find hσ₁)] at hshown
    exact hshown
  have hsearch : search = (Report.ofRun (.ok ((Reading.group left right s.rest).map
      fun x => s.advance x.1 (.str x.2)) ⟨σ₂.cells, []⟩)).answer := by
    show (σ₂.applyTo (.bracketed left right) s).1.answer = _
    rw [applyTo_eq, Parser.apply, Parser.eval_bracketed]
  rw [hspelled, hsearch, Reading.nesting, Reading.map]
  cases hgroup : Reading.group left right s.rest with
  | none => exact .inl ⟨rfl, rfl⟩
  | some x =>
    obtain ⟨n, t⟩ := x
    obtain ⟨rfl, ht, tail, hrest⟩ := (Reading.group_eq_some_iff hne).1 hgroup
    have hpeak : Text.peak left right (left :: (t ++ [right])) = 1 + Text.peak left right t := by
      have hnonneg := Text.peak_nonneg left right t
      rw [ht.peak_group hne, Text.peak_nil, max_eq_left (by omega)]
    refine .inr ⟨t, tail, 1 + Text.peak left right t, hrest, rfl, rfl, ?_, ?_⟩
    · rw [← hpeak]
      exact Text.isGreatest_peak left right _
    · rintro u v rfl
      rw [Text.balance_cons, Text.weight_left]
      exact ht.closing?_append hne (right :: tail)

/-- Behind a group that was not closed, one in which the deepest of four groups stands in two
    others. -/
theorem nested_agrees_bracketed_unclosed : Sample.session.Over (fun _ => True) 2 ∧ '(' ≠ ')' ∧
    ∃ p σ₁, Sample.session.define "group" (.nested '(' ')' "group") = .ok σ₁ ∧
      σ₁.names.lookup "group" = some p ∧
      ((σ₁.applyEach p [State.start "((".toList]).2.applyTo p
          (State.start "(()(()))x".toList)).1.answer
        = .reached (State.make "(()(()))x".toList 8 (.int 3)) := by
  have hne : '(' ≠ ')' := by decide
  have hgroup : Reading.group '(' ')' (State.start "(()(()))x".toList).rest
      = some (8, "()(())".toList) := by decide
  have hpeak : Text.peak '(' ')' ('(' :: ("()(())".toList ++ [')'])) = 3 := by decide
  obtain ⟨p, σ₁, hdefine, hlookup, hruns⟩ :=
    nested_agrees_bracketed (Sample.session_over _) hne "group"
  refine ⟨Sample.session_over _, hne, p, σ₁, hdefine, hlookup, ?_⟩
  obtain ⟨hsearch, -⟩ | ⟨t, tail, depth, -, hsearch, hspelled, hdepth, -⟩ :=
    hruns [State.start "((".toList] (State.start "(()(()))x".toList)
  · rw [applyTo_eq, Parser.apply, Parser.eval_bracketed, hgroup] at hsearch
    cases hsearch
  · rw [applyTo_eq, Parser.apply, Parser.eval_bracketed, hgroup] at hsearch
    injection hsearch with hstate
    obtain rfl : "()(())".toList = t := Value.str.inj (congrArg State.value hstate)
    rw [hspelled, hdepth.unique (Text.isGreatest_peak '(' ')' _), hpeak]
    rfl

end Session
end Descent

/-
  Descent.Proofs.Lazy.Over

  What parsers refer to and what they leave in the trace.  `Parser.Over entry links` holds
  of every parser, steps of the user's own making included, whose links are of one kind
  and whose callbacks write entries of one kind.  The cells that may be referred to are
  those below a bound; the bound of built parsers grows with the memory, that of
  expressions does not, since what an expression refers to was there when it was written.
-/
import Descent.Session

namespace Descent

/-! ## Parsers -/

/-- Whether the entry is the call of a thunk. -/
def Entry.isForced : Entry → Bool
  | forced _ => true
  | _ => false

/-- A call of the callback writes such entries only. -/
def Callback.Notes {α β : Type} (entry : Entry → Prop) (k : Callback α β) : Prop :=
  ∀ a, ∀ e ∈ k.record a, entry e

theorem Callback.notes_any {α β : Type} (k : Callback α β) : k.Notes fun _ => True :=
  fun _ _ _ => trivial

theorem Callback.Notes.some {α β : Type} {entry : Entry → Prop} {k : Callback α β}
    (h : k.Notes entry) : ∀ k' ∈ some k, k'.Notes entry := by
  rintro k' ⟨⟩
  exact h

/-- The links of the parser are of one kind, and its callbacks write entries of one kind. -/
inductive Parser.Over {σ : Type} (entry : Entry → Prop) (links : σ → Prop) : Parser σ → Prop
  | satisfy {test : Callback Char Bool} : test.Notes entry → Over entry links (.satisfy test)
  | literal (text : Text) : Over entry links (.literal text)
  | upTo (delimiter : Text) : Over entry links (.upTo delimiter)
  | bracketed (left right : Char) : Over entry links (.bracketed left right)
  | remaining : Over entry links .remaining
  | endOfInput : Over entry links .endOfInput
  | constant (value : Value) : Over entry links (.constant value)
  | fail : Over entry links .fail
  | lookAhead {condition : Callback Text Bool} :
      condition.Notes entry → Over entry links (.lookAhead condition)
  | checkpoint (label : String) : Over entry links (.checkpoint label)
  | link {target : σ} : links target → Over entry links (.link target)
  | field {p : Parser σ} : Over entry links p → ∀ key, Over entry links (.field p key)
  | merge {p q : Parser σ} :
      Over entry links p → Over entry links q → Over entry links (.merge p q)
  | mergeInside {p q : Parser σ} :
      Over entry links p → Over entry links q → ∀ key, Over entry links (.mergeInside p q key)
  | seq {p q : Parser σ} : Over entry links p → Over entry links q → Over entry links (.seq p q)
  | seqInside {p q : Parser σ} :
      Over entry links p → Over entry links q → ∀ key, Over entry links (.seqInside p q key)
  | thenSkip {p q : Parser σ} :
      Over entry links p → Over entry links q → Over entry links (.thenSkip p q)
  | orElse {p q : Parser σ} :
      Over entry links p → Over entry links q → Over entry links (.orElse p q)
  | between {o c p : Parser σ} : Over entry links o → Over entry links c → Over entry links p →
      Over entry links (.between o c p)
  | many {p : Parser σ} {condition : Option (Callback Text Bool)} : Over entry links p →
      ∀ bounds, (∀ k ∈ condition, k.Notes entry) → Over entry links (.many p bounds condition)
  | map {p : Parser σ} {f : Callback Value Value} :
      Over entry links p → f.Notes entry → Over entry links (.map p f)
  | orDefault {p : Parser σ} : Over entry links p → ∀ value, Over entry links (.orDefault p value)
  | traced {p : Parser σ} : Over entry links p → ∀ label, Over entry links (.traced p label)
  | interleave {p : Parser σ} {ofRun : Callback Text Value} {condition : Callback Text Bool} :
      Over entry links p → ofRun.Notes entry → condition.Notes entry →
      Over entry links (.interleave p ofRun condition)
  | custom (step : State → Option State) : Over entry links (.custom step)
  | probe {p : Parser σ} : Over entry links p → Over entry links (.probe p)

/-- A repetition without a condition. -/
theorem Parser.Over.repeated {σ : Type} {entry : Entry → Prop} {links : σ → Prop} {p : Parser σ}
    (hp : p.Over entry links) (bounds : Bounds) : Over entry links (.many p bounds none) :=
  .many hp bounds fun _ h => absurd h (Option.not_mem_none _)

theorem Parser.Over.mono {σ : Type} {entry : Entry → Prop} {links links' : σ → Prop}
    (h : ∀ l, links l → links' l) {p : Parser σ} (hp : p.Over entry links) :
    p.Over entry links' := by
  induction hp with
  | satisfy ht => exact .satisfy ht
  | literal text => exact .literal text
  | upTo delimiter => exact .upTo delimiter
  | bracketed left right => exact .bracketed left right
  | remaining => exact .remaining
  | endOfInput => exact .endOfInput
  | constant value => exact .constant value
  | fail => exact .fail
  | lookAhead hc => exact .lookAhead hc
  | checkpoint label => exact .checkpoint label
  | link hl => exact .link (h _ hl)
  | field _ key ih => exact .field ih key
  | merge _ _ ihp ihq => exact .merge ihp ihq
  | mergeInside _ _ key ihp ihq => exact .mergeInside ihp ihq key
  | seq _ _ ihp ihq => exact .seq ihp ihq
  | seqInside _ _ key ihp ihq => exact .seqInside ihp ihq key
  | thenSkip _ _ ihp ihq => exact .thenSkip ihp ihq
  | orElse _ _ ihp ihq => exact .orElse ihp ihq
  | between _ _ _ iho ihc ihp => exact .between iho ihc ihp
  | many _ bounds hc ih => exact .many ih bounds hc
  | map _ hf ih => exact .map ih hf
  | orDefault _ value ih => exact .orDefault ih value
  | traced _ label ih => exact .traced ih label
  | interleave _ hr hc ih => exact .interleave ih hr hc
  | custom step => exact .custom step
  | probe _ ih => exact .probe ih

/-- What holds of an alternative if it holds of both sides, and of a parser that never matches,
    holds of a choice if it holds of all its parsers. -/
theorem Parser.choice_iff {σ : Type} {holds : Parser σ → Prop} (hfail : holds .fail)
    (horElse : ∀ p q, holds (.orElse p q) ↔ holds p ∧ holds q) {ps : List (Parser σ)} :
    holds (choice ps) ↔ ∀ p ∈ ps, holds p := by
  have hfoldl : ∀ (rest : List (Parser σ)) (p : Parser σ),
      holds (rest.foldl orElse p) ↔ holds p ∧ ∀ q ∈ rest, holds q := by
    intro rest
    induction rest with
    | nil => simp
    | cons q rest ih =>
      intro p
      rw [List.foldl_cons, ih, horElse, List.forall_mem_cons, and_assoc]
  cases ps with
  | nil => exact ⟨fun _ _ hp => absurd hp List.not_mem_nil, fun _ => hfail⟩
  | cons p rest => rw [choice, hfoldl, List.forall_mem_cons]

/-! ## What a memory holds -/

/-- The link leads to a rule, or to a cell below the bound. -/
def Ref.Below (bound : Nat) : Ref → Prop
  | cell n => n < bound
  | rule _ => True

instance (bound : Nat) : DecidablePred (Ref.Below bound)
  | .cell n => inferInstanceAs (Decidable (n < bound))
  | .rule _ => inferInstanceAs (Decidable True)

theorem Ref.Below.mono {bound bound' : Nat} (h : bound ≤ bound') (l : Ref) (hl : l.Below bound) :
    l.Below bound' := by
  cases l with
  | cell n => exact Nat.lt_of_lt_of_le hl h
  | rule name => trivial

/-- What a link of an expression refers to. -/
inductive Link.Over (entry : Entry → Prop) (refs : Ref → Prop) : Link → Prop
  | named (name : String) : Over entry refs (.named name)
  | lazyNamed (name : String) : Over entry refs (.lazyNamed name)
  | lazyExpr {e : Expr} : Parser.Over entry (Over entry refs) e → Over entry refs (.lazyExpr e)
  | brackets (left right : Text) : Over entry refs (.brackets left right)
  | ready {p : Parser Ref} : p.Over entry refs → Over entry refs (.ready p)

/-- What an expression refers to. -/
abbrev Expr.Over (entry : Entry → Prop) (refs : Ref → Prop) (e : Expr) : Prop :=
  Parser.Over entry (Link.Over entry refs) e

/-- What is left to do refers to. -/
inductive Thunk.Over (entry : Entry → Prop) (refs : Ref → Prop) : Thunk → Prop
  | named (name : String) : Over entry refs (.named name)
  | expr {e : Expr} : e.Over entry refs → Over entry refs (.expr e)

/-- Named parsers refer to cells below the bound. -/
def Names.Over (entry : Entry → Prop) (bound : Nat) (names : Names) : Prop :=
  ∀ name p, names.lookup name = some p → p.Over entry (Ref.Below bound)

theorem Names.Over.mono {entry : Entry → Prop} {bound bound' : Nat} (h : bound ≤ bound')
    {names : Names} (hn : names.Over entry bound) : names.Over entry bound' :=
  fun name p hp => (hn name p hp).mono (Ref.Below.mono h)

theorem Names.Over.nil (entry : Entry → Prop) (bound : Nat) : Names.Over entry bound [] :=
  fun _ _ hp => nomatch hp

theorem Names.Over.cons {entry : Entry → Prop} {bound : Nat} {names : Names} {p : Parser Ref}
    (hp : p.Over entry (Ref.Below bound)) (hn : names.Over entry bound) (name : String) :
    Names.Over entry bound ((name, p) :: names) := by
  intro name' q hq
  rw [List.lookup_cons] at hq
  split at hq
  · cases hq
    exact hp
  · exact hn name' q hq

/-- The delayed parts refer to each other.  What is left to do refers to the cells below
    the bound. -/
structure Cells.Over (entry : Entry → Prop) (bound : Nat) (cells : Cells) : Prop where
  thunk : ∀ (n : Nat) cell, cells[n]? = some cell → cell.thunk.Over entry (Ref.Below bound)
  built : ∀ (n : Nat) cell, cells[n]? = some cell →
    ∀ p ∈ cell.built, p.Over entry (Ref.Below cells.size)

/-- Of delayed parts that have not been built only the thunks are asked. -/
theorem Cells.Over.of_waiting {entry : Entry → Prop} {bound : Nat} {cells : Cells}
    (h : ∀ cell ∈ cells, cell.built = none ∧ cell.thunk.Over entry (Ref.Below bound)) :
    cells.Over entry bound where
  thunk n cell hn := (h cell (Array.mem_of_getElem? hn)).2
  built n cell hn p hp := by
    rw [(h cell (Array.mem_of_getElem? hn)).1] at hp
    cases hp

/-- All parsers of a session refer to cells that exist.  The bound is that of expressions. -/
structure Session.Over (entry : Entry → Prop) (bound : Nat) (σ : Session) : Prop where
  bound_le : bound ≤ σ.cells.size
  names : σ.names.Over entry σ.cells.size
  rules : σ.rules.Over entry σ.cells.size
  cells : σ.cells.Over entry bound

/-! ## Renaming links -/

/-- The parser with other links. -/
def Parser.mapLinks {σ τ : Type} (f : σ → τ) (p : Parser σ) : Parser τ :=
  Id.run (p.bindLinks fun l => pure (.link (f l)))

theorem Parser.mapLinks_congr {σ τ : Type} {entry : Entry → Prop} {links : σ → Prop}
    {f g : σ → τ} (h : ∀ l, links l → f l = g l) {p : Parser σ} (hp : p.Over entry links) :
    p.mapLinks f = p.mapLinks g := by
  unfold mapLinks
  induction hp with
  | link hl => simp only [bindLinks, h _ hl]
  | _ => simp_all only [bindLinks, Id.run_bind, Id.run_pure]

/-- What a parser does with other links is what it did, with the links that it has now. -/
theorem Parser.act_mapLinks {σ τ : Type} (f : σ → τ) (follow : τ → Action) (fuel : Nat)
    (p : Parser σ) : (p.mapLinks f).act follow fuel = p.act (fun l => follow (f l)) fuel := by
  unfold mapLinks
  induction p <;> simp_all only [bindLinks, act, Id.run_bind, Id.run_pure]

end Descent

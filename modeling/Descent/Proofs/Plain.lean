/-
  Descent.Proofs.Plain

  Parsers without steps of the user's own making.  A user may bring along tests,
  conditions and mappings, but a plain parser goes through a text only by the library's
  own combinators.  Building a plain expression gives a plain parser and adds plain
  delayed parts (`Thunk.build_plain`), so a run that starts among plain parsers meets no
  others.
-/
import Descent.Run

namespace Descent

/-! ## Plain parsers -/

/-- The parser is built by the library's combinators alone, over links of such a kind. -/
inductive Parser.PlainOver {σ : Type} (links : σ → Prop) : Parser σ → Prop
  | satisfy (test : Callback Char Bool) : PlainOver links (.satisfy test)
  | literal (text : Text) : PlainOver links (.literal text)
  | upTo (delimiter : Text) : PlainOver links (.upTo delimiter)
  | bracketed (left right : Char) : PlainOver links (.bracketed left right)
  | remaining : PlainOver links .remaining
  | endOfInput : PlainOver links .endOfInput
  | constant (value : Value) : PlainOver links (.constant value)
  | fail : PlainOver links .fail
  | lookAhead (condition : Callback Text Bool) : PlainOver links (.lookAhead condition)
  | checkpoint (label : String) : PlainOver links (.checkpoint label)
  | link {target : σ} : links target → PlainOver links (.link target)
  | field {p : Parser σ} : PlainOver links p → ∀ key, PlainOver links (.field p key)
  | merge {p q : Parser σ} :
      PlainOver links p → PlainOver links q → PlainOver links (.merge p q)
  | mergeInside {p q : Parser σ} :
      PlainOver links p → PlainOver links q → ∀ key, PlainOver links (.mergeInside p q key)
  | seq {p q : Parser σ} : PlainOver links p → PlainOver links q → PlainOver links (.seq p q)
  | seqInside {p q : Parser σ} :
      PlainOver links p → PlainOver links q → ∀ key, PlainOver links (.seqInside p q key)
  | thenSkip {p q : Parser σ} :
      PlainOver links p → PlainOver links q → PlainOver links (.thenSkip p q)
  | orElse {p q : Parser σ} :
      PlainOver links p → PlainOver links q → PlainOver links (.orElse p q)
  | between {o c p : Parser σ} : PlainOver links o → PlainOver links c → PlainOver links p →
      PlainOver links (.between o c p)
  | many {p : Parser σ} :
      PlainOver links p → ∀ bounds condition, PlainOver links (.many p bounds condition)
  | map {p : Parser σ} : PlainOver links p → ∀ f, PlainOver links (.map p f)
  | orDefault {p : Parser σ} : PlainOver links p → ∀ value, PlainOver links (.orDefault p value)
  | traced {p : Parser σ} : PlainOver links p → ∀ label, PlainOver links (.traced p label)
  | interleave {p : Parser σ} :
      PlainOver links p → ∀ ofRun condition, PlainOver links (.interleave p ofRun condition)

/-- A built parser is plain.  What its links stand for is asked of the memory. -/
abbrev Parser.Plain (p : Parser Ref) : Prop := p.PlainOver fun _ => True

/-- A link of an expression leads to plain parsers only. -/
inductive Link.Plain : Link → Prop
  | named (name : String) : Plain (.named name)
  | lazyNamed (name : String) : Plain (.lazyNamed name)
  | lazyExpr {e : Expr} : e.PlainOver Link.Plain → Plain (.lazyExpr e)
  | brackets (left right : Text) : Plain (.brackets left right)
  | ready {p : Parser Ref} : p.Plain → Plain (.ready p)

/-- The expression is plain, and so are the expressions that it delays. -/
abbrev Expr.Plain (e : Expr) : Prop := e.PlainOver Link.Plain

/-- What is left to do leads to a plain parser. -/
inductive Thunk.Plain : Thunk → Prop
  | named (name : String) : Plain (.named name)
  | expr {e : Expr} : e.Plain → Plain (.expr e)

/-- A delayed part is plain before it is built and after. -/
structure Cell.Plain (cell : Cell) : Prop where
  thunk : cell.thunk.Plain
  built : ∀ p ∈ cell.built, p.Plain

/-- All delayed parts are plain. -/
def Cells.Plain (cells : Cells) : Prop := ∀ cell ∈ cells, cell.Plain

/-- All named parsers are plain. -/
def Names.Plain (names : Names) : Prop := ∀ entry ∈ names, entry.2.Plain

/-- Whatever a run can look up is plain. -/
structure Env.Plain (env : Env) : Prop where
  names : env.names.Plain
  rules : env.rules.Plain

theorem Names.Plain.lookup {names : Names} (h : names.Plain) {name : String}
    {p : Parser Ref} (hp : names.lookup name = some p) : p.Plain := by
  obtain ⟨key, hmem⟩ : ∃ key, (key, p) ∈ names := by
    induction names with
    | nil => cases hp
    | cons entry rest ih =>
      rw [List.lookup_cons] at hp
      split at hp
      · cases hp
        exact ⟨entry.1, List.mem_cons_self⟩
      · obtain ⟨key, hmem⟩ := ih (fun e he => h e (List.mem_cons_of_mem _ he)) hp
        exact ⟨key, List.mem_cons_of_mem _ hmem⟩
  exact h _ hmem

/-! ## Building -/

/-- Started with plain delayed parts, a step of building that succeeds leaves them plain
    and gives a parser over such links. -/
def Build.GivesPlain {σ : Type} (links : σ → Prop) (x : Build (Parser σ)) : Prop :=
  ∀ cells, Cells.Plain cells → ∀ p cells', x.run cells = .ok (p, cells') →
    p.PlainOver links ∧ Cells.Plain cells'

namespace Build

variable {σ : Type} {links : σ → Prop}

theorem GivesPlain.pure {p : Parser σ} (hp : p.PlainOver links) :
    GivesPlain links (pure p : Build (Parser σ)) := by
  intro cells hcells p' cells' h
  cases h
  exact ⟨hp, hcells⟩

theorem GivesPlain.throw (f : Fault) : GivesPlain links (throw f : Build (Parser σ)) :=
  fun _ _ _ _ h => nomatch h

theorem GivesPlain.bind {τ : Type} {links' : τ → Prop} {x : Build (Parser σ)}
    {f : Parser σ → Build (Parser τ)} (hx : GivesPlain links x)
    (hf : ∀ p, p.PlainOver links → GivesPlain links' (f p)) :
    GivesPlain links' (x >>= f) := by
  intro cells hcells p' cells' h
  cases hxr : x.run cells with
  | error fault =>
    simp only [StateT.run_bind, hxr] at h
    cases h
  | ok r =>
    simp only [StateT.run_bind, hxr] at h
    obtain ⟨hp, hcells₁⟩ := hx cells hcells r.1 r.2 hxr
    exact hf r.1 hp r.2 hcells₁ p' cells' h

theorem named_plain {names : Names} (hn : names.Plain) (name : String) :
    GivesPlain (fun _ => True) (named names name) := by
  unfold named
  split
  · next p hp => exact .pure (hn.lookup hp)
  · exact .throw _

theorem delay_plain {thunk : Thunk} (h : thunk.Plain) :
    GivesPlain (fun _ => True) (delay thunk) := by
  intro cells hcells p cells' hr
  cases hr
  refine ⟨.link trivial, fun cell hcell => ?_⟩
  rcases Array.mem_push.1 hcell with hold | rfl
  · exact hcells cell hold
  · exact ⟨h, fun _ hp => nomatch hp⟩

theorem brackets_plain (left right : Text) :
    GivesPlain (fun _ => True) (brackets left right) := by
  unfold brackets
  split
  · split
    · exact .throw _
    · exact .pure (.bracketed _ _)
  · exact .throw _

end Build

theorem Link.build_plain {names : Names} (hn : names.Plain) {l : Link} (h : l.Plain) :
    Build.GivesPlain (fun _ => True) (l.build names) := by
  cases h with
  | named name => exact Build.named_plain hn name
  | lazyNamed name => exact Build.delay_plain (.named name)
  | lazyExpr he => exact Build.delay_plain (.expr he)
  | brackets left right => exact Build.brackets_plain left right
  | ready hp => exact .pure hp

/-- Binding the links of a plain parser to plain parsers. -/
theorem Parser.bindLinks_plain {σ τ : Type} {links : σ → Prop} {links' : τ → Prop}
    {resolve : σ → Build (Parser τ)}
    (hr : ∀ l, links l → Build.GivesPlain links' (resolve l)) {p : Parser σ}
    (hp : p.PlainOver links) : Build.GivesPlain links' (p.bindLinks resolve) := by
  induction hp with
  | satisfy test => exact .pure (.satisfy test)
  | literal text => exact .pure (.literal text)
  | upTo delimiter => exact .pure (.upTo delimiter)
  | bracketed left right => exact .pure (.bracketed left right)
  | remaining => exact .pure .remaining
  | endOfInput => exact .pure .endOfInput
  | constant value => exact .pure (.constant value)
  | fail => exact .pure .fail
  | lookAhead condition => exact .pure (.lookAhead condition)
  | checkpoint label => exact .pure (.checkpoint label)
  | link hl => exact hr _ hl
  | field _ key ih => exact .bind ih fun _ hp => .pure (hp.field key)
  | merge _ _ ihp ihq => exact .bind ihp fun _ hp => .bind ihq fun _ hq => .pure (hp.merge hq)
  | mergeInside _ _ key ihp ihq =>
    exact .bind ihp fun _ hp => .bind ihq fun _ hq => .pure (hp.mergeInside hq key)
  | seq _ _ ihp ihq => exact .bind ihp fun _ hp => .bind ihq fun _ hq => .pure (hp.seq hq)
  | seqInside _ _ key ihp ihq =>
    exact .bind ihp fun _ hp => .bind ihq fun _ hq => .pure (hp.seqInside hq key)
  | thenSkip _ _ ihp ihq =>
    exact .bind ihp fun _ hp => .bind ihq fun _ hq => .pure (hp.thenSkip hq)
  | orElse _ _ ihp ihq =>
    exact .bind ihp fun _ hp => .bind ihq fun _ hq => .pure (hp.orElse hq)
  | between _ _ _ iho ihc ihp =>
    exact .bind iho fun _ ho => .bind ihc fun _ hc => .bind ihp fun _ hp =>
      .pure (.between ho hc hp)
  | many _ bounds condition ih =>
    exact .bind ih fun _ hp => .pure (hp.many bounds condition)
  | map _ f ih => exact .bind ih fun _ hp => .pure (hp.map f)
  | orDefault _ value ih => exact .bind ih fun _ hp => .pure (hp.orDefault value)
  | traced _ label ih => exact .bind ih fun _ hp => .pure (hp.traced label)
  | interleave _ ofRun condition ih =>
    exact .bind ih fun _ hp => .pure (hp.interleave ofRun condition)

/-- Building what is delayed gives a plain parser and leaves all delayed parts plain. -/
theorem Thunk.build_plain {names : Names} (hn : names.Plain) {thunk : Thunk}
    (h : thunk.Plain) : Build.GivesPlain (fun _ => True) (thunk.build names) := by
  cases h with
  | named name => exact Build.named_plain hn name
  | expr he => exact Parser.bindLinks_plain (fun _ hl => Link.build_plain hn hl) he

/-! ## A sample -/

namespace Sample

/-- Groups whose content is read by a delayed part. -/
def groups : Parser Ref :=
  .many (.seqInside (.bracketed '(' ')') (.link (.cell 0)) none) {} none

/-- The delayed part: letters, each noted in the trace, and a fault at a digit. -/
def cells : Cells :=
  #[⟨.expr (.many (.satisfy (.test fun c =>
      if c = '0' then .error (.callback "digit") else .ok (c != ' '))) {} none), none⟩]

/-- One of the groups. -/
def group : Parser Ref := .seqInside (.bracketed '(' ')') (.link (.cell 0)) none

theorem group_plain : group.Plain := .seqInside (.bracketed _ _) (.link trivial) _

theorem groups_plain : groups.Plain := .many (.seqInside (.bracketed _ _) (.link trivial) _) _ _

theorem cells_plain : cells.Plain := by
  intro cell h
  obtain rfl := List.mem_singleton.1 (Array.mem_def.1 h)
  exact ⟨.expr (.many (.satisfy _) _ _), fun _ hp => nomatch hp⟩

theorem env_plain : Env.Plain ⟨[], []⟩ where
  names := fun _ h => nomatch h
  rules := fun _ h => nomatch h

end Sample

end Descent

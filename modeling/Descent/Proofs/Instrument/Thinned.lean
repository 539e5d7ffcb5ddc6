/-
  Descent.Proofs.Instrument.Thinned

  Grammars with instruments and without.  An instrument is a parser that only writes
  entries: a checkpoint or a traced parser writes log records, a probe notes the state that
  it is applied to.  `Parser.Thins i p q` says that `q` is `p` with any number of them
  taken out, at any depth; of a parser and a checkpoint in a row the parser is left.  The
  relation is lifted to links, delayed parts, names and sessions, and building keeps it
  (`Thunk.build_thins`): with or without instruments the same delayed parts come in the
  same order, or the same fault.
-/
import Descent.Proofs.Lazy.Over

namespace Descent

/-! ## Instruments -/

/-- Which instruments are meant. -/
structure Instruments where
  /-- Traced parsers and checkpoints. -/
  logs : Bool
  /-- Probes. -/
  probes : Bool

namespace Instruments

/-- Traced parsers and checkpoints, but no probes. -/
def log : Instruments := ⟨true, false⟩

/-- Probes alone. -/
def probe : Instruments := ⟨false, true⟩

/-- Whether the entry is one that such instruments write. -/
def writes (i : Instruments) : Entry → Bool
  | .logged _ => i.logs
  | .probed _ _ => i.probes
  | _ => false

end Instruments

/-- The entries that no such instrument writes. -/
def Trace.without (i : Instruments) (w : Trace) : Trace := w.filter fun e => !i.writes e

theorem Trace.without_cons {i : Instruments} {w w' : Trace} (h : w.without i = w'.without i)
    (e : Entry) : Trace.without i (e :: w) = Trace.without i (e :: w') := by
  unfold without at h ⊢
  rw [List.filter_cons, List.filter_cons, h]

theorem Trace.without_written {i : Instruments} {e : Entry} (he : i.writes e = true) (w : Trace) :
    Trace.without i (e :: w) = w.without i := by
  unfold without
  rw [List.filter_cons_of_neg]
  rw [he]
  exact Bool.false_ne_true

/-! ## Parsers -/

variable {i : Instruments}

/-- The parser is nothing but instruments. -/
inductive Parser.Instrument (i : Instruments) {σ : Type} : Parser σ → Prop
  | checkpoint (label : String) : i.logs = true → Instrument i (.checkpoint label)
  | traced {p : Parser σ} : Instrument i p → ∀ label, i.logs = true → Instrument i (.traced p label)
  | probe {p : Parser σ} : Instrument i p → i.probes = true → Instrument i (.probe p)
  | seq {p q : Parser σ} : Instrument i p → Instrument i q → Instrument i (.seq p q)

/-- The second parser is the first one with instruments taken out, and with links that are
    related like this. -/
inductive Parser.Thins (i : Instruments) {σ τ : Type} (links : σ → τ → Prop) :
    Parser σ → Parser τ → Prop
  | satisfy (test : Callback Char Bool) : Thins i links (.satisfy test) (.satisfy test)
  | literal (text : Text) : Thins i links (.literal text) (.literal text)
  | upTo (delimiter : Text) : Thins i links (.upTo delimiter) (.upTo delimiter)
  | bracketed (left right : Char) :
      Thins i links (.bracketed left right) (.bracketed left right)
  | remaining : Thins i links .remaining .remaining
  | endOfInput : Thins i links .endOfInput .endOfInput
  | constant (value : Value) : Thins i links (.constant value) (.constant value)
  | fail : Thins i links .fail .fail
  | lookAhead (condition : Callback Text Bool) :
      Thins i links (.lookAhead condition) (.lookAhead condition)
  | checkpoint (label : String) : Thins i links (.checkpoint label) (.checkpoint label)
  | link {l : σ} {l' : τ} : links l l' → Thins i links (.link l) (.link l')
  | field {p p'} : Thins i links p p' → ∀ key, Thins i links (.field p key) (.field p' key)
  | merge {p p' q q'} : Thins i links p p' → Thins i links q q' →
      Thins i links (.merge p q) (.merge p' q')
  | mergeInside {p p' q q'} : Thins i links p p' → Thins i links q q' →
      ∀ key, Thins i links (.mergeInside p q key) (.mergeInside p' q' key)
  | seq {p p' q q'} : Thins i links p p' → Thins i links q q' →
      Thins i links (.seq p q) (.seq p' q')
  | seqInside {p p' q q'} : Thins i links p p' → Thins i links q q' →
      ∀ key, Thins i links (.seqInside p q key) (.seqInside p' q' key)
  | thenSkip {p p' q q'} : Thins i links p p' → Thins i links q q' →
      Thins i links (.thenSkip p q) (.thenSkip p' q')
  | orElse {p p' q q'} : Thins i links p p' → Thins i links q q' →
      Thins i links (.orElse p q) (.orElse p' q')
  | between {o o' c c' p p'} : Thins i links o o' → Thins i links c c' → Thins i links p p' →
      Thins i links (.between o c p) (.between o' c' p')
  | many {p p'} : Thins i links p p' → ∀ bounds condition,
      Thins i links (.many p bounds condition) (.many p' bounds condition)
  | map {p p'} : Thins i links p p' → ∀ f, Thins i links (.map p f) (.map p' f)
  | orDefault {p p'} : Thins i links p p' →
      ∀ value, Thins i links (.orDefault p value) (.orDefault p' value)
  | traced {p p'} : Thins i links p p' →
      ∀ label, Thins i links (.traced p label) (.traced p' label)
  | interleave {p p'} : Thins i links p p' → ∀ ofRun condition,
      Thins i links (.interleave p ofRun condition) (.interleave p' ofRun condition)
  | custom (step : State → Option State) : Thins i links (.custom step) (.custom step)
  | probe {p p'} : Thins i links p p' → Thins i links (.probe p) (.probe p')
  -- What is taken out.
  | dropTraced {p p'} : Thins i links p p' →
      ∀ label, i.logs = true → Thins i links (.traced p label) p'
  | dropProbe {p p'} : Thins i links p p' → i.probes = true → Thins i links (.probe p) p'
  | dropFirst {c p p'} : c.Instrument i → Thins i links p p' → Thins i links (.seq c p) p'
  | dropSecond {c p p'} : Thins i links p p' → c.Instrument i → Thins i links (.seq p c) p'

/-- Nothing need be taken out of a parser, if nothing is taken out of its links. -/
theorem Parser.Over.thins {σ : Type} {entry : Entry → Prop} {links : σ → Prop}
    {related : σ → σ → Prop} (h : ∀ l, links l → related l l) {p : Parser σ}
    (hp : p.Over entry links) : p.Thins i related p := by
  induction hp with
  | @satisfy test _ => exact .satisfy test
  | literal text => exact .literal text
  | upTo delimiter => exact .upTo delimiter
  | bracketed left right => exact .bracketed left right
  | remaining => exact .remaining
  | endOfInput => exact .endOfInput
  | constant value => exact .constant value
  | fail => exact .fail
  | @lookAhead condition _ => exact .lookAhead condition
  | checkpoint label => exact .checkpoint label
  | link hl => exact .link (h _ hl)
  | field _ key ih => exact .field ih key
  | merge _ _ ihp ihq => exact .merge ihp ihq
  | mergeInside _ _ key ihp ihq => exact .mergeInside ihp ihq key
  | seq _ _ ihp ihq => exact .seq ihp ihq
  | seqInside _ _ key ihp ihq => exact .seqInside ihp ihq key
  | thenSkip _ _ ihp ihq => exact .thenSkip ihp ihq
  | orElse _ _ ihp ihq => exact .orElse ihp ihq
  | between _ _ _ iho ihc ihp => exact .between iho ihc ihp
  | @many _ condition _ bounds _ ih => exact .many ih bounds condition
  | @map _ f _ _ ih => exact .map ih f
  | orDefault _ value ih => exact .orDefault ih value
  | traced _ label ih => exact .traced ih label
  | @interleave _ ofRun condition _ _ _ ih => exact .interleave ih ofRun condition
  | custom step => exact .custom step
  | probe _ ih => exact .probe ih

/-- The links of a parser are smaller than the parser. -/
theorem Parser.over_smaller {σ : Type} [SizeOf σ] (p : Parser σ) :
    p.Over (fun _ => True) fun l => sizeOf l < sizeOf p := by
  induction p
  case link target =>
    exact .link (by simp)
  -- A callback may note anything, and a part is smaller than the whole.
  all_goals
    constructor
    all_goals first
      | exact Callback.notes_any _
      | exact fun k _ => k.notes_any
      | (refine Parser.Over.mono (fun l hl => Nat.lt_trans hl ?_) ‹_›; simp <;> omega)

theorem Parser.Thins.refl (p : Parser Ref) : p.Thins i Eq p := p.over_smaller.thins fun _ _ => rfl

/-! ## Whatever parsers refer to -/

/-- A link of an expression, with instruments taken out of what it stands for. -/
inductive Link.Thins (i : Instruments) : Link → Link → Prop
  | named (name : String) : Thins i (.named name) (.named name)
  | lazyNamed (name : String) : Thins i (.lazyNamed name) (.lazyNamed name)
  | lazyExpr {e e' : Expr} : Parser.Thins i (Thins i) e e' → Thins i (.lazyExpr e) (.lazyExpr e')
  | brackets (left right : Text) : Thins i (.brackets left right) (.brackets left right)
  | ready {p p' : Parser Ref} : p.Thins i Eq p' → Thins i (.ready p) (.ready p')

/-- Nothing need be taken out of a link. -/
theorem Link.Thins.refl (l : Link) : l.Thins i l := by
  match l with
  | .named name => exact .named name
  | .lazyNamed name => exact .lazyNamed name
  | .lazyExpr e => exact .lazyExpr (e.over_smaller.thins fun l _ => refl l)
  | .brackets left right => exact .brackets left right
  | .ready p => exact .ready (.refl p)
termination_by sizeOf l

/-- An expression, with instruments taken out. -/
abbrev Expr.Thins (i : Instruments) (e e' : Expr) : Prop := Parser.Thins i (Link.Thins i) e e'

/-- What is left to do, with instruments taken out. -/
inductive Thunk.Thins (i : Instruments) : Thunk → Thunk → Prop
  | named (name : String) : Thins i (.named name) (.named name)
  | expr {e e' : Expr} : e.Thins i e' → Thins i (.expr e) (.expr e')

/-- A delayed part, before it is built and after, with instruments taken out. -/
structure Cell.Thins (i : Instruments) (cell cell' : Cell) : Prop where
  thunk : cell.thunk.Thins i cell'.thunk
  built : Option.Rel (Parser.Thins i Eq) cell.built cell'.built

/-- Delayed parts that correspond, number by number. -/
structure Cells.Thins (i : Instruments) (cs cs' : Cells) : Prop where
  size_eq : cs.size = cs'.size
  cell : ∀ n : Nat, Option.Rel (Cell.Thins i) cs[n]? cs'[n]?

/-- The same names, bound to parsers with instruments taken out. -/
def Names.Thins (i : Instruments) (names names' : Names) : Prop :=
  ∀ name, Option.Rel (Parser.Thins i Eq) (names.lookup name) (names'.lookup name)

/-- Whatever a run can look up, with instruments taken out. -/
structure Env.Thins (i : Instruments) (env env' : Env) : Prop where
  names : env.names.Thins i env'.names
  rules : env.rules.Thins i env'.rules

/-- A session with instruments taken out of all its parsers. -/
structure Session.Thins (i : Instruments) (σ σ' : Session) : Prop where
  env : σ.env.Thins i σ'.env
  cells : σ.cells.Thins i σ'.cells

theorem Thunk.Thins.refl (t : Thunk) : t.Thins i t := by
  cases t with
  | named name => exact .named name
  | expr e => exact .expr (e.over_smaller.thins fun l _ => Link.Thins.refl l)

theorem Names.Thins.refl (names : Names) : names.Thins i names := by
  intro name
  cases names.lookup name with
  | none => exact .none
  | some p => exact .some (.refl p)

theorem Cells.Thins.refl (cs : Cells) : cs.Thins i cs where
  size_eq := rfl
  cell n := by
    cases cs[n]? with
    | none => exact .none
    | some cell =>
      obtain ⟨t, built⟩ := cell
      cases built with
      | none => exact .some ⟨.refl t, .none⟩
      | some p => exact .some ⟨.refl t, .some (.refl p)⟩

/-- A session as it is, in which instruments are taken out of expressions only. -/
theorem Session.Thins.refl (σ : Session) : σ.Thins i σ where
  env := ⟨.refl σ.names, .refl σ.rules⟩
  cells := .refl σ.cells

namespace Cells

variable {cs cs' : Cells}

theorem Thins.push (h : cs.Thins i cs') {t t' : Thunk} (ht : t.Thins i t') :
    Thins i (cs.push ⟨t, none⟩) (cs'.push ⟨t', none⟩) where
  size_eq := by rw [Array.size_push, Array.size_push, h.size_eq]
  cell n := by
    rw [Array.getElem?_push, Array.getElem?_push, h.size_eq]
    split
    · exact .some ⟨ht, .none⟩
    · exact h.cell n

theorem Thins.built (h : cs.Thins i cs') (n : Nat) {t t' : Thunk} (ht : t.Thins i t')
    {p p' : Parser Ref} (hp : p.Thins i Eq p') :
    Thins i (cs.setIfInBounds n ⟨t, some p⟩) (cs'.setIfInBounds n ⟨t', some p'⟩) where
  size_eq := by rw [Array.size_setIfInBounds, Array.size_setIfInBounds, h.size_eq]
  cell k := by
    rw [Array.getElem?_setIfInBounds, Array.getElem?_setIfInBounds, h.size_eq]
    split
    · split
      · exact .some ⟨ht, .some hp⟩
      · exact .none
    · exact h.cell k

end Cells

/-! ## Building -/

namespace Build

variable {α α' β β' : Type} {R : α → α' → Prop} {Q : β → β' → Prop}

/-- Two steps of building come to the same fault, or to related results and corresponding
    delayed parts. -/
inductive Alike (i : Instruments) (R : α → α' → Prop) :
    Except Fault (α × Cells) → Except Fault (α' × Cells) → Prop
  | error (f : Fault) : Alike i R (.error f) (.error f)
  | ok {a : α} {a' : α'} {cs cs' : Cells} : R a a' → cs.Thins i cs' →
      Alike i R (.ok (a, cs)) (.ok (a', cs'))

/-- From corresponding delayed parts, two steps of building do alike. -/
def Thin (i : Instruments) (R : α → α' → Prop) (x : Build α) (y : Build α') : Prop :=
  ∀ cs cs', Cells.Thins i cs cs' → Alike i R (x.run cs) (y.run cs')

theorem Thin.pure {a : α} {a' : α'} (h : R a a') : Thin i R (pure a) (pure a') :=
  fun _ _ hc => .ok h hc

theorem Thin.throw (f : Fault) : Thin i R (throw f) (throw f) := fun _ _ _ => .error f

theorem Thin.bind {x : Build α} {y : Build α'} {f : α → Build β} {g : α' → Build β'}
    (hxy : Thin i R x y) (hfg : ∀ a a', R a a' → Thin i Q (f a) (g a')) :
    Thin i Q (x >>= f) (y >>= g) := by
  intro cs cs' hc
  have hxy := hxy cs cs' hc
  rw [StateT.run_bind, StateT.run_bind]
  generalize x.run cs = r at hxy
  generalize y.run cs' = r' at hxy
  cases hxy with
  | error fault => exact .error fault
  | ok ha hc₁ => exact hfg _ _ ha _ _ hc₁

theorem named_thins {names names' : Names} (hn : names.Thins i names') (name : String) :
    Thin i (Parser.Thins i Eq) (named names name) (named names' name) := by
  have hn := hn name
  unfold named
  generalize names.lookup name = o at hn
  generalize names'.lookup name = o' at hn
  cases hn with
  | none => exact .throw _
  | some hp => exact .pure hp

theorem delay_thins {t t' : Thunk} (ht : t.Thins i t') :
    Thin i (Parser.Thins i Eq) (delay t) (delay t') := by
  intro cs cs' hc
  exact .ok (.link (congrArg Ref.cell hc.size_eq)) (hc.push ht)

theorem brackets_thins (left right : Text) :
    Thin i (Parser.Thins i Eq) (brackets left right) (brackets left right) := by
  unfold brackets
  split
  · split
    · exact .throw _
    · exact .pure (.bracketed _ _)
  · exact .throw _

end Build

open Build

/-- Binding the links of an instrument, which has none, leaves an instrument. -/
theorem Parser.Instrument.bindLinks {σ τ : Type} (resolve : σ → Build (Parser τ)) {c : Parser σ}
    (hc : c.Instrument i) :
    ∃ c' : Parser τ, c'.Instrument i ∧ c.bindLinks resolve = pure c' := by
  induction hc with
  | checkpoint label hi => exact ⟨_, .checkpoint label hi, rfl⟩
  | traced _ label hi ih =>
    obtain ⟨c', hc', heq⟩ := ih
    exact ⟨_, .traced hc' label hi, by rw [Parser.bindLinks, heq, pure_bind]⟩
  | probe _ hi ih =>
    obtain ⟨c', hc', heq⟩ := ih
    exact ⟨_, .probe hc' hi, by rw [Parser.bindLinks, heq, pure_bind]⟩
  | seq _ _ ihp ihq =>
    obtain ⟨c, hc, heqc⟩ := ihp
    obtain ⟨d, hd, heqd⟩ := ihq
    exact ⟨_, .seq hc hd, by rw [Parser.bindLinks, heqc, heqd, pure_bind, pure_bind]⟩

section BindLinks

variable {σ σ' τ τ' : Type} {links : σ → σ' → Prop} {links' : τ → τ' → Prop}
  {resolve : σ → Build (Parser τ)} {resolve' : σ' → Build (Parser τ')}

theorem Build.Thin.one {x : Build (Parser τ)} {y : Build (Parser τ')}
    {F : Parser τ → Parser τ} {G : Parser τ' → Parser τ'} (h : Thin i (Parser.Thins i links') x y)
    (hF : ∀ p p', p.Thins i links' p' → (F p).Thins i links' (G p')) :
    Thin i (Parser.Thins i links') (do let p ← x; Pure.pure (F p))
      (do let p ← y; Pure.pure (G p)) :=
  .bind h fun p p' hp => .pure (hF p p' hp)

theorem Build.Thin.two {x₁ x₂ : Build (Parser τ)} {y₁ y₂ : Build (Parser τ')}
    {F : Parser τ → Parser τ → Parser τ} {G : Parser τ' → Parser τ' → Parser τ'}
    (h₁ : Thin i (Parser.Thins i links') x₁ y₁) (h₂ : Thin i (Parser.Thins i links') x₂ y₂)
    (hF : ∀ p p' q q', p.Thins i links' p' → q.Thins i links' q' →
      (F p q).Thins i links' (G p' q')) :
    Thin i (Parser.Thins i links') (do let p ← x₁; let q ← x₂; Pure.pure (F p q))
      (do let p ← y₁; let q ← y₂; Pure.pure (G p q)) :=
  .bind h₁ fun p p' hp => .bind h₂ fun q q' hq => .pure (hF p p' q q' hp hq)

/-- If links are bound alike, so are the parsers over them. -/
theorem Parser.bindLinks_thins
    (hr : ∀ l l', links l l' → Thin i (Parser.Thins i links') (resolve l) (resolve' l'))
    {p : Parser σ} {p' : Parser σ'} (hp : p.Thins i links p') :
    Thin i (Parser.Thins i links') (p.bindLinks resolve) (p'.bindLinks resolve') := by
  induction hp with
  | satisfy test => exact .pure (.satisfy test)
  | literal text => exact .pure (.literal text)
  | upTo delimiter => exact .pure (.upTo delimiter)
  | bracketed left right => exact .pure (.bracketed left right)
  | remaining => exact .pure .remaining
  | endOfInput => exact .pure .endOfInput
  | constant value => exact .pure (.constant value)
  | fail => exact .pure .fail
  | lookAhead condition => exact .pure (.lookAhead condition)
  | checkpoint label => exact .pure (.checkpoint label)
  | link hl => exact hr _ _ hl
  | field _ key ih => exact .one ih fun _ _ hp => .field hp key
  | merge _ _ ihp ihq => exact .two ihp ihq fun _ _ _ _ => .merge
  | mergeInside _ _ key ihp ihq => exact .two ihp ihq fun _ _ _ _ hp hq => .mergeInside hp hq key
  | seq _ _ ihp ihq => exact .two ihp ihq fun _ _ _ _ => .seq
  | seqInside _ _ key ihp ihq => exact .two ihp ihq fun _ _ _ _ hp hq => .seqInside hp hq key
  | thenSkip _ _ ihp ihq => exact .two ihp ihq fun _ _ _ _ => .thenSkip
  | orElse _ _ ihp ihq => exact .two ihp ihq fun _ _ _ _ => .orElse
  | between _ _ _ iho ihc ihp =>
    exact .bind iho fun _ _ ho => .bind ihc fun _ _ hc => .bind ihp fun _ _ hp =>
      .pure (.between ho hc hp)
  | many _ bounds condition ih => exact .one ih fun _ _ hp => .many hp bounds condition
  | map _ f ih => exact .one ih fun _ _ hp => .map hp f
  | orDefault _ value ih => exact .one ih fun _ _ hp => .orDefault hp value
  | traced _ label ih => exact .one ih fun _ _ hp => .traced hp label
  | interleave _ ofRun condition ih => exact .one ih fun _ _ hp => .interleave hp ofRun condition
  | custom step => exact .pure (.custom step)
  | probe _ ih => exact .one ih fun _ _ => .probe
  -- Where an instrument is taken out, the second side has nothing to build for it.
  | @dropTraced p p' _ label hi ih =>
    rw [← bind_pure (p'.bindLinks resolve')]
    exact .one (G := id) ih fun _ _ hp => .dropTraced hp label hi
  | @dropProbe p p' _ hi ih =>
    rw [← bind_pure (p'.bindLinks resolve')]
    exact .one (G := id) ih fun _ _ hp => .dropProbe hp hi
  | @dropFirst c p p' hc _ ih =>
    obtain ⟨c', hc', heq⟩ := hc.bindLinks resolve
    rw [Parser.bindLinks, heq, pure_bind, ← bind_pure (p'.bindLinks resolve')]
    exact .one (G := id) ih fun _ _ hp => .dropFirst hc' hp
  | @dropSecond c p p' _ hc ih =>
    obtain ⟨c', hc', heq⟩ := hc.bindLinks resolve
    rw [Parser.bindLinks, heq, ← bind_pure (p'.bindLinks resolve')]
    simp only [pure_bind]
    exact .one (G := id) ih fun _ _ hp => .dropSecond hp hc'

end BindLinks

theorem Link.build_thins {names names' : Names} (hn : names.Thins i names') {l l' : Link}
    (h : l.Thins i l') : Thin i (Parser.Thins i Eq) (l.build names) (l'.build names') := by
  cases h with
  | named name => exact named_thins hn name
  | lazyNamed name => exact delay_thins (.named name)
  | lazyExpr he => exact delay_thins (.expr he)
  | brackets left right => exact brackets_thins left right
  | ready hp => exact .pure hp

theorem Expr.build_thins {names names' : Names} (hn : names.Thins i names') {e e' : Expr}
    (h : e.Thins i e') : Thin i (Parser.Thins i Eq) (e.build names) (e'.build names') :=
  Parser.bindLinks_thins (fun _ _ hl => Link.build_thins hn hl) h

/-- Building what is delayed adds corresponding delayed parts on both sides, or comes to the
    same fault. -/
theorem Thunk.build_thins {names names' : Names} (hn : names.Thins i names') {t t' : Thunk}
    (h : t.Thins i t') : Thin i (Parser.Thins i Eq) (t.build names) (t'.build names') := by
  cases h with
  | named name => exact named_thins hn name
  | expr he => exact Expr.build_thins hn he

end Descent

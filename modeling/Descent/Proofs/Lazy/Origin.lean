/-
  Descent.Proofs.Lazy.Origin

  What a delayed part stands for, whether it has been built or not.  Seen from a base
  memory, a cell either was built there, or stands for what its thunk builds; that is its
  origin.  Cells are numbered as they come, so one expression built in two memories has
  different links, but links of the same origins (`Thunk.expands`): a thunk builds what
  `Thunk.expand` says, wherever it is called, as long as the names are the same.  What
  following a link can do to a memory is said once, in `Run.Resolves`.
-/
import Descent.Proofs.Lazy.Over
import Descent.Proofs.Loop.Run

namespace Descent

variable {entry : Entry → Prop} {bound : Nat}

/-! ## How memories grow -/

namespace Cells

/-- Later cells: those that were there still have their thunks, and those that were built
    still stand for the same parsers. -/
def Grown (cs cs' : Cells) : Prop :=
  ∀ (n : Nat) cell, cs[n]? = some cell →
    ∃ cell', cs'[n]? = some cell' ∧ cell'.thunk = cell.thunk ∧
      ∀ p ∈ cell.built, cell'.built = some p

/-- Cells to which a step of building has added others. -/
structure Extended (entry : Entry → Prop) (bound : Nat) (cs cs' : Cells) : Prop where
  size_le : cs.size ≤ cs'.size
  old : ∀ n, n < cs.size → cs'[n]? = cs[n]?
  new : ∀ (n : Nat) cell, cs.size ≤ n → cs'[n]? = some cell →
    cell.built = none ∧ cell.thunk.Over entry (Ref.Below bound)

variable {cs cs' cs'' : Cells}

theorem Grown.refl (cs : Cells) : cs.Grown cs := fun _ cell h => ⟨cell, h, rfl, fun _ hp => hp⟩

theorem Grown.trans (h : cs.Grown cs') (h' : cs'.Grown cs'') : cs.Grown cs'' := by
  intro n cell hn
  obtain ⟨cell', hn', hthunk', hbuilt'⟩ := h n cell hn
  obtain ⟨cell'', hn'', hthunk'', hbuilt''⟩ := h' n cell' hn'
  exact ⟨cell'', hn'', hthunk''.trans hthunk', fun p hp => hbuilt'' p (hbuilt' p hp)⟩

theorem Grown.size_le (h : cs.Grown cs') : cs.size ≤ cs'.size := by
  rcases Nat.lt_or_ge cs'.size cs.size with hlt | hle
  · obtain ⟨cell, hcell, -⟩ := h cs'.size _ (Array.getElem?_eq_getElem hlt)
    rw [Array.getElem?_eq_none (Nat.le_refl _)] at hcell
    cases hcell
  · exact hle

theorem Grown.built (h : cs.Grown cs') {n : Nat} {t : Thunk} {p : Parser Ref}
    (hn : cs[n]? = some ⟨t, some p⟩) : cs'[n]? = some ⟨t, some p⟩ := by
  obtain ⟨⟨t', built'⟩, hn', hthunk, hbuilt⟩ := h n _ hn
  obtain rfl : t' = t := hthunk
  obtain rfl : built' = some p := hbuilt p rfl
  exact hn'

theorem Extended.refl (cs : Cells) : cs.Extended entry bound cs where
  size_le := Nat.le_refl _
  old _ _ := rfl
  new n cell hn hcell := by
    rw [Array.getElem?_eq_none hn] at hcell
    cases hcell

theorem Extended.trans (h : cs.Extended entry bound cs') (h' : cs'.Extended entry bound cs'') :
    cs.Extended entry bound cs'' where
  size_le := Nat.le_trans h.size_le h'.size_le
  old n hn := (h'.old n (Nat.lt_of_lt_of_le hn h.size_le)).trans (h.old n hn)
  new n cell hn hcell := by
    by_cases hlt : n < cs'.size
    · rw [h'.old n hlt] at hcell
      exact h.new n cell hn hcell
    · exact h'.new n cell (Nat.not_lt.1 hlt) hcell

theorem Extended.grown (h : cs.Extended entry bound cs') : cs.Grown cs' := by
  intro n cell hn
  have hlt : n < cs.size := (Array.getElem?_eq_some_iff.1 hn).1
  exact ⟨cell, (h.old n hlt).trans hn, rfl, fun _ hp => hp⟩

theorem Extended.push {t : Thunk} (ht : t.Over entry (Ref.Below bound)) :
    cs.Extended entry bound (cs.push ⟨t, none⟩) where
  size_le := by
    rw [Array.size_push]
    exact Nat.le_succ _
  old n hn := by rw [Array.getElem?_push, if_neg (Nat.ne_of_lt hn)]
  new n cell hn hcell := by
    rw [Array.getElem?_push] at hcell
    split at hcell
    · cases hcell
      exact ⟨rfl, ht⟩
    · rw [Array.getElem?_eq_none hn] at hcell
      cases hcell

theorem Over.extended (hc : cs.Over entry bound) (h : cs.Extended entry bound cs') :
    cs'.Over entry bound where
  thunk n cell hn := by
    by_cases hlt : n < cs.size
    · exact hc.thunk n cell ((h.old n hlt).symm.trans hn)
    · exact (h.new n cell (Nat.not_lt.1 hlt) hn).2
  built n cell hn p hp := by
    by_cases hlt : n < cs.size
    · have hover := hc.built n cell ((h.old n hlt).symm.trans hn) p hp
      exact hover.mono (Ref.Below.mono h.size_le)
    · rw [(h.new n cell (Nat.not_lt.1 hlt) hn).1] at hp
      cases hp

/-- The cells in which one has been built. -/
def settle (cs : Cells) (n : Nat) (t : Thunk) (p : Parser Ref) : Cells :=
  cs.setIfInBounds n ⟨t, some p⟩

@[simp] theorem size_settle (cs : Cells) (n : Nat) (t : Thunk) (p : Parser Ref) :
    (cs.settle n t p).size = cs.size := Array.size_setIfInBounds

theorem settle_self {n : Nat} {t : Thunk} {p : Parser Ref} (hn : n < cs.size) :
    (cs.settle n t p)[n]? = some ⟨t, some p⟩ := by
  rw [settle, Array.getElem?_setIfInBounds, if_pos rfl, if_pos hn]

theorem settle_ne {n k : Nat} {t : Thunk} {p : Parser Ref} (hk : k ≠ n) :
    (cs.settle n t p)[k]? = cs[k]? := by
  rw [settle, Array.getElem?_setIfInBounds, if_neg hk.symm]

theorem grown_settle {n : Nat} {t : Thunk} {p : Parser Ref} (hn : cs[n]? = some ⟨t, none⟩) :
    cs.Grown (cs.settle n t p) := by
  intro k cell hk
  have hlt : n < cs.size := (Array.getElem?_eq_some_iff.1 hn).1
  by_cases hkn : k = n
  · subst hkn
    obtain rfl : ⟨t, none⟩ = cell := Option.some.inj (hn.symm.trans hk)
    exact ⟨_, settle_self hlt, rfl, fun _ hp => nomatch hp⟩
  · exact ⟨cell, (settle_ne hkn).trans hk, rfl, fun _ hp => hp⟩

theorem Over.settle (hc : cs.Over entry bound) {n : Nat} {t : Thunk} {p : Parser Ref}
    (hn : cs[n]? = some ⟨t, none⟩) (hp : p.Over entry (Ref.Below cs.size)) :
    (cs.settle n t p).Over entry bound := by
  have hlt : n < cs.size := (Array.getElem?_eq_some_iff.1 hn).1
  -- A cell is the one that has been built, or one that was there.
  have hcell : ∀ (k : Nat) cell, (cs.settle n t p)[k]? = some cell →
      cell = ⟨t, some p⟩ ∨ cs[k]? = some cell := by
    intro k cell hk
    by_cases hkn : k = n
    · subst hkn
      rw [settle_self hlt] at hk
      exact .inl (Option.some.inj hk).symm
    · exact .inr ((settle_ne hkn).symm.trans hk)
  refine ⟨fun k cell hk => ?_, fun k cell hk q hq => ?_⟩
  · rcases hcell k cell hk with rfl | hold
    · exact hc.thunk n ⟨t, none⟩ hn
    · exact hc.thunk k cell hold
  · rw [size_settle]
    rcases hcell k cell hk with rfl | hold
    · cases hq
      exact hp
    · exact hc.built k cell hold q hq

end Cells

/-! ## Origins -/

/-- Where a link leads, seen from a base memory. -/
inductive Origin where
  /-- A cell that was built in the base memory. -/
  | settled (n : Nat)
  /-- What the thunk builds. -/
  | delayed (t : Thunk)
  | rule (name : String)

/-- The parser that a cell stands for, if it has been built. -/
def Cells.builtAt (cs : Cells) (n : Nat) : Option (Parser Ref) := cs[n]?.bind Cell.built

/-- The origin of a link, seen from the first cells, where the second are there now. -/
def Cells.origin (base cs : Cells) : Ref → Origin
  | .rule name => .rule name
  | .cell n =>
    match base.builtAt n, cs[n]? with
    | none, some cell => .delayed cell.thunk
    | _, _ => .settled n

namespace Cells

variable {base cs cs' : Cells} {n : Nat} {t : Thunk} {built : Option (Parser Ref)}

theorem builtAt_of (h : cs[n]? = some ⟨t, built⟩) : cs.builtAt n = built := by
  rw [builtAt, h, Option.bind_some]

theorem exists_of_builtAt {p : Parser Ref} (h : cs.builtAt n = some p) :
    ∃ t, cs[n]? = some ⟨t, some p⟩ := by
  obtain ⟨⟨t, built⟩, hcell, rfl⟩ := Option.bind_eq_some_iff.1 h
  exact ⟨t, hcell⟩

theorem origin_settled {p : Parser Ref} (h : base.builtAt n = some p) :
    base.origin cs (.cell n) = .settled n := by
  simp only [origin, h]

theorem origin_delayed (h : base.builtAt n = none) (hc : cs[n]? = some ⟨t, built⟩) :
    base.origin cs (.cell n) = .delayed t := by
  simp only [origin, h, hc]

/-- A cell that is not built now was not built in the base memory. -/
theorem builtAt_eq_none (hbase : base.Grown cs) (h : cs[n]? = some ⟨t, none⟩) :
    base.builtAt n = none := by
  cases hbuilt : base.builtAt n with
  | none => rfl
  | some p =>
    obtain ⟨t₀, h₀⟩ := exists_of_builtAt hbuilt
    rw [hbase.built h₀] at h
    cases h

/-- Building builds no cell. -/
theorem Extended.builtAt (h : cs.Extended entry bound cs') (n : Nat) :
    cs'.builtAt n = cs.builtAt n := by
  unfold Cells.builtAt
  by_cases hlt : n < cs.size
  · rw [h.old n hlt]
  · rw [Array.getElem?_eq_none (Nat.not_lt.1 hlt), Option.bind_none]
    cases hn : cs'[n]? with
    | none => rfl
    | some cell => exact (h.new n cell (Nat.not_lt.1 hlt) hn).1

/-- The origin of a link stays what it is. -/
theorem origin_grown (h : cs.Grown cs') (l : Ref) (hl : l.Below cs.size) :
    base.origin cs' l = base.origin cs l := by
  cases l with
  | rule name => rfl
  | cell n =>
    have hn : n < cs.size := hl
    obtain ⟨cell', hn', hthunk, -⟩ := h n _ (Array.getElem?_eq_getElem hn)
    simp only [origin, hn', Array.getElem?_eq_getElem hn]
    cases base.builtAt n with
    | none => exact congrArg Origin.delayed hthunk
    | some p => rfl

end Cells

/-- A parser of a memory stands for one over origins. -/
structure Parser.Denotes (entry : Entry → Prop) (base cs : Cells) (p : Parser Ref)
    (P : Parser Origin) : Prop where
  scope : p.Over entry (Ref.Below cs.size)
  eq : p.mapLinks (base.origin cs) = P

section Denotes

variable {base cs cs' : Cells} {p : Parser Ref} {P : Parser Origin}

theorem Parser.Denotes.mono (h : p.Denotes entry base cs P) (hc : cs.Grown cs') :
    p.Denotes entry base cs' P where
  scope := h.scope.mono (Ref.Below.mono hc.size_le)
  eq := (Parser.mapLinks_congr (Cells.origin_grown hc) h.scope).trans h.eq

/-- What is over the base memory stands for itself, later too. -/
theorem Parser.Over.denotes (hp : p.Over entry (Ref.Below base.size)) (hc : base.Grown cs) :
    p.Denotes entry base cs (p.mapLinks (base.origin base)) :=
  Parser.Denotes.mono ⟨hp, rfl⟩ hc

end Denotes

/-! ## What thunks build -/

/-- What a step of building gives in the base memory, over origins. -/
def Build.expand (base : Cells) (x : Build (Parser Ref)) : Except Fault (Parser Origin) := do
  let (p, cs) ← x.run base
  pure (p.mapLinks (base.origin cs))

/-- What a link of an expression stands for. -/
def Link.expand (names : Names) (base : Cells) (l : Link) : Except Fault (Parser Origin) :=
  Build.expand base (l.build names)

/-- What an expression stands for. -/
def Expr.expand (names : Names) (base : Cells) (e : Expr) : Except Fault (Parser Origin) :=
  e.bindLinks (Link.expand names base)

/-- What a thunk builds. -/
def Thunk.expand (names : Names) (base : Cells) : Thunk → Except Fault (Parser Origin)
  | named name => Link.expand names base (.named name)
  | expr e => Expr.expand names base e

/-- Building from these cells comes to the same end: to the same fault, or to a parser that
    stands for this one, with new cells behind the others. -/
inductive Build.Comes (entry : Entry → Prop) (bound : Nat) (base cs : Cells) :
    Except Fault (Parser Ref × Cells) → Except Fault (Parser Origin) → Prop
  | error (f : Fault) : Comes entry bound base cs (.error f) (.error f)
  | ok {p : Parser Ref} {cs' : Cells} {P : Parser Origin} : cs.Extended entry bound cs' →
      p.Denotes entry base cs' P → Comes entry bound base cs (.ok (p, cs')) (.ok P)

/-- From these cells on, a step of building comes to the same end. -/
def Build.Expands (entry : Entry → Prop) (bound : Nat) (base cs : Cells) (x : Build (Parser Ref))
    (y : Except Fault (Parser Origin)) : Prop :=
  ∀ cs', cs.Grown cs' → Build.Comes entry bound base cs' (x.run cs') y

namespace Build

variable {base cs cs' : Cells} {x : Build (Parser Ref)} {y : Except Fault (Parser Origin)}

theorem Expands.later (h : Expands entry bound base cs x y) (hc : cs.Grown cs') :
    Expands entry bound base cs' x y := fun _ hc' => h _ (hc.trans hc')

theorem Expands.pure {p : Parser Ref} {P : Parser Origin} (h : p.Denotes entry base cs P) :
    Expands entry bound base cs (pure p) (pure P) :=
  fun cs' hc => .ok (.refl cs') (h.mono hc)

theorem Expands.throw (f : Fault) : Expands entry bound base cs (throw f) (.error f) :=
  fun _ _ => .error f

theorem Expands.bind {f : Parser Ref → Build (Parser Ref)}
    {g : Parser Origin → Except Fault (Parser Origin)} (hx : Expands entry bound base cs x y)
    (hf : ∀ cs' p P, cs.Grown cs' → p.Denotes entry base cs' P →
      Expands entry bound base cs' (f p) (g P)) :
    Expands entry bound base cs (x >>= f) (y >>= g) := by
  intro cs₁ hc
  have hcomes := hx cs₁ hc
  rw [StateT.run_bind]
  generalize x.run cs₁ = r at hcomes
  cases hcomes with
  | error fault => exact .error fault
  | @ok p cs₂ P hext hp =>
    -- The second step begins with the cells that the first has left.
    have hnext := hf cs₂ p P (hc.trans hext.grown) hp cs₂ (.refl cs₂)
    change Comes entry bound base cs₁ ((f p).run cs₂) (g P)
    generalize (f p).run cs₂ = r at hnext
    generalize g P = r' at hnext
    cases hnext with
    | error fault => exact .error fault
    | ok hext' hq => exact .ok (hext.trans hext') hq

/-- A parser made of one that stands for the same. -/
theorem Expands.one {F : Parser Ref → Parser Ref} {G : Parser Origin → Parser Origin}
    (hx : Expands entry bound base base x y)
    (hF : ∀ cs p P, p.Denotes entry base cs P → (F p).Denotes entry base cs (G P)) :
    Expands entry bound base base (x >>= fun p => Pure.pure (F p))
      (y >>= fun P => Pure.pure (G P)) :=
  .bind hx fun cs p P _ hp => .pure (hF cs p P hp)

/-- A parser made of two; the first still stands for the same when the second is built. -/
theorem Expands.two {x' : Build (Parser Ref)} {y' : Except Fault (Parser Origin)}
    {F : Parser Ref → Parser Ref → Parser Ref} {G : Parser Origin → Parser Origin → Parser Origin}
    (hx : Expands entry bound base base x y) (hx' : Expands entry bound base base x' y')
    (hF : ∀ cs p P q Q, p.Denotes entry base cs P → q.Denotes entry base cs Q →
      (F p q).Denotes entry base cs (G P Q)) :
    Expands entry bound base base (do let p ← x; let q ← x'; Pure.pure (F p q))
      (do let P ← y; let Q ← y'; Pure.pure (G P Q)) :=
  .bind hx fun _ _ _ h₁ hp => .bind (hx'.later h₁) fun _ _ _ h₂ hq =>
    .pure (hF _ _ _ _ _ (hp.mono h₂) hq)

theorem expands_named {names : Names} (hn : names.Over entry base.size) (name : String) :
    Expands entry bound base base (named names name) (expand base (named names name)) := by
  unfold named
  cases hp : names.lookup name with
  | none => exact .throw _
  | some p => exact fun cs hc => .ok (.refl cs) ((hn name p hp).denotes hc)

theorem expands_brackets (left right : Text) :
    Expands entry bound base base (brackets left right) (expand base (brackets left right)) := by
  unfold brackets
  split
  · split
    · exact .throw _
    · exact .pure ⟨.bracketed _ _, rfl⟩
  · exact .throw _

/-- In the base memory, too, a new cell has the thunk that it is for. -/
theorem expand_delay (base : Cells) (t : Thunk) :
    expand base (delay t) = .ok (.link (.delayed t)) := by
  have hbase : base.builtAt base.size = none := by
    rw [Cells.builtAt, Array.getElem?_eq_none (Nat.le_refl _), Option.bind_none]
  have horigin : base.origin (base.push ⟨t, none⟩) (.cell base.size) = .delayed t :=
    Cells.origin_delayed hbase Array.getElem?_push_size
  rw [← horigin]
  rfl

theorem expands_delay {t : Thunk} (ht : t.Over entry (Ref.Below bound)) :
    Expands entry bound base base (delay t) (expand base (delay t)) := by
  intro cs hc
  rw [expand_delay]
  have hlast : (cs.push ⟨t, none⟩)[cs.size]? = some ⟨t, none⟩ := Array.getElem?_push_size
  have hpush : cs.Extended entry bound (cs.push ⟨t, none⟩) := .push ht
  refine .ok hpush ⟨.link ?_, ?_⟩
  · exact (Array.getElem?_eq_some_iff.1 hlast).1
  · -- The new cell has another number here than in the base memory, but the same thunk.
    have hbase := Cells.builtAt_eq_none (hc.trans hpush.grown) hlast
    exact congrArg Parser.link (Cells.origin_delayed hbase hlast)

end Build

open Build in
/-- A link of an expression stands for the same, wherever it is built. -/
theorem Link.expands {base : Cells} (hbound : bound ≤ base.size) {names : Names}
    (hn : names.Over entry base.size) {l : Link} (hl : l.Over entry (Ref.Below bound)) :
    Expands entry bound base base (l.build names) (l.expand names base) := by
  cases hl with
  | named name => exact expands_named hn name
  | lazyNamed name => exact expands_delay (.named name)
  | lazyExpr he => exact expands_delay (.expr he)
  | brackets left right => exact expands_brackets left right
  | ready hp =>
    intro cs hc
    exact .ok (.refl cs) ((hp.mono (Ref.Below.mono hbound)).denotes hc)

open Build in
/-- Links that stand for the same can be bound everywhere. -/
theorem Parser.expands_bindLinks {base : Cells} {links : Link → Prop}
    {resolve : Link → Build (Parser Ref)} {resolve' : Link → Except Fault (Parser Origin)}
    (hr : ∀ l, links l → Expands entry bound base base (resolve l) (resolve' l)) {e : Expr}
    (he : Parser.Over entry links e) :
    Expands entry bound base base (e.bindLinks resolve) (e.bindLinks resolve') := by
  induction he with
  | satisfy ht => exact .pure ⟨.satisfy ht, rfl⟩
  | literal text => exact .pure ⟨.literal text, rfl⟩
  | upTo delimiter => exact .pure ⟨.upTo delimiter, rfl⟩
  | bracketed left right => exact .pure ⟨.bracketed left right, rfl⟩
  | remaining => exact .pure ⟨.remaining, rfl⟩
  | endOfInput => exact .pure ⟨.endOfInput, rfl⟩
  | constant value => exact .pure ⟨.constant value, rfl⟩
  | fail => exact .pure ⟨.fail, rfl⟩
  | lookAhead hc => exact .pure ⟨.lookAhead hc, rfl⟩
  | checkpoint label => exact .pure ⟨.checkpoint label, rfl⟩
  | link hl => exact hr _ hl
  | field _ key ih => exact .one ih fun _ _ _ hp => ⟨.field hp.scope key, by rw [← hp.eq]; rfl⟩
  | merge _ _ ihp ihq =>
    exact .two ihp ihq fun _ _ _ _ _ hp hq =>
      ⟨.merge hp.scope hq.scope, by rw [← hp.eq, ← hq.eq]; rfl⟩
  | mergeInside _ _ key ihp ihq =>
    exact .two ihp ihq fun _ _ _ _ _ hp hq =>
      ⟨.mergeInside hp.scope hq.scope key, by rw [← hp.eq, ← hq.eq]; rfl⟩
  | seq _ _ ihp ihq =>
    exact .two ihp ihq fun _ _ _ _ _ hp hq =>
      ⟨.seq hp.scope hq.scope, by rw [← hp.eq, ← hq.eq]; rfl⟩
  | seqInside _ _ key ihp ihq =>
    exact .two ihp ihq fun _ _ _ _ _ hp hq =>
      ⟨.seqInside hp.scope hq.scope key, by rw [← hp.eq, ← hq.eq]; rfl⟩
  | thenSkip _ _ ihp ihq =>
    exact .two ihp ihq fun _ _ _ _ _ hp hq =>
      ⟨.thenSkip hp.scope hq.scope, by rw [← hp.eq, ← hq.eq]; rfl⟩
  | orElse _ _ ihp ihq =>
    exact .two ihp ihq fun _ _ _ _ _ hp hq =>
      ⟨.orElse hp.scope hq.scope, by rw [← hp.eq, ← hq.eq]; rfl⟩
  | between _ _ _ iho ihc ihp =>
    -- What was built first still stands for the same when the others are built.
    refine .bind iho fun cs₁ _ _ h₁ ho => .bind (ihc.later h₁) fun cs₂ _ _ h₂ hc =>
      .bind (ihp.later (h₁.trans h₂)) fun cs₃ _ _ h₃ hp => ?_
    have ho := ho.mono (h₂.trans h₃)
    have hc := hc.mono h₃
    refine .pure ⟨.between ho.scope hc.scope hp.scope, ?_⟩
    rw [← ho.eq, ← hc.eq, ← hp.eq]
    rfl
  | many _ bounds hc ih =>
    exact .one ih fun _ _ _ hp => ⟨.many hp.scope bounds hc, by rw [← hp.eq]; rfl⟩
  | map _ hf ih => exact .one ih fun _ _ _ hp => ⟨.map hp.scope hf, by rw [← hp.eq]; rfl⟩
  | orDefault _ value ih =>
    exact .one ih fun _ _ _ hp => ⟨.orDefault hp.scope value, by rw [← hp.eq]; rfl⟩
  | traced _ label ih => exact .one ih fun _ _ _ hp =>
    ⟨.traced hp.scope label, by rw [← hp.eq]; rfl⟩
  | interleave _ hr hc ih =>
    exact .one ih fun _ _ _ hp => ⟨.interleave hp.scope hr hc, by rw [← hp.eq]; rfl⟩
  | custom step => exact .pure ⟨.custom step, rfl⟩
  | probe _ ih => exact .one ih fun _ _ _ hp => ⟨.probe hp.scope, by rw [← hp.eq]; rfl⟩

/-- An expression stands for the same, wherever it is built. -/
theorem Expr.expands {base : Cells} (hbound : bound ≤ base.size) {names : Names}
    (hn : names.Over entry base.size) {e : Expr} (he : e.Over entry (Ref.Below bound)) :
    Build.Expands entry bound base base (e.build names) (e.expand names base) :=
  Parser.expands_bindLinks (fun _ hl => Link.expands hbound hn hl) he

/-- A thunk builds the same, wherever it is called. -/
theorem Thunk.expands {base : Cells} (hbound : bound ≤ base.size) {names : Names}
    (hn : names.Over entry base.size) {t : Thunk} (ht : t.Over entry (Ref.Below bound)) :
    Build.Expands entry bound base base (t.build names) (t.expand names base) := by
  cases ht with
  | named name => exact Build.expands_named hn name
  | expr he => exact Expr.expands hbound hn he

/-! ## Following a link -/

/-- What it can come to when a link is followed in a memory. -/
inductive Run.Resolves (env : Env) (m : Memory) :
    Ref → EStateM.Result Stop Memory (Parser Ref) → Prop
  | rule {name : String} {p : Parser Ref} :
      env.rules.lookup name = some p → Resolves env m (.rule name) (.ok p m)
  | noRule {name : String} :
      env.rules.lookup name = none → Resolves env m (.rule name) (.error .exhausted m)
  | noCell {n : Nat} : m.cells[n]? = none → Resolves env m (.cell n) (.error .exhausted m)
  | built {n : Nat} {t : Thunk} {p : Parser Ref} :
      m.cells[n]? = some ⟨t, some p⟩ → Resolves env m (.cell n) (.ok p m)
  | raised {n : Nat} {t : Thunk} {f : Fault} : m.cells[n]? = some ⟨t, none⟩ →
      (t.build env.names).run m.cells = .error f →
      Resolves env m (.cell n) (.error (.fault f) ⟨m.cells, .raised f :: .forced n :: m.trace⟩)
  | returned {n : Nat} {t : Thunk} {p : Parser Ref} {cs : Cells} :
      m.cells[n]? = some ⟨t, none⟩ → (t.build env.names).run m.cells = .ok (p, cs) →
      Resolves env m (.cell n) (.ok p ⟨cs.settle n t p, .forced n :: m.trace⟩)

theorem Run.resolves (env : Env) (m : Memory) (l : Ref) :
    Run.Resolves env m l (Run.resolve env l m) := by
  cases l with
  | rule name =>
    cases hp : env.rules.lookup name with
    | none =>
      simp only [resolve, hp]
      exact .noRule hp
    | some p =>
      simp only [resolve, hp]
      exact .rule hp
  | cell n =>
    have hget : (get : Run Memory) m = .ok m m := rfl
    simp only [resolve, force, bind_of_ok hget]
    match hn : m.cells[n]? with
    | none => exact .noCell hn
    | some ⟨t, some p⟩ => exact .built hn
    | some ⟨t, none⟩ =>
      have hwrite : write (.forced n) m = .ok () ⟨m.cells, .forced n :: m.trace⟩ := rfl
      simp only [bind_of_ok hwrite]
      cases hbuild : (t.build env.names).run m.cells with
      | error f => exact .raised hn hbuild
      | ok r => exact .returned hn hbuild

/-! ## From a base on -/

/-- What is there at the beginning, and refers to nothing else. -/
structure Base (entry : Entry → Prop) where
  env : Env
  cells : Cells
  bound : Nat
  bound_le : bound ≤ cells.size
  names : env.names.Over entry cells.size
  rules : env.rules.Over entry cells.size
  scope : cells.Over entry bound

/-- The base that a session is. -/
def Session.Over.base {σ : Session} (h : σ.Over entry bound) : Base entry where
  env := σ.env
  cells := σ.cells
  bound := bound
  bound_le := h.bound_le
  names := h.names
  rules := h.rules
  scope := h.cells

namespace Base

variable {b : Base entry} {cs cs' : Cells} {n : Nat} {t : Thunk}

/-- The cells have come from those of the base. -/
structure Later (b : Base entry) (cs : Cells) : Prop where
  grown : b.cells.Grown cs
  scope : cs.Over entry b.bound

theorem Later.refl (b : Base entry) : b.Later b.cells := ⟨.refl _, b.scope⟩

theorem Later.extended (h : b.Later cs) (hext : cs.Extended entry b.bound cs') : b.Later cs' :=
  ⟨h.grown.trans hext.grown, h.scope.extended hext⟩

theorem Later.raised (h : b.Later cs) (hn : cs[n]? = some ⟨t, none⟩) {f : Fault}
    (hbuild : (t.build b.env.names).run cs = .error f) :
    t.expand b.env.names b.cells = .error f := by
  have hcomes := Thunk.expands b.bound_le b.names (h.scope.thunk n _ hn) cs h.grown
  rw [hbuild] at hcomes
  generalize t.expand b.env.names b.cells = y at hcomes
  cases hcomes with
  | error f => rfl

/-- A thunk that returns adds cells and leaves the others, its own included. -/
theorem Later.returned (h : b.Later cs) (hn : cs[n]? = some ⟨t, none⟩) {p : Parser Ref}
    (hbuild : (t.build b.env.names).run cs = .ok (p, cs')) :
    cs.Extended entry b.bound cs' ∧ cs'[n]? = some ⟨t, none⟩ ∧
      ∃ P, t.expand b.env.names b.cells = .ok P ∧ p.Denotes entry b.cells cs' P := by
  have hcomes := Thunk.expands b.bound_le b.names (h.scope.thunk n _ hn) cs h.grown
  rw [hbuild] at hcomes
  generalize t.expand b.env.names b.cells = y at hcomes
  cases hcomes with
  | ok hext hp =>
    have hlt : n < cs.size := (Array.getElem?_eq_some_iff.1 hn).1
    exact ⟨hext, (hext.old n hlt).trans hn, _, rfl, hp⟩

theorem Later.settle (h : b.Later cs) (hn : cs[n]? = some ⟨t, none⟩) {p : Parser Ref}
    (hp : p.Over entry (Ref.Below cs.size)) : b.Later (cs.settle n t p) :=
  ⟨h.grown.trans (Cells.grown_settle hn), h.scope.settle hn hp⟩

/-- What a later memory finds writes entries like those of the base. -/
theorem Later.over_any (h : b.Later cs) {p : Parser Ref} (hn : cs[n]? = some ⟨t, some p⟩) :
    p.Over entry fun _ => True :=
  (h.scope.built n _ hn p rfl).mono fun _ _ => trivial

/-- What a thunk returns does, too, and it stands in a later memory. -/
theorem Later.returned_settle (h : b.Later cs) {p : Parser Ref} (hn : cs[n]? = some ⟨t, none⟩)
    (hbuild : (t.build b.env.names).run cs = .ok (p, cs')) :
    p.Over entry (fun _ => True) ∧ b.Later (cs'.settle n t p) ∧ cs.Grown (cs'.settle n t p) := by
  obtain ⟨hext, hn', P, -, hp⟩ := h.returned hn hbuild
  refine ⟨hp.scope.mono fun _ _ => trivial, (h.extended hext).settle hn' hp.scope, ?_⟩
  exact hext.grown.trans (Cells.grown_settle hn')

end Base

end Descent

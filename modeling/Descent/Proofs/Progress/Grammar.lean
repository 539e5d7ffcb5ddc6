/-
  Descent.Proofs.Progress.Grammar

  Parsers that take something whenever they match.  `Parser.Progressing` is a condition on
  the syntax of a parser: some part of it that is always applied takes at least one
  character.  A progressing parser that matches has moved on (`Base.advances_act`), since the
  other parts never go back (`Base.forward_act`).  So a grammar whose loops go over
  progressing elements is never blamed for a loop that stands still
  (`Base.unstalled_act`).

  References from parser to parser, and back, are followed by the induction on fuel: what a
  link stands for may be assumed to be progressing while it is looked at.
-/
import Descent.Proofs.Account.Basic
import Descent.Proofs.Lazy.Reuse
import Descent.Proofs.Progress.Advance

namespace Descent

open Run

/-! ## Progressing parsers -/

/-- Some part of the parser that is always applied takes at least one character, if links of
    such a kind do. -/
def Parser.Progressing {σ : Type} (links : σ → Prop) : Parser σ → Prop
  | satisfy _ => True
  | literal text => text ≠ []
  | bracketed _ _ => True
  | fail => True
  | link l => links l
  | field p _ => p.Progressing links
  | merge p q => p.Progressing links ∨ q.Progressing links
  | mergeInside p _ _ => p.Progressing links
  | seq p q => p.Progressing links ∨ q.Progressing links
  | seqInside p _ _ => p.Progressing links
  | thenSkip p q => p.Progressing links ∨ q.Progressing links
  | orElse p q => p.Progressing links ∧ q.Progressing links
  | between opening closing p =>
    (opening.Progressing links ∨ p.Progressing links) ∨ closing.Progressing links
  | many p bounds _ => 1 ≤ bounds.atLeast ∧ p.Progressing links
  | map p _ => p.Progressing links
  | traced p _ => p.Progressing links
  | interleave _ _ _ => True
  | _ => False

namespace Parser

variable {σ τ : Type} {links : σ → Prop}

theorem progressing_mapLinks {links : τ → Prop} (f : σ → τ) (p : Parser σ) :
    (p.mapLinks f).Progressing links ↔ p.Progressing fun l => links (f l) := by
  unfold mapLinks
  induction p <;> simp_all only [bindLinks, Progressing, Id.run_bind, Id.run_pure]

theorem progressing_quoted {delimiter : Text} (h : delimiter ≠ []) :
    (quoted delimiter : Parser σ).Progressing links := .inr h

/-- A choice is progressing if all alternatives are. -/
theorem progressing_choice {ps : List (Parser σ)} :
    (choice ps).Progressing links ↔ ∀ p ∈ ps, p.Progressing links :=
  choice_iff trivial fun _ _ => Iff.rfl

theorem PlainOver.mapLinks {links : τ → Prop} {f : σ → τ} {p : Parser σ}
    (hp : p.PlainOver fun l => links (f l)) : (p.mapLinks f).PlainOver links := by
  unfold Parser.mapLinks
  induction hp <;> simp only [bindLinks, Id.run_bind, Id.run_pure] <;> constructor <;> assumption

theorem PlainOver.over {p : Parser σ} (hp : p.PlainOver links) :
    p.Over (fun _ => True) links := by
  induction hp <;> constructor <;> first
    | assumption
    | exact Callback.notes_any _
    | exact fun k _ => k.notes_any

theorem PlainOver.guarded {element : Parser σ → Prop} {p : Parser σ} (hp : p.PlainOver links)
    (h : p.Guarded element) : p.Guarded fun q => element q ∧ q.PlainOver links := by
  induction hp <;> simp_all [Guarded]

theorem guarded_mapLinks {element : Parser τ → Prop} (f : σ → τ) (p : Parser σ) :
    (p.mapLinks f).Guarded element ↔ p.Guarded fun q => element (q.mapLinks f) := by
  unfold mapLinks
  induction p <;> simp_all only [bindLinks, Guarded, Id.run_bind, Id.run_pure]

end Parser

/-! ## What links stand for -/

/-- A run beside itself, in one text and not behind one place, whatever delayed parts there
    are. -/
def Simulation.inText : Simulation := { Simulation.within with cells := Eq }

theorem Simulation.forward_of_acts {a : Action} (h : Simulation.inText.Acts a a) : a.Forward := by
  intro s m t m' hs ht
  have hsim := h (s.text, s.pos) s s ⟨rfl, .self hs⟩ m m ⟨rfl, rfl⟩
  rw [ht] at hsim
  cases hsim with
  | ok hr =>
    cases hr with
    | some hst => exact hst.2

namespace Base

variable {b : Base fun _ => True} {G K : Origin → Prop}

/-- What finding an origin comes to.  The memory stays as it is, but for the note of a
    fault. -/
inductive Looks (m : Memory) : EStateM.Result Stop Memory (Parser Origin) → Prop
  | found (P : Parser Origin) : Looks m (.ok P m)
  | raised (f : Fault) : Looks m (.error (.fault f) { m with trace := .raised f :: m.trace })
  | missing : Looks m (.error .exhausted m)

theorem looks (o : Origin) (m : Memory) : Looks m (b.find o m) := by
  cases o with
  | settled n =>
    simp only [find]
    cases b.cells.builtAt n with
    | some p => exact .found _
    | none => exact .missing
  | delayed t =>
    simp only [find]
    cases t.expand b.env.names b.cells with
    | ok P => exact .found _
    | error f => exact .raised f
  | rule name =>
    simp only [find]
    cases b.env.rules.lookup name with
    | some p => exact .found _
    | none => exact .missing

section Forward

variable (hG : ∀ o, G o → ∀ P, b.Gives o P → P.PlainOver G)

include hG

theorem sim_find {o : Origin} (ho : G o) :
    Sim Simulation.inText.mem (fun P P' => P = P' ∧ P.PlainOver G) (b.find o) (b.find o) := by
  rintro ⟨cells, trace⟩ ⟨cells', trace'⟩ ⟨hcells, htrace⟩
  obtain rfl : cells = cells' := hcells
  obtain rfl : trace = trace' := htrace
  have hlooks := looks (b := b) o ⟨cells, trace⟩
  generalize hr : b.find o ⟨cells, trace⟩ = r at hlooks
  cases hlooks with
  | found P => exact .ok ⟨rfl, hG o ho P ⟨_, _, hr⟩⟩ ⟨rfl, rfl⟩
  | raised f => exact .fault ⟨rfl, rfl⟩
  | missing => exact .exhausted

theorem acts_inText (n : Nat) (o : Origin) (ho : G o) :
    Simulation.inText.Acts (followBy b.find n o) (followBy b.find n o) := by
  induction n generalizing o with
  | zero => exact fun _ _ _ _ => .exhaust
  | succ n ih =>
    intro v s s' h
    refine .bind (sim_find hG ho) ?_
    rintro P _ ⟨rfl, hP⟩
    exact Simulation.acts_act (Nat.le_refl n) ih hP v s s' h

/-- Plain parsers go forward. -/
theorem forward_act {P : Parser Origin} (hP : P.PlainOver G) (n : Nat) :
    (P.act (followBy b.find n) n).Forward :=
  Simulation.forward_of_acts (Simulation.acts_act (Nat.le_refl n) (acts_inText hG n) hP)

/-- If progressing links advance, so does every progressing parser over them. -/
theorem advances_act {n : Nat} (hlinks : ∀ o, G o → K o → (followBy b.find n o).Advances)
    {P : Parser Origin} (hP : P.PlainOver G) (hprogress : P.Progressing K) :
    (P.act (followBy b.find n) n).Advances := by
  have hforward := fun {P} hP => forward_act hG (P := P) hP n
  induction hP with
  | satisfy test => exact Action.advances_satisfy test
  | literal text => exact Action.advances_literal hprogress
  | bracketed left right => exact Action.advances_bracketed left right
  | fail => exact fun _ _ _ _ _ h => nomatch h
  | link ho => exact hlinks _ ho hprogress
  | field _ key ih => exact (ih hprogress).andStay fun _ => Action.stays_withValue _
  | merge hp hq ihp ihq =>
    exact .andThenStay (hprogress.imp ihp ihq) (hforward hp) (hforward hq).rises Action.stays_merged
  | mergeInside hp _ key ihp _ =>
    exact (ihp hprogress).andStay fun _ => Action.stays_mergeInside _ key
  | seq hp hq ihp ihq =>
    exact .andThen (hprogress.imp ihp ihq) (hforward hp) (hforward hq).rises
  | seqInside hp _ key ihp _ =>
    exact (ihp hprogress).andStay fun _ => Action.stays_seqInside _ key
  | thenSkip hp hq ihp ihq =>
    exact .andThenStay (hprogress.imp ihp ihq) (hforward hp) (hforward hq).rises
      fun l => Action.stays_withValue fun _ => l.value
  | orElse _ _ ihp ihq => exact (ihp hprogress.1).orElse (ihq hprogress.2)
  | between ho hc hp iho ihc ihp =>
    -- The opening and what follows it are the first part, the closing is the second.
    have hfirst := fun h : _ ∨ _ =>
      Action.Advances.andThen (h.imp iho ihp) (hforward ho) (hforward hp).rises
    exact .andThenStay (hprogress.imp hfirst ihc) (hforward (ho.seq hp)) (hforward hc).rises
      fun l => Action.stays_withValue fun _ => l.value
  | many _ bounds condition ih => exact (ih hprogress.2).many hprogress.1 condition n
  | map _ f ih => exact (ih hprogress).andStay fun _ => Action.stays_call f
  | traced _ label ih => exact (ih hprogress).traced label
  | interleave hp ofRun condition _ => exact (hforward hp).rises.interleave ofRun condition n
  | upTo => exact absurd hprogress id
  | remaining => exact absurd hprogress id
  | endOfInput => exact absurd hprogress id
  | constant => exact absurd hprogress id
  | lookAhead => exact absurd hprogress id
  | checkpoint => exact absurd hprogress id
  | orDefault => exact absurd hprogress id

/-- Progressing links advance, to any depth. -/
theorem advances_follow (hK : ∀ o, G o → K o → ∀ P, b.Gives o P → P.Progressing K) (n : Nat)
    (o : Origin) (hoG : G o) (hoK : K o) : (followBy b.find n o).Advances := by
  induction n generalizing o with
  | zero => exact fun _ _ _ _ _ h => nomatch h
  | succ n ih =>
    -- Here links are taken to advance while the parser found is looked at.
    intro s m t m' hs h
    obtain ⟨P, m₁, hfind, h⟩ := exists_of_bind h
    have hgives : b.Gives o P := ⟨m, m₁, hfind⟩
    exact advances_act hG ih (hG o hoG P hgives) (hK o hoG hoK P hgives) s m₁ t m' hs h

end Forward

end Base

/-! ## Loops that stand still -/

/-- A run ends with the complaint of a loop that stands still only if a callback has raised
    that very fault. -/
def Account.unstalled : Account where
  cells _ := True
  passed _ := True
  ended e w := ∀ g : GrammarError, g.Stalled → e = .fault (.grammar g) → .raised (.grammar g) ∈ w
  entry _ := True
  nil := trivial
  append _ _ := trivial
  after _ h g hg he := List.mem_append_left _ (h g hg he)
  called _ := trivial
  checked _ _ := trivial
  probed _ := trivial
  failed _ _ _ _ := trivial
  matched _ _ _ _ _ := trivial
  left _ _ _ _ h g hg he := List.mem_append_left _ (h g hg he)
  exhausted _ _ he := nomatch he
  raised f g _ he := by
    obtain rfl : f = .grammar g := Stop.fault.inj he
    exact List.mem_singleton_self _
  rejected e hne g hg he := by
    cases he
    exact absurd hg hne

namespace Base

variable {b : Base fun _ => True} {G K : Origin → Prop}
  (hG : ∀ o, G o → ∀ P, b.Gives o P → P.PlainOver G)
  (hK : ∀ o, G o → K o → ∀ P, b.Gives o P → P.Progressing K)

include hG hK

/-- A progressing element takes something, so no loop can complain of it. -/
theorem spares_act {P : Parser Origin} (hP : P.Progressing K ∧ P.PlainOver G) (n : Nat) :
    Account.unstalled.congruence.Spares (P.act (followBy b.find n) n) := by
  intro s m next m' hahead h hpos
  have hadvances := advances_act hG (advances_follow hG hK n) hP.2 hP.1
  have hmoved : s.pos < next.pos := hadvances s m next m' (Nat.le_of_lt hahead) h
  exact absurd hpos (Nat.ne_of_gt hmoved)

/-- A plain parser whose loops go over progressing elements is not blamed for any of them. -/
theorem unstalled_act (hguarded : ∀ o, G o → ∀ P, b.Gives o P → P.Guarded (·.Progressing K))
    {P : Parser Origin} (hP : P.PlainOver G) (hPguarded : P.Guarded (·.Progressing K)) (n : Nat) :
    Account.unstalled.Acts (P.act (followBy b.find n) n) := by
  refine Account.acts_find (fun o ho m _ => ⟨?_, fun P m' hfind => ?_⟩)
    (fun n _ hQ => spares_act hG hK hQ n) hP.over (hP.guarded hPguarded) n
  · -- Finding writes nothing, or the note of the fault with which it ends.
    have hlooks := looks (b := b) o m
    generalize b.find o m = r at hlooks
    cases hlooks with
    | found P => exact .ok P (w := []) rfl trivial trivial
    | raised f => exact .ended (w := [.raised f]) rfl (Account.unstalled.raised f)
    | missing => exact .ended rfl Account.unstalled.exhausted
  · have hgives : b.Gives o P := ⟨m, m', hfind⟩
    have hplain := hG o ho P hgives
    exact ⟨hplain.over, hplain.guarded (hguarded o ho P hgives)⟩

end Base

section Session

variable {σ : Session} {bound : Nat} (hσ : σ.Over (fun _ => True) bound) {G K : Origin → Prop}
  (hG : ∀ o, G o → ∀ P, hσ.base.Gives o P → P.PlainOver G)
  (hK : ∀ o, G o → K o → ∀ P, hσ.base.Gives o P → P.Progressing K) {p : Parser Ref}
  (hp : p.Over (fun _ => True) (Ref.Below σ.cells.size))
  (hplain : p.PlainOver fun l => G (σ.cells.origin σ.cells l)) {n : Nat} {s : State} {m : Memory}

include hG hK hp hplain

/-- In a session, a progressing parser that matches inside a text has moved on. -/
theorem Session.Over.advances (hprogress : p.Progressing fun l => K (σ.cells.origin σ.cells l))
    {t : State} (hs : s.pos ≤ s.text.length)
    (h : p.eval σ.env n s ⟨σ.cells, []⟩ = .ok (some t) m) : s.pos < t.pos := by
  have hprogress' : (hσ.base.named p).Progressing K := (Parser.progressing_mapLinks _ p).2 hprogress
  have hplain' : (hσ.base.named p).PlainOver G := hplain.mapLinks
  have hadvances := Base.advances_act hG (Base.advances_follow hG hK n) hplain' hprogress'
  -- The run without cells matches too, and at the same place.
  have hends := hσ.ends_eval hp n s
  rw [h] at hends
  generalize hr : (hσ.base.named p).act _ n s _ = r at hends
  cases hends with
  | ok => exact hadvances s _ t _ hs hr

/-- In a session, a parser whose loops go over progressing elements is not blamed for any of
    them. -/
theorem Session.Over.unstalled
    (hguarded : ∀ o, G o → ∀ P, hσ.base.Gives o P → P.Guarded (·.Progressing K))
    (hpguarded : p.Guarded (·.Progressing fun l => K (σ.cells.origin σ.cells l)))
    {e : GrammarError} (he : e.Stalled)
    (h : p.eval σ.env n s ⟨σ.cells, []⟩ = .error (.fault (.grammar e)) m) :
    .raised (.grammar e) ∈ m.trace := by
  have hpguarded' : (hσ.base.named p).Guarded (·.Progressing K) := by
    rw [Base.named, Parser.guarded_mapLinks]
    simp only [Parser.progressing_mapLinks]
    exact hpguarded
  have hplain' : (hσ.base.named p).PlainOver G := hplain.mapLinks
  have hunstalled := Base.unstalled_act hG hK hguarded hplain' hpguarded' n s ⟨#[], []⟩ trivial
  have hends := hσ.ends_eval hp n s
  rw [h] at hends
  generalize (hσ.base.named p).act _ n s _ = r at hends hunstalled
  cases hends with
  | @ended _ _ m' hbeside =>
    cases hunstalled with
    | ended htrace hw =>
      -- The note of a fault is shown, so it stands in both traces.
      have hmem : .raised (.grammar e) ∈ Trace.shown m'.trace := by
        rw [htrace, List.append_nil]
        exact List.mem_filter.2 ⟨hw e he rfl, rfl⟩
      rw [← hbeside.trace] at hmem
      exact (List.mem_filter.1 hmem).1
  | waived h => exact absurd h id

end Session

/-- A condition on the syntax rules out loops that stand still.  Let a set of origins be such
    that all parsers they stand for are plain and refer to no others, and let those of a
    second set stand for progressing parsers, if links to that set are taken to be
    progressing.  Then a progressing parser that matches inside a text has moved on.  And if
    the loops of all these parsers go over progressing elements, unless they are limited, a
    run never ends with a complaint about a loop that stands still; only a callback can raise
    such a fault, and then it is noted. -/
theorem Session.progressing_sound {σ : Session} {bound : Nat}
    (hσ : σ.Over (fun _ => True) bound) {G K : Origin → Prop}
    (hG : ∀ o, G o → ∀ P, hσ.base.Gives o P → P.PlainOver G)
    (hK : ∀ o, G o → K o → ∀ P, hσ.base.Gives o P → P.Progressing K) {p : Parser Ref}
    (hp : p.Over (fun _ => True) (Ref.Below σ.cells.size))
    (hplain : p.PlainOver fun l => G (σ.cells.origin σ.cells l)) :
    (p.Progressing (fun l => K (σ.cells.origin σ.cells l)) →
      ∀ n s t m, s.pos ≤ s.text.length →
        p.eval σ.env n s ⟨σ.cells, []⟩ = .ok (some t) m → s.pos < t.pos) ∧
    ((∀ o, G o → ∀ P, hσ.base.Gives o P → P.Guarded (·.Progressing K)) →
      p.Guarded (·.Progressing fun l => K (σ.cells.origin σ.cells l)) →
      ∀ n s (e : GrammarError) m, e.Stalled →
        p.eval σ.env n s ⟨σ.cells, []⟩ = .error (.fault (.grammar e)) m →
        .raised (.grammar e) ∈ m.trace) :=
  ⟨fun hprogress _ _ _ _ hs h => hσ.advances hG hK hp hplain hprogress hs h,
    fun hguarded hpguarded _ _ _ _ he h => hσ.unstalled hG hK hp hplain hguarded hpguarded he h⟩

namespace Sample

/-- A cross, or items between brackets, through the delayed part. -/
def item : Parser Ref :=
  .orElse (.literal ['x'])
    (.between (.literal ['[']) (.literal [']']) (.star (.link (.cell 0))))

/-- At least one item. -/
def items : Parser Ref := .many (.link (.cell 0)) ⟨1, 0⟩ none

/-- A session in which the delayed part stands for an item. -/
def lists : Session := ⟨[], [("item", item)], #[⟨.named "item", none⟩], State.start []⟩

/-- What the delayed part stands for. -/
def IsItem (o : Origin) : Prop := o = .delayed (.named "item")

theorem item_plain : item.PlainOver fun l => IsItem (lists.cells.origin lists.cells l) := by
  refine .orElse (.literal _) (.between (.literal _) (.literal _) (.many (.link ?_) _ _))
  rfl

theorem items_plain : items.PlainOver fun l => IsItem (lists.cells.origin lists.cells l) := by
  refine .many (.link ?_) _ _
  rfl

theorem items_over : items.Over (fun _ => True) (Ref.Below 1) :=
  .repeated (.link (by decide)) _

theorem lists_over : lists.Over (fun _ => True) 1 where
  bound_le := Nat.le_refl 1
  names := by
    refine .cons ?_ (.nil _ 1) "item"
    exact .orElse (.literal _) (.between (.literal _) (.literal _)
      (.repeated (.link (by decide)) _))
  rules := .nil _ 1
  cells := by
    refine .of_waiting fun cell hcell => ?_
    obtain rfl := List.mem_singleton.1 (Array.mem_def.1 hcell)
    exact ⟨rfl, .named "item"⟩

theorem gives_item {o : Origin} (ho : IsItem o) {P : Parser Origin}
    (h : lists_over.base.Gives o P) : P = item.mapLinks (lists.cells.origin lists.cells) := by
  obtain rfl : o = .delayed (.named "item") := ho
  obtain ⟨m, m', hfind⟩ := h
  cases hfind
  rfl

end Sample

/-- Lists in a list, and a cross behind them; the element of both loops is progressing because
    it may be taken to be so where it refers to itself. -/
theorem Session.progressing_sound_items :
    Sample.lists.Over (fun _ => True) 1 ∧
    (∃ t m, Sample.items.eval Sample.lists.env 12 (State.start "[x[xx]]x[".toList)
      ⟨Sample.lists.cells, []⟩ = .ok (some t) m ∧ t.pos = 8 ∧ 0 < t.pos) ∧
    ∀ n s (e : GrammarError) m, e.Stalled →
      Sample.items.eval Sample.lists.env n s ⟨Sample.lists.cells, []⟩
        = .error (.fault (.grammar e)) m → .raised (.grammar e) ∈ m.trace := by
  have hG : ∀ o, Sample.IsItem o → ∀ P, Sample.lists_over.base.Gives o P →
      P.PlainOver Sample.IsItem := by
    rintro o ho P h
    rw [Sample.gives_item ho h]
    exact Sample.item_plain.mapLinks
  have hK : ∀ o, Sample.IsItem o → Sample.IsItem o → ∀ P, Sample.lists_over.base.Gives o P →
      P.Progressing Sample.IsItem := by
    rintro o ho - P h
    rw [Sample.gives_item ho h]
    exact ⟨List.cons_ne_nil _ _, .inl (.inl (List.cons_ne_nil _ _))⟩
  have hguarded : ∀ o, Sample.IsItem o → ∀ P, Sample.lists_over.base.Gives o P →
      P.Guarded (·.Progressing Sample.IsItem) := by
    rintro o ho P h
    rw [Sample.gives_item ho h]
    exact ⟨trivial, trivial, trivial, fun _ => rfl, trivial⟩
  obtain ⟨hadvances, hunstalled⟩ := Session.progressing_sound Sample.lists_over hG hK
    Sample.items_over Sample.items_plain
  have hreached : (matched? (Sample.items.eval Sample.lists.env 12
      (State.start "[x[xx]]x[".toList) ⟨Sample.lists.cells, []⟩)).map State.pos = some 8 := by
    decide +kernel
  obtain ⟨t, ht, hpos⟩ := Option.map_eq_some_iff.1 hreached
  obtain ⟨m, hr⟩ := matched?_eq_some ht
  exact ⟨Sample.lists_over,
    ⟨t, m, hr, hpos, hadvances ⟨Int.le_refl 1, rfl⟩ 12 _ t m (Nat.zero_le _) hr⟩,
    hunstalled hguarded ⟨fun _ => rfl, trivial⟩⟩

end Descent

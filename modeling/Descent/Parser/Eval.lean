/-
  Descent.Parser.Eval

  What a parser does with a text.  `Parser.act` gives every combinator its meaning, for
  any meaning of the links; the meaning of a whole is made from the meanings of its parts
  and from nothing else.  `follow` then gives the links theirs: the parser that a link
  stands for, in which links are followed in their turn.  Fuel bounds the depth to which
  links are followed and the turns of a loop.
-/
import Descent.Action.Sequence
import Descent.Action.Repeat
import Descent.Action.Scan

namespace Descent

/-- What a parser does, if its links do what `follow` says.  A loop makes fewer
    than `fuel` turns. -/
def Parser.act {σ : Type} (follow : σ → Action) (fuel : Nat) : Parser σ → Action
  | satisfy test => Action.satisfy test
  | literal text => Action.literal text
  | upTo delimiter => Action.upTo delimiter
  | bracketed left right => Action.bracketed left right
  | remaining => Action.remaining
  | endOfInput => Action.endOfInput
  | constant value => Action.constant value
  | fail => Action.fail
  | lookAhead condition => Action.lookAhead condition
  | checkpoint label => Action.checkpoint label
  | link target => follow target
  | field p key => (p.act follow fuel).field key
  | merge p q => (p.act follow fuel).merge (q.act follow fuel)
  | mergeInside p q key => (p.act follow fuel).mergeInside (q.act follow fuel) key
  | seq p q => (p.act follow fuel).seq (q.act follow fuel)
  | seqInside p q key => (p.act follow fuel).seqInside (q.act follow fuel) key
  | thenSkip p q => (p.act follow fuel).thenSkip (q.act follow fuel)
  | orElse p q => (p.act follow fuel).orElse (q.act follow fuel)
  | between opening closing p =>
    (opening.act follow fuel).between (closing.act follow fuel) (p.act follow fuel)
  | many p bounds condition => (p.act follow fuel).many bounds condition fuel
  | map p f => (p.act follow fuel).map f
  | orDefault p value => (p.act follow fuel).orDefault value
  | traced p label => (p.act follow fuel).traced label
  | interleave p ofRun condition => (p.act follow fuel).interleave ofRun condition fuel
  | custom step => Action.custom step
  | probe p => (p.act follow fuel).probe

/-- What a link does: what the parser does that it stands for. -/
def Env.follow (env : Env) : Nat → Ref → Action
  | 0, _ => fun _ => Run.exhaust
  | fuel + 1, target => fun s => do
    let p ← Run.resolve env target
    p.act (env.follow fuel) fuel s

namespace Parser

/-- What a built parser does, to a depth of `fuel` links. -/
def eval (env : Env) (fuel : Nat) (p : Parser Ref) : Action := p.act (env.follow fuel) fuel

/-- Fuel for a state: for every character of its text, and once more, far more than the
    turns and links that a run makes without going forward. -/
def budget (s : State) : Nat := 0x100000000 * (s.text.length + 1)

/-- Apply a parser to a state. -/
def apply (env : Env) (p : Parser Ref) : Action := fun s => p.eval env (budget s) s

end Parser
end Descent

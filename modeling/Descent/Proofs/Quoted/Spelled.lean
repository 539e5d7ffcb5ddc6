/-
  Descent.Proofs.Quoted.Spelled

  Quoted texts, character by character.  `Parser.spelledQuoted` asks before each character
  whether the delimiter comes next.  It stops where the search finds the delimiter, and at the
  end of the text where the search finds none (`Reading.collect_provided`); there a delimiter
  that is not empty does not match, and the empty one would have been found at once.
-/
import Descent.Proofs.Quoted.RoundTrip
import Descent.Proofs.Reading.Scan

namespace Descent

/-- Join a list of texts. -/
def Callback.join : Callback Value Value :=
  .orFault "join of no texts" fun v => v.joined?.map .str

/-- A quoted text, spelled out: characters are taken as long as the delimiter does not come
    next, and joined. -/
def Parser.spelledQuoted {σ : Type} (d : Text) : Parser σ :=
  thenSkip
    (seq (literal d)
      (map (many anyChar {} (some (.total fun t => !d.isPrefixOf t))) .join))
    (literal d)

namespace Text

variable {d : Text}

/-- How many characters stand before the delimiter, or before the end of the text. -/
def untilDelimiter (d t : Text) : Nat := (offset? d t).getD t.length

theorem untilDelimiter_nil (d : Text) : untilDelimiter d [] = 0 := by
  rw [untilDelimiter, offset?_nil]
  split
  · rfl
  · rfl

theorem untilDelimiter_eq_zero {c : Char} {rest : Text} (h : d <+: c :: rest) :
    untilDelimiter d (c :: rest) = 0 := by
  rw [untilDelimiter, offset?_cons, if_pos (List.isPrefixOf_iff_prefix.2 h), Option.getD_some]

theorem untilDelimiter_cons {c : Char} {rest : Text} (h : ¬ d <+: c :: rest) :
    untilDelimiter d (c :: rest) = untilDelimiter d rest + 1 := by
  rw [untilDelimiter, offset?_cons, if_neg (mt List.isPrefixOf_iff_prefix.1 h), untilDelimiter]
  cases offset? d rest with
  | none => rfl
  | some k => exact Nat.add_comm 1 k

/-- The delimiter that stands there, if one does, is the first one. -/
theorem filter_untilDelimiter (d t : Text) :
    ((some (untilDelimiter d t)).filter fun k => d.isPrefixOf (t.drop k)) = offset? d t := by
  rw [untilDelimiter, Option.filter_some]
  cases hfind : offset? d t with
  | none =>
    have hend : ¬ d.isPrefixOf (t.drop t.length) = true := by
      intro h
      rw [List.drop_length, List.isPrefixOf_iff_prefix, List.prefix_nil] at h
      -- The empty delimiter would have been found.
      have hfound : offset? d t = some 0 :=
        offset?_eq_some_iff.2 ⟨Nat.zero_le _, h ▸ List.nil_prefix, fun k hk => nomatch hk⟩
      rw [hfind] at hfound
      cases hfound
    rw [Option.getD_none, if_neg hend]
  | some k =>
    rw [Option.getD_some, if_pos (List.isPrefixOf_iff_prefix.2 (prefix_drop_offset? hfind))]

end Text

/-- The characters that no delimiter begins with, one after another, are those before the first
    delimiter. -/
theorem Reading.collect_provided (d : Text) (count : Nat) (t : Text) :
    ((char fun _ => true).provided fun t => !d.isPrefixOf t).collect {} count t
      = (Text.untilDelimiter d t, t.take (Text.untilDelimiter d t)) := by
  induction t generalizing count with
  | nil => rw [collect, Text.untilDelimiter_nil, List.take_nil]
  | cons c rest ih =>
    by_cases hd : d <+: c :: rest
    · have hstop : (char fun _ => true).provided (fun t => !d.isPrefixOf t) (c :: rest) = none := by
        rw [provided, List.isPrefixOf_iff_prefix.2 hd]
        rfl
      rw [collect_cons_stop hstop, Text.untilDelimiter_eq_zero hd, List.take_zero]
    · have hmatch : (char fun _ => true).provided (fun t => !d.isPrefixOf t) (c :: rest)
          = some (0 + 1, c) := by
        rw [provided, Bool.eq_false_iff.2 (mt List.isPrefixOf_iff_prefix.1 hd)]
        rfl
      rw [collect_cons_match rfl hmatch, List.drop_zero, ih, Text.untilDelimiter_cons hd,
        List.take_succ_cons, Nat.zero_add, Nat.add_comm]

open Run in
/-- Taken one by one and joined, the characters before a delimiter are a part of the text. -/
theorem Action.takes_untilDelimiter (d : Text) (n : Nat) :
    Takes (map (many (satisfy (.total fun _ => true)) {}
      (some (.total fun t => !d.isPrefixOf t)) n) .join) n
      fun t => some (Text.untilDelimiter d t) := by
  have hmany : Reads (many (satisfy (.total fun _ => true)) {}
      (some (.total fun t => !d.isPrefixOf t)) n) n (fun cs => .list (cs.map fun c => .str [c]))
      (((Reading.char fun _ => true).provided fun t => !d.isPrefixOf t).many {}) :=
    (reads_satisfy _).many_provided (Reading.char_consuming _) {} (fun _ => rfl) (Nat.le_refl n)
  have hjoin : ∀ cs : Text, call .join (.list (cs.map fun c => .str [c])) = pure (.str cs) := by
    intro cs
    refine call_orFault "join of no texts" ?_
    rw [Value.joined?_chars, Option.map_some]
  intro s _ hs
  rw [hmany.mapValue hjoin s hs, Reading.many, Reading.collect_provided]
  rfl

namespace Parser

/-- The search for the delimiter and the characters one by one come to the same, for every
    delimiter and in every state: with any fuel for the characters ahead, and when they are
    applied.  Both always answer and leave the memory alone. -/
theorem quoted_agrees_spelled (d : Text) (env : Env) (s : State) (m : Memory) :
    (∀ n, s.rest.length < n → ∃ o, (quoted d).eval env n s m = .ok o m ∧
      (spelledQuoted d).eval env n s m = .ok o m) ∧
    ∃ o, (quoted d).apply env s m = .ok o m ∧ (spelledQuoted d).apply env s m = .ok o m := by
  have heval : ∀ n, s.rest.length < n → ∃ o, (quoted d).eval env n s m = .ok o m ∧
      (spelledQuoted d).eval env n s m = .ok o m := by
    intro n hn
    have hspelled := (Action.takes_untilDelimiter d n).delimited (Text.filter_untilDelimiter d) s hn
    exact ⟨s.quoted? d, eval_quoted d env n s m, congrFun hspelled m⟩
  obtain ⟨n, hbudget, hn⟩ := length_lt_budget s
  exact ⟨heval, heval (budget s) (by omega)⟩

/-- Of five stars the first four are two delimiters with nothing in between, for both of them. -/
theorem quoted_agrees_spelled_doubled :
    let s := State.make "x***** is".toList 1 .none
    s.rest.length < 9 ∧ ∃ o, (quoted "**".toList).eval ⟨[], []⟩ 9 s ⟨#[], []⟩ = .ok o ⟨#[], []⟩ ∧
      (spelledQuoted "**".toList).eval ⟨[], []⟩ 9 s ⟨#[], []⟩ = .ok o ⟨#[], []⟩ ∧
      o.map State.pos = some 5 := by
  intro s
  have hfuel : s.rest.length < 9 := by decide
  obtain ⟨o, hquoted, hspelled⟩ :=
    (quoted_agrees_spelled "**".toList ⟨[], []⟩ s ⟨#[], []⟩).1 9 hfuel
  refine ⟨hfuel, o, hquoted, hspelled, ?_⟩
  rw [eval_quoted] at hquoted
  injection hquoted with ho
  rw [← ho]
  decide

end Parser
end Descent

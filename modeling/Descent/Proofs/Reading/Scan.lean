/-
  Descent.Proofs.Reading.Scan

  What the loops of readings take and what they give.  A repetition takes a whole text if
  it matches wherever it comes to stand (`collect_all`).  A scan stops where its condition
  fails or nothing is left, and finds something unless it stops at once; what it finds are
  runs of characters, none of them empty and no two in a row, and what the reading gives
  on an end of the text.
-/
import Descent.Proofs.Reading.Basic
import Mathlib.Data.List.Chain

namespace Descent.Reading

variable {α : Type} {r r' : Reading α} {ofRun : Text → α} {goesOn : Text → Bool}

/-! ## Repetitions -/

theorem collect_cons_match {bounds : Bounds} {count : Nat} {c : Char} {rest : Text} {n : Nat}
    {a : α} (hreached : bounds.reached count = false) (h : r (c :: rest) = some (n + 1, a)) :
    r.collect bounds count (c :: rest)
      = (n + 1 + (r.collect bounds (count + 1) (rest.drop n)).1,
        a :: (r.collect bounds (count + 1) (rest.drop n)).2) := by
  rw [collect, if_neg (Bool.eq_false_iff.1 hreached), h]

theorem collect_cons_stop {c : Char} {rest : Text} (h : r (c :: rest) = none) (bounds : Bounds)
    (count : Nat) : r.collect bounds count (c :: rest) = (0, []) := by
  rw [collect, h]
  exact ite_self _

/-- Without an upper bound it does not matter how many results are behind. -/
theorem collect_unlimited {bounds : Bounds} (h : bounds.unlimited = true) (count count' : Nat)
    (t : Text) : r.collect bounds count t = r.collect bounds count' t := by
  have hreached : ∀ n, bounds.reached n = false := by
    intro n
    rw [Bounds.unlimited, beq_iff_eq] at h
    rw [Bounds.reached, h]
    rfl
  fun_induction collect r bounds count t generalizing count' with
  | case1 => rw [collect]
  | case2 count c rest hstop => exact absurd hstop (Bool.eq_false_iff.1 (hreached count))
  | case3 count c rest _ n a heq k as hrest ih =>
    rw [collect_cons_match (hreached count') heq, ← ih (count' + 1), hrest]
  | case4 count c rest _ hnone =>
    rw [collect, if_neg (Bool.eq_false_iff.1 (hreached count'))]
    split
    · next n a heq => exact absurd heq (hnone n a)
    · rfl

/-- Everything a repetition collects was given by the reading. -/
theorem mem_collect {bounds : Bounds} {count : Nat} {t : Text} {a : α}
    (h : a ∈ (r.collect bounds count t).2) : ∃ u n, r u = some (n, a) := by
  fun_induction collect r bounds count t with
  | case1 => cases h
  | case2 => cases h
  | case3 count c rest _ n b hmatch k as hrest ih =>
    rw [hrest] at ih
    rcases List.mem_cons.1 h with rfl | h
    · exact ⟨_, _, hmatch⟩
    · exact ih h
  | case4 => cases h

/-- A repetition without bounds takes the whole text, if there is a condition that holds
    at its start and again behind every match, and under which the reading matches. -/
theorem collect_all {P : Text → Prop} (hr : r.Consuming)
    (hmatch : ∀ t, t ≠ [] → P t → ∃ n a, r t = some (n, a) ∧ P (t.drop n))
    (count : Nat) (t : Text) (ht : P t) : (r.collect {} count t).1 = t.length := by
  fun_induction collect r {} count t with
  | case1 => rfl
  | case2 count c rest hreached => cases hreached
  | case3 count c rest _ n a heq k as hrest ih =>
    obtain ⟨n', a', heq', hnext⟩ := hmatch (c :: rest) (List.cons_ne_nil c rest) ht
    rw [heq] at heq'
    cases heq'
    have hle := (hr _ _ _ heq).2
    have htaken := ih hnext
    rw [hrest, List.length_drop] at htaken
    dsimp only at htaken ⊢
    rw [List.length_cons] at hle ⊢
    omega
  | case4 count c rest _ hnone =>
    -- The condition promises a match here.
    obtain ⟨n, a, heq, -⟩ := hmatch (c :: rest) (List.cons_ne_nil c rest) ht
    obtain ⟨k, rfl, -⟩ := hr.match_cons heq
    exact absurd heq (hnone k a)

theorem collect_le_atMost (r : Reading α) {bounds : Bounds} {count : Nat} (t : Text)
    (hpos : 0 < bounds.atMost) (hcount : count ≤ bounds.atMost) :
    ((count + (r.collect bounds count t).2.length : Nat) : Int) ≤ bounds.atMost := by
  fun_induction collect r bounds count t with
  | case1 => exact hcount
  | case2 => exact hcount
  | case3 count c rest hreached n a heq k as hrest ih =>
    rw [hrest] at ih
    simp only [Bounds.reached, Bool.and_eq_true, bne_iff_ne, decide_eq_true_eq] at hreached
    rw [List.length_cons]
    dsimp only at ih
    omega
  | case4 => exact hcount

theorem many_eq_some {bounds : Bounds} {t : Text} {n : Nat} {as : List α} :
    r.many bounds t = some (n, as) ↔
      r.collect bounds 0 t = (n, as) ∧ bounds.lacking as.length = false := by
  rw [many]
  cases hx : r.collect bounds 0 t with
  | mk k bs =>
    by_cases h : bounds.lacking bs.length = true
    · rw [if_pos h]
      refine ⟨?_, ?_⟩
      · intro hnone
        cases hnone
      · rintro ⟨heq, hlacking⟩
        cases heq
        rw [h] at hlacking
        cases hlacking
    · rw [if_neg h, Option.some_inj]
      refine ⟨fun heq => ⟨heq, ?_⟩, And.left⟩
      cases heq
      exact Bool.eq_false_iff.2 h

/-- A repetition keeps to its bounds. -/
theorem many_bounds {bounds : Bounds} {t : Text} {n : Nat} {as : List α}
    (h : r.many bounds t = some (n, as)) :
    bounds.atLeast ≤ as.length ∧ (0 < bounds.atMost → (as.length : Int) ≤ bounds.atMost) := by
  obtain ⟨hcollect, hlacking⟩ := many_eq_some.1 h
  refine ⟨?_, ?_⟩
  · simp only [Bounds.lacking, Bool.and_eq_false_iff, bne_eq_false_iff_eq,
      decide_eq_false_iff_not] at hlacking
    omega
  · intro hpos
    have hzero : ((0 : Nat) : Int) ≤ bounds.atMost := by omega
    have hle := collect_le_atMost r t hpos hzero
    rw [hcollect, Nat.zero_add] at hle
    exact hle

/-! ## Scans -/

theorem close_of_ne_nil {run : Text} (h : run ≠ []) : close ofRun run = [ofRun run] := by
  rw [close, if_neg (by rwa [List.isEmpty_iff])]

theorem mem_close {run : Text} {a : α} (h : a ∈ close ofRun run) :
    run ≠ [] ∧ a = ofRun run := by
  by_cases hrun : run = []
  · rw [hrun] at h
    cases h
  · rw [close_of_ne_nil hrun] at h
    exact ⟨hrun, List.mem_singleton.1 h⟩

theorem scan_end {run t : Text} (h : t = [] ∨ goesOn t = false) :
    r.scan ofRun goesOn run t = (0, close ofRun run) := by
  cases t with
  | nil => rw [scan]
  | cons c rest =>
    have hstop := h.resolve_left (List.cons_ne_nil c rest)
    rw [scan, if_neg (Bool.eq_false_iff.1 hstop)]

/-- Characters at which the reading does not match are added to the run. -/
theorem scan_append {x : Text} (hgoes : ∀ c ∈ x, ∀ u, goesOn (c :: u) = true)
    (hnone : ∀ c ∈ x, ∀ u, r (c :: u) = none) (run rest : Text) :
    r.scan ofRun goesOn run (x ++ rest)
      = (x.length + (r.scan ofRun goesOn (run ++ x) rest).1,
        (r.scan ofRun goesOn (run ++ x) rest).2) := by
  induction x generalizing run with
  | nil => rw [List.nil_append, List.append_nil, List.length_nil, Nat.zero_add]
  | cons c x ih =>
    have hmem : ∀ d ∈ x, d ∈ c :: x := fun _ => List.mem_cons_of_mem c
    rw [List.cons_append, scan, if_pos (hgoes c List.mem_cons_self _),
      hnone c List.mem_cons_self,
      ih (fun d hd => hgoes d (hmem d hd)) (fun d hd => hnone d (hmem d hd)),
      List.append_assoc, List.singleton_append, List.length_cons, Nat.add_right_comm]

/-- A scan depends only on what the reading does on the ends of the text. -/
theorem scan_congr {t : Text} (h : ∀ u, u <:+ t → r u = r' u) (run : Text) :
    r.scan ofRun goesOn run t = r'.scan ofRun goesOn run t := by
  fun_induction scan r ofRun goesOn run t with
  | case1 run => rw [scan]
  | case2 run c rest hgoes n a heq k as hrest ih =>
    have hsuffix : rest.drop n <:+ c :: rest :=
      (List.drop_suffix n rest).trans (List.suffix_cons c rest)
    have heq' : r' (c :: rest) = some (n + 1, a) := by rw [← h _ List.suffix_rfl, heq]
    rw [scan, if_pos hgoes, heq']
    dsimp only
    rw [← ih fun u hu => h u (hu.trans hsuffix), hrest]
  | case3 run c rest hgoes k as hrest hnone ih =>
    have hnone' : ∀ n a, r' (c :: rest) = some (n + 1, a) → False :=
      fun n a heq => hnone n a (by rw [h _ List.suffix_rfl, heq])
    rw [scan, if_pos hgoes, ← ih fun u hu => h u (hu.trans (List.suffix_cons c rest)), hrest]
    split
    · next n a heq => exact absurd heq (hnone' n a)
    · rfl
  | case4 run c rest hgoes => rw [scan, if_neg hgoes]

theorem scan_le (hr : r.Bounded) (ofRun : Text → α) (goesOn : Text → Bool) (run t : Text) :
    (r.scan ofRun goesOn run t).1 ≤ t.length := by
  fun_induction scan r ofRun goesOn run t with
  | case1 => exact Nat.zero_le _
  | case2 run c rest _ n a heq k as hrest ih =>
    have hn := hr _ _ _ heq
    rw [hrest, List.length_drop] at ih
    rw [List.length_cons] at hn ⊢
    dsimp only at ih ⊢
    omega
  | case3 run c rest _ k as hrest _ ih =>
    rw [hrest] at ih
    exact Nat.succ_le_succ ih
  | case4 => exact Nat.zero_le _

/-- A scan stops where nothing is left or its condition fails. -/
theorem scan_stop (r : Reading α) (ofRun : Text → α) (goesOn : Text → Bool) (run t : Text) :
    t.drop (r.scan ofRun goesOn run t).1 = []
      ∨ goesOn (t.drop (r.scan ofRun goesOn run t).1) = false := by
  fun_induction scan r ofRun goesOn run t with
  | case1 => exact .inl rfl
  | case2 run c rest _ n a heq k as hrest ih =>
    have hdrop : (c :: rest).drop (n + 1 + k) = (rest.drop n).drop k := by
      rw [List.drop_drop, Nat.add_right_comm, List.drop_succ_cons]
    rw [hrest] at ih
    rw [hdrop]
    exact ih
  | case3 run c rest _ k as hrest _ ih =>
    rw [hrest] at ih
    exact ih
  | case4 run c rest hgoes => exact .inr (Bool.eq_false_iff.2 hgoes)

/-- A scan with a run behind finds that run first. -/
theorem head?_scan_run (r : Reading α) (ofRun : Text → α) (goesOn : Text → Bool) {run : Text}
    (hrun : run ≠ []) (t : Text) :
    ∃ x, (r.scan ofRun goesOn run t).2.head? = some (ofRun x) := by
  fun_induction scan r ofRun goesOn run t with
  | case1 run => exact ⟨run, by rw [close_of_ne_nil hrun]; rfl⟩
  | case2 run => exact ⟨run, by rw [close_of_ne_nil hrun]; rfl⟩
  | case3 run c rest _ k as hrest _ ih =>
    rw [hrest] at ih
    exact ih (List.append_ne_nil_of_right_ne_nil run (List.cons_ne_nil c []))
  | case4 run => exact ⟨run, by rw [close_of_ne_nil hrun]; rfl⟩

/-- The first that a scan finds is a run, or the reading gives it at the start. -/
theorem head?_scan (r : Reading α) (ofRun : Text → α) {c : Char} {rest : Text}
    (hgoes : goesOn (c :: rest) = true) :
    ∃ a, (r.scan ofRun goesOn [] (c :: rest)).2.head? = some a
      ∧ ((∃ x, a = ofRun x) ∨ ∃ n, r (c :: rest) = some (n, a)) := by
  rw [scan, if_pos hgoes]
  split
  · next n a heq => exact ⟨a, rfl, .inr ⟨_, heq⟩⟩
  · obtain ⟨x, hx⟩ := head?_scan_run r ofRun goesOn (List.cons_ne_nil c []) rest
    exact ⟨ofRun x, hx, .inl ⟨x, rfl⟩⟩

/-- What a scan finds is a run of characters at which it went on, or the reading gives it
    on an end of the text. -/
theorem mem_scan {P : Char → Prop} (hP : ∀ c rest, goesOn (c :: rest) = true → P c)
    {run t : Text} (hrun : ∀ c ∈ run, P c) {a : α} (h : a ∈ (r.scan ofRun goesOn run t).2) :
    (∃ x, x ≠ [] ∧ (∀ c ∈ x, P c) ∧ a = ofRun x) ∨ ∃ u n, u <:+ t ∧ r u = some (n, a) := by
  fun_induction scan r ofRun goesOn run t with
  | case1 run =>
    obtain ⟨hne, rfl⟩ := mem_close h
    exact .inl ⟨run, hne, hrun, rfl⟩
  | case2 run c rest _ n b heq k as hrest ih =>
    rw [hrest] at ih
    rcases List.mem_append.1 h with h | h
    · obtain ⟨hne, rfl⟩ := mem_close h
      exact .inl ⟨run, hne, hrun, rfl⟩
    · rcases List.mem_cons.1 h with rfl | h
      · exact .inr ⟨c :: rest, n + 1, List.suffix_rfl, heq⟩
      · rcases ih (fun _ hc => absurd hc List.not_mem_nil) h with hfound | ⟨u, k, hu, hk⟩
        · exact .inl hfound
        · have hsuffix : rest.drop n <:+ c :: rest :=
            (List.drop_suffix n rest).trans (List.suffix_cons c rest)
          exact .inr ⟨u, k, hu.trans hsuffix, hk⟩
  | case3 run c rest hgoes k as hrest _ ih =>
    rw [hrest] at ih
    -- The run grows by a character at which the scan went on.
    have hlonger : ∀ d ∈ run ++ [c], P d := by
      intro d hd
      rcases List.mem_append.1 hd with hd | hd
      · exact hrun d hd
      · rw [List.mem_singleton.1 hd]
        exact hP c rest hgoes
    rcases ih hlonger h with hfound | ⟨u, k, hu, hk⟩
    · exact .inl hfound
    · exact .inr ⟨u, k, hu.trans (List.suffix_cons c rest), hk⟩
  | case4 run =>
    obtain ⟨hne, rfl⟩ := mem_close h
    exact .inl ⟨run, hne, hrun, rfl⟩

/-- If the reading gives no runs, then no two runs stand in a row. -/
theorem isChain_scan {IsRun : α → Prop} (hr : ∀ u n a, r u = some (n, a) → ¬IsRun a)
    (ofRun : Text → α) (goesOn : Text → Bool) (run t : Text) :
    (r.scan ofRun goesOn run t).2.IsChain fun a b => ¬(IsRun a ∧ IsRun b) := by
  have hclose : ∀ run, (close ofRun run).IsChain fun a b => ¬(IsRun a ∧ IsRun b) := by
    intro run
    by_cases hrun : run = []
    · rw [hrun]
      exact .nil
    · rw [close_of_ne_nil hrun]
      exact .singleton _
  fun_induction scan r ofRun goesOn run t with
  | case1 run => exact hclose run
  | case2 run c rest _ n a heq k as hrest ih =>
    rw [hrest] at ih
    -- The match is no run, so it may stand between any two others.
    have ha := hr _ _ _ heq
    have htail := ih.cons fun b _ (hab : IsRun a ∧ IsRun b) => ha hab.1
    refine (hclose run).append htail fun x _ y hy hxy => ?_
    rw [List.head?_cons, Option.mem_some_iff] at hy
    exact ha (hy ▸ hxy.2)
  | case3 run c rest _ k as hrest _ ih =>
    rw [hrest] at ih
    exact ih
  | case4 run => exact hclose run

/-! ## Interleavings -/

theorem interleave_eq_some {t : Text} {n : Nat} {as : List α} :
    r.interleave ofRun goesOn t = some (n, as) ↔
      r.scan ofRun goesOn [] t = (n, as) ∧ as ≠ [] := by
  rw [interleave]
  by_cases h : (r.scan ofRun goesOn [] t).2 = []
  · rw [if_pos (List.isEmpty_iff.2 h)]
    refine ⟨?_, ?_⟩
    · intro hnone
      cases hnone
    · rintro ⟨hscan, hne⟩
      rw [hscan] at h
      exact absurd h hne
  · rw [if_neg (mt List.isEmpty_iff.1 h), Option.some_inj]
    refine ⟨?_, ?_⟩
    · intro hscan
      refine ⟨hscan, ?_⟩
      rw [hscan] at h
      exact h
    · exact And.left

/-- An interleaving fails only where it may not go on. -/
theorem interleave_isSome {t : Text} (ht : t ≠ []) (hgoes : goesOn t = true) :
    ∃ n as, r.interleave ofRun goesOn t = some (n, as) := by
  obtain ⟨c, rest, rfl⟩ := List.exists_cons_of_ne_nil ht
  obtain ⟨a, ha, -⟩ := head?_scan r ofRun hgoes
  refine ⟨_, _, interleave_eq_some.2 ⟨rfl, fun hnil => ?_⟩⟩
  rw [hnil] at ha
  cases ha

/-- Where an interleaving matches, it went on. -/
theorem interleave_start {t : Text} {n : Nat} {as : List α}
    (h : r.interleave ofRun goesOn t = some (n, as)) :
    ∃ c rest, t = c :: rest ∧ goesOn (c :: rest) = true := by
  obtain ⟨hscan, hne⟩ := interleave_eq_some.1 h
  cases t with
  | nil =>
    rw [scan] at hscan
    cases hscan
    exact absurd rfl hne
  | cons c rest =>
    refine ⟨c, rest, rfl, ?_⟩
    by_cases hgoes : goesOn (c :: rest) = true
    · exact hgoes
    · rw [scan, if_neg hgoes] at hscan
      cases hscan
      exact absurd rfl hne

theorem Consuming.interleave (hr : r.Consuming) : (r.interleave ofRun goesOn).Consuming := by
  intro t n as h
  obtain ⟨c, rest, rfl, hgoes⟩ := interleave_start h
  obtain ⟨hscan, -⟩ := interleave_eq_some.1 h
  have hle := scan_le hr.bounded ofRun goesOn [] (c :: rest)
  rw [hscan] at hle
  refine ⟨?_, hle⟩
  rw [scan, if_pos hgoes] at hscan
  split at hscan
  · cases hscan
    omega
  · cases hscan
    omega

section Found

variable {t : Text} {n : Nat} {as : List α} (h : r.interleave ofRun goesOn t = some (n, as))
include h

theorem mem_interleave {P : Char → Prop} (hP : ∀ c rest, goesOn (c :: rest) = true → P c) {a : α}
    (ha : a ∈ as) :
    (∃ x, x ≠ [] ∧ (∀ c ∈ x, P c) ∧ a = ofRun x) ∨ ∃ u n, u <:+ t ∧ r u = some (n, a) := by
  have hscan := (interleave_eq_some.1 h).1
  have ha' : a ∈ (r.scan ofRun goesOn [] t).2 := by
    rw [hscan]
    exact ha
  exact mem_scan hP (fun _ hc => absurd hc List.not_mem_nil) ha'

theorem isChain_interleave {IsRun : α → Prop} (hr : ∀ u n a, r u = some (n, a) → ¬IsRun a) :
    as.IsChain fun a b => ¬(IsRun a ∧ IsRun b) := by
  have hchain := isChain_scan hr ofRun goesOn [] t
  rw [(interleave_eq_some.1 h).1] at hchain
  exact hchain

theorem head?_interleave {a : α} (ha : as.head? = some a) :
    (∃ x, a = ofRun x) ∨ ∃ n, r t = some (n, a) := by
  obtain ⟨c, rest, rfl, hgoes⟩ := interleave_start h
  obtain ⟨b, hb, hfound⟩ := head?_scan r ofRun hgoes
  rw [(interleave_eq_some.1 h).1, ha] at hb
  cases hb
  exact hfound

/-- An interleaving stops where nothing is left or its condition fails. -/
theorem interleave_stop : t.drop n = [] ∨ goesOn (t.drop n) = false := by
  have hstop := scan_stop r ofRun goesOn [] t
  rw [(interleave_eq_some.1 h).1] at hstop
  exact hstop

end Found

end Descent.Reading

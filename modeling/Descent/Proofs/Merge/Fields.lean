/-
  Descent.Proofs.Merge.Fields

  Fields as maps that remember the order in which their keys came.  Two of them with distinct
  keys are equal if they have the same keys, in the same order, and the same value under each
  (`Fields.ext_of_lookup`).  So it is enough to know what merging does to keys and to values:
  the older keys keep their places and the new ones come behind (`keys_merge`), and the newer
  value counts (`lookup_merge`).  From that merging is associative, with no fields as its unit.
-/
import Mathlib.Data.List.Nodup
import Descent.Value.Basic

namespace Descent.Fields

/-- The keys, in order. -/
def keys (entries : Fields) : List String := entries.map Prod.fst

@[simp] theorem keys_nil : keys [] = [] := rfl

@[simp] theorem keys_cons (entry : String × Value) (rest : Fields) :
    keys (entry :: rest) = entry.1 :: rest.keys := rfl

/-- The value under the first key, or one of the others. -/
theorem lookup_cons_eq (key k : String) (v : Value) (rest : Fields) :
    List.lookup key ((k, v) :: rest) = if key = k then some v else List.lookup key rest := by
  rw [List.lookup_cons]
  by_cases h : key = k
  · rw [if_pos h, beq_iff_eq.2 h]
  · rw [if_neg h, beq_eq_false_iff_ne.2 h]

theorem lookup_eq_none {key : String} {entries : Fields} (h : key ∉ entries.keys) :
    entries.lookup key = none := by
  rw [List.lookup_eq_none_iff]
  intro entry hentry
  refine bne_iff_ne.2 fun heq => h ?_
  rw [heq]
  exact List.mem_map_of_mem hentry

/-- Fields with distinct keys are what they are by their keys and what stands under them. -/
theorem ext_of_lookup {a b : Fields} (ha : a.keys.Nodup) (hkeys : a.keys = b.keys)
    (hlookup : ∀ key, a.lookup key = b.lookup key) : a = b := by
  induction a generalizing b with
  | nil =>
    cases b with
    | nil => rfl
    | cons entry rest => cases hkeys
  | cons entry rest ih =>
    cases b with
    | nil => cases hkeys
    | cons entry' rest' =>
      obtain ⟨k, v⟩ := entry
      obtain ⟨k', v'⟩ := entry'
      obtain ⟨rfl, hrest⟩ := List.cons.inj hkeys
      obtain ⟨hk, hnodup⟩ := List.nodup_cons.1 ha
      -- The first keys are the same, so what stands under them is looked up in both.
      have hv := hlookup k
      rw [lookup_cons_eq, lookup_cons_eq, if_pos rfl, if_pos rfl] at hv
      obtain rfl := Option.some.inj hv
      refine congrArg _ (ih hnodup hrest fun key => ?_)
      by_cases hkey : key = k
      · -- Under the first key there is nothing else.
        subst hkey
        rw [lookup_eq_none hk, lookup_eq_none fun h => hk (hrest.symm ▸ h)]
      · have hothers := hlookup key
        rw [lookup_cons_eq, lookup_cons_eq, if_neg hkey, if_neg hkey] at hothers
        exact hothers

/-! ## Writing to a key -/

/-- A key that is present keeps its place, and another comes behind all others. -/
theorem keys_insert (key : String) (v : Value) (entries : Fields) :
    (entries.insert key v).keys
      = if key ∈ entries.keys then entries.keys else entries.keys ++ [key] := by
  induction entries with
  | nil => rfl
  | cons entry rest ih =>
    obtain ⟨k, w⟩ := entry
    rw [insert]
    by_cases hk : k = key
    · subst hk
      rw [if_pos rfl, keys_cons, keys_cons, if_pos List.mem_cons_self]
    · rw [if_neg hk, keys_cons, ih, keys_cons]
      have hmem : key ∈ k :: keys rest ↔ key ∈ keys rest := by
        rw [List.mem_cons]
        exact or_iff_right (Ne.symm hk)
      by_cases h : key ∈ keys rest
      · rw [if_pos h, if_pos (hmem.2 h)]
      · rw [if_neg h, if_neg (hmem.not.2 h), List.cons_append]

/-- The key has the value, and the others have theirs. -/
theorem lookup_insert (key : String) (v : Value) (entries : Fields) (k : String) :
    (entries.insert key v).lookup k = if k = key then some v else entries.lookup k := by
  induction entries with
  | nil => rw [insert_nil, lookup_cons_eq]
  | cons entry rest ih =>
    obtain ⟨k', w⟩ := entry
    rw [insert]
    by_cases hk : k' = key
    · subst hk
      rw [if_pos rfl, lookup_cons_eq, lookup_cons_eq]
      split
      · rfl
      · rfl
    · rw [if_neg hk, lookup_cons_eq, ih, lookup_cons_eq]
      by_cases h : k = k'
      · rw [if_pos h, if_pos h, if_neg (h ▸ hk)]
      · rw [if_neg h, if_neg h]

theorem nodup_insert {entries : Fields} (h : entries.keys.Nodup) (key : String) (v : Value) :
    (entries.insert key v).keys.Nodup := by
  rw [keys_insert]
  split
  · exact h
  · next hkey =>
    refine List.nodup_append.2 ⟨h, List.nodup_singleton key, fun k hk k' hk' heq => hkey ?_⟩
    rw [← List.mem_singleton.1 hk', ← heq]
    exact hk

/-! ## Merging -/

variable {a b c : Fields}

theorem nodup_merge (ha : a.keys.Nodup) (b : Fields) : (a.merge b).keys.Nodup := by
  induction b generalizing a with
  | nil => exact ha
  | cons entry rest ih => exact ih (nodup_insert ha entry.1 entry.2)

/-- The older keys keep their places, and the keys that are new come behind them. -/
theorem keys_merge (a : Fields) (hb : b.keys.Nodup) :
    (a.merge b).keys = a.keys ++ b.keys.filter (· ∉ a.keys) := by
  induction b generalizing a with
  | nil => exact (List.append_nil _).symm
  | cons entry rest ih =>
    obtain ⟨k, v⟩ := entry
    obtain ⟨hk, hrest⟩ := List.nodup_cons.1 hb
    rw [merge_cons, ih _ hrest, keys_insert, keys_cons]
    by_cases hmem : k ∈ a.keys
    · rw [if_pos hmem, List.filter_cons_of_neg (by simpa using hmem)]
    · -- Once it has been written the key is not new any more, but it does not come again.
      rw [if_neg hmem, List.filter_cons_of_pos (by simpa using hmem), List.append_assoc,
        List.singleton_append]
      refine congrArg _ (congrArg _ (List.filter_congr fun key hkey => ?_))
      have hne : key ≠ k := fun heq => hk (heq ▸ hkey)
      simp only [List.mem_append, List.mem_singleton, hne, or_false]

/-- The newer value counts. -/
theorem lookup_merge (a : Fields) (hb : b.keys.Nodup) (key : String) :
    (a.merge b).lookup key = (b.lookup key).or (a.lookup key) := by
  induction b generalizing a with
  | nil => rfl
  | cons entry rest ih =>
    obtain ⟨k, v⟩ := entry
    obtain ⟨hk, hrest⟩ := List.nodup_cons.1 hb
    rw [merge_cons, ih _ hrest, lookup_insert, lookup_cons_eq]
    by_cases h : key = k
    · subst h
      rw [if_pos rfl, if_pos rfl, lookup_eq_none hk, Option.none_or, Option.some_or]
    · rw [if_neg h, if_neg h]

/-- Merging in one go and one after the other come to the same. -/
theorem merge_assoc (ha : a.keys.Nodup) (hb : b.keys.Nodup) (hc : c.keys.Nodup) :
    (a.merge b).merge c = a.merge (b.merge c) := by
  refine ext_of_lookup (nodup_merge (nodup_merge ha b) c) ?_ fun key => ?_
  · rw [keys_merge _ hc, keys_merge _ hb, keys_merge _ (nodup_merge hb c), keys_merge _ hc,
      List.filter_append, List.filter_filter, List.append_assoc]
    -- A key of the last is new to the first two together if it is new to each of them.
    refine congrArg _ (congrArg _ (List.filter_congr fun key _ => ?_))
    by_cases h : key ∈ a.keys <;> simp [h]
  · rw [lookup_merge _ hc, lookup_merge _ hb, lookup_merge _ (nodup_merge hb c),
      lookup_merge _ hc, Option.or_assoc]

/-- To no fields, fields are added as they are. -/
theorem nil_merge (hb : b.keys.Nodup) : merge [] b = b := by
  refine ext_of_lookup (nodup_merge (show (keys []).Nodup from List.nodup_nil) b) ?_ fun key => ?_
  · rw [keys_merge _ hb, keys_nil, List.nil_append]
    exact List.filter_eq_self.2 fun _ _ => rfl
  · rw [lookup_merge _ hb, List.lookup_nil, Option.or_none]

end Descent.Fields

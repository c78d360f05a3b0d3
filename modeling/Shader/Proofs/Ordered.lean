import Mathlib.Data.List.Perm.Subperm
import Shader.Ordered

/-!
# Maps in insertion order, looked at through their keys

What is found after an entry was put, and what the values are then.
-/

namespace Shader.OrderedMap

variable {κ ν : Type} [DecidableEq κ] {k k' : κ} {m : OrderedMap κ ν} {v : ν}

theorem find?_putEntries (k k' : κ) (v : ν) (entries : List (κ × ν)) :
    ((putEntries k v entries).find? (fun e => e.1 = k')).map (·.2) =
      if k = k' then some v else (entries.find? (fun e => e.1 = k')).map (·.2) := by
  induction entries with
  | nil => by_cases h : k = k' <;> simp [putEntries, h]
  | cons e es ih =>
    unfold putEntries
    by_cases he : e.1 = k
    · rw [if_pos he]
      by_cases h : k = k'
      · simp [he, h]
      · have hne : ¬ e.1 = k' := fun h' => h (he.symm.trans h')
        simp [h, hne]
    · rw [if_neg he]
      by_cases h' : e.1 = k'
      · have hne : ¬ k = k' := fun h => he (h'.trans h.symm)
        simp [h', hne]
      · simpa [h'] using ih

theorem get?_put (m : OrderedMap κ ν) (k k' : κ) (v : ν) : (m.put k v).get? k' = if k = k' then some v else m.get? k' :=
  find?_putEntries k k' v m.entries

@[simp] theorem get?_put_self (m : OrderedMap κ ν) (k : κ) (v : ν) : (m.put k v).get? k = some v := by
  rw [get?_put, if_pos rfl]

theorem get?_put_of_ne (m : OrderedMap κ ν) (v : ν) (h : k ≠ k') : (m.put k v).get? k' = m.get? k' := by
  rw [get?_put, if_neg h]

theorem get?_put_of_get? {v' : ν} (v : ν) (habsent : m.get? k = none) (h : m.get? k' = some v') :
    (m.put k v).get? k' = some v' := by
  rw [get?_put_of_ne]
  · exact h
  · rintro rfl
    rw [habsent] at h
    cases h

theorem mem_entries (h : m.get? k = some v) : (k, v) ∈ m.entries := by
  obtain ⟨e, he, rfl⟩ := Option.map_eq_some_iff.1 h
  obtain rfl : e.1 = k := by simpa using List.find?_some he
  exact List.mem_of_find?_eq_some he

/-- What is found after an entry was put is that entry or was found before. -/
theorem eq_or_get?_of_get?_put {v' : ν} (h : (m.put k v).get? k' = some v') :
    k = k' ∧ v = v' ∨ m.get? k' = some v' := by
  by_cases hk : k = k'
  · subst hk
    rw [get?_put_self] at h
    exact .inl ⟨rfl, Option.some.inj h⟩
  · rw [get?_put_of_ne _ _ hk] at h
    exact .inr h

theorem mem_values (h : m.get? k = some v) : v ∈ m.values := List.mem_map_of_mem (mem_entries h)

omit [DecidableEq κ] in
theorem exists_of_keyOf? {p : ν → Bool} (h : m.keyOf? p = some k) : ∃ v ∈ m.values, p v := by
  obtain ⟨e, he, rfl⟩ := Option.map_eq_some_iff.1 h
  have hp : p e.2 := List.find?_some (p := fun e : κ × ν => p e.2) he
  exact ⟨e.2, List.mem_map_of_mem (List.mem_of_find?_eq_some he), hp⟩

/-- A value that occurs once has one key. -/
theorem key_unique [DecidableEq ν] (h : m.get? k = some v) (h' : m.get? k' = some v)
    (hcount : m.values.count v ≤ 1) : k = k' := by
  by_contra hne
  have hpair : [(k, v), (k', v)].Subperm m.entries := by
    refine List.Nodup.subperm (by simp [hne]) fun e he => ?_
    simp only [List.mem_cons, List.not_mem_nil, or_false] at he
    rcases he with rfl | rfl
    · exact mem_entries h
    · exact mem_entries h'
  obtain ⟨kept, hperm, hsublist⟩ := hpair
  have htwice : [v, v].Subperm m.values := ⟨kept.map (·.2), hperm.map _, hsublist.map _⟩
  have htwo := htwice.count_le v
  simp only [List.count_cons_self, List.count_nil] at htwo
  omega

theorem values_put_subset (m : OrderedMap κ ν) (k : κ) (v : ν) : (m.put k v).values ⊆ v :: m.values := by
  show (putEntries k v m.entries).map (·.2) ⊆ v :: m.entries.map (·.2)
  induction m.entries with
  | nil => exact fun _ h => h
  | cons e es ih =>
    unfold putEntries
    split
    · intro w hw
      rcases List.mem_cons.1 hw with rfl | hw
      · exact List.mem_cons_self
      · exact List.mem_cons_of_mem _ (List.mem_cons_of_mem _ hw)
    · intro w hw
      rcases List.mem_cons.1 hw with rfl | hw
      · exact List.mem_cons_of_mem _ List.mem_cons_self
      · rcases List.mem_cons.1 (ih hw) with rfl | hw
        · exact List.mem_cons_self
        · exact List.mem_cons_of_mem _ (List.mem_cons_of_mem _ hw)

theorem values_put_of_absent (v : ν) (h : m.get? k = none) : (m.put k v).values = m.values ++ [v] := by
  unfold get? at h
  rw [Option.map_eq_none_iff, List.find?_eq_none] at h
  show (putEntries k v m.entries).map (·.2) = m.entries.map (·.2) ++ [v]
  revert h
  induction m.entries with
  | nil => exact fun _ => rfl
  | cons e es ih =>
    intro h
    have he : ¬ e.1 = k := by simpa using h e List.mem_cons_self
    unfold putEntries
    rw [if_neg he, List.map_cons, ih fun x hx => h x (List.mem_cons_of_mem _ hx)]
    rfl

/-- A new entry never replaces one that is there. -/
theorem get?_putNew : (m.putNew k v).get? k' = (m.get? k').or (if k = k' then some v else none) := by
  unfold putNew contains
  by_cases hk : k = k'
  · subst hk
    cases hold : m.get? k <;> simp [hold]
  · rw [if_neg hk, Option.or_none]
    split
    · rfl
    · exact get?_put_of_ne _ _ hk

theorem mem_values_putNew {v' : ν} : v' ∈ (m.putNew k v).values ↔ v' ∈ m.values ∨ m.get? k = none ∧ v' = v := by
  unfold putNew contains
  cases hold : m.get? k with
  | some old => simp
  | none => simp [values_put_of_absent v hold]

theorem contains_iff_mem_keys : m.contains k ↔ k ∈ m.keys := by
  simp [contains, get?, keys]

theorem putNew_of_mem_keys (h : k ∈ m.keys) (v : ν) : m.putNew k v = m := by
  rw [putNew, if_pos (contains_iff_mem_keys.2 h)]

theorem mem_keys_putNew : k' ∈ (m.putNew k v).keys ↔ k' ∈ m.keys ∨ k = k' := by
  rw [← contains_iff_mem_keys, ← contains_iff_mem_keys, contains, contains, get?_putNew, Option.isSome_or,
    Bool.or_eq_true]
  by_cases hk : k = k' <;> simp [hk]

end Shader.OrderedMap

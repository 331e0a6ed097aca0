import FuzzyMotion.Proofs.Operation
import FuzzyMotion.Table
import Mathlib.Data.List.Induction

/-!
Tables that are filled by insertions. Whatever is inserted, and whether or not there is room for it, the
table does not outgrow its capacity; and any keys that fit can be filled in.
-/
namespace FuzzyMotion.Table

open Operation

variable {κ α : Type} {c : Capacity} [DecidableEq κ]

/-- What any sequence of insertions leaves of the empty table, whether or not they succeed. -/
inductive Filled : Table κ c α → Prop where
  | empty : Filled empty
  | put {t : Table κ c α} (k : κ) (a : α) (h : Filled t) : Filled ((Table.put k a).after t)

section Insert

variable {t u : Table κ c α} {k : κ} {a : α}

theorem insert_of_mem (a : α) (h : k ∈ t.keys) : ∃ u, t.insert k a = .ok u :=
  ⟨_, if_pos h⟩

theorem nodup_insert (h : t.insert k a = .ok u) (hn : t.keys.Nodup) : u.keys.Nodup := by
  rw [keys_insert h]
  split
  · exact hn
  · rename_i hk
    refine List.nodup_append.2 ⟨hn, List.pairwise_singleton _ _, ?_⟩
    rintro j hj _ hm rfl
    exact hk (List.mem_singleton.1 hm ▸ hj)

theorem length_insert_le (h : t.insert k a = .ok u) (hl : t.keys.length ≤ c.limit) :
    u.keys.length ≤ c.limit := by
  have hroom : ¬(k ∉ t.keys ∧ c.limit ≤ t.size) := by
    rintro ⟨hk, hfull⟩
    rw [insert_eq_error_iff.2 ⟨hk, hfull, rfl⟩] at h
    cases h
  rw [size_eq_length_keys] at hroom
  rw [keys_insert h]
  split
  · exact hl
  · rename_i hk
    rw [List.length_append, List.length_singleton]
    exact Nat.lt_of_not_le fun hfull => hroom ⟨hk, hfull⟩

theorem run_put_ok (h : t.insert k a = .ok u) : (put k a).run t = (.ok (), u) := by
  rw [put, run_update, h]

theorem run_put_error {e : Fault} (h : t.insert k a = .error e) : (put k a).run t = (.error e, t) := by
  rw [put, run_update, h]

end Insert

variable {t : Table κ c α}

theorem after_put (t : Table κ c α) (k : κ) (a : α) :
    (put k a).after t = match t.insert k a with
      | .ok u => u
      | .error _ => t := by
  simp only [put, after, update]
  cases t.insert k a <;> rfl

theorem run_put_of_fresh {k : κ} (a : α) (hk : k ∉ t.keys) (hroom : t.keys.length < c.limit) :
    (put k a).run t = (.ok (), t.append k a) := by
  have hsize : t.size < c.limit := t.size_eq_length_keys ▸ hroom
  rw [put, run_update, insert, if_neg hk, if_pos hsize]

/-- A new key has its place after the others, a known one keeps its place, and a key for which there is
no room does not matter. -/
theorem keys_after_put (t : Table κ c α) (k : κ) (a : α) :
    ((put k a).after t).keys = if k ∈ t.keys ∨ c.limit ≤ t.size then t.keys else t.keys ++ [k] := by
  rw [after_put]
  cases hi : t.insert k a with
  | ok u =>
    rw [keys_insert hi]
    by_cases hk : k ∈ t.keys
    · simp [hk]
    · have hroom : ¬c.limit ≤ t.size := by
        intro hfull
        rw [insert_eq_error_iff.2 ⟨hk, hfull, rfl⟩] at hi
        cases hi
      simp [hk, hroom]
  | error e =>
    obtain ⟨-, hfull, -⟩ := insert_eq_error_iff.1 hi
    simp [hfull]

theorem Filled.size_le (h : t.Filled) : t.size ≤ c.limit := by
  induction h with
  | empty => exact Nat.zero_le _
  | @put t k a _ ih =>
    rw [after_put]
    cases hu : t.insert k a with
    | ok u =>
      rw [size_eq_length_keys] at ih ⊢
      exact length_insert_le hu ih
    | error e => exact ih

/-- Any keys that fit can be filled in. -/
theorem exists_filled (a : α) {names : List κ} (hn : names.Nodup) (hl : names.length ≤ c.limit) :
    ∃ t : Table κ c α, t.Filled ∧ t.keys = names := by
  induction names using List.reverseRecOn with
  | nil => exact ⟨Table.empty, .empty, rfl⟩
  | append_singleton names name ih =>
    rw [List.length_append, List.length_singleton] at hl
    obtain ⟨hnames, -, hfresh⟩ := List.nodup_append.1 hn
    obtain ⟨t, ht, rfl⟩ := ih hnames (by omega)
    refine ⟨_, ht.put name a, ?_⟩
    rw [keys_after_put, if_neg]
    rintro (hm | hfull)
    · exact hfresh _ hm _ (by simp) rfl
    · rw [size_eq_length_keys] at hfull
      omega

end FuzzyMotion.Table

import FuzzyMotion.Operation

/-!
Tables from keys to values, bounded in size. The entries stand in the order in which their keys
first came; a key that is there already keeps its place and takes the new value.
-/
namespace FuzzyMotion

structure Table (κ : Type) (capacity : Capacity) (α : Type) where
  entries : List (κ × α)
  deriving DecidableEq, Repr

namespace Table

variable {κ α : Type} {c : Capacity}

def empty : Table κ c α := ⟨[]⟩

instance : Inhabited (Table κ c α) := ⟨empty⟩

def keys (t : Table κ c α) : List κ :=
  t.entries.map Prod.fst

def values (t : Table κ c α) : List α :=
  t.entries.map Prod.snd

def size (t : Table κ c α) : Nat :=
  t.entries.length

def append (t : Table κ c α) (k : κ) (a : α) : Table κ c α :=
  ⟨t.entries ++ [(k, a)]⟩

@[simp] theorem keys_empty : (empty : Table κ c α).keys = [] := rfl

@[simp] theorem size_empty : (empty : Table κ c α).size = 0 := rfl

theorem size_eq_length_keys (t : Table κ c α) : t.size = t.keys.length := by
  simp [size, keys]

@[simp] theorem keys_append (t : Table κ c α) (k : κ) (a : α) :
    (t.append k a).keys = t.keys ++ [k] := by
  simp [keys, append]

variable [DecidableEq κ]

def get? (t : Table κ c α) (k : κ) : Option α :=
  t.entries.lookup k

def replace (t : Table κ c α) (k : κ) (a : α) : Table κ c α :=
  ⟨t.entries.map fun e => if e.1 = k then (k, a) else e⟩

/-- A new key needs room, a known one does not. -/
def insert (t : Table κ c α) (k : κ) (a : α) : Except Fault (Table κ c α) :=
  if k ∈ t.keys then .ok (t.replace k a)
  else if t.size < c.limit then .ok (t.append k a)
  else .error (.tableFull c)

def put (k : κ) (a : α) : Operation (Table κ c α) Unit :=
  Operation.update fun t => t.insert k a

@[simp] theorem get?_empty (k : κ) : (empty : Table κ c α).get? k = none := rfl

@[simp] theorem keys_replace (t : Table κ c α) (k : κ) (a : α) : (t.replace k a).keys = t.keys := by
  simp only [keys, replace, List.map_map]
  apply List.map_congr_left
  intro e _
  by_cases h : e.1 = k <;> simp [h]

theorem lookup_cons_eq_ite (e : κ × α) (rest : List (κ × α)) (j : κ) :
    (e :: rest).lookup j = if j = e.1 then some e.2 else rest.lookup j := by
  obtain ⟨k, a⟩ := e
  by_cases h : j = k
  · simp [h]
  · simp [List.lookup_cons, h, beq_false_of_ne h]

theorem get?_eq_none_iff {t : Table κ c α} {k : κ} : t.get? k = none ↔ k ∉ t.keys := by
  obtain ⟨entries⟩ := t
  simp only [get?, keys]
  induction entries with
  | nil => simp
  | cons e rest ih =>
    rw [lookup_cons_eq_ite]
    by_cases h : k = e.1 <;> simp [h] at ih ⊢
    exact ih

theorem get?_append (t : Table κ c α) (k j : κ) (a : α) (h : k ∉ t.keys) :
    (t.append k a).get? j = if j = k then some a else t.get? j := by
  have hn := get?_eq_none_iff.2 h
  simp only [get?, append, List.lookup_append, lookup_cons_eq_ite, List.lookup_nil] at hn ⊢
  by_cases hj : j = k
  · subst hj
    simp [hn]
  · simp [hj]

/-- Where the key stands in no entry, replacing its value changes nothing. -/
theorem replace_of_notMem {t : Table κ c α} {k : κ} (a : α) (h : k ∉ t.keys) :
    t.replace k a = t := by
  obtain ⟨entries⟩ := t
  have h : ∀ e ∈ entries, (if e.1 = k then (k, a) else e) = e := by
    intro e he
    have : e.1 ≠ k := fun hk => h (List.mem_map.2 ⟨e, he, hk⟩)
    simp [this]
  simp only [replace]
  rw [List.map_congr_left h, List.map_id']

theorem get?_replace (t : Table κ c α) (k j : κ) (a : α) (h : k ∈ t.keys) :
    (t.replace k a).get? j = if j = k then some a else t.get? j := by
  obtain ⟨entries⟩ := t
  induction entries with
  | nil => simp [keys] at h
  | cons e rest ih =>
    simp only [get?, replace, List.map_cons, lookup_cons_eq_ite] at ih ⊢
    by_cases hm : k ∈ (⟨rest⟩ : Table κ c α).keys
    · rw [ih hm]
      by_cases he : e.1 = k
      · by_cases hj : j = k <;> simp [he, hj]
      · by_cases hj : j = e.1 <;> simp [he, hj]
    · have he : e.1 = k := by
        rcases List.mem_cons.1 h with h | h
        · exact h.symm
        · exact absurd h hm
      have hr := congrArg entries (replace_of_notMem a hm)
      simp only [replace] at hr
      by_cases hj : j = k <;> simp [he, hr, hj]

/-- Replacing the value of one key leaves the other keys alone. -/
theorem get?_replace_of_ne (t : Table κ c α) {k j : κ} (a : α) (h : k ≠ j) :
    (t.replace k a).get? j = t.get? j := by
  by_cases hm : k ∈ t.keys
  · rw [get?_replace t k j a hm, if_neg h.symm]
  · rw [replace_of_notMem a hm]

/-- After an insertion the key has the new value, and all other keys have their old ones. -/
theorem get?_insert {t u : Table κ c α} {k : κ} {a : α} (h : t.insert k a = .ok u) (j : κ) :
    u.get? j = if j = k then some a else t.get? j := by
  unfold insert at h
  split at h
  · rename_i hm
    cases h
    exact get?_replace t k j a hm
  · rename_i hm
    split at h
    · cases h
      exact get?_append t k j a hm
    · cases h

theorem keys_insert {t u : Table κ c α} {k : κ} {a : α} (h : t.insert k a = .ok u) :
    u.keys = if k ∈ t.keys then t.keys else t.keys ++ [k] := by
  unfold insert at h
  split at h
  · rename_i hm
    cases h
    simp [hm]
  · rename_i hm
    split at h
    · cases h
      simp [hm]
    · cases h

/-- Only a new key can fail, and only where the table is full. -/
theorem insert_eq_error_iff {t : Table κ c α} {k : κ} {a : α} {e : Fault} :
    t.insert k a = .error e ↔ k ∉ t.keys ∧ c.limit ≤ t.size ∧ e = .tableFull c := by
  unfold insert
  split
  · simp [*]
  · split
    · have := Nat.not_le.2 ‹_›
      simp [this]
    · simp [*, Nat.not_lt.1 ‹_›, eq_comm]

end Table

end FuzzyMotion

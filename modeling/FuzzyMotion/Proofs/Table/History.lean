import FuzzyMotion.Inference
import FuzzyMotion.Proofs.Binary32.Degree
import FuzzyMotion.Proofs.Observation.Reports
import FuzzyMotion.Proofs.Table.Filled

/-!
Bounded tables as finite maps. The inputs, the truths and the reports about doors are each kept in a table
of their own, and each has its own way to set a value; all three are stores in the sense defined here. What
a store holds after any edits is read off the settings that it accepted since it was last cleared.
-/
namespace FuzzyMotion

open Operation

theorem eraseDups_concat {κ : Type} [DecidableEq κ] (l : List κ) (k : κ) :
    (l ++ [k]).eraseDups = if k ∈ l then l.eraseDups else l.eraseDups ++ [k] := by
  rw [List.eraseDups_append]
  by_cases hk : k ∈ l <;> simp [hk, List.removeAll, List.eraseDups_cons]

/-- A state that keeps values under keys in one table. Values may be changed when they are set, always in the
same way. -/
structure Store (σ κ α : Type) [DecidableEq κ] where
  capacity : Capacity
  table : σ → Table κ capacity α
  withTable : Table κ capacity α → σ → σ
  kept : α → α
  set : κ → α → Operation σ Unit
  lookup : σ → κ → Option α
  table_withTable : ∀ t s, table (withTable t s) = t
  run_set_ok : ∀ {k a s t}, (table s).insert k (kept a) = .ok t → (set k a).run s = (.ok (), withTable t s)
  /-- Where there is no room, nothing changes. -/
  run_set_error : ∀ {k a s e}, (table s).insert k (kept a) = .error e → (set k a).run s = (.error e, s)
  lookup_eq : ∀ s k, lookup s k = (table s).get? k

/-- What is done to a store. A store that cannot be cleared is made anew instead. -/
inductive Edit (κ α : Type) where
  | set (key : κ) (value : α)
  | clear

namespace Store

variable {σ κ α : Type} [DecidableEq κ] (S : Store σ κ α)

def keys (s : σ) : List κ :=
  (S.table s).keys

def cleared (s : σ) : σ :=
  S.withTable .empty s

/-- A state of a store, and the settings that it accepted since it was last cleared, in their order. -/
structure Past (σ κ α : Type) where
  state : σ
  accepted : List (κ × α)

/-- An edit, with the record of what is accepted. -/
def edit (p : Past σ κ α) : Edit κ α → Past σ κ α
  | .set k a =>
    match (S.set k a).run p.state with
    | (.ok _, s) => ⟨s, p.accepted ++ [(k, a)]⟩
    | (.error _, s) => ⟨s, p.accepted⟩
  | .clear => ⟨S.cleared p.state, []⟩

/-- A cleared store after edits in turn, whether or not they are accepted. -/
def edited (s : σ) (edits : List (Edit κ α)) : Past σ κ α :=
  edits.foldl S.edit ⟨S.cleared s, []⟩

/-- A store holds what it accepted, each key once and with its last value. -/
structure Holds (p : Past σ κ α) : Prop where
  nodup : (S.keys p.state).Nodup
  /-- The keys stand in the order in which they first came. -/
  keys_eq : S.keys p.state = (p.accepted.map Prod.fst).eraseDups
  length_le : (S.keys p.state).length ≤ S.capacity.limit
  lookup_eq : ∀ k, S.lookup p.state k = (p.accepted.reverse.lookup k).map S.kept

/-- Which settings a store refuses, and what both kinds of settings leave. -/
structure Bounded (s : σ) : Prop where
  /-- A known key is always accepted, and it keeps its place. -/
  known : ∀ k ∈ S.keys s, ∀ a, (S.set k a).outcome s = .ok () ∧ S.keys ((S.set k a).after s) = S.keys s
  /-- A new key is refused exactly where there is no room for it. -/
  fresh : ∀ k, k ∉ S.keys s → ∀ a,
    ((∃ f, (S.set k a).outcome s = .error f) ↔ (S.keys s).length = S.capacity.limit)
  /-- A refused setting says which table is full and leaves everything as it is. -/
  refused : ∀ k a f, (S.set k a).outcome s = .error f →
    f = .tableFull S.capacity ∧ (S.set k a).after s = s

/-- After any edits, a store is a finite map of what it accepted, and bounded. -/
def IsFiniteMap : Prop :=
  ∀ start edits, S.Holds (S.edited start edits) ∧ S.Bounded (S.edited start edits).state

section Set

variable {S} {s : σ} {k : κ} {a : α}

theorem outcome_set_eq_error_iff {f : Fault} :
    (S.set k a).outcome s = .error f ↔ (S.table s).insert k (S.kept a) = .error f := by
  rw [← run_fst]
  cases h : (S.table s).insert k (S.kept a) with
  | ok t => simp [S.run_set_ok h]
  | error e => simp [S.run_set_error h]

theorem after_of_refused {f : Fault} (h : (S.set k a).outcome s = .error f) :
    (S.set k a).after s = s := by
  rw [← run_snd, S.run_set_error (outcome_set_eq_error_iff.1 h)]

end Set

variable {S} {p : Past σ κ α}

theorem holds_cleared (s : σ) : S.Holds ⟨S.cleared s, []⟩ := by
  have ht : S.table (S.cleared s) = .empty := S.table_withTable _ _
  have hkeys : S.keys (S.cleared s) = [] := by
    rw [keys, ht]
    rfl
  refine ⟨?_, hkeys, ?_, fun k => ?_⟩
  · rw [hkeys]
    exact List.nodup_nil
  · rw [hkeys]
    exact Nat.zero_le _
  · rw [S.lookup_eq, ht]
    rfl

theorem Holds.accepted (h : S.Holds p) {k : κ} {a : α} {t : Table κ S.capacity α}
    (ht : (S.table p.state).insert k (S.kept a) = .ok t) :
    S.Holds ⟨S.withTable t p.state, p.accepted ++ [(k, a)]⟩ := by
  have hkeys : S.keys (S.withTable t p.state) = t.keys := by rw [keys, S.table_withTable]
  have hmem : k ∈ p.accepted.map Prod.fst ↔ k ∈ (S.table p.state).keys := by
    rw [← List.mem_eraseDups, ← h.keys_eq]
    rfl
  refine ⟨?_, ?_, ?_, fun j => ?_⟩
  · rw [hkeys]
    exact Table.nodup_insert ht h.nodup
  · rw [hkeys, Table.keys_insert ht, List.map_append, List.map_singleton, eraseDups_concat, ← h.keys_eq]
    simp only [hmem]
    rfl
  · rw [hkeys]
    exact Table.length_insert_le ht h.length_le
  · -- The last setting is the first one from behind, so that it is found before those of its key.
    rw [S.lookup_eq, S.table_withTable, Table.get?_insert ht, List.reverse_append]
    simp only [List.reverse_singleton, List.singleton_append, Table.lookup_cons_eq_ite]
    by_cases hj : j = k
    · rw [if_pos hj, if_pos hj, Option.map_some]
    · rw [if_neg hj, if_neg hj, ← S.lookup_eq, h.lookup_eq]

/-- Every edit keeps the map and what was accepted in step. -/
theorem Holds.edit (h : S.Holds p) (e : Edit κ α) : S.Holds (S.edit p e) := by
  cases e with
  | clear => exact holds_cleared p.state
  | set k a =>
    cases ht : (S.table p.state).insert k (S.kept a) with
    | ok t =>
      rw [Store.edit, S.run_set_ok ht]
      exact h.accepted ht
    | error f =>
      rw [Store.edit, S.run_set_error ht]
      exact h

theorem holds_edited (S : Store σ κ α) (s : σ) (edits : List (Edit κ α)) : S.Holds (S.edited s edits) :=
  edits.foldlRecOn S.edit (holds_cleared s) fun _ h e _ => h.edit e

/-- A store that has not outgrown its capacity refuses a new key where it is full, and nothing else. -/
theorem bounded_of_length_le {s : σ} (h : (S.keys s).length ≤ S.capacity.limit) : S.Bounded s := by
  have hsize : (S.table s).size = (S.keys s).length := (S.table s).size_eq_length_keys
  refine ⟨fun k hk a => ?_, fun k hk a => ?_, fun k a f hf => ⟨?_, after_of_refused hf⟩⟩
  · obtain ⟨t, ht⟩ := Table.insert_of_mem (S.kept a) hk
    have hrun := S.run_set_ok ht
    refine ⟨congrArg Prod.fst hrun, ?_⟩
    rw [← run_snd, hrun, keys, S.table_withTable, Table.keys_insert ht]
    exact if_pos hk
  · simp only [outcome_set_eq_error_iff, Table.insert_eq_error_iff]
    constructor
    · rintro ⟨f, -, hfull, -⟩
      omega
    · intro hfull
      exact ⟨_, hk, by omega, rfl⟩
  · exact (Table.insert_eq_error_iff.1 (outcome_set_eq_error_iff.1 hf)).2.2

theorem isFiniteMap (S : Store σ κ α) : S.IsFiniteMap := by
  intro start edits
  have h := holds_edited S start edits
  exact ⟨h, bounded_of_length_le h.length_le⟩

/-- The values of the inputs. -/
def ofInputs : Store Inputs String Float32 where
  capacity := .inputs
  table := id
  withTable t _ := t
  kept := id
  set := Table.put
  lookup := Table.get?
  table_withTable _ _ := rfl
  run_set_ok h := Table.run_put_ok h
  run_set_error h := Table.run_put_error h
  lookup_eq _ _ := rfl

/-- The degrees of the predicates, clamped when they are recorded. -/
def ofTruths : Store Truths String Float32 where
  capacity := .truths
  table := id
  withTable t _ := t
  kept := Binary32.toDegree
  set := Truths.record
  lookup := Table.get?
  table_withTable _ _ := rfl
  run_set_ok h := Table.run_put_ok h
  run_set_error h := Table.run_put_error h
  lookup_eq _ _ := rfl

/-- The reports about doors, in an observation. -/
def ofDoors : Store Observation DoorId Bool where
  capacity := .doors
  table := Observation.doors
  withTable t o := { o with doors := t }
  kept := id
  set := Observation.insertDoor
  lookup := Observation.door?
  table_withTable _ _ := rfl
  run_set_ok h := by
    rw [Observation.run_insertDoor]
    simp only [id] at h
    rw [h]
  run_set_error h := by
    rw [Observation.run_insertDoor]
    simp only [id] at h
    rw [h]
  lookup_eq _ _ := rfl

/-- The inputs, the truths and the reports about doors are finite maps, each bounded by its capacity; and the
truths are clamped, where they are numbers. -/
theorem tables_are_finite_maps :
    ofInputs.IsFiniteMap ∧ ofTruths.IsFiniteMap ∧ ofDoors.IsFiniteMap ∧
      ∀ x, if x.isNaN then Binary32.toDegree x = x
        else Binary32.value (Binary32.toDegree x) = 0 ⊔ (1 ⊓ Binary32.value x) := by
  refine ⟨isFiniteMap _, isFiniteMap _, isFiniteMap _, fun x => ?_⟩
  cases hx : x.isNaN with
  | true => exact Binary32.toDegree_of_isNaN hx
  | false => exact (Binary32.is_toDegree hx).value_eq

/-- A truth that is cleared, one that is set twice, and one that is clamped. -/
example :
    let edits := [.set "Near" 1, .clear, .set "Far" 0.5, .set "Near" 2, .set "Far" 0.25]
    (ofTruths.edited .empty edits).state.entries = [("Far", 0.25), ("Near", 1)] := by
  decide

end Store

end FuzzyMotion

import FuzzyMotion.Proofs.Inference.Steps

/-!
Activations and outputs, label by label. An activation is zero or the degree of a rule for its label,
so what holds of zero and of these degrees holds of the activation; and an output is its last value
or a mean of label values.
-/
namespace FuzzyMotion.Inference

/-- The activation of a label, by the places of the action and of the label. -/
def activation? (sets : List FuzzySet) (c : Consequent) : Option Float32 :=
  sets[c.action]?.bind (·[c.label]?)

/-- Every activation has the property that its label asks for. -/
def Activated (P : Consequent → Float32 → Prop) (sets : List FuzzySet) : Prop :=
  ∀ c a, activation? sets c = some a → P c a

variable {P Q : Consequent → Float32 → Prop} {i : Interpretation} {sets : List FuzzySet}

theorem activation?_credit (sets : List FuzzySet) (c d : Consequent) (degree : Float32) :
    activation? (sets.modify c.action fun set => set.raise c.label degree) d =
      if c = d then (activation? sets d).map (Binary32.max · degree) else activation? sets d := by
  obtain ⟨i, j⟩ := c
  obtain ⟨k, l⟩ := d
  simp only [activation?, FuzzySet.raise, List.getElem?_modify, Consequent.mk.injEq]
  by_cases hi : i = k
  · subst hi
    cases hs : sets[i]? with
    | none => simp
    | some set =>
      by_cases hj : j = l
      · simp [hj]
      · simp [hj]
  · simp [hi]

/-- One rule. -/
theorem Activated.credit (hmax : ∀ c a d, P c a → Q c d → P c (Binary32.max a d))
    (h : Activated P sets) {c : Consequent} {degree : Float32} (hd : Q c degree) :
    Activated P (sets.modify c.action fun set => set.raise c.label degree) := by
  intro d a ha
  rw [activation?_credit] at ha
  split at ha
  · rename_i hcd
    subst hcd
    obtain ⟨old, hold, rfl⟩ := Option.map_eq_some_iff.1 ha
    exact hmax c old degree (h c old hold) hd
  · exact h d a ha

/-- All rules, up to the first one without a degree. -/
theorem Activated.creditAll (hmax : ∀ c a d, P c a → Q c d → P c (Binary32.max a d))
    {pairs : List (Rule × Consequent)} (h : Activated P sets)
    (hp : ∀ pair ∈ pairs, ∀ degree, Statement.evaluate pair.1.antecedent i = .ok degree →
      Q pair.2 degree) :
    Activated P (creditAll i pairs sets).2 := by
  induction pairs generalizing sets with
  | nil => exact h
  | cons pair rest ih =>
    obtain ⟨rule, c⟩ := pair
    rw [Inference.creditAll]
    cases hx : Statement.evaluate rule.antecedent i with
    | error f => exact h
    | ok degree =>
      refine ih (h.credit hmax ?_) fun other hm => hp other (List.mem_cons_of_mem _ hm)
      exact hp (rule, c) (by simp) degree hx

theorem activation?_reset (sets : List FuzzySet) (c : Consequent) :
    activation? (sets.map FuzzySet.reset) c = (activation? sets c).map fun _ => 0 := by
  simp only [activation?, List.getElem?_map]
  cases sets[c.action]? with
  | none => rfl
  | some set => exact List.getElem?_map

theorem activated_reset (h0 : ∀ c, P c 0) (sets : List FuzzySet) :
    Activated P (sets.map FuzzySet.reset) := by
  intro c a ha
  rw [activation?_reset] at ha
  obtain ⟨old, -, rfl⟩ := Option.map_eq_some_iff.1 ha
  exact h0 c

theorem length_reset (sets : List FuzzySet) :
    (sets.map FuzzySet.reset).map List.length = sets.map List.length := by
  rw [List.map_map]
  refine List.map_congr_left fun set _ => ?_
  exact List.length_map _

/-- Crediting changes no set's size. -/
theorem length_creditAll (i : Interpretation) (pairs : List (Rule × Consequent))
    (sets : List FuzzySet) : (creditAll i pairs sets).2.map List.length = sets.map List.length := by
  induction pairs generalizing sets with
  | nil => rfl
  | cons pair rest ih =>
    obtain ⟨rule, c⟩ := pair
    rw [creditAll]
    cases Statement.evaluate rule.antecedent i with
    | error f => rfl
    | ok degree =>
      simp only
      rw [ih]
      refine List.ext_getElem? fun k => ?_
      simp only [List.getElem?_map, List.getElem?_modify]
      by_cases hk : c.action = k <;> cases sets[k]? <;> simp [hk, FuzzySet.raise]

theorem get?_replace_eq_some {t : Table String .outputs Float32} {k j : String} {a x : Float32}
    (h : (t.replace k a).get? j = some x) : j = k ∧ x = a ∨ t.get? j = some x := by
  by_cases hm : k ∈ t.keys
  · rw [Table.get?_replace t k j a hm] at h
    split at h
    · cases h
      exact Or.inl ⟨‹_›, rfl⟩
    · exact Or.inr h
  · rw [Table.replace_of_notMem a hm] at h
    exact Or.inr h

/-- An output is held, or it is the crisp value of the set of its action. -/
theorem get?_refresh {pairs : List (Action × FuzzySet)} {t : Table String .outputs Float32}
    {name : String} {x : Float32} (h : (refresh t pairs).get? name = some x) :
    t.get? name = some x ∨ ∃ pair ∈ pairs, pair.1.output = name ∧
      pair.2.crisp? (pair.1.labels.map Prod.snd) = some x := by
  induction pairs generalizing t with
  | nil => exact Or.inl h
  | cons pair rest ih =>
    obtain ⟨action, set⟩ := pair
    unfold refresh at h
    cases hc : set.crisp? (action.labels.map Prod.snd) with
    | none =>
      rw [hc] at h
      rcases ih h with ht | ⟨other, hm, ho⟩
      · exact Or.inl ht
      · exact Or.inr ⟨other, List.mem_cons_of_mem _ hm, ho⟩
    | some y =>
      rw [hc] at h
      rcases ih h with ht | ⟨other, hm, ho⟩
      · rcases get?_replace_eq_some ht with ⟨rfl, rfl⟩ | ht
        · exact Or.inr ⟨(action, set), by simp, rfl, hc⟩
        · exact Or.inl ht
      · exact Or.inr ⟨other, List.mem_cons_of_mem _ hm, ho⟩

/-- A recorded truth is the degree of a predicate of that name. -/
theorem get?_recordAll {inputs : Inputs} {ps : List Predicate} {t : Truths} {name : String}
    {x : Float32} (h : (recordAll inputs ps t).2.get? name = some x) :
    t.get? name = some x ∨ ∃ p ∈ ps, p.name = name ∧
      ∃ y, x = Binary32.toDegree (p.membership.degree y) := by
  induction ps generalizing t with
  | nil => exact Or.inl h
  | cons p ps ih =>
    unfold recordAll at h
    cases hy : inputs.get? p.input with
    | none =>
      rw [hy] at h
      exact Or.inl h
    | some y =>
      rw [hy] at h
      simp only at h
      cases hi : t.insert p.name (Binary32.toDegree (p.membership.degree y)) with
      | error f =>
        rw [hi] at h
        exact Or.inl h
      | ok u =>
        rw [hi] at h
        rcases ih h with hu | ⟨q, hm, hq⟩
        · rw [Table.get?_insert hi] at hu
          split at hu
          · cases hu
            exact Or.inr ⟨p, by simp, Eq.symm ‹_›, y, rfl⟩
          · exact Or.inl hu
        · exact Or.inr ⟨q, List.mem_cons_of_mem _ hm, hq⟩

end FuzzyMotion.Inference

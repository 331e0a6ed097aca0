import FuzzyMotion.Behavior.Basic
import FuzzyMotion.Proofs.RuleBase.Declared

/-!
Declarations that are refused. A declaration either adds its one entry at the end of its table, or it is
refused and changes nothing. Why it is refused is said here of the tables alone; a reason counts only
where the reasons that are looked for before it do not hold.

The main statement is about any sequence of declarations, refused or not: no name stands twice, no table
outgrows its capacity, and the next declaration is refused exactly where there is a reason, with this
reason.
-/
namespace FuzzyMotion

theorem extend_eq_error_iff {α : Type} {c : Capacity} {xs : List α} {x : α} {f : Fault} :
    extend c xs x = .error f ↔ c.limit ≤ xs.length ∧ f = .tableFull c := by
  rw [extend]
  by_cases h : xs.length < c.limit
  · simp [h, Nat.not_le.2 h]
  · simp [h, Nat.not_lt.1 h, eq_comm]

/-- All labels are different, and there is room for them. -/
def Collectable (labels : List (String × Float32)) : Prop :=
  (labels.map Prod.fst).Nodup ∧ labels.length ≤ Capacity.labels.limit

/-- What is wrong with labels that are to follow those in `done`: what is wrong with the first one, from
the left, that repeats a label before it or for which there is no room. -/
inductive LabelFault (done labels : List (String × Float32)) : Fault → Prop where
  | nameTaken {before rest : List (String × Float32)} {label : String} {value : Float32}
    (hl : labels = before ++ (label, value) :: rest) (hb : Collectable (done ++ before))
    (hm : label ∈ (done ++ before).map Prod.fst) : LabelFault done labels (.nameTaken label)
  | tableFull {before rest : List (String × Float32)} {label : String} {value : Float32}
    (hl : labels = before ++ (label, value) :: rest) (hb : Collectable (done ++ before))
    (hn : label ∉ (done ++ before).map Prod.fst)
    (hfull : Capacity.labels.limit ≤ (done ++ before).length) :
    LabelFault done labels (.tableFull .labels)

section Labels

variable {done before rest : List (String × Float32)} {label : String} {value : Float32} {f : Fault}

theorem collectable_nil : Collectable [] :=
  ⟨List.nodup_nil, Nat.zero_le _⟩

theorem Collectable.concat (h : Collectable done) (hn : label ∉ done.map Prod.fst)
    (hroom : done.length < Capacity.labels.limit) : Collectable (done ++ [(label, value)]) := by
  refine ⟨by simpa using nodup_concat h.1 hn, ?_⟩
  rw [List.length_append, List.length_singleton]
  exact hroom

theorem collectLabels_eq_ok_iff {all : List (String × Float32)} :
    collectLabels [] rest = .ok all ↔ all = rest ∧ Collectable rest := by
  constructor
  · intro h
    obtain ⟨rfl, hn, hl⟩ := collectLabels_eq_ok h List.nodup_nil (Nat.zero_le _)
    exact ⟨rfl, hn, hl⟩
  · rintro ⟨rfl, hn, hl⟩
    exact collectLabels_of_nodup hn hl

theorem LabelFault.cons (h : LabelFault (done ++ [(label, value)]) rest f) :
    LabelFault done ((label, value) :: rest) f := by
  have hcons : ∀ before, done ++ [(label, value)] ++ before = done ++ (label, value) :: before :=
    fun before => by rw [List.append_assoc, List.singleton_append]
  cases h with
  | nameTaken hl hb hm =>
    rw [hcons] at hb hm
    exact .nameTaken (congrArg _ hl) hb hm
  | tableFull hl hb hn hfull =>
    rw [hcons] at hb hn hfull
    exact .tableFull (congrArg _ hl) hb hn hfull

theorem collectLabels_eq_error_iff (hd : Collectable done) :
    collectLabels done rest = .error f ↔ LabelFault done rest f := by
  constructor
  · intro h
    -- The first label is at fault, or it joins those that are done and the fault is among the others.
    induction rest generalizing done with
    | nil => cases h
    | cons pair rest ih =>
      obtain ⟨label, value⟩ := pair
      have hl : (label, value) :: rest = [] ++ (label, value) :: rest := rfl
      have hnil : Collectable (done ++ []) := by rwa [List.append_nil]
      rw [collectLabels] at h
      split at h
      · rename_i hm
        cases h
        exact .nameTaken hl hnil (by rwa [List.append_nil])
      · rename_i hn
        rw [bind_eq_error_iff] at h
        obtain h | ⟨longer, hlonger, h⟩ := h
        · obtain ⟨hfull, rfl⟩ := extend_eq_error_iff.1 h
          exact .tableFull hl hnil (by rwa [List.append_nil]) (by rwa [List.append_nil])
        · obtain ⟨hroom, rfl⟩ := extend_eq_ok_iff.1 hlonger
          exact (ih (hd.concat hn hroom) h).cons
  · intro h
    cases h with
    | nameTaken hl hb hm => rw [hl, collectLabels_append hb.1 hb.2, collectLabels, if_pos hm]
    | tableFull hl hb hn hfull =>
      rw [hl, collectLabels_append hb.1 hb.2, collectLabels, if_neg hn,
        extend_eq_error_iff.2 ⟨hfull, rfl⟩]
      rfl

end Labels

namespace RuleBase

open Operation

/-- Why a declaration is refused. The reasons for each kind stand in the order in which they are looked
for. -/
inductive Refusal (b : RuleBase) : Declaration → Fault → Prop where
  | predicateName {p : Predicate} (h : p.name ∈ b.predicateNames) :
    Refusal b (.predicate p) (.nameTaken p.name)
  | predicateRoom {p : Predicate} (hn : p.name ∉ b.predicateNames)
    (hfull : Capacity.predicates.limit ≤ b.predicates.length) :
    Refusal b (.predicate p) (.tableFull .predicates)
  | actionName {a : Action} (h : a.name ∈ b.actionNames) : Refusal b (.action a) (.nameTaken a.name)
  | actionOutput {a : Action} (hn : a.name ∉ b.actionNames) (h : a.output ∈ b.outputs) :
    Refusal b (.action a) (.nameTaken a.output)
  | actionLabel {a : Action} {f : Fault} (hn : a.name ∉ b.actionNames) (ho : a.output ∉ b.outputs)
    (h : LabelFault [] a.labels f) : Refusal b (.action a) f
  | actionRoom {a : Action} (hn : a.name ∉ b.actionNames) (ho : a.output ∉ b.outputs)
    (hl : Collectable a.labels) (hfull : Capacity.actions.limit ≤ b.actions.length) :
    Refusal b (.action a) (.tableFull .actions)
  | ruleName {r : Rule} (h : r.name ∈ b.ruleNames) : Refusal b (.rule r) (.nameTaken r.name)
  | ruleRoom {r : Rule} (hn : r.name ∉ b.ruleNames)
    (hfull : Capacity.rules.limit ≤ b.rules.length) : Refusal b (.rule r) (.tableFull .rules)

/-- The rule base with the entry of a declaration at the end of its table. -/
def Declaration.added : Declaration → RuleBase → RuleBase
  | predicate p, b => { b with predicates := b.predicates ++ [p] }
  | action a, b => { b with actions := b.actions ++ [a] }
  | rule r, b => { b with rules := b.rules ++ [r] }
  | goal statement, b => { b with goal := some statement }

/-- What a declaration is to make of a rule base. -/
def Declaration.change : Declaration → RuleBase → Except Fault RuleBase
  | predicate p, b => b.withPredicate p
  | action a, b => b.withAction a
  | rule r, b => b.withRule r
  | goal statement, b => .ok { b with goal := some statement }

section Single

variable {b c : RuleBase} {d : Declaration} {f : Fault}

/-- An entry with a name of its own is refused where the name is taken, and then where the table is full. -/
theorem insertion_eq_error_iff {α : Type} {t : Capacity} {names : List String} {name : String}
    {xs : List α} {x : α} {put : List α → RuleBase} :
    (if name ∈ names then .error (.nameTaken name) else (extend t xs x).map put) = .error f ↔
      (name ∈ names ∧ f = .nameTaken name) ∨
        (name ∉ names ∧ t.limit ≤ xs.length ∧ f = .tableFull t) := by
  by_cases hm : name ∈ names
  · simp [hm, eq_comm]
  · rw [← extend_eq_error_iff (x := x)]
    cases extend t xs x with
    | ok ys => simp [hm, Except.map]
    | error e => simp [hm, Except.map]

theorem withPredicate_eq_error_iff {p : Predicate} :
    b.withPredicate p = .error f ↔ Refusal b (.predicate p) f := by
  rw [withPredicate, insertion_eq_error_iff]
  constructor
  · rintro (⟨hm, rfl⟩ | ⟨hn, hfull, rfl⟩)
    · exact .predicateName hm
    · exact .predicateRoom hn hfull
  · intro h
    cases h with
    | predicateName hm => exact Or.inl ⟨hm, rfl⟩
    | predicateRoom hn hfull => exact Or.inr ⟨hn, hfull, rfl⟩

theorem withRule_eq_error_iff {r : Rule} :
    b.withRule r = .error f ↔ Refusal b (.rule r) f := by
  rw [withRule, insertion_eq_error_iff]
  constructor
  · rintro (⟨hm, rfl⟩ | ⟨hn, hfull, rfl⟩)
    · exact .ruleName hm
    · exact .ruleRoom hn hfull
  · intro h
    cases h with
    | ruleName hm => exact Or.inl ⟨hm, rfl⟩
    | ruleRoom hn hfull => exact Or.inr ⟨hn, hfull, rfl⟩

/-- An action whose two names are free is refused for its labels, and then for want of room. -/
theorem withAction_eq_error_iff_of_fresh {a : Action} (hn : a.name ∉ b.actionNames)
    (ho : a.output ∉ b.outputs) :
    b.withAction a = .error f ↔ LabelFault [] a.labels f ∨
      (Collectable a.labels ∧ Capacity.actions.limit ≤ b.actions.length ∧ f = .tableFull .actions) := by
  rw [withAction, if_neg hn, if_neg ho, bind_eq_error_iff,
    collectLabels_eq_error_iff collectable_nil]
  simp only [collectLabels_eq_ok_iff, bind_eq_error_iff, extend_eq_error_iff, pure, Except.pure,
    reduceCtorEq, and_false, exists_false, or_false]
  simp only [and_assoc, exists_eq_left]

theorem withAction_eq_error_iff {a : Action} :
    b.withAction a = .error f ↔ Refusal b (.action a) f := by
  constructor
  · intro h
    by_cases hn : a.name ∈ b.actionNames
    · rw [withAction, if_pos hn] at h
      cases h
      exact .actionName hn
    · by_cases ho : a.output ∈ b.outputs
      · rw [withAction, if_neg hn, if_pos ho] at h
        cases h
        exact .actionOutput hn ho
      · obtain h | ⟨hl, hfull, rfl⟩ := (withAction_eq_error_iff_of_fresh hn ho).1 h
        · exact .actionLabel hn ho h
        · exact .actionRoom hn ho hl hfull
  · intro h
    cases h with
    | actionName hm => rw [withAction, if_pos hm]
    | actionOutput hn hm => rw [withAction, if_neg hn, if_pos hm]
    | actionLabel hn ho h => exact (withAction_eq_error_iff_of_fresh hn ho).2 (Or.inl h)
    | actionRoom hn ho hl hfull =>
      exact (withAction_eq_error_iff_of_fresh hn ho).2 (Or.inr ⟨hl, hfull, rfl⟩)

theorem change_eq_error_iff : d.change b = .error f ↔ Refusal b d f := by
  cases d with
  | predicate p => exact withPredicate_eq_error_iff
  | action a => exact withAction_eq_error_iff
  | rule r => exact withRule_eq_error_iff
  | goal statement => exact iff_of_false nofun nofun

theorem change_eq_ok (h : d.change b = .ok c) : c = d.added b := by
  cases d with
  | predicate p => exact (withPredicate_eq_ok h).2.2
  | action a => exact (withAction_eq_ok h).2.2.2.2.2
  | rule r => exact (withRule_eq_ok h).2.2
  | goal statement => exact (Except.ok.inj h).symm

/-- A declaration is made as a whole or not at all. -/
theorem operation_eq_update (d : Declaration) : d.operation = update d.change := by
  cases d with
  | predicate p => rfl
  | action a => rfl
  | rule r => rfl
  | goal statement => rfl

theorem run_operation_eq_error_iff : d.operation.run b = (.error f, b) ↔ Refusal b d f := by
  rw [operation_eq_update, run_update, ← change_eq_error_iff]
  cases d.change b with
  | ok c => simp
  | error e => simp

theorem run_operation_eq_ok_iff :
    d.operation.run b = (.ok (), d.added b) ↔ ∀ f, ¬Refusal b d f := by
  simp only [operation_eq_update, run_update, ← change_eq_error_iff]
  cases h : d.change b with
  | ok c => simp [change_eq_ok h]
  | error f => simp

end Single

section Calls

/-- A call on a rule base: a single declaration, or those of the two actions of motion. -/
inductive Call where
  | declare (d : Declaration)
  | declareMotion

def Call.operation : Call → Operation RuleBase Unit
  | declare d => d.operation
  | declareMotion => each Motion.actions insertAction

/-- The rule base after calls, one after the other, whether or not they succeed. -/
def afterCalls (b : RuleBase) (calls : List Call) : RuleBase :=
  calls.foldl (fun b c => c.operation.after b) b

variable {b : RuleBase}

/-- Declarations in a row, up to the first one that is refused, leave a built rule base. -/
theorem Built.after_each {α : Type} {d : α → Declaration} (h : b.Built) (xs : List α) :
    ((Operation.each xs fun x => (d x).operation).after b).Built := by
  induction xs generalizing b with
  | nil => exact h
  | cons x xs ih =>
    have hx : ((d x).operation.after b).Built := .declared (d x) h
    rw [← run_snd, run_each_cons, andThen]
    cases (d x).operation.run b |>.1 with
    | error f => exact hx
    | ok _ => exact ih hx

theorem Built.afterCalls (h : b.Built) (calls : List Call) : (b.afterCalls calls).Built := by
  induction calls generalizing b with
  | nil => exact h
  | cons c rest ih =>
    cases c with
    | declare d => exact ih (.declared d h)
    | declareMotion => exact ih (h.after_each (d := .action) Motion.actions)

/-- After any calls on the empty rule base, refused or not, no name stands twice in a table and no table
outgrows its capacity. The next declaration is refused exactly where there is a reason, and then with
the first reason and without any change; otherwise it adds its entry and nothing else. -/
theorem declarations_atomic (calls : List Call) :
    let b := empty.afterCalls calls
    b.WellFormed ∧ ∀ d : Declaration,
      (∀ f, d.operation.run b = (.error f, b) ↔ Refusal b d f) ∧
        (d.operation.run b = (.ok (), d.added b) ↔ ∀ f, ¬Refusal b d f) := by
  intro b
  exact ⟨(Built.empty.afterCalls calls).wellFormed,
    fun d => ⟨fun f => run_operation_eq_error_iff, run_operation_eq_ok_iff⟩⟩

end Calls

end RuleBase

end FuzzyMotion

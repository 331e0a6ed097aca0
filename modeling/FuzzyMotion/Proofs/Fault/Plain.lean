import FuzzyMotion.Inference
import FuzzyMotion.Observation
import FuzzyMotion.Proofs.RuleBase.Refusals

/-!
Operations whose faults quote nothing. An operation that only fills tables fails for a name that is taken,
for want of room, for points out of order or for an input that is not there, and such a fault names all that it
is about in full.
-/
namespace FuzzyMotion

/-- Whether a fault quotes a statement or a name that may have been cut. -/
def Fault.quotes : Fault → Bool
  | undeclaredPredicate .. | unknownBehavior _ | malformed .. | unknownPredicate _ => true
  | _ => false

namespace Operation

variable {σ τ α β : Type}

/-- Fails, if at all, with a fault that quotes nothing. -/
def Plain (x : Operation σ α) : Prop :=
  ∀ s f, x.outcome s = .error f → f.quotes = false

theorem plain_of_ok {x : Operation σ α} (h : ∀ s, ∃ a, x.outcome s = .ok a) : x.Plain := by
  intro s f hf
  obtain ⟨a, ha⟩ := h s
  rw [ha] at hf
  cases hf

theorem plain_fail {e : Fault} (h : e.quotes = false) : (fail e : Operation σ α).Plain := by
  rintro s f ⟨⟩
  exact h

theorem plain_ofExcept {x : Except Fault α} (h : ∀ f, x = .error f → f.quotes = false) :
    (ofExcept x : Operation σ α).Plain :=
  fun _ f hf => h f hf

theorem plain_update {g : σ → Except Fault σ} (h : ∀ s f, g s = .error f → f.quotes = false) :
    (update g).Plain := by
  intro s f hf
  rw [← run_fst, run_update] at hf
  cases hg : g s with
  | ok t => simp [hg] at hf
  | error e =>
    simp only [hg, Except.error.injEq] at hf
    exact hf ▸ h s e hg

/-- The first fault is the one that is returned, and every part of a sequence is plain. -/
theorem Plain.bind {x : Operation σ α} {g : α → Operation σ β} (hx : x.Plain)
    (hg : ∀ a, (g a).Plain) : (x >>= g).Plain := by
  intro s f hf
  rw [← run_fst, run_bind] at hf
  cases ho : x.outcome s with
  | ok a =>
    rw [run, ho, andThen_ok] at hf
    exact hg a _ f hf
  | error e =>
    rw [run, ho, andThen_error] at hf
    cases hf
    exact hx s f ho

theorem Plain.each {g : α → Operation σ Unit} (h : ∀ a, (g a).Plain) (as : List α) :
    (Operation.each as g).Plain := by
  induction as with
  | nil => exact plain_of_ok fun _ => ⟨(), rfl⟩
  | cons a as ih => exact (h a).bind fun _ => ih

theorem Plain.on {part : σ → τ} {put : τ → σ → σ} {x : Operation τ α} (h : x.Plain) :
    (Operation.on part put x).Plain :=
  fun s => h (part s)

end Operation

open Operation

theorem Membership.plain_checked {m : Membership} {f : Fault} (h : m.checked = .error f) :
    f.quotes = false := by
  rw [checked] at h
  split at h
  · cases h
  · cases h
    rfl

theorem Table.plain_put {κ α : Type} [DecidableEq κ] {c : Capacity} (k : κ) (a : α) :
    (Table.put k a : Operation (Table κ c α) Unit).Plain := by
  refine plain_update fun t f h => ?_
  obtain ⟨-, -, rfl⟩ := insert_eq_error_iff.1 h
  rfl

namespace Observation

theorem plain_insertSonar (sonar : Sonar) : (insertSonar sonar).Plain := by
  refine plain_update fun o f h => ?_
  split at h
  · cases h
  · cases h
    rfl

theorem plain_insertDoor (door : DoorId) (isOpen : Bool) : (insertDoor door isOpen).Plain := by
  refine plain_update fun o f h => ?_
  obtain ⟨-, -, rfl⟩ := Table.insert_eq_error_iff.1 (map_eq_error_iff.1 h)
  rfl

end Observation

theorem LabelFault.quotes {done labels : List (String × Float32)} {f : Fault}
    (h : LabelFault done labels f) : f.quotes = false := by
  cases h <;> rfl

namespace RuleBase

theorem Refusal.quotes {b : RuleBase} {d : Declaration} {f : Fault} (h : Refusal b d f) :
    f.quotes = false := by
  cases h with
  | actionLabel hn ho h => exact h.quotes
  | _ => rfl

theorem plain_declaration (d : Declaration) : d.operation.Plain := by
  rw [operation_eq_update]
  exact plain_update fun b f h => (change_eq_error_iff.1 h).quotes

theorem plain_declare (p : Predicate) : (declare p).Plain :=
  (plain_ofExcept fun _ h => Membership.plain_checked h).bind fun _ => plain_declaration (.predicate _)

theorem plain_call (c : Call) : c.operation.Plain := by
  cases c with
  | declare d => exact plain_declaration d
  | declareMotion => exact Plain.each (fun a => plain_declaration (.action a)) _

/-- Tables that cannot be entered as a whole are refused for one of their entries. -/
theorem plain_enter (tables : RuleBase) : (enter tables).Plain := by
  refine (Plain.each plain_declare _).bind fun _ => ?_
  refine (Plain.each (fun a => plain_declaration (.action a)) _).bind fun _ => ?_
  refine (Plain.each (fun r => plain_declaration (.rule r)) _).bind fun _ => ?_
  exact Plain.each (fun statement => plain_declaration (.goal statement)) _

end RuleBase

namespace Inference

theorem plain_fuzzify : fuzzify.Plain := by
  refine Plain.bind (plain_of_ok fun _ => ⟨(), rfl⟩) fun _ => ?_
  refine Plain.bind (plain_of_ok fun e => ⟨e, rfl⟩) fun e => ?_
  refine Plain.each (fun p => ?_) _
  refine Plain.bind (plain_of_ok fun e => ⟨e, rfl⟩) fun e => ?_
  cases e.inputs.get? p.input with
  | none => exact plain_fail rfl
  | some x => exact (Table.plain_put _ _).on

end Inference

end FuzzyMotion

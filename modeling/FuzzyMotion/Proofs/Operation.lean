import FuzzyMotion.Operation

/-!
Operations without their log. What an operation returns and the state that it leaves can be computed
from its parts, and neither depends on what is written to the log. The outcomes of operations in a row
are those of computations in a row that have no state.

And operations that differ in their logs alone: one abridges another if it does the same and writes a
part of the records, in their order.
-/
namespace FuzzyMotion

section Sequence

variable {ε α β : Type} {x : Except ε α} {f : α → Except ε β}

/-- Two computations in a row succeed where the first one does, and then the second one. -/
theorem bind_eq_ok_iff {b : β} : x >>= f = .ok b ↔ ∃ a, x = .ok a ∧ f a = .ok b := by
  cases x with
  | ok a => simp [bind, Except.bind]
  | error e => simp [bind, Except.bind]

/-- The first fault is the one that is reported. -/
theorem bind_eq_error_iff {e : ε} :
    x >>= f = .error e ↔ x = .error e ∨ ∃ a, x = .ok a ∧ f a = .error e := by
  cases x with
  | ok a => simp [bind, Except.bind]
  | error e => simp [bind, Except.bind]

theorem map_eq_ok_iff {g : α → β} {b : β} : x.map g = .ok b ↔ ∃ a, x = .ok a ∧ g a = b := by
  cases x with
  | ok a => simp [Except.map]
  | error e => simp [Except.map]

/-- What is made of a result does not matter to a fault. -/
theorem map_eq_error_iff {g : α → β} {e : ε} : x.map g = .error e ↔ x = .error e := by
  cases x with
  | ok a => simp [Except.map]
  | error e => simp [Except.map]

/-- Nor does what is made of a fault to a result. -/
theorem mapError_eq_ok_iff {δ : Type} {g : ε → δ} {a : α} : x.mapError g = .ok a ↔ x = .ok a := by
  cases x with
  | ok b =>
    change (Except.ok b : Except δ α) = .ok a ↔ Except.ok b = .ok a
    simp only [Except.ok.injEq]
  | error e => exact iff_of_false nofun nofun

theorem mapError_eq_error_iff {δ : Type} {g : ε → δ} {d : δ} :
    x.mapError g = .error d ↔ ∃ e, x = .error e ∧ g e = d := by
  cases x with
  | ok b => exact iff_of_false nofun nofun
  | error e =>
    change Except.error (g e) = .error d ↔ ∃ e', Except.error e = .error e' ∧ g e' = d
    simp

end Sequence

namespace Operation

variable {σ τ α β : Type}

/-- The outcome and the state afterwards. -/
def run (x : Operation σ α) (s : σ) : Except Fault α × σ :=
  (x.outcome s, x.after s)

/-- Go on from a result and a state, unless the result is a fault. -/
def andThen (r : Except Fault α × σ) (f : α → σ → Except Fault β × σ) : Except Fault β × σ :=
  match r.1 with
  | .ok a => f a r.2
  | .error e => (.error e, r.2)

@[simp] theorem run_fst (x : Operation σ α) (s : σ) : (x.run s).1 = x.outcome s := rfl

@[simp] theorem run_snd (x : Operation σ α) (s : σ) : (x.run s).2 = x.after s := rfl

@[simp] theorem andThen_ok (a : α) (s : σ) (f : α → σ → Except Fault β × σ) :
    andThen (.ok a, s) f = f a s := rfl

@[simp] theorem andThen_error (e : Fault) (s : σ) (f : α → σ → Except Fault β × σ) :
    andThen (.error e, s) f = (.error e, s) := rfl

@[simp] theorem run_bind (x : Operation σ α) (f : α → Operation σ β) (s : σ) :
    (x >>= f).run s = andThen (x.run s) fun a t => (f a).run t := by
  simp only [run, outcome, after, bind_def, Operation.bind, andThen]
  cases (x s).outcome <;> rfl

@[simp] theorem run_pure (a : α) (s : σ) : (Pure.pure a : Operation σ α).run s = (.ok a, s) := rfl

@[simp] theorem run_fail (e : Fault) (s : σ) : (fail e : Operation σ α).run s = (.error e, s) := rfl

@[simp] theorem run_state (s : σ) : (state : Operation σ σ).run s = (.ok s, s) := rfl

@[simp] theorem run_modify (f : σ → σ) (s : σ) : (modify f).run s = (.ok (), f s) := rfl

@[simp] theorem run_note (l : Level) (t : String) (s : σ) :
    (note l t : Operation σ Unit).run s = (.ok (), s) := rfl

@[simp] theorem run_ofExcept (x : Except Fault α) (s : σ) : (ofExcept x).run s = (x, s) := rfl

theorem run_update (f : σ → Except Fault σ) (s : σ) :
    (update f).run s = match f s with
      | .ok t => (.ok (), t)
      | .error e => (.error e, s) := by
  simp only [run, outcome, after, update]
  cases f s <;> rfl

@[simp] theorem run_on (part : σ → τ) (put : τ → σ → σ) (x : Operation τ α) (s : σ) :
    (on part put x).run s = ((x.run (part s)).1, put (x.run (part s)).2 s) := rfl

@[simp] theorem run_apart (start : τ) (x : Operation τ α) (s : σ) :
    (apart start x : Operation σ (α × τ)).run s =
      ((x.run start).1.map fun a => (a, (x.run start).2), s) := rfl

@[simp] theorem run_each_nil (f : α → Operation σ Unit) (s : σ) : (each [] f).run s = (.ok (), s) :=
  rfl

@[simp] theorem run_each_cons (a : α) (as : List α) (f : α → Operation σ Unit) (s : σ) :
    (each (a :: as) f).run s = andThen ((f a).run s) fun _ t => (each as f).run t :=
  run_bind (f a) (fun _ => each as f) s

/-- Only writes to the log. -/
def Silent (x : Operation σ Unit) : Prop :=
  ∀ s, x.run s = (.ok (), s)

theorem silent_note (l : Level) (t : String) : (note l t : Operation σ Unit).Silent :=
  fun _ => rfl

theorem Silent.whenever {x : Operation σ Unit} (c : Bool) (h : x.Silent) :
    (whenever c x).Silent := by
  intro s
  cases c with
  | false => rfl
  | true => exact h s

theorem Silent.each {f : α → Operation σ Unit} (h : ∀ a, (f a).Silent) (as : List α) :
    (each as f).Silent := by
  intro s
  induction as with
  | nil => rfl
  | cons a as ih => rw [run_each_cons, h a s, andThen_ok, ih]

theorem Silent.bind {x : Operation σ Unit} {f : Unit → Operation σ Unit} (hx : x.Silent)
    (hf : (f ()).Silent) : (x >>= f).Silent := by
  intro s
  rw [run_bind, hx s, andThen_ok, hf s]

section Log

variable {x y : Operation σ α} {f g : α → Operation σ β}

theorem log_bind (x : Operation σ α) (f : α → Operation σ β) (s : σ) :
    (x >>= f).log s = x.log s ++ match x.outcome s with
      | .ok a => (f a).log (x.after s)
      | .error _ => [] := by
  simp only [log, outcome, after, bind_def, Operation.bind]
  cases (x s).outcome with
  | ok a => rfl
  | error e => exact (List.append_nil _).symm

/-- Writes nothing to the log. -/
def Mute (x : Operation σ α) : Prop :=
  ∀ s, x.log s = []

theorem Mute.bind (hx : x.Mute) (hf : ∀ a, (f a).Mute) : (x >>= f).Mute := by
  intro s
  rw [log_bind, hx s]
  cases x.outcome s with
  | ok a => exact hf a _
  | error e => rfl

theorem mute_each {f : α → Operation σ Unit} (h : ∀ a, (f a).Mute) (as : List α) : (each as f).Mute := by
  induction as with
  | nil => exact fun _ => rfl
  | cons a as ih => exact (h a).bind fun _ => ih

theorem mute_update (f : σ → Except Fault σ) : (update f).Mute := by
  intro s
  rw [log, update]
  cases f s <;> rfl

theorem Mute.on {part : σ → τ} {put : τ → σ → σ} {x : Operation τ α} (h : x.Mute) :
    (on part put x).Mute :=
  fun s => h (part s)

/-- Does what another operation does, and writes a part of its log. -/
structure Abridges (x y : Operation σ α) : Prop where
  run_eq : ∀ s, x.run s = y.run s
  sublist : ∀ s, (x.log s).Sublist (y.log s)

theorem Abridges.refl (x : Operation σ α) : x.Abridges x :=
  ⟨fun _ => rfl, fun _ => List.Sublist.refl _⟩

/-- What follows an abridged operation starts from the same result and the same state. -/
theorem Abridges.bind (hx : x.Abridges y) (hf : ∀ s a, y.outcome s = .ok a → (f a).Abridges (g a)) :
    (x >>= f).Abridges (y >>= g) := by
  have hrun : ∀ s, x.outcome s = y.outcome s ∧ x.after s = y.after s := fun s =>
    ⟨congrArg Prod.fst (hx.run_eq s), congrArg Prod.snd (hx.run_eq s)⟩
  constructor
  · intro s
    rw [run_bind, run_bind, hx.run_eq s]
    cases ho : y.outcome s with
    | ok a =>
      rw [run, ho, andThen_ok, andThen_ok]
      exact (hf s a ho).run_eq _
    | error e => rw [run, ho, andThen_error, andThen_error]
  · intro s
    rw [log_bind, log_bind, (hrun s).1, (hrun s).2]
    refine (hx.sublist s).append ?_
    cases ho : y.outcome s with
    | ok a => exact (hf s a ho).sublist _
    | error e => exact List.Sublist.refl _

/-- After one and the same operation, only what follows it is abridged. -/
theorem Abridges.bind_right (hf : ∀ s a, x.outcome s = .ok a → (f a).Abridges (g a)) :
    (x >>= f).Abridges (x >>= g) :=
  (Abridges.refl x).bind hf

/-- What is only written to the log can be left out. -/
theorem Silent.abridges {x : Operation σ Unit} (h : x.Silent) {c d : Bool} (hcd : c = true → d = true) :
    (Operation.whenever c x).Abridges (Operation.whenever d x) := by
  cases c with
  | true =>
    rw [hcd rfl]
    exact .refl _
  | false =>
    refine ⟨fun s => ?_, fun s => List.nil_sublist _⟩
    rw [h.whenever d s]
    rfl

theorem Abridges.each {f g : α → Operation σ Unit} (h : ∀ a, (f a).Abridges (g a)) (as : List α) :
    (Operation.each as f).Abridges (Operation.each as g) := by
  induction as with
  | nil => exact .refl _
  | cons a as ih => exact (h a).bind fun _ _ _ => ih

end Log

end Operation

end FuzzyMotion

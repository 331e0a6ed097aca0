import FuzzyMotion.Fault

/-!
Operations on a state that may fail and that write a log. A failing operation keeps the changes it
made and the records it wrote before it failed; what an operation promises about its state after a
failure is a theorem about the operation.
-/
namespace FuzzyMotion

inductive Level where
  | trace | debug | info | warn | error
  deriving DecidableEq, Repr

structure Entry where
  level : Level
  text : String
  deriving DecidableEq, Repr

/-- What running an operation shows. -/
structure Effect (σ α : Type) where
  outcome : Except Fault α
  state : σ
  log : List Entry

def Operation (σ α : Type) : Type :=
  σ → Effect σ α

namespace Operation

variable {σ τ α β : Type}

def outcome (x : Operation σ α) (s : σ) : Except Fault α := (x s).outcome

/-- The state after the operation, whether or not it succeeds. -/
def after (x : Operation σ α) (s : σ) : σ := (x s).state

def log (x : Operation σ α) (s : σ) : List Entry := (x s).log

@[ext] theorem ext {x y : Operation σ α} (ho : ∀ s, x.outcome s = y.outcome s)
    (ha : ∀ s, x.after s = y.after s) (hl : ∀ s, x.log s = y.log s) : x = y := by
  funext s
  have h1 := ho s
  have h2 := ha s
  have h3 := hl s
  simp only [outcome, after, log] at h1 h2 h3
  cases hx : x s
  cases hy : y s
  simp_all

protected def pure (a : α) : Operation σ α :=
  fun s => ⟨.ok a, s, []⟩

/-- The second operation starts where the first one stopped, unless the first one failed. -/
protected def bind (x : Operation σ α) (f : α → Operation σ β) : Operation σ β := fun s =>
  let first := x s
  match first.outcome with
  | .ok a =>
    let second := f a first.state
    ⟨second.outcome, second.state, first.log ++ second.log⟩
  | .error e => ⟨.error e, first.state, first.log⟩

instance : Monad (Operation σ) where
  pure := Operation.pure
  bind := Operation.bind

def fail (e : Fault) : Operation σ α :=
  fun s => ⟨.error e, s, []⟩

def state : Operation σ σ :=
  fun s => ⟨.ok s, s, []⟩

def modify (f : σ → σ) : Operation σ Unit :=
  fun s => ⟨.ok (), f s, []⟩

def note (level : Level) (text : String) : Operation σ Unit :=
  fun s => ⟨.ok (), s, [⟨level, text⟩]⟩

/-- The result of a computation that has no state. -/
def ofExcept (x : Except Fault α) : Operation σ α :=
  fun s => ⟨x, s, []⟩

/-- A change that is made as a whole or not at all. -/
def update (f : σ → Except Fault σ) : Operation σ Unit := fun s =>
  match f s with
  | .ok t => ⟨.ok (), t, []⟩
  | .error e => ⟨.error e, s, []⟩

def whenever (c : Bool) (x : Operation σ Unit) : Operation σ Unit :=
  if c then x else Operation.pure ()

/-- One operation per element, in order, until one fails. -/
def each (xs : List α) (f : α → Operation σ Unit) : Operation σ Unit :=
  match xs with
  | [] => Operation.pure ()
  | a :: as => (f a).bind fun _ => each as f

/-- Run on a part of the state. -/
def on (part : σ → τ) (put : τ → σ → σ) (x : Operation τ α) : Operation σ α := fun s =>
  let inner := x (part s)
  ⟨inner.outcome, put inner.state s, inner.log⟩

/-- Run on a state of its own, which is part of the result. -/
def apart (start : τ) (x : Operation τ α) : Operation σ (α × τ) := fun s =>
  let inner := x start
  ⟨inner.outcome.map fun a => (a, inner.state), s, inner.log⟩

@[simp] theorem pure_apply (a : α) (s : σ) : (Pure.pure a : Operation σ α) s = ⟨.ok a, s, []⟩ := rfl

@[simp] theorem pure_def (a : α) (s : σ) :
    (Operation.pure a : Operation σ α) s = ⟨.ok a, s, []⟩ := rfl

@[simp] theorem fail_apply (e : Fault) (s : σ) : (fail e : Operation σ α) s = ⟨.error e, s, []⟩ := rfl

@[simp] theorem state_apply (s : σ) : (state : Operation σ σ) s = ⟨.ok s, s, []⟩ := rfl

@[simp] theorem modify_apply (f : σ → σ) (s : σ) : modify f s = ⟨.ok (), f s, []⟩ := rfl

@[simp] theorem note_apply (l : Level) (t : String) (s : σ) :
    (note l t : Operation σ Unit) s = ⟨.ok (), s, [⟨l, t⟩]⟩ := rfl

@[simp] theorem ofExcept_apply (x : Except Fault α) (s : σ) : ofExcept x s = ⟨x, s, []⟩ := rfl

theorem bind_def (x : Operation σ α) (f : α → Operation σ β) : x >>= f = x.bind f := rfl

@[simp] theorem whenever_true (x : Operation σ Unit) : whenever true x = x := rfl

@[simp] theorem whenever_false (x : Operation σ Unit) : whenever false x = Operation.pure () := rfl

@[simp] theorem each_nil (f : α → Operation σ Unit) : each [] f = Operation.pure () := rfl

@[simp] theorem each_cons (a : α) (as : List α) (f : α → Operation σ Unit) :
    each (a :: as) f = (f a).bind fun _ => each as f := rfl

instance : LawfulMonad (Operation σ) := LawfulMonad.mk' (Operation σ)
  (by
    intro α x
    funext s
    show x.bind _ s = x s
    simp only [Operation.bind]
    rcases hx : x s with ⟨o, t, l⟩
    cases o <;> simp [Function.comp, Operation.pure])
  (by
    intro α β a f
    funext s
    simp [bind_def, Operation.bind])
  (by
    intro α β γ x f g
    funext s
    simp only [bind_def, Operation.bind]
    rcases hx : x s with ⟨o, t, l⟩
    cases o with
    | error e => rfl
    | ok a =>
      simp only
      rcases hf : f a t with ⟨o', t', l'⟩
      cases o' <;> simp [List.append_assoc])

end Operation

end FuzzyMotion

import FuzzyMotion.Proofs.Pilot.Verbosity

/-!
Engaging makes a pilot forget. Nothing that it kept for one behavior is left when it is engaged for
another, or when this fails: from there on it cannot be told from a pilot that has only been told the
same verbosity.
-/
namespace FuzzyMotion.Pilot

open Operation

variable [Trig]

/-- What can be seen after each call. -/
def sights : List Call → Pilot → List Sight
  | [], _ => []
  | c :: rest, p => sight (c.result p) (c.after p) :: sights rest (c.after p)

theorem sights_append (calls rest : List Call) (p : Pilot) :
    sights (calls ++ rest) p = sights calls p ++ sights rest (afterCalls calls p) := by
  induction calls generalizing p with
  | nil => rfl
  | cons c calls ih => rw [List.cons_append, sights, sights, ih, List.cons_append, afterCalls_cons]

/-- Of everything that a pilot keeps, engaging reads the verbosity only. -/
theorem run_engage_congr {p q : Pilot} (h : p.verbosity = q.verbosity) (name : String)
    (target : Target) : (engage name target).run p = (engage name target).run q := by
  rw [run_engage, run_engage, h]

theorem sights_engage_congr {p q : Pilot} (h : p.verbosity = q.verbosity) (name : String)
    (target : Target) (calls : List Call) :
    sights (.engage name target :: calls) p = sights (.engage name target :: calls) q := by
  have hrun := run_engage_congr h name target
  simp only [sights, Call.result, Call.after, ← run_fst, ← run_snd, hrun]

/-- Whatever has been called before, what can be seen after a pilot is engaged, whether or not this
succeeds, and after every later call is what a new pilot with the same verbosity shows. So a whole run
shows first what it shows up to there, and then what the new pilot does. -/
theorem swap_forgets_past (history : List Call) (name : String) (target : Target)
    (calls : List Call) :
    let p := afterCalls history initial
    let fresh := afterCalls [.setVerbosity p.verbosity] initial
    sights (.engage name target :: calls) p = sights (.engage name target :: calls) fresh ∧
      sights (history ++ .engage name target :: calls) initial =
        sights history initial ++ sights (.engage name target :: calls) fresh := by
  intro p fresh
  have hsame : sights (.engage name target :: calls) p = sights (.engage name target :: calls) fresh :=
    sights_engage_congr rfl name target calls
  exact ⟨hsame, by rw [sights_append, hsame]⟩

end FuzzyMotion.Pilot

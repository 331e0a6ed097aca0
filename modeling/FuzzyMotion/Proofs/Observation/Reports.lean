import FuzzyMotion.Observation
import FuzzyMotion.Proofs.Operation

/-!
Reports about doors in a row. Each is accepted, or refused where the table has no room for a further door;
what is known about a door afterwards is what the last accepted report about it says.
-/
namespace FuzzyMotion

open Operation

/-- A report: the door, and whether it is open. -/
abbrev DoorReport : Type := DoorId × Bool

namespace Observation

variable {o : Observation} {door : DoorId}

/-- The observation after reports in turn, whether or not they are accepted. -/
def afterReports (o : Observation) (reports : List DoorReport) : Observation :=
  reports.foldl (fun o report => (insertDoor report.1 report.2).after o) o

/-- The reports that are accepted, in their order. -/
def acceptedReports (o : Observation) : List DoorReport → List DoorReport
  | [] => []
  | report :: rest =>
    let later := acceptedReports ((insertDoor report.1 report.2).after o) rest
    match (insertDoor report.1 report.2).outcome o with
    | .ok _ => report :: later
    | .error _ => later

/-- What the last accepted report about a door says. -/
def lastReport? (o : Observation) (reports : List DoorReport) (door : DoorId) : Option Bool :=
  (o.acceptedReports reports).reverse.lookup door

theorem run_insertDoor (o : Observation) (door : DoorId) (isOpen : Bool) :
    (insertDoor door isOpen).run o = match o.doors.insert door isOpen with
      | .ok doors => (.ok (), { o with doors := doors })
      | .error e => (.error e, o) := by
  rw [insertDoor, run_update]
  cases o.doors.insert door isOpen <;> rfl

/-- An accepted report says what is known about its door, and a refused one says nothing. -/
theorem door?_after_insertDoor (o : Observation) (report : DoorReport) (door : DoorId) :
    ((insertDoor report.1 report.2).after o).door? door =
      match (insertDoor report.1 report.2).outcome o with
      | .ok _ => if door = report.1 then some report.2 else o.door? door
      | .error _ => o.door? door := by
  rw [← run_fst, ← run_snd, run_insertDoor]
  cases h : o.doors.insert report.1 report.2 with
  | ok doors => exact Table.get?_insert h door
  | error e => rfl

/-- Reports about other doors do not matter, and of those about a door only the last accepted one does. -/
theorem door?_afterReports (o : Observation) (reports : List DoorReport) (door : DoorId) :
    (o.afterReports reports).door? door = (o.lastReport? reports door).or (o.door? door) := by
  induction reports generalizing o with
  | nil => rfl
  | cons report rest ih =>
    have hrest := ih ((insertDoor report.1 report.2).after o)
    rw [door?_after_insertDoor] at hrest
    rw [lastReport?, acceptedReports]
    cases h : (insertDoor report.1 report.2).outcome o with
    | error e =>
      rw [h] at hrest
      exact hrest
    | ok u =>
      rw [h] at hrest
      refine Eq.trans hrest ?_
      simp only [List.reverse_cons, List.lookup_append, Table.lookup_cons_eq_ite, List.lookup_nil,
        lastReport?, Option.or_assoc]
      by_cases hd : door = report.1 <;> simp [hd]

theorem door?_of_noReports (h : o.doors = .empty) : o.door? door = none := by
  rw [door?, h]
  rfl

end Observation

end FuzzyMotion

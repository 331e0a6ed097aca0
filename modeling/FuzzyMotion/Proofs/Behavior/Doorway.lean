import FuzzyMotion.Proofs.Behavior.Renewed
import FuzzyMotion.Proofs.Behavior.Tables

/-!
What crossing a door makes of an observation: the inputs, and from them the activations for turning and for
driving. Until the door is crossed the robot heads for the point behind it; nothing turns it aside.
-/
namespace FuzzyMotion.Crossing

open Binary32 Motion FuzzyMotion.Membership

/-- What holds at most to the degree to which the door is not crossed. -/
def unlessCrossed (name : String) : Statement :=
  .both .and (.atom name) (.negation (.single (.atom "Crossed")))

/-- The antecedents of the rules, in their order. -/
def antecedents : List Statement :=
  [unlessCrossed "TargetLeft", unlessCrossed "TargetRight", unlessCrossed "TargetAhead",
    fastStatement "NearDoor" "Crossed", unlessCrossed "NearDoor", .single (.atom "Crossed"),
    .single (.atom "Crossed")]

theorem tokens_antecedents : ∀ pair ∈ rules.zip antecedents,
    Token.ofText pair.1.antecedent = pair.2.tokens := by
  set_option maxRecDepth 2000 in decide

/-- How true it is, so far through the door, that it is crossed. -/
def crossed (progress : Float32) : Float32 :=
  (rampUp 0 0.5).degree progress

theorem isDegree_crossed (progress : Float32) : IsDegree (crossed progress) := by
  have hedges : (rampUp 0 0.5).HasEdges := by
    change ([0, 0.5] : List Float32).IsChain Edge
    exact isChain_edge (by decide) (by decide)
  exact isDegree_degree hedges progress

/-- How true it is, at a distance from the center, that the robot is near the door. -/
def nearDoor (door : Location) (gap : Float32) : Float32 :=
  (rampDown door.radius (door.radius + 1)).degree gap

variable [Trig]

/-- The inputs that an observation gives. -/
def inputs (door : Location) (o : Observation) : Inputs :=
  ⟨[("phi", (o.pose.polar (exit door)).1),
    ("xd", progress door o.pose),
    ("gap", (o.pose.polar door.center).2)]⟩

theorem run_sense (door : Location) (o : Observation) :
    (sense door o).run .empty = (.ok (), inputs door o) := rfl

theorem missing?_inputs (door : Location) (o : Observation) :
    (tables door).missing? (inputs door o) = none := rfl

/-- A door that is being crossed could be entered, so its radius is finite. -/
theorem reliable_of_reachable {door : Location} {a : Activity} (h : a.Reachable (behavior door)) :
    (behavior door).Reliable (tables door) := by
  obtain ⟨b, hdeclares, -⟩ := h.inference
  exact reliable (ordered_tables_iff.1 (RuleBase.run_enter_eq_ok hdeclares).2)

/-- The levels of the rules, by the statements that they are. -/
theorem levels_eq (door : Location) (o : Observation) (action label : String) :
    (tables door).levels (inputs door o) action label =
      (rules.zip antecedents).filterMap fun pair =>
        if pair.1.action = action ∧ pair.1.label = label then
          some (pair.2.degree ((tables door).meaning (inputs door o))) else none :=
  RuleBase.levels_of_statements (check_tables door) (missing?_inputs door o) rfl tokens_antecedents
    action label

/-- The activations for turning, which no rule turns aside. -/
theorem activations_turn (door : Location) (o : Observation) :
    (tables door).activations (inputs door o) turn =
      steering (o.pose.polar (exit door)).1 (crossed (progress door o.pose)) [] [] := by
  simp only [RuleBase.activations, levels_eq]
  rfl

/-- The activations for driving, slowly near the door. -/
theorem activations_move (door : Location) (o : Observation) :
    (tables door).activations (inputs door o) move =
      driving ((fastStatement "NearDoor" "Crossed").degree ((tables door).meaning (inputs door o)))
        (nearDoor door (o.pose.polar door.center).2) (crossed (progress door o.pose)) := by
  simp only [RuleBase.activations, levels_eq]
  rfl

end FuzzyMotion.Crossing

import FuzzyMotion.Pilot
import FuzzyMotion.Proofs.Behavior.Heading
import FuzzyMotion.Proofs.Behavior.Steady
import FuzzyMotion.Proofs.RuleBase.Entered

/-!
The tables of the four behaviors are cautious. Those of crossing depend on the radius of the door, and
are cautious for every radius with which they can be entered.
-/
namespace FuzzyMotion

open Binary32 FuzzyMotion.Membership

namespace Motion

/-- Driving fast: ahead, not there, and nothing in the way. -/
def fastStatement (here near : String) : Statement :=
  .both .and
    (.group (.both .and (.atom "TargetAhead") (.negation (.single (.atom here)))))
    (.negation (.single (.atom near)))

theorem isCoarse_fastStatement {i : Interpretation} (hg : i.Graded) (ha : SeesAhead i)
    (here near : String) : IsCoarse ((fastStatement here near).degree i) := by
  have hahead : IsCoarse (i.value "TargetAhead") := Interpretation.value_of_known isCoarse_zero ha
  exact (hahead.min (hg.value here).complement).min (hg.value near).complement

theorem inactive_complement {x : Float32} (h : x = 1) : Inactive (1 - x) := by
  have hzero : (1 : Float32) - 1 = 0 := by decide
  rw [h, hzero]
  exact inactive_zero

theorem inactive_fastStatement {i : Interpretation} {here near : String}
    (h : i.value here = 1 ∨ i.value near = 1) : Inactive ((fastStatement here near).degree i) := by
  cases h with
  | inl hhere => exact (inactive_complement hhere).min_right.min_left
  | inr hnear => exact (inactive_complement hnear).min_right

/-- Rules that credit `Fast` only by such a statement, and `Back` never. -/
theorem rules_of_fastStatement {pairs : List (Rule × Consequent)} {text here near : String}
    (ht : Token.ofText text = (fastStatement here near).tokens)
    (h : ∀ pair ∈ pairs, pair.2 ≠ back ∧ (pair.2 = fast → pair.1.antecedent = text)) :
    ∀ pair ∈ pairs, pair.2 ≠ back ∧ (pair.2 = fast → ∀ i : Interpretation,
      i.Graded → SeesAhead i → ∀ x, Statement.evaluate pair.1.antecedent i = .ok x →
        IsCoarse x) := by
  intro pair hp
  obtain ⟨hback, hfast⟩ := h pair hp
  refine ⟨hback, fun hc i hg ha x hx => ?_⟩
  rw [hfast hc] at hx
  rw [Statement.evaluate_of_tokens ht hx]
  exact isCoarse_fastStatement hg ha here near

/-- Among the headings and other predicates, only the triangle looks ahead. -/
theorem ahead_of_headings {others : List Predicate}
    (h : ∀ p ∈ others, p.name ≠ "TargetAhead") :
    ∀ p ∈ headings ++ others, p.name = "TargetAhead" →
      ∀ x, IsCoarse (p.membership.degree x) := by
  intro p hp hn x
  cases List.mem_append.1 hp with
  | inl hp =>
    have hmem : p = ⟨"TargetAhead", .triangle (-60) 0 60, "phi"⟩ := by
      simp only [headings, List.mem_cons, List.not_mem_nil, or_false] at hp
      rcases hp with rfl | rfl | rfl
      · exact absurd hn (by decide)
      · exact absurd hn (by decide)
      · rfl
    rw [hmem]
    exact isCoarse_ahead x
  | inr hp =>
    exact absurd hn (h p hp)

/-- Predicates whose points are known. -/
theorem hasEdges_of_bounds {ps : List Predicate}
    (h : ∀ p ∈ ps, ordered p.membership.points = true ∧
      ∀ a ∈ p.membership.points, -1000 ≤ a ∧ a ≤ 1000) : ∀ p ∈ ps, p.membership.HasEdges :=
  fun p hp => isChain_edge (h p hp).1 (h p hp).2

end Motion

open Motion

theorem Approach.cautious : Cautious Approach.tables where
  actions := rfl
  edges := hasEdges_of_bounds (by decide)
  ahead := ahead_of_headings (by decide)
  rules := by
    intro consequents h
    have hcs : consequents = [⟨1, 0⟩, ⟨1, 4⟩, ⟨1, 2⟩, ⟨0, 0⟩, ⟨0, 1⟩, ⟨1, 3⟩, ⟨1, 1⟩, ⟨0, 2⟩, ⟨1, 2⟩] :=
      (Except.ok.inj h).symm
    have htext : Token.ofText "(TargetAhead AND NOT(TargetHere)) AND NOT(ObstacleFront)" =
        (fastStatement "TargetHere" "ObstacleFront").tokens := by
      set_option maxRecDepth 2000 in decide
    rw [hcs]
    exact rules_of_fastStatement htext (by decide)

/-- A door whose tables can be entered has a second point that is not far from its radius. -/
theorem Crossing.edge_radius {r : Float32} (h : ordered [r, r + 1] = true) : Edge r (r + 1) := by
  simp only [ordered_cons_cons, ordered_singleton] at h
  obtain ⟨hr, hle, hsum⟩ := h
  have hp := is_of_isFinite hr
  have hq := hp.add_of_isFinite is_one hsum
  apply edge_of_le hp hq ((hp.le_iff hq).1 hle)
  have hgrid : OnGrid (value r + 1) := hp.onGrid.add is_one.onGrid
  have herr := (abs_le.1 hgrid.abs_rounded_sub_le).2
  have hbound : |value r + 1| ≤ 2 ^ (128 : ℤ) + 1 :=
    (abs_add_le _ _).trans (add_le_add hp.abs_lt.le (by norm_num))
  have : (2 : ℚ) ^ (128 : ℤ) = 2 ^ (24 : ℤ) * 2 ^ (104 : ℤ) := by rw [← two_zpow_add]; norm_num
  norm_num at herr hbound ⊢
  linarith

theorem Crossing.cautious {door : Location}
    (h : ∀ p ∈ (Crossing.tables door).predicates, ordered p.membership.points = true) :
    Cautious (Crossing.tables door) where
  actions := rfl
  edges := by
    have hradius : Edge door.radius (door.radius + 1) :=
      Crossing.edge_radius (h ⟨"NearDoor", .rampDown door.radius (door.radius + 1), "gap"⟩ (by
        simp [Crossing.tables, Crossing.predicates]))
    have hothers : ∀ p ∈ headings ++ [⟨"Crossed", .rampUp 0 0.5, "xd"⟩], p.membership.HasEdges :=
      hasEdges_of_bounds (by decide)
    intro p hp
    have hsplit : (Crossing.tables door).predicates = (headings ++ [⟨"Crossed", .rampUp 0 0.5, "xd"⟩]) ++
        [⟨"NearDoor", .rampDown door.radius (door.radius + 1), "gap"⟩] := rfl
    rw [hsplit] at hp
    cases List.mem_append.1 hp with
    | inl hp =>
      exact hothers p hp
    | inr hp =>
      cases List.mem_singleton.1 hp
      exact .cons_cons hradius (.singleton _)
  ahead := by
    apply ahead_of_headings
    intro p hp
    simp only [List.mem_cons, List.not_mem_nil, or_false] at hp
    rcases hp with rfl | rfl
    · decide
    · change "NearDoor" ≠ "TargetAhead"
      decide
  rules := by
    intro consequents h
    have hcs : consequents = [⟨1, 0⟩, ⟨1, 4⟩, ⟨1, 2⟩, ⟨0, 0⟩, ⟨0, 1⟩, ⟨0, 2⟩, ⟨1, 2⟩] :=
      (Except.ok.inj h).symm
    have htext : Token.ofText "(TargetAhead AND NOT(NearDoor)) AND NOT(Crossed)" =
        (fastStatement "NearDoor" "Crossed").tokens := by
      set_option maxRecDepth 2000 in decide
    have hpairs : ∀ pair ∈ Crossing.rules.zip consequents, pair.2 ≠ back ∧ (pair.2 = fast →
        pair.1.antecedent = "(TargetAhead AND NOT(NearDoor)) AND NOT(Crossed)") := by
      rw [hcs]
      decide
    exact rules_of_fastStatement htext hpairs

theorem Waiting.cautious (goal : String) : Cautious (Waiting.tables goal) where
  actions := rfl
  edges := by
    change ∀ p ∈ Waiting.predicates, p.membership.HasEdges
    exact hasEdges_of_bounds (by decide)
  ahead := by
    have hnames : ∀ p ∈ Waiting.predicates, p.name ≠ "TargetAhead" := by decide
    intro p hp hn
    exact absurd hn (hnames p hp)
  rules := by
    intro consequents h
    have hcs : consequents = [⟨0, 2⟩, ⟨1, 2⟩] := (Except.ok.inj h).symm
    have hnone : ∀ pair ∈ Waiting.rules.zip [⟨0, 2⟩, ⟨1, 2⟩], pair.2 ≠ back ∧ pair.2 ≠ fast := by
      decide
    rw [hcs]
    intro pair hp
    obtain ⟨hback, hfast⟩ := hnone pair hp
    exact ⟨hback, fun hc => absurd hc hfast⟩

end FuzzyMotion

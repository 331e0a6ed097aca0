import FuzzyMotion.Clearance
import FuzzyMotion.Proofs.Binary32.Smallest
import FuzzyMotion.Proofs.Membership.Range

/-!
The clearance as the nearest echo on each side. A reading says something about one side at most; the
clearance of a side is the smallest of the reach of the sonars and of the distances on this side. So the
clearance of two lists of readings is the smaller one of theirs on each side, and readings without an echo,
and those of echoes behind the robot, do not matter.
-/
namespace FuzzyMotion

open Binary32

/-- The smaller clearance on each side. -/
def Clearance.min (a b : Clearance) : Clearance :=
  ⟨Binary32.min a.front b.front, Binary32.min a.left b.left, Binary32.min a.right b.right⟩

namespace Clearance

variable {a b : Clearance} {side : Side}

theorem get_min (a b : Clearance) (side : Side) :
    (a.min b).get side = Binary32.min (a.get side) (b.get side) := by
  cases side <;> rfl

theorem get_clear (side : Side) : clear.get side = sonarReach := by
  cases side <;> rfl

theorem eq_of_get (h : ∀ side, a.get side = b.get side) : a = b := by
  obtain ⟨front, left, right⟩ := a
  obtain ⟨front', left', right'⟩ := b
  obtain rfl : front = front' := h .front
  obtain rfl : left = left' := h .left
  obtain rfl : right = right' := h .right
  rfl

end Clearance

theorem is_sonarReach : Is sonarReach 5 :=
  is_of_unpack (s := .positive) (m := 10485760) (e := -21) (by decide) rfl
    (by norm_num [signFactor])

theorem is_frontHalfWidth : Is frontHalfWidth 30 :=
  is_of_unpack (s := .positive) (m := 15728640) (e := -19) (by decide) rfl
    (by norm_num [signFactor])

theorem is_sideLimit : Is sideLimit 110 :=
  is_of_unpack (s := .positive) (m := 14417920) (e := -17) (by decide) rfl
    (by norm_num [signFactor])

theorem unsigned_sonarReach : Unsigned sonarReach := fun _ =>
  Or.inr ((is_zero.lt_iff is_sonarReach).2 (by norm_num))

/-- A bearing that is not a number, or behind the robot, is on no side. -/
theorem Side.ofBearing_eq_none {bearing : Float32}
    (h : bearing.isNaN = true ∨ sideLimit < bearing.abs) : ofBearing bearing = none := by
  have hfront : ¬bearing.abs ≤ frontHalfWidth := by
    intro hle
    obtain ⟨hn, -, hle⟩ := le_iff_value.1 hle
    rw [is_frontHalfWidth.value_eq] at hle
    rcases h with h | h
    · rw [isNaN_abs, h] at hn
      cases hn
    · obtain ⟨-, -, hlt⟩ := lt_iff_value.1 h
      rw [is_sideLimit.value_eq] at hlt
      linarith
  -- On both sides the magnitude of the bearing would be within the limit.
  have hbeside : bearing.isNaN = false → ¬|value bearing| ≤ 110 := by
    intro hn hle
    rcases h with h | h
    · rw [hn] at h
      cases h
    · obtain ⟨-, -, hlt⟩ := lt_iff_value.1 h
      rw [is_sideLimit.value_eq, value_abs] at hlt
      linarith
  have hleft : ¬(0 < bearing ∧ bearing ≤ sideLimit) := by
    rintro ⟨hlow, hhigh⟩
    obtain ⟨-, hn, hpos⟩ := lt_iff_value.1 hlow
    obtain ⟨-, -, hle⟩ := le_iff_value.1 hhigh
    rw [is_zero.value_eq] at hpos
    rw [is_sideLimit.value_eq] at hle
    exact hbeside hn (abs_le.2 ⟨by linarith, hle⟩)
  have hright : ¬(bearing < 0 ∧ -sideLimit ≤ bearing) := by
    rintro ⟨hhigh, hlow⟩
    obtain ⟨hn, -, hneg⟩ := lt_iff_value.1 hhigh
    obtain ⟨-, -, hle⟩ := le_iff_value.1 hlow
    rw [is_zero.value_eq] at hneg
    rw [is_sideLimit.neg.value_eq] at hle
    exact hbeside hn (abs_le.2 ⟨hle, by linarith⟩)
  rw [ofBearing, if_neg hfront, if_neg hleft, if_neg hright]

variable [Trig]

/-- The side of the echo, where there is one within the limits. -/
def Sonar.side? (sonar : Sonar) : Option Side :=
  if sonar.hasEcho then Side.ofBearing sonar.echo.bearing else none

/-- What readings say about one side: the distances of the echoes there. -/
def Side.distances (side : Side) (sonars : List Sonar) : List Float32 :=
  sonars.filterMap fun sonar => if sonar.side? = some side then some sonar.echo.norm else none

namespace Clearance

variable {side : Side} {sonars others : List Sonar}

/-- A reading takes part on its side only. -/
theorem get_observe (c : Clearance) (sonar : Sonar) (side : Side) :
    (c.observe sonar).get side =
      if sonar.side? = some side then Binary32.min (c.get side) sonar.echo.norm else c.get side := by
  rw [observe, Sonar.side?]
  cases sonar.hasEcho with
  | false => simp
  | true =>
    simp only [if_true]
    cases Side.ofBearing sonar.echo.bearing with
    | none => simp
    | some s => simp [get_limit]

/-- The clearance of a side is the nearest of its echoes. -/
theorem get_ofSonars (sonars : List Sonar) (side : Side) :
    (ofSonars sonars).get side = smallest sonarReach (side.distances sonars) := by
  induction sonars using List.reverseRecOn with
  | nil => exact get_clear side
  | append_singleton sonars sonar ih =>
    rw [ofSonars, List.foldl_append, Side.distances, List.filterMap_append, smallest, List.foldl_append]
    change ((ofSonars sonars).observe sonar).get side = _
    rw [get_observe, ih]
    by_cases h : sonar.side? = some side <;> simp [h, smallest, Side.distances]

theorem unsigned_distances (side : Side) (sonars : List Sonar) :
    ∀ d ∈ side.distances sonars, Unsigned d := by
  intro d hd
  obtain ⟨sonar, -, h⟩ := List.mem_filterMap.1 hd
  split_ifs at h
  cases h
  exact unsigned_sqrt _

theorem ofSonars_append (a b : List Sonar) : ofSonars (a ++ b) = (ofSonars a).min (ofSonars b) := by
  refine eq_of_get fun side => ?_
  rw [get_min, get_ofSonars, get_ofSonars, get_ofSonars, Side.distances, List.filterMap_append]
  exact smallest_append unsigned_sonarReach is_sonarReach.isNaN (unsigned_distances side a)
    (unsigned_distances side b)

/-- Readings with the same echoes on each side have the same clearance. -/
theorem ofSonars_congr
    (h : ∀ (side : Side) (d : Float32), d ∈ side.distances sonars ↔ d ∈ side.distances others) :
    ofSonars sonars = ofSonars others := by
  refine eq_of_get fun side => ?_
  rw [get_ofSonars, get_ofSonars]
  exact smallest_congr unsigned_sonarReach (unsigned_distances side sonars) is_sonarReach.isNaN (h side)

theorem mem_distances_iff {d : Float32} :
    d ∈ side.distances sonars ↔ ∃ sonar ∈ sonars, sonar.side? = some side ∧ sonar.echo.norm = d := by
  simp [Side.distances, List.mem_filterMap]

/-- A reading that lies on no side changes nothing. -/
theorem ofSonars_insert_of_none {sonar : Sonar} (h : sonar.side? = none) (a b : List Sonar) :
    ofSonars (a ++ sonar :: b) = ofSonars (a ++ b) :=
  ofSonars_congr fun side d => by simp [Side.distances, h]

/-- A reading leaves every side alone but its own. -/
theorem get_ofSonars_insert_of_ne {sonar : Sonar} (h : sonar.side? ≠ some side) (a b : List Sonar) :
    (ofSonars (a ++ sonar :: b)).get side = (ofSonars (a ++ b)).get side := by
  simp [get_ofSonars, Side.distances, h]

/-- More readings mean no more clearance. -/
theorem get_ofSonars_le (h : ∀ sonar ∈ others, sonar ∈ sonars) (side : Side) :
    (ofSonars sonars).get side ≤ (ofSonars others).get side := by
  rw [get_ofSonars, get_ofSonars]
  refine (isSmallest_smallest is_sonarReach.isNaN _).le (isSmallest_smallest is_sonarReach.isNaN _) ?_
  intro d hd
  obtain ⟨sonar, hm, hside⟩ := mem_distances_iff.1 hd
  exact mem_distances_iff.2 ⟨sonar, h sonar hm, hside⟩

/-- On every side the clearance is a number from zero to the reach of the sonars. -/
theorem get_ofSonars_bounds (sonars : List Sonar) (side : Side) :
    let c := (ofSonars sonars).get side
    c.isNaN = false ∧ 0 ≤ c ∧ c ≤ sonarReach := by
  intro c
  have hc : IsSmallest sonarReach (side.distances sonars) c := by
    rw [show c = _ from get_ofSonars sonars side]
    exact isSmallest_smallest is_sonarReach.isNaN _
  refine ⟨hc.isNaN, ?_, hc.le_limit⟩
  rcases hc.unsigned unsigned_sonarReach (unsigned_distances side sonars) hc.isNaN with h | h
  · rw [h]
    exact le_rfl_of_number is_zero.isNaN
  · exact le_of_lt_number h

end Clearance

theorem Sonar.side?_eq_none {sonar : Sonar}
    (h : ¬(0 < sonar.range ∧ sonar.range ≤ sonarReach) ∨ sonar.echo.bearing.isNaN = true ∨
      sideLimit < sonar.echo.bearing.abs) : sonar.side? = none := by
  rw [side?]
  rcases h with h | h
  · rw [if_neg]
    simpa [hasEcho] using h
  · rw [Side.ofBearing_eq_none h, ite_self]

/-- The clearance of readings in a row is the smaller one on each side. So it depends neither on the order of
the readings nor on how often they occur; a further reading, wherever it stands, makes no side clearer and
only one narrower, and one without an echo within five metres, or with a bearing that is not a number or
beyond 110 degrees, changes nothing. Every side is a number of metres from zero to five. -/
theorem clearance_of_readings_in_a_row (a b : List Sonar) :
    Clearance.ofSonars (a ++ b) = (Clearance.ofSonars a).min (Clearance.ofSonars b) ∧
      ((∀ sonar, sonar ∈ a ↔ sonar ∈ b) → Clearance.ofSonars a = Clearance.ofSonars b) ∧
      (∀ sonar : Sonar, let c := Clearance.ofSonars (a ++ sonar :: b)
        (∀ side, c.get side ≤ (Clearance.ofSonars (a ++ b)).get side) ∧
          (∃ side, ∀ other, other ≠ side → c.get other = (Clearance.ofSonars (a ++ b)).get other) ∧
          (¬(0 < sonar.range ∧ sonar.range ≤ 5) ∨ sonar.echo.bearing.isNaN = true ∨
            110 < sonar.echo.bearing.abs → c = Clearance.ofSonars (a ++ b))) ∧
      ∀ side, let c := (Clearance.ofSonars a).get side
        c.isNaN = false ∧ 0 ≤ c ∧ c ≤ 5 := by
  refine ⟨Clearance.ofSonars_append a b, fun h => ?_, fun sonar => ⟨?_, ?_, fun h => ?_⟩,
    Clearance.get_ofSonars_bounds a⟩
  · refine Clearance.ofSonars_congr fun side d => ?_
    simp [Clearance.mem_distances_iff, h]
  · refine Clearance.get_ofSonars_le ?_
    simp +contextual [or_imp]
  · cases hs : sonar.side? with
    | none => exact ⟨.front, fun other _ => by rw [Clearance.ofSonars_insert_of_none hs]⟩
    | some side =>
      refine ⟨side, fun other hne => Clearance.get_ofSonars_insert_of_ne ?_ a b⟩
      rw [hs]
      exact fun h => hne (Option.some.inj h).symm
  · exact Clearance.ofSonars_insert_of_none (Sonar.side?_eq_none h) a b

omit [Trig] in
/-- Two readings in two orders, one of them repeated, and between them one without an echo and one of an echo
behind the robot. For these points the functions here give what those of the platform give. -/
theorem clearance_of_repeated_readings :
    let _ : Trig := ⟨fun x => x, fun _ => 1,
      fun y x => if 0 < y then 1.5707964 else if x < 0 then 3.1415927 else 0⟩
    let ahead : Sonar := ⟨⟨0.2, 0, 0⟩, 1⟩
    let beside : Sonar := ⟨⟨-0.5, 0.4, 0⟩, 0.5⟩
    let silent : Sonar := ⟨⟨0, 0, 0⟩, Float32.ofBits 0x7FC00000⟩
    let behind : Sonar := ⟨⟨-1, 0, 0⟩, 0.3⟩
    let a := [ahead, beside]
    let b := [beside, ahead, beside]
    Clearance.ofSonars a = Clearance.ofSonars b ∧
      Clearance.ofSonars (a ++ silent :: b) = Clearance.ofSonars (a ++ b) ∧
      Clearance.ofSonars (a ++ behind :: b) = Clearance.ofSonars (a ++ b) ∧
      (Clearance.ofSonars a).left = 0.4 := by
  intro _ ahead beside silent behind a b
  have hsame : ∀ sonar, sonar ∈ a ↔ sonar ∈ b := by
    intro sonar
    simp only [a, b, List.mem_cons, List.not_mem_nil, or_false]
    tauto
  have hsilent : ¬(0 < silent.range ∧ silent.range ≤ 5) := by decide
  have hbehind : 110 < behind.echo.bearing.abs := by decide +kernel
  obtain ⟨-, hcongr, hinsert, -⟩ := clearance_of_readings_in_a_row a b
  exact ⟨hcongr hsame, (hinsert silent).2.2 (Or.inl hsilent),
    (hinsert behind).2.2 (Or.inr (Or.inr hbehind)), by decide +kernel⟩

end FuzzyMotion

import FuzzyMotion.Proofs.Binary32.Degree
import FuzzyMotion.Proofs.Binary32.Unsigned

/-!
The smallest of a limit and of some numbers. What is not a number does not count. Among numbers without a
minus sign the smallest is the same in whatever order they are taken, and the smallest of two lists in a row
is the smaller one of theirs.
-/
namespace FuzzyMotion.Binary32

variable {x y limit : Float32} {values others : List Float32}

/-- Taken one after the other, starting from the limit. -/
def smallest (limit : Float32) (values : List Float32) : Float32 :=
  values.foldl min limit

/-- `x` is the smallest of the limit and of those values that are numbers. -/
structure IsSmallest (limit : Float32) (values : List Float32) (x : Float32) : Prop where
  le_limit : x ≤ limit
  bound : ∀ y ∈ values, y.isNaN = false → x ≤ y
  attained : x = limit ∨ x ∈ values

/-- The smaller one of a number and of anything is a number, and no larger than the numbers it is of. -/
theorem min_of_number (hx : x.isNaN = false) :
    min x y ≤ x ∧ (y.isNaN = false → min x y ≤ y) ∧ (min x y = x ∨ min x y = y) := by
  refine ⟨?_, ?_, min_eq_or hx⟩
  all_goals rw [min, hx, if_neg Bool.false_ne_true]
  · split_ifs with h
    · exact le_of_lt_number h
    · exact le_rfl_of_number hx
  · intro hy
    split_ifs with h
    · exact le_rfl_of_number hy
    · exact le_of_not_lt hy hx h

theorem IsSmallest.isNaN (h : IsSmallest limit values x) : x.isNaN = false :=
  (le_iff_value.1 h.le_limit).1

/-- The smaller one of a smallest and of what bounds further values. -/
theorem IsSmallest.min (h : IsSmallest limit values x) (hle : ∀ z ∈ others, z.isNaN = false → y ≤ z)
    (hy : y = limit ∨ y ∈ others) : IsSmallest limit (values ++ others) (Binary32.min x y) := by
  obtain ⟨hx, hother, hor⟩ := min_of_number (y := y) h.isNaN
  refine ⟨le_trans_of_number hx h.le_limit, ?_, ?_⟩
  · intro z hz hn
    rcases List.mem_append.1 hz with hz | hz
    · exact le_trans_of_number hx (h.bound z hz hn)
    · have hyz := hle z hz hn
      exact le_trans_of_number (hother (le_iff_value.1 hyz).1) hyz
  · rcases hor with hmin | hmin <;> rw [hmin]
    · exact h.attained.imp_right fun hm => List.mem_append_left _ hm
    · exact hy.imp_right fun hm => List.mem_append_right _ hm

theorem isSmallest_smallest (hl : limit.isNaN = false) (values : List Float32) :
    IsSmallest limit values (smallest limit values) := by
  induction values using List.reverseRecOn with
  | nil => exact ⟨le_rfl_of_number hl, nofun, Or.inl rfl⟩
  | append_singleton values y ih =>
    rw [smallest, List.foldl_append]
    refine ih.min ?_ (Or.inr (List.mem_singleton_self y))
    intro z hz hn
    rw [List.mem_singleton.1 hz] at hn ⊢
    exact le_rfl_of_number hn

/-- The smallest of more values is no larger. -/
theorem IsSmallest.le (h : IsSmallest limit values x) (h' : IsSmallest limit others y)
    (hm : ∀ z ∈ others, z ∈ values) : x ≤ y := by
  rcases h'.attained with hy | hy
  · rw [hy]
    exact h.le_limit
  · exact h.bound y (hm y hy) h'.isNaN

section Unsigned

variable (hl : Unsigned limit) (hv : ∀ y ∈ values, Unsigned y)
include hl hv

theorem IsSmallest.unsigned (h : IsSmallest limit values x) : Unsigned x := by
  rcases h.attained with rfl | hm
  · exact hl
  · exact hv x hm

/-- The smallest depends neither on the order of the values nor on how often they occur. -/
theorem IsSmallest.unique (h : IsSmallest limit values x) (h' : IsSmallest limit others y)
    (hm : ∀ z, z ∈ values ↔ z ∈ others) : x = y := by
  have hv' : ∀ z ∈ others, Unsigned z := fun z hz => hv z ((hm z).2 hz)
  exact (h.unsigned hl hv).eq_of_le_of_le (h'.unsigned hl hv') (h.le h' fun z => (hm z).2)
    (h'.le h fun z => (hm z).1)

theorem smallest_congr (hn : limit.isNaN = false) (hm : ∀ z, z ∈ values ↔ z ∈ others) :
    smallest limit values = smallest limit others :=
  (isSmallest_smallest hn values).unique hl hv (isSmallest_smallest hn others) hm

end Unsigned

theorem smallest_append (hl : Unsigned limit) (hn : limit.isNaN = false)
    (hv : ∀ y ∈ values, Unsigned y) (ho : ∀ y ∈ others, Unsigned y) :
    smallest limit (values ++ others) = Binary32.min (smallest limit values) (smallest limit others) := by
  have hboth : ∀ y ∈ values ++ others, Unsigned y := List.forall_mem_append.2 ⟨hv, ho⟩
  have hrest := isSmallest_smallest hn others
  exact (isSmallest_smallest hn _).unique hl hboth
    ((isSmallest_smallest hn values).min hrest.bound hrest.attained) fun _ => Iff.rfl

end FuzzyMotion.Binary32

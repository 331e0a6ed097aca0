import FuzzyMotion.Proofs.Binary32.Overflow
import FuzzyMotion.Proofs.Inference.Indexing

/-!
Weighted means and powers of two. The rounding errors of the sums can move a mean out of the interval of
the active label values. They cannot move it out of an interval whose ends are zero or powers of two up
to their sign: on the grid, a multiplication by such an end commutes with rounding, so that after every
label the weighted sum lies between the ends, each times the sum of the activations.

A mean never takes a sign that no active label has, whatever the values of the labels are.
-/
namespace FuzzyMotion

open Float.Model.UnpackedFloat (Sign)

namespace Binary32

/-- Zero, or up to its sign a power of two; eight times the largest of them is still within the format. -/
def IsDyadic (c : ℚ) : Prop :=
  c = 0 ∨ ∃ k : ℕ, k ≤ 120 ∧ |c| = 2 ^ k

namespace IsDyadic

variable {c : ℚ}

theorem exists_eq (h : IsDyadic c) (hc : c ≠ 0) :
    ∃ k : ℕ, k ≤ 120 ∧ (c = 2 ^ k ∨ c = -2 ^ k) := by
  obtain ⟨k, hk, habs⟩ := h.resolve_left hc
  refine ⟨k, hk, ?_⟩
  rcases abs_choice c with hsign | hsign
  · exact Or.inl (hsign ▸ habs)
  · exact Or.inr (by rw [← habs, hsign, neg_neg])

theorem abs_le (h : IsDyadic c) : |c| ≤ 2 ^ 120 := by
  obtain rfl | ⟨k, hk, habs⟩ := h
  · simp
  · rw [habs]
    exact pow_le_pow_right₀ one_le_two hk

theorem rounded_mul (h : IsDyadic c) {q : ℚ} (hq : OnGrid q) :
    rounded (c * q) = c * rounded q := by
  rcases eq_or_ne c 0 with rfl | hc
  · simp
  · obtain ⟨k, -, rfl | rfl⟩ := h.exists_eq hc
    · exact hq.rounded_two_pow_mul k
    · rw [neg_mul, rounded_neg, hq.rounded_two_pow_mul, neg_mul]

theorem representable (h : IsDyadic c) : Representable c := by
  rcases eq_or_ne c 0 with rfl | hc
  · exact is_zero.representable
  · obtain ⟨k, -, rfl | rfl⟩ := h.exists_eq hc
    · exact_mod_cast representable_two_zpow (k := k) (by omega)
    · exact_mod_cast (representable_two_zpow (k := k) (by omega)).neg

end IsDyadic

theorem abs_le_of_between {lo hi t w B : ℚ} (hlo : |lo| ≤ B) (hhi : |hi| ≤ B) (ht : 0 ≤ t)
    (hlow : lo * t ≤ w) (hhigh : w ≤ hi * t) : |w| ≤ B * t := by
  have hloB : -B * t ≤ lo * t := mul_le_mul_of_nonneg_right (abs_le.1 hlo).1 ht
  have hhiB : hi * t ≤ B * t := mul_le_mul_of_nonneg_right (abs_le.1 hhi).2 ht
  exact abs_le.2 ⟨by linarith, by linarith⟩

theorem lt_two_zpow_128_of_le_pow {w : ℚ} (h : |w| ≤ 2 ^ 120 * 8) : |w| < 2 ^ (128 : ℤ) :=
  h.trans_lt (by norm_num)

end Binary32

namespace FuzzySet

open Binary32

/-- The values of the labels that have a positive activation. -/
def active (set : FuzzySet) (values : List Float32) : List Float32 :=
  ((set.zip values).filter fun pair => 0 < pair.1).map Prod.snd

theorem mem_of_mem_active {set : FuzzySet} {values : List Float32} {x : Float32}
    (h : x ∈ set.active values) : x ∈ values := by
  obtain ⟨pair, hpair, rfl⟩ := List.mem_map.1 h
  exact (List.of_mem_zip (List.mem_filter.1 hpair).1).2

/-- What holds of every activation beside the value of its label; the value is active where the activation
is positive. -/
theorem forall₂_of_active {Q : Float32 → Float32 → Prop} {set : FuzzySet} {values : List Float32}
    (hlen : set.length = values.length)
    (h : ∀ m ∈ set, ∀ x ∈ values, (0 < m → x ∈ set.active values) → Q m x) :
    List.Forall₂ Q set values := by
  refine List.forall₂_iff_zip.2 ⟨hlen, fun {m x} hpair => ?_⟩
  refine h m (List.of_mem_zip hpair).1 x (List.of_mem_zip hpair).2 fun hm => ?_
  exact List.mem_map.2 ⟨(m, x), List.mem_filter.2 ⟨hpair, decide_eq_true hm⟩, rfl⟩

section Between

variable {lo hi : ℚ}

/-- The two running sums after `k` labels: the second is between the ends, each times the first. -/
def Balanced (lo hi : ℚ) (k : ℕ) (total weighted : Float32) : Prop :=
  ∃ t w, Is total t ∧ Is weighted w ∧ 0 ≤ t ∧ t ≤ k ∧ lo * t ≤ w ∧ w ≤ hi * t

/-- A label that is between the ends where it is active. -/
def Within (lo hi : ℚ) (m v : Float32) : Prop :=
  ∃ q p, Is m q ∧ 0 ≤ q ∧ q ≤ 1 ∧ Is v p ∧ (0 < q → lo ≤ p ∧ p ≤ hi)

theorem balanced_zero : Balanced lo hi 0 0 0 :=
  ⟨0, 0, is_zero, is_zero, le_refl 0, by simp, by simp, by simp⟩

/-- The product for one label is between the ends as well, each times the activation. -/
theorem Within.product {m v : Float32} {q p : ℚ} (hlo : IsDyadic lo) (hhi : IsDyadic hi)
    (hm : Is m q) (h0 : 0 ≤ q) (h1 : q ≤ 1) (hv : Is v p) (hp : 0 < q → lo ≤ p ∧ p ≤ hi) :
    ∃ r, Is (m * v) r ∧ lo * q ≤ r ∧ r ≤ hi * q := by
  rcases h0.eq_or_lt with rfl | hpos
  · exact ⟨0, hm.zero_mul hv, by simp, by simp⟩
  · obtain ⟨hlop, hphi⟩ := hp hpos
    have hscaled : ∀ {c}, IsDyadic c → rounded (c * q) = c * q := fun hc => by
      rw [hc.rounded_mul hm.onGrid, rounded_of_representable hm.representable]
    have hlow : lo * q ≤ rounded (q * p) := by
      rw [← hscaled hlo, mul_comm q]
      exact rounded_mono (mul_le_mul_of_nonneg_right hlop h0)
    have hhigh : rounded (q * p) ≤ hi * q := by
      rw [← hscaled hhi, mul_comm q]
      exact rounded_mono (mul_le_mul_of_nonneg_right hphi h0)
    have hsize := abs_le_of_between hlo.abs_le hhi.abs_le h0 hlow hhigh
    refine ⟨_, hm.mul hv (lt_two_zpow_128_of_le_pow (hsize.trans ?_)), hlow, hhigh⟩
    exact mul_le_mul_of_nonneg_left (by linarith) (by positivity)

/-- One more label. -/
theorem Balanced.step {k : ℕ} {total weighted m v : Float32} (hlo : IsDyadic lo) (hhi : IsDyadic hi)
    (h : Balanced lo hi k total weighted) (hk : k < 8) (hlabel : Within lo hi m v) :
    Balanced lo hi (k + 1) (total + m) (weighted + m * v) := by
  obtain ⟨t, w, ht, hw, ht0, htk, hlow, hhigh⟩ := h
  obtain ⟨q, p, hm, h0, h1, hv, hp⟩ := hlabel
  obtain ⟨r, hr, hlowr, hhighr⟩ := Within.product hlo hhi hm h0 h1 hv hp
  obtain ⟨hsum, hsum0, hsumk, -⟩ := is_total_step ht hm ht0 htk h0 h1 hk
  have hgrid : OnGrid (t + q) := ht.onGrid.add hm.onGrid
  have hlow' : lo * rounded (t + q) ≤ rounded (w + r) := by
    rw [← hlo.rounded_mul hgrid]
    exact rounded_mono (by linarith)
  have hhigh' : rounded (w + r) ≤ hi * rounded (t + q) := by
    rw [← hhi.rounded_mul hgrid]
    exact rounded_mono (by linarith)
  have hk1 : ((k + 1 : ℕ) : ℚ) ≤ 8 := by exact_mod_cast hk
  have hsize := abs_le_of_between hlo.abs_le hhi.abs_le hsum0 hlow' hhigh'
  have hweighted := hw.add hr (lt_two_zpow_128_of_le_pow (hsize.trans
    (mul_le_mul_of_nonneg_left (hsumk.trans hk1) (by positivity))))
  exact ⟨_, _, hsum, hweighted, hsum0, hsumk, hlow', hhigh'⟩

/-- The mean of labels that are between the ends where they are active is between the ends. -/
theorem mean_between {set : FuzzySet} {values : List Float32} (hlo : IsDyadic lo)
    (hhi : IsDyadic hi) (hlabels : List.Forall₂ (Within lo hi) set values) (hle : set.length ≤ 8)
    (hpos : 0 < set.total) : ∃ q, Is (set.weighted values / set.total) q ∧ lo ≤ q ∧ q ≤ hi := by
  have hbalanced : Balanced lo hi (0 + set.length) set.total (set.weighted values) :=
    sums_induction (fun h hk hlabel => h.step hlo hhi hk hlabel) balanced_zero (by omega) hlabels
  obtain ⟨t, w, ht, hw, ht0, -, hlow, hhigh⟩ := hbalanced
  have htpos : 0 < t := (is_zero.lt_iff ht).1 hpos
  have hlow' : lo ≤ rounded (w / t) := le_rounded hlo.representable ((le_div_iff₀ htpos).2 hlow)
  have hhigh' : rounded (w / t) ≤ hi := rounded_le hhi.representable ((div_le_iff₀ htpos).2 hhigh)
  have hsize : |rounded (w / t)| ≤ 2 ^ 120 * 1 :=
    abs_le_of_between hlo.abs_le hhi.abs_le zero_le_one (by simpa using hlow') (by simpa using hhigh')
  refine ⟨_, hw.div ht htpos.ne' (lt_two_zpow_128_of_le_pow ?_), hlow', hhigh'⟩
  linarith

end Between

section Side

variable {s : Sign}

/-- The sum of products on one side of zero is on this side, even where it overflows. -/
theorem onSide_weighted {set : FuzzySet} {values : List Float32}
    (hlabels : List.Forall₂ (fun m v => OnSide s (m * v)) set values) :
    OnSide s (set.weighted values) := by
  have hrun : ∀ weighted, OnSide s weighted →
      OnSide s ((List.zipWith (· * ·) set values).foldl (· + ·) weighted) := by
    induction hlabels with
    | nil => exact fun _ h => h
    | cons hproduct _ ih => exact fun _ h => ih _ (h.add hproduct)
  exact hrun 0 (is_zero.onSide (by rw [mul_zero]))

/-- The product for a label with a finite value is on the side of the value, and is zero where the label
is inactive. -/
theorem onSide_product {m v : Float32} (hm : IsDegree m) (hv : v.isFinite = true)
    (hside : 0 < m → OnSide s v) : OnSide s (m * v) := by
  obtain ⟨q, hq, h0, h1⟩ := hm
  have hp := is_of_isFinite hv
  rcases h0.eq_or_lt with rfl | hpos
  · exact (hq.zero_mul hp).onSide (by rw [mul_zero])
  · have hvalue := (hside ((is_zero.lt_iff hq).2 hpos)).2
    refine onSide_ofModel (Stands.mul hq hp) ?_
    rw [← rounded_signFactor_mul, mul_left_comm]
    exact rounded_nonneg (mul_nonneg h0 hvalue)

/-- The mean of labels that are on one side of zero where they are active is on this side. -/
theorem onSide_mean {set : FuzzySet} {values : List Float32} (hlen : set.length = values.length)
    (hle : set.length ≤ 8) (hset : ∀ m ∈ set, IsDegree m)
    (hvalues : ∀ x ∈ values, x.isFinite = true) (hpos : 0 < set.total)
    (hside : ∀ x ∈ set.active values, OnSide s x) : OnSide s (set.weighted values / set.total) := by
  have hlabels : List.Forall₂ (fun m x => OnSide s (m * x)) set values :=
    forall₂_of_active hlen fun m hm x hx hactive =>
      onSide_product (hset m hm) (hvalues x hx) fun hpos => hside x (hactive hpos)
  obtain ⟨t, ht, -⟩ := exists_total hle hset
  exact (onSide_weighted hlabels).div ht ((is_zero.lt_iff ht).1 hpos)

end Side

end FuzzySet

namespace Inference

open Binary32 Operation

/-- A binary32 number that is zero or, up to its sign, a power of two between `1` and `2 ^ 120`. -/
def IsEnd (x : Float32) : Prop :=
  ∃ c, Is x c ∧ IsDyadic c

/-- In every state of an inference, an output whose labels have finite values, and whose activations are
degrees and not all zero, is a number between any two ends between which its active labels have their
values, although the sums, the products and the quotient are rounded. It never takes a sign that no
active label has. -/
theorem defuzzified_between_powers_of_two {b : RuleBase} {e : Inference} (hb : b.Built)
    (h : Coherent b e) (v : Verbosity) {k : Nat} {a : Action} {set : FuzzySet}
    (ha : b.actions[k]? = some a) (hset : e.sets[k]? = some set)
    (hvalues : ∀ x ∈ a.labels.map Prod.snd, x.isFinite = true) (hdegrees : ∀ m ∈ set, IsDegree m)
    (hactive : ∃ m ∈ set, 0 < m) :
    ∃ y, ((defuzzify v).after e).output? a.output = some y ∧
      (∀ lo hi, IsEnd lo → IsEnd hi →
        (∀ x ∈ set.active (a.labels.map Prod.snd), lo ≤ x ∧ x ≤ hi) →
          y.isNaN = false ∧ lo ≤ y ∧ y ≤ hi) ∧
      (0 < y → ∃ x ∈ set.active (a.labels.map Prod.snd), 0 < x) ∧
      (y < 0 → ∃ x ∈ set.active (a.labels.map Prod.snd), x < 0) := by
  obtain ⟨m, hm, hmpos⟩ := hactive
  have hpair : (a, set) ∈ b.actions.zip e.sets :=
    List.mem_of_getElem? (List.getElem?_zip_eq_some.2 ⟨ha, hset⟩)
  have hlen : set.length = (a.labels.map Prod.snd).length := by
    rw [List.length_map]
    exact List.forall₂_zip (h.aligned hb.wellFormed).sets hpair
  have hle : set.length ≤ 8 := by
    rw [hlen, List.length_map]
    exact hb.wellFormed.labels_le a (List.mem_of_getElem? ha)
  have htotal := FuzzySet.total_pos_of_positive hle hdegrees hm hmpos
  have houtput := h.output?_defuzzify hb.wellFormed v ha hset
  rw [FuzzySet.crisp?_of_positive hle hdegrees _ hm hmpos] at houtput
  have hactives : ∀ x ∈ set.active (a.labels.map Prod.snd), x.isNaN = false := fun x hx =>
    (is_of_isFinite (hvalues x (FuzzySet.mem_of_mem_active hx))).isNaN
  refine ⟨_, houtput, ?_, ?_, ?_⟩
  · rintro lo hi ⟨c, hlo, hc⟩ ⟨d, hhi, hd⟩ hends
    have hlabels : List.Forall₂ (FuzzySet.Within c d) set (a.labels.map Prod.snd) := by
      refine FuzzySet.forall₂_of_active hlen fun m hm x hx hactive => ?_
      obtain ⟨q, hq, h0, h1⟩ := hdegrees m hm
      have hvalue := is_of_isFinite (hvalues x hx)
      refine ⟨q, _, hq, h0, h1, hvalue, fun hpos => ?_⟩
      obtain ⟨hlow, hhigh⟩ := hends x (hactive ((is_zero.lt_iff hq).2 hpos))
      exact ⟨(hlo.le_iff hvalue).1 hlow, (hvalue.le_iff hhi).1 hhigh⟩
    obtain ⟨q, hy, hlow, hhigh⟩ := FuzzySet.mean_between hc hd hlabels hle htotal
    exact ⟨hy.isNaN, (hlo.le_iff hy).2 hlow, (hy.le_iff hhi).2 hhigh⟩
  · intro hpos
    by_contra hnone
    have hmean : OnSide .negative (set.weighted (a.labels.map Prod.snd) / set.total) :=
      FuzzySet.onSide_mean hlen hle hdegrees hvalues htotal fun x hx =>
        (onSide_negative_iff (hactives x hx)).2 fun hx0 => hnone ⟨x, hx, hx0⟩
    exact (onSide_negative_iff hmean.1).1 hmean hpos
  · intro hneg
    by_contra hnone
    have hmean : OnSide .positive (set.weighted (a.labels.map Prod.snd) / set.total) :=
      FuzzySet.onSide_mean hlen hle hdegrees hvalues htotal fun x hx =>
        (onSide_positive_iff (hactives x hx)).2 fun hx0 => hnone ⟨x, hx, hx0⟩
    exact (onSide_positive_iff hmean.1).1 hmean hneg

/-- Two active labels of one sign, one of them with the smallest activation that there is, and an inactive
label of the other sign. -/
theorem defuzzified_between_zero_and_one :
    let a : Action := ⟨"Move", [("Slow", 0.1), ("Back", -0.3), ("Fast", 0.3)], "Vlin"⟩
    let b : RuleBase := ⟨[], [a], [], none⟩
    let set : FuzzySet := [Float32.ofBits 1, 0, 1]
    let e : Inference := ⟨b, [], .empty, .empty, [set], ⟨[("Vlin", -0.3)]⟩⟩
    b.Built ∧ Coherent b e ∧ b.actions[0]? = some a ∧ e.sets[0]? = some set ∧
      (∀ x ∈ a.labels.map Prod.snd, x.isFinite = true) ∧ (∀ m ∈ set, IsDegree m) ∧
      (∃ m ∈ set, 0 < m) ∧ ∃ y, ((defuzzify Verbosity.quiet).after e).output? "Vlin" = some y ∧
        y.isNaN = false ∧ 0 ≤ y ∧ y ≤ 1 := by
  intro a b set e
  have hb : b.Built := .declared (.action a) .empty
  have hcoherent : Coherent b e := ⟨rfl, rfl, rfl, rfl⟩
  have hvalues : ∀ x ∈ a.labels.map Prod.snd, x.isFinite = true := by decide
  have hsmallest : IsDegree (Float32.ofBits 1) :=
    is_of_le_of_le is_zero is_one (by decide) (by decide)
  have hdegrees : ∀ m ∈ set, IsDegree m := by
    simp only [set, List.forall_mem_cons]
    exact ⟨hsmallest, isDegree_zero, isDegree_one, by simp⟩
  have hactive : ∃ m ∈ set, 0 < m := ⟨1, by simp [set], by decide⟩
  obtain ⟨y, hy, hbetween, -⟩ := defuzzified_between_powers_of_two hb hcoherent Verbosity.quiet
    (k := 0) rfl rfl hvalues hdegrees hactive
  refine ⟨hb, hcoherent, rfl, rfl, hvalues, hdegrees, hactive, y, hy, ?_⟩
  exact hbetween 0 1 ⟨0, is_zero, Or.inl rfl⟩ ⟨1, is_one, Or.inr ⟨0, by omega, by simp⟩⟩
    (by decide)

end Inference

end FuzzyMotion

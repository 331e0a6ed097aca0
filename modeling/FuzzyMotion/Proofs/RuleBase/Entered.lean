import FuzzyMotion.Proofs.RuleBase.Built

/-!
Tables that are entered as a whole. If this succeeds, the rule base holds these tables and nothing
else, and the points of every membership function are in order.
-/
namespace FuzzyMotion.RuleBase

open Operation

variable {b c : RuleBase}

theorem run_declare_eq_ok {p : Predicate} (h : (declare p).run b = (.ok (), c)) :
    Membership.ordered p.membership.points = true ∧
      c = { b with predicates := b.predicates ++ [p] } := by
  rw [declare, run_bind, run_ofExcept] at h
  cases hm : p.membership.checked with
  | error f => simp [hm] at h
  | ok m =>
    obtain ⟨ho, rfl⟩ := Membership.checked_eq_ok.1 hm
    rw [hm, andThen_ok, insertPredicate, run_update] at h
    cases hw : b.withPredicate p with
    | error f => simp [hw] at h
    | ok d =>
      obtain ⟨-, -, hd⟩ := withPredicate_eq_ok hw
      simp only [hw, Prod.mk.injEq, true_and] at h
      exact ⟨ho, h ▸ hd⟩

theorem run_insertAction_eq_ok {a : Action} (h : (insertAction a).run b = (.ok (), c)) :
    c = { b with actions := b.actions ++ [a] } := by
  rw [insertAction, run_update] at h
  cases hw : b.withAction a with
  | error f => simp [hw] at h
  | ok d =>
    obtain ⟨-, -, -, -, -, hd⟩ := withAction_eq_ok hw
    simp only [hw, Prod.mk.injEq, true_and] at h
    exact h ▸ hd

theorem run_insertRule_eq_ok {r : Rule} (h : (insertRule r).run b = (.ok (), c)) :
    c = { b with rules := b.rules ++ [r] } := by
  rw [insertRule, run_update] at h
  cases hw : b.withRule r with
  | error f => simp [hw] at h
  | ok d =>
    obtain ⟨-, -, hd⟩ := withRule_eq_ok hw
    simp only [hw, Prod.mk.injEq, true_and] at h
    exact h ▸ hd

/-- Operations that succeed one after the other. -/
theorem run_bind_eq_ok {σ : Type} {x : Operation σ Unit} {f : Unit → Operation σ Unit} {s u : σ}
    (h : (x >>= f).run s = (.ok (), u)) :
    ∃ t, x.run s = (.ok (), t) ∧ (f ()).run t = (.ok (), u) := by
  rw [run_bind] at h
  rcases hx : x.run s with ⟨o, t⟩
  rw [hx] at h
  cases o with
  | error e => simp at h
  | ok a => exact ⟨t, rfl, h⟩

theorem run_each_cons_eq_ok {σ α : Type} {a : α} {as : List α} {f : α → Operation σ Unit} {s u : σ}
    (h : (each (a :: as) f).run s = (.ok (), u)) :
    ∃ t, (f a).run s = (.ok (), t) ∧ (each as f).run t = (.ok (), u) :=
  run_bind_eq_ok (f := fun _ => each as f) h

/-- Operations that each append one element to a table, once they succeed. -/
theorem run_each_eq_ok {α : Type} {f : α → Operation RuleBase Unit} (valid : α → Prop)
    (put : RuleBase → List α → RuleBase) (hnil : ∀ b, put b [] = b)
    (hcons : ∀ b x xs, put (put b [x]) xs = put b (x :: xs))
    (hf : ∀ x b c, (f x).run b = (.ok (), c) → valid x ∧ c = put b [x]) {xs : List α}
    (h : (each xs f).run b = (.ok (), c)) : (∀ x ∈ xs, valid x) ∧ c = put b xs := by
  induction xs generalizing b with
  | nil =>
    have hc : b = c := congrArg Prod.snd h
    exact ⟨by simp, by rw [← hc, hnil]⟩
  | cons x xs ih =>
    obtain ⟨d, hx, hxs⟩ := run_each_cons_eq_ok h
    obtain ⟨hv, rfl⟩ := hf x b d hx
    obtain ⟨hvs, hc⟩ := ih hxs
    exact ⟨List.forall_mem_cons.2 ⟨hv, hvs⟩, by rw [hc, hcons]⟩

theorem run_each_declare_eq_ok {ps : List Predicate} (h : (each ps declare).run b = (.ok (), c)) :
    (∀ p ∈ ps, Membership.ordered p.membership.points = true) ∧
      c = { b with predicates := b.predicates ++ ps } :=
  run_each_eq_ok _ (fun b ps => { b with predicates := b.predicates ++ ps }) (by simp) (by simp)
    (fun _ _ _ => run_declare_eq_ok) h

theorem run_each_insertAction_eq_ok {as : List Action}
    (h : (each as insertAction).run b = (.ok (), c)) : c = { b with actions := b.actions ++ as } :=
  (run_each_eq_ok (fun _ => True) (fun b as => { b with actions := b.actions ++ as }) (by simp)
    (by simp) (fun _ _ _ h => ⟨trivial, run_insertAction_eq_ok h⟩) h).2

theorem run_each_insertRule_eq_ok {rs : List Rule} (h : (each rs insertRule).run b = (.ok (), c)) :
    c = { b with rules := b.rules ++ rs } :=
  (run_each_eq_ok (fun _ => True) (fun b rs => { b with rules := b.rules ++ rs }) (by simp)
    (by simp) (fun _ _ _ h => ⟨trivial, run_insertRule_eq_ok h⟩) h).2

theorem run_each_aim_eq_ok {goal : Option String} (hb : b.goal = none)
    (h : (each goal.toList aim).run b = (.ok (), c)) : c = { b with goal := goal } := by
  cases goal with
  | none =>
    have hc : b = c := congrArg Prod.snd h
    rw [← hc, ← hb]
  | some goal => exact (congrArg Prod.snd h).symm

/-- What is entered into the empty rule base is what there is then. -/
theorem run_enter_eq_ok {tables : RuleBase} (h : (enter tables).run empty = (.ok (), c)) :
    c = tables ∧ ∀ p ∈ tables.predicates, Membership.ordered p.membership.points = true := by
  obtain ⟨b₁, hp, h⟩ := run_bind_eq_ok h
  obtain ⟨b₂, ha, h⟩ := run_bind_eq_ok h
  obtain ⟨b₃, hr, hg⟩ := run_bind_eq_ok h
  obtain ⟨ho, h₁⟩ := run_each_declare_eq_ok hp
  have h₂ := run_each_insertAction_eq_ok ha
  have h₃ := run_each_insertRule_eq_ok hr
  have hgoal : b₃.goal = none := by
    rw [h₃, h₂, h₁]
    rfl
  refine ⟨?_, ho⟩
  rw [run_each_aim_eq_ok hgoal hg, h₃, h₂, h₁]
  rfl

end FuzzyMotion.RuleBase

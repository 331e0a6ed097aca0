import FuzzyMotion.Proofs.RuleBase.Check
import FuzzyMotion.Proofs.RuleBase.Places
import FuzzyMotion.Proofs.Statement.Defects

/-!
What the check of finished tables reports. A fault of the tables is said here of the tables alone: that
there is no goal, what is wrong with the first rule that is not sound, or what is wrong with the goal. A
statement is at fault at one point, the first at which no sentence over the declared predicates goes on.
-/
namespace FuzzyMotion.RuleBase

/-- What is wrong with a statement: what has been read up to its leftmost defect is `p`. -/
inductive StatementFault (b : RuleBase) (text : String) : Fault → Prop where
  | undeclaredPredicate {p rest : List Token} {name : String}
    (hp : Longest b.declares (Token.ofText text) p) (ht : Token.ofText text = p ++ .atom name :: rest)
    (hterm : TermExpected p) (hn : name ∉ b.predicateNames) :
    StatementFault b text (.undeclaredPredicate text (Text.snippet name))
  | malformed {p rest : List Token} {defect : Defect}
    (hp : Longest b.declares (Token.ofText text) p) (ht : Token.ofText text = p ++ rest)
    (h : Explains b.declares text p rest.head? (.malformed defect (Text.snippet text))) :
    StatementFault b text (.malformed defect (Text.snippet text))

/-- The action and the label that the rule names are there. -/
def Places (b : RuleBase) (rule : Rule) : Prop :=
  ∃ a ∈ b.actions, a.name = rule.action ∧ rule.label ∈ a.labelNames

/-- The rule says something about declared predicates, of something that is there. -/
def Sound (b : RuleBase) (rule : Rule) : Prop :=
  b.Places rule ∧ b.Sentence rule.antecedent

/-- What is wrong with a rule: its action is looked at first, then its label, and its antecedent last. -/
inductive RuleFault (b : RuleBase) (rule : Rule) : Fault → Prop where
  | unknownAction (h : rule.action ∉ b.actionNames) :
    RuleFault b rule (.unknownAction rule.name rule.action)
  | unknownLabel {a : Action} (ha : a ∈ b.actions) (hn : a.name = rule.action)
    (hl : rule.label ∉ a.labelNames) : RuleFault b rule (.unknownLabel rule.name rule.label)
  | antecedent {f : Fault} (hp : b.Places rule) (h : StatementFault b rule.antecedent f) :
    RuleFault b rule f

/-- What is wrong with the tables: the goal has to be there, then the rules have to be sound, and what the
goal says is looked at last. -/
inductive FirstFault (b : RuleBase) : Fault → Prop where
  | noGoal (h : b.goal = none) : FirstFault b .noGoal
  | rule {goal : String} {before rest : List Rule} {rule : Rule} {f : Fault}
    (hg : b.goal = some goal) (hr : b.rules = before ++ rule :: rest)
    (hs : ∀ r ∈ before, b.Sound r) (h : RuleFault b rule f) : FirstFault b f
  | goal {goal : String} {f : Fault} (hg : b.goal = some goal) (hs : ∀ r ∈ b.rules, b.Sound r)
    (h : StatementFault b goal f) : FirstFault b f

variable {b : RuleBase} {f : Fault}

section Statements

variable {text : String}

theorem declares_eq_false_iff {name : String} :
    b.declares name = false ↔ name ∉ b.predicateNames := by
  simp [declares]

/-- What explains where reading stops is a fault of the statement, with the declaration to blame. -/
theorem statementFault_of_explains {p rest : List Token} {e : Fault}
    (hp : Longest b.declares (Token.ofText text) p) (ht : Token.ofText text = p ++ rest)
    (h : Explains b.declares text p rest.head? e) : StatementFault b text (blame text e) := by
  obtain ⟨name, hnext, hterm, hn, rfl⟩ | ⟨defect, rfl⟩ := h.unknown_or_malformed
  · obtain ⟨others, rfl⟩ := List.head?_eq_some_iff.1 hnext
    exact .undeclaredPredicate hp ht hterm (declares_eq_false_iff.1 hn)
  · exact .malformed hp ht h

/-- A fault of a statement explains where reading stops. -/
theorem exists_explains (h : StatementFault b text f) :
    ∃ p rest e, Longest b.declares (Token.ofText text) p ∧ Token.ofText text = p ++ rest ∧
      Explains b.declares text p rest.head? e ∧ blame text e = f := by
  cases h with
  | undeclaredPredicate hp ht hterm hn =>
    exact ⟨_, _, _, hp, ht, .unknownPredicate hterm (declares_eq_false_iff.2 hn), rfl⟩
  | malformed hp ht h => exact ⟨_, _, _, hp, ht, h, rfl⟩

theorem checkStatement_eq_error_iff : b.checkStatement text = .error f ↔ StatementFault b text f := by
  obtain ⟨p, rest, ht, hp, -, hfault⟩ := Statement.ofText_reports b.declared text
  rw [knows_declared] at hp hfault
  rw [checkStatement_fails_iff]
  constructor
  · rintro ⟨e, he, rfl⟩
    exact statementFault_of_explains hp ht ((hfault e).1 he)
  · intro h
    obtain ⟨q, others, e, hq, hqt, he, rfl⟩ := exists_explains h
    obtain rfl := hq.unique hp
    obtain rfl := List.append_cancel_left (hqt.symm.trans ht)
    exact ⟨e, (hfault e).2 he, rfl⟩

end Statements

section Rules

variable {rule : Rule}

theorem exists_consequentOf_iff (hb : b.WellFormed) :
    (∃ c, b.consequentOf rule = .ok c) ↔ b.Places rule := by
  constructor
  · rintro ⟨c, hc⟩
    obtain ⟨a, ha, hl, hn⟩ := places_of_consequentOf hb hc
    exact ⟨a, List.mem_of_getElem? ha, hn.symm, List.mem_of_getElem? hl⟩
  · rintro ⟨a, ha, hn, hl⟩
    obtain ⟨k, hk⟩ := List.getElem?_of_mem ha
    obtain ⟨j, hj⟩ := List.getElem?_of_mem hl
    exact ⟨⟨k, j⟩, (consequentOf_eq_ok_iff hb hk hj rule).2 ⟨hn.symm, rfl⟩⟩

theorem consequentOf_of_unknownAction (h : rule.action ∉ b.actionNames) :
    b.consequentOf rule = .error (.unknownAction rule.name rule.action) := by
  rw [consequentOf, List.idxOf?_eq_none_iff.2 h]

theorem consequentOf_of_unknownLabel (hb : b.WellFormed) {a : Action} (ha : a ∈ b.actions)
    (hn : a.name = rule.action) (hl : rule.label ∉ a.labelNames) :
    b.consequentOf rule = .error (.unknownLabel rule.name rule.label) := by
  obtain ⟨k, hk⟩ := List.getElem?_of_mem ha
  have haction : b.actionNames.idxOf? rule.action = some k := by
    rw [idxOf?_eq_some_iff_getElem? hb.actionNames_nodup, actionNames, List.getElem?_map, hk,
      Option.map_some, hn]
  have hlabel : a.labelIndex? rule.label = none := List.idxOf?_eq_none_iff.2 hl
  simp only [consequentOf, haction, hk, Option.bind_some, hlabel]

/-- A rule that credits nothing names no action, or no label of its action. -/
theorem consequentOf_eq_error_iff (hb : b.WellFormed) :
    b.consequentOf rule = .error f ↔
      (rule.action ∉ b.actionNames ∧ f = .unknownAction rule.name rule.action) ∨
        ∃ a ∈ b.actions, a.name = rule.action ∧ rule.label ∉ a.labelNames ∧
          f = .unknownLabel rule.name rule.label := by
  constructor
  · intro h
    by_cases hn : rule.action ∈ b.actionNames
    · obtain ⟨a, ha, hname⟩ := List.mem_map.1 hn
      have hl : rule.label ∉ a.labelNames := by
        intro hl
        obtain ⟨c, hc⟩ := (exists_consequentOf_iff hb).2 ⟨a, ha, hname, hl⟩
        rw [hc] at h
        cases h
      rw [consequentOf_of_unknownLabel hb ha hname hl] at h
      exact Or.inr ⟨a, ha, hname, hl, (Except.error.inj h).symm⟩
    · rw [consequentOf_of_unknownAction hn] at h
      exact Or.inl ⟨hn, (Except.error.inj h).symm⟩
  · rintro (⟨hn, rfl⟩ | ⟨a, ha, hname, hl, rfl⟩)
    · exact consequentOf_of_unknownAction hn
    · exact consequentOf_of_unknownLabel hb ha hname hl

theorem checkRule_eq_error_iff (hb : b.WellFormed) :
    b.checkRule rule = .error f ↔ RuleFault b rule f := by
  rw [checkRule, bind_eq_error_iff, consequentOf_eq_error_iff hb]
  constructor
  · rintro ((⟨hn, rfl⟩ | ⟨a, ha, hn, hl, rfl⟩) | ⟨c, hc, h⟩)
    · exact .unknownAction hn
    · exact .unknownLabel ha hn hl
    · exact .antecedent ((exists_consequentOf_iff hb).1 ⟨c, hc⟩) (checkStatement_eq_error_iff.1 h)
  · intro h
    cases h with
    | unknownAction hn => exact Or.inl (Or.inl ⟨hn, rfl⟩)
    | unknownLabel ha hn hl => exact Or.inl (Or.inr ⟨_, ha, hn, hl, rfl⟩)
    | antecedent hp h =>
      obtain ⟨c, hc⟩ := (exists_consequentOf_iff hb).2 hp
      exact Or.inr ⟨c, hc, checkStatement_eq_error_iff.2 h⟩

theorem checkRule_eq_ok_iff_sound (hb : b.WellFormed) : b.checkRule rule = .ok () ↔ b.Sound rule := by
  rw [checkRule_eq_ok_iff, exists_consequentOf_iff hb, Sound]

/-- The rules are checked up to the first one that is not sound. -/
theorem checkRules_eq_error_iff {rules : List Rule} :
    b.checkRules rules = .error f ↔ ∃ before rule rest, rules = before ++ rule :: rest ∧
      (∀ r ∈ before, b.checkRule r = .ok ()) ∧ b.checkRule rule = .error f := by
  induction rules with
  | nil => simp [checkRules]
  | cons rule rest ih =>
    rw [checkRules, bind_eq_error_iff]
    constructor
    · rintro (h | ⟨⟨⟩, h, hrest⟩)
      · exact ⟨[], rule, rest, rfl, by simp, h⟩
      · obtain ⟨before, bad, others, rfl, hbefore, hbad⟩ := ih.1 hrest
        exact ⟨rule :: before, bad, others, rfl, List.forall_mem_cons.2 ⟨h, hbefore⟩, hbad⟩
    · rintro ⟨before, bad, others, heq, hbefore, hbad⟩
      cases before with
      | nil =>
        obtain ⟨rfl, rfl⟩ := List.cons.inj heq
        exact Or.inl hbad
      | cons first before =>
        obtain ⟨rfl, rfl⟩ := List.cons.inj heq
        obtain ⟨h, hbefore⟩ := List.forall_mem_cons.1 hbefore
        exact Or.inr ⟨(), h, ih.2 ⟨before, bad, others, rfl, hbefore, hbad⟩⟩

end Rules

theorem check_eq_ok_iff_sound (hb : b.WellFormed) :
    b.check = .ok () ↔
      (∃ goal, b.goal = some goal ∧ b.Sentence goal) ∧ ∀ rule ∈ b.rules, b.Sound rule := by
  simp only [check_eq_ok_iff, exists_consequentOf_iff hb, Sound]

theorem check_eq_error_iff (hb : b.WellFormed) : b.check = .error f ↔ FirstFault b f := by
  have hrules : b.checkRules b.rules = .ok () ↔ ∀ r ∈ b.rules, b.Sound r := by
    simp only [checkRules_eq_ok_iff, exists_consequentOf_iff hb, Sound]
  rw [check]
  cases hg : b.goal with
  | none =>
    simp only [Except.error.injEq]
    constructor
    · rintro rfl
      exact .noGoal hg
    · intro h
      cases h with
      | noGoal => rfl
      | rule hgoal => simp [hg] at hgoal
      | goal hgoal => simp [hg] at hgoal
  | some goal =>
    simp only [bind_eq_error_iff, checkRules_eq_error_iff, checkRule_eq_error_iff hb,
      checkRule_eq_ok_iff_sound hb, checkStatement_eq_error_iff, hrules]
    constructor
    · rintro (⟨before, rule, rest, hr, hs, h⟩ | ⟨⟨⟩, hs, h⟩)
      · exact .rule hg hr hs h
      · exact .goal hg hs h
    · intro h
      cases h with
      | noGoal hgoal => simp [hg] at hgoal
      | rule hgoal hr hs h => exact Or.inl ⟨_, _, _, hr, hs, h⟩
      | goal hgoal hs h =>
        obtain rfl := Option.some.inj (hg.symm.trans hgoal)
        exact Or.inr ⟨(), hs, h⟩

/-- No fault of the tables is a want of room. -/
theorem FirstFault.ne_tableFull (h : FirstFault b f) (c : Capacity) : f ≠ .tableFull c := by
  rintro rfl
  have hstatement : ∀ text, ¬StatementFault b text (.tableFull c) := nofun
  cases h with
  | rule hg hr hs h =>
    cases h with
    | antecedent hp h => exact hstatement _ h
  | goal hg hs h => exact hstatement _ h

end FuzzyMotion.RuleBase

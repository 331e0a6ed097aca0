import FuzzyMotion.Proofs.Fault.Plain
import FuzzyMotion.Proofs.Pilot.Kept
import FuzzyMotion.Proofs.Statement.Rendering

/-!
What faults quote. A fault about a statement or a name keeps no more of it than there is room for. Whatever
operation returned the fault, what it kept is the longest beginning that fits of a text which the operation was
given and which is at fault: a statement that is no sentence, the name of a predicate in a statement that is not
known, or a name for which there is no behavior.
-/
namespace FuzzyMotion

open Operation

open Text (LongestBeginning snippetLimit longestBeginning_snippet)

/-- What an operation is about: the statements that it may read, the predicates that are known to it, and the
behavior for which it is asked. -/
structure Subject where
  statements : List String
  known : String → Bool
  behavior : Option String

/-- The statements of the rules, and that of the goal. -/
def RuleBase.statements (b : RuleBase) : List String :=
  b.rules.map Rule.antecedent ++ b.goal.toList

namespace Subject

/-- There is nothing to quote. -/
def nothing : Subject := ⟨[], fun _ => true, none⟩

def ofStatement (text : String) (known : String → Bool) : Subject := ⟨[text], known, none⟩

def ofBase (b : RuleBase) : Subject := ⟨b.statements, b.declares, none⟩

def ofInference (e : Inference) : Subject := ⟨e.base.statements, e.truths.interpretation.knows, none⟩

def ofBehavior (name : String) : Subject := ⟨[], fun _ => true, some name⟩

end Subject

/-- What a fault quotes is a beginning of what is at fault. -/
inductive Genuine (s : Subject) : Fault → Prop where
  | plain {f : Fault} (h : f.quotes = false) : Genuine s f
  | malformed {defect : Defect} {text shown : String} (hm : text ∈ s.statements)
    (hs : ¬IsSentence (Token.ofText text)) (hq : LongestBeginning snippetLimit text shown) :
    Genuine s (.malformed defect shown)
  | unknownPredicate {text name shown : String} (hm : text ∈ s.statements)
    (hl : Lacks s.known text name) (hq : LongestBeginning snippetLimit name shown) :
    Genuine s (.unknownPredicate shown)
  /-- The statement is named in full. -/
  | undeclaredPredicate {text name shown : String} (hm : text ∈ s.statements)
    (hl : Lacks s.known text name) (hq : LongestBeginning snippetLimit name shown) :
    Genuine s (.undeclaredPredicate text shown)
  | unknownBehavior {name shown : String} (hb : s.behavior = some name)
    (hn : ∀ skill : Skill, skill.name ≠ name) (hq : LongestBeginning snippetLimit name shown) :
    Genuine s (.unknownBehavior shown)

namespace Statement

variable {i : Interpretation} {text : String} {f : Fault}

theorem genuine_evaluate {s : Subject} (hm : text ∈ s.statements) (hk : s.known = i.knows)
    (h : evaluate text i = .error f) : Genuine s f := by
  obtain ⟨defect, rfl, hs⟩ | ⟨name, rfl, hl⟩ := ofText_eq_error (evaluate_eq_error_iff.1 h)
  · exact .malformed hm hs (longestBeginning_snippet text)
  · exact .unknownPredicate hm (hk ▸ hl) (longestBeginning_snippet name)

end Statement

namespace RuleBase

variable {b : RuleBase} {f : Fault}

theorem antecedent_mem_statements {rule : Rule} (h : rule ∈ b.rules) : rule.antecedent ∈ b.statements :=
  List.mem_append_left _ (List.mem_map_of_mem h)

theorem goal_mem_statements {goal : String} (h : b.goal = some goal) : goal ∈ b.statements :=
  List.mem_append_right _ (by simp [h])

theorem plain_consequentOf {rule : Rule} (h : b.consequentOf rule = .error f) : f.quotes = false := by
  rw [consequentOf] at h
  split at h
  · cases h
    rfl
  · split at h
    · cases h
      rfl
    · cases h

theorem plain_collectConsequents {done : List Consequent} {rules : List Rule}
    (h : b.collectConsequents done rules = .error f) : f.quotes = false := by
  induction rules generalizing done with
  | nil => cases h
  | cons rule rest ih =>
    rw [collectConsequents, bind_eq_error_iff] at h
    obtain h | ⟨c, -, h⟩ := h
    · exact plain_consequentOf h
    · obtain h | ⟨longer, -, h⟩ := bind_eq_error_iff.1 h
      · obtain ⟨-, rfl⟩ := extend_eq_error_iff.1 h
        rfl
      · exact ih h

theorem genuine_checkStatement {text : String} (hm : text ∈ b.statements)
    (h : b.checkStatement text = .error f) : Genuine (.ofBase b) f := by
  obtain ⟨e, he, rfl⟩ := checkStatement_fails_iff.1 h
  obtain ⟨defect, rfl, hs⟩ | ⟨name, rfl, hl⟩ := Statement.ofText_eq_error he
  · exact .malformed hm hs (longestBeginning_snippet text)
  · rw [knows_declared] at hl
    exact .undeclaredPredicate hm hl (longestBeginning_snippet name)

theorem genuine_check (h : b.check = .error f) : Genuine (.ofBase b) f := by
  rw [check] at h
  cases hg : b.goal with
  | none =>
    simp only [hg] at h
    cases h
    exact .plain rfl
  | some goal =>
    simp only [hg, bind_eq_error_iff, checkRules_eq_error_iff] at h
    obtain ⟨before, rule, rest, hr, -, h⟩ | ⟨-, -, h⟩ := h
    · rw [checkRule, bind_eq_error_iff] at h
      obtain h | ⟨-, -, h⟩ := h
      · exact .plain (plain_consequentOf h)
      · exact genuine_checkStatement (antecedent_mem_statements (by simp [hr])) h
    · exact genuine_checkStatement (goal_mem_statements hg) h

end RuleBase

namespace Inference

variable {b : RuleBase} {e : Inference} {v : Verbosity} {f : Fault}

theorem plain_zeroTables {sets : List FuzzySet} {outputs : Table String .outputs Float32}
    {actions : List Action} (h : zeroTables sets outputs actions = .error f) : f.quotes = false := by
  induction actions generalizing sets outputs with
  | nil => cases h
  | cons a rest ih =>
    rw [zeroTables, bind_eq_error_iff] at h
    obtain h | ⟨longer, -, h⟩ := h
    · obtain ⟨-, rfl⟩ := extend_eq_error_iff.1 h
      rfl
    · obtain h | ⟨more, -, h⟩ := bind_eq_error_iff.1 h
      · obtain ⟨-, -, rfl⟩ := Table.insert_eq_error_iff.1 h
        rfl
      · exact ih h

theorem genuine_ofRuleBase (h : ofRuleBase b = .error f) : Genuine (.ofBase b) f := by
  rw [ofRuleBase, bind_eq_error_iff] at h
  obtain h | ⟨-, -, h⟩ := h
  · exact RuleBase.genuine_check h
  · obtain h | ⟨consequents, -, h⟩ := bind_eq_error_iff.1 h
    · exact .plain (RuleBase.plain_collectConsequents h)
    · obtain h | ⟨⟨sets, outputs⟩, -, h⟩ := bind_eq_error_iff.1 h
      · exact .plain (plain_zeroTables h)
      · cases h

/-- Rules are credited up to the first one whose antecedent has no degree. -/
theorem exists_of_creditAll {i : Interpretation} {pairs : List (Rule × Consequent)} {sets : List FuzzySet}
    (h : (creditAll i pairs sets).1 = .error f) :
    ∃ pair ∈ pairs, Statement.evaluate pair.1.antecedent i = .error f := by
  induction pairs generalizing sets with
  | nil => cases h
  | cons pair rest ih =>
    obtain ⟨rule, c⟩ := pair
    cases hx : Statement.evaluate rule.antecedent i with
    | ok degree =>
      simp only [creditAll, hx] at h
      obtain ⟨other, hm, he⟩ := ih h
      exact ⟨other, List.mem_cons_of_mem _ hm, he⟩
    | error g =>
      simp only [creditAll, hx] at h
      cases h
      exact ⟨(rule, c), List.mem_cons_self, hx⟩

theorem genuine_applyRules (h : (applyRules v).outcome e = .error f) :
    Genuine (.ofInference ((applyRules v).after e)) f := by
  rw [← run_fst, run_applyRules] at h
  rw [← run_snd, run_applyRules]
  obtain ⟨pair, hm, he⟩ := exists_of_creditAll h
  have hrule : pair.1 ∈ e.base.rules := (List.of_mem_zip hm).1
  exact Statement.genuine_evaluate (RuleBase.antecedent_mem_statements hrule) rfl he

theorem genuine_goalDegree (h : e.goalDegree = .error f) : Genuine (.ofInference e) f := by
  rw [goalDegree] at h
  cases hg : e.base.goal with
  | none =>
    simp only [hg] at h
    cases h
    exact .plain rfl
  | some goal =>
    simp only [hg] at h
    exact Statement.genuine_evaluate (RuleBase.goal_mem_statements hg) rfl h

theorem genuine_achievement (h : (achievement v).outcome e = .error f) :
    Genuine (.ofInference ((achievement v).after e)) f := by
  rw [← run_fst, run_achievement] at h
  rw [← run_snd, run_achievement]
  exact genuine_goalDegree h

/-- A cycle fails in one of its steps, and stops in the state in which this step stopped. -/
theorem genuine_cycle (h : (cycle v).outcome e = .error f) :
    Genuine (.ofInference ((cycle v).after e)) f := by
  rw [← run_fst, run_cycle] at h
  rw [← run_snd, run_cycle]
  cases hx : fuzzify.outcome e with
  | error g =>
    rw [run, hx, andThen_error] at h
    cases h
    exact .plain (plain_fuzzify e f hx)
  | ok u =>
    rw [run, hx, andThen_ok] at h ⊢
    cases hy : (applyRules Verbosity.quiet).outcome (fuzzify.after e) with
    | error g =>
      rw [run, hy, andThen_error] at h ⊢
      cases h
      exact genuine_applyRules hy
    | ok u =>
      rw [run, hy, andThen_ok] at h ⊢
      exact genuine_goalDegree h

end Inference

namespace Behavior

variable {behavior : Behavior} {f : Fault}

/-- Once the tables are declared, they can lack an output, or be refused. -/
theorem plain_or_ofRuleBase {b : RuleBase} (hd : behavior.declare.run RuleBase.empty = (.ok (), b))
    (h : behavior.prepare = .error f) : f.quotes = false ∨ Inference.ofRuleBase b = .error f := by
  have hrequire : ∀ output, requireOutput b output = .error f → f.quotes = false := by
    intro output hr
    rw [requireOutput] at hr
    split at hr
    · cases hr
    · cases hr
      rfl
  rw [prepare_of_run hd] at h
  obtain h | ⟨-, -, h⟩ := bind_eq_error_iff.1 h
  · exact Or.inl (hrequire _ h)
  · obtain h | ⟨-, -, h⟩ := bind_eq_error_iff.1 h
    · exact Or.inl (hrequire _ h)
    · obtain h | ⟨e, -, h⟩ := bind_eq_error_iff.1 h
      · exact Or.inr h
      · cases h

/-- Unless the behavior itself returned the fault, it is one of the tables that it declared. -/
theorem genuine_start {σ : Type} {s : σ} (hown : behavior.declare.outcome RuleBase.empty ≠ .error f)
    (h : (behavior.start : Operation σ Activity).outcome s = .error f) :
    Genuine (.ofBase (behavior.declare.after RuleBase.empty)) f := by
  rw [← run_fst, run_start] at h
  cases hd : behavior.declare.outcome RuleBase.empty with
  | error g =>
    simp only [prepare, run, hd] at h
    cases h
    exact absurd hd hown
  | ok u =>
    have hrun : behavior.declare.run RuleBase.empty = (.ok (), behavior.declare.after RuleBase.empty) := by
      rw [run, hd]
    obtain hplain | h := plain_or_ofRuleBase hrun h
    · exact .plain hplain
    · exact Inference.genuine_ofRuleBase h

/-- Sound tables that are entered as a whole are refused for one of their entries, if at all. -/
theorem plain_prepare_of_enter {name : String} {b : RuleBase} {sense : Observation → Operation Inputs Unit}
    (hw : b.WellFormed) (hc : b.check = .ok ())
    (h : (⟨name, RuleBase.enter b, sense⟩ : Behavior).prepare = .error f) : f.quotes = false := by
  rcases hrun : (RuleBase.enter b).run RuleBase.empty with ⟨_ | _, c⟩
  case error g =>
    simp only [prepare, hrun] at h
    cases h
    exact RuleBase.plain_enter b _ f (congrArg Prod.fst hrun)
  case ok u =>
    obtain ⟨rfl, -⟩ := RuleBase.run_enter_eq_ok hrun
    refine (plain_or_ofRuleBase hrun h).resolve_right fun hrefused => ?_
    obtain ⟨e, he⟩ := Inference.ofRuleBase_of_check hw hc
    rw [hrefused] at he
    cases he

end Behavior

theorem Activity.genuine_cycle {a : Activity} {o : Observation} {v : Verbosity} {f : Fault}
    (hown : (a.behavior.sense o).outcome .empty ≠ .error f)
    (h : (Activity.cycle o v).outcome a = .error f) :
    Genuine (.ofInference ((Activity.cycle o v).after a).inference) f := by
  rw [← run_fst, run_cycle] at h
  rw [← run_snd, run_cycle]
  cases hs : (a.behavior.sense o).outcome .empty with
  | error g =>
    simp only [run, hs] at h
    cases h
    exact absurd hs hown
  | ok u =>
    simp only [run, hs] at h ⊢
    exact Inference.genuine_cycle h

namespace Skill

variable [Trig] {f : Fault}

/-- The tables of every behavior are sound, whatever its target is. -/
theorem plain_prepare {skill : Skill} {target : Target} {behavior : Behavior}
    (hb : skill.behavior target = .ok behavior) (h : behavior.prepare = .error f) : f.quotes = false := by
  cases target with
  | location l =>
    cases skill with
    | approach =>
      cases hb
      exact Behavior.plain_prepare_of_enter Approach.wellFormed_tables Approach.check_tables h
    | cross =>
      cases hb
      exact Behavior.plain_prepare_of_enter (Crossing.wellFormed_tables l) (Crossing.check_tables l) h
    | waitOpen => cases hb
    | waitClosed => cases hb
  | door d =>
    cases skill with
    | approach => cases hb
    | cross => cases hb
    | waitOpen =>
      cases hb
      have hr : (Waiting.untilOpen d).Reliable (Waiting.tables "DoorOpen") :=
        Waiting.reliable Waiting.openName d (by decide)
      exact Behavior.plain_prepare_of_enter hr.wellFormed hr.check h
    | waitClosed =>
      cases hb
      have hr : (Waiting.untilClosed d).Reliable (Waiting.tables "DoorClosed") :=
        Waiting.reliable Waiting.closedName d (by decide)
      exact Behavior.plain_prepare_of_enter hr.wellFormed hr.check h

theorem plain_behavior {skill : Skill} {target : Target} (h : skill.behavior target = .error f) :
    f.quotes = false := by
  cases target with
  | location l =>
    cases skill <;> cases h
    · rfl
    · rfl
  | door d =>
    cases skill <;> cases h
    · rfl
    · rfl

end Skill

namespace Pilot

variable [Trig] {f : Fault}

theorem genuine_engage {p : Pilot} {name : String} {target : Target}
    (h : (engage name target).outcome p = .error f) : Genuine (.ofBehavior name) f := by
  have hprepared : prepared name target = .error f := by
    rw [← run_fst, run_engage] at h
    exact map_eq_error_iff.1 h
  rw [prepared] at hprepared
  cases hs : Skill.named? name with
  | none =>
    simp only [hs, Except.error.injEq] at hprepared
    subst hprepared
    refine .unknownBehavior rfl (fun skill hskill => ?_) (longestBeginning_snippet name)
    rw [Skill.named?_eq_some_iff.2 hskill] at hs
    cases hs
  | some skill =>
    simp only [hs] at hprepared
    cases hb : skill.behavior target with
    | error g =>
      simp only [hb, Except.error.injEq] at hprepared
      subst hprepared
      exact .plain (Skill.plain_behavior hb)
    | ok behavior =>
      simp only [hb] at hprepared
      exact .plain (Skill.plain_prepare hb hprepared)

/-- A pilot runs only behaviors that cannot fail. -/
theorem plain_cycle {calls : List Call} {o : Observation}
    (h : (cycle o).outcome (afterCalls calls initial) = .error f) : f.quotes = false := by
  obtain ⟨last, hkept⟩ : ∃ last, Kept (afterCalls calls initial) last :=
    ⟨_, (Kept.idle Verbosity.quiet).calls calls⟩
  generalize afterCalls calls initial = p at h hkept
  rw [← run_fst] at h
  cases hkept with
  | idle v =>
    rw [run_cycle_of_idle rfl] at h
    cases h
    rfl
  | running hr hm =>
    obtain ⟨achieved, next, -, hrun, -⟩ := hr.run_cycle o
    rw [hrun] at h
    cases h

end Pilot

/-- The faults that operations return, each with what the operation is about; an operation that is not listed
always succeeds. A behavior declares its tables and senses its inputs in its own way, and the faults that it
returns itself are its own. -/
inductive Raised [Trig] : Subject → Fault → Prop where
  | checked {m : Membership} {f : Fault} (h : m.checked = .error f) : Raised .nothing f
  | put {κ α : Type} [DecidableEq κ] {c : Capacity} {k : κ} {a : α} {t : Table κ c α} {f : Fault}
    (h : (Table.put k a).outcome t = .error f) : Raised .nothing f
  | insertSonar {sonar : Sonar} {o : Observation} {f : Fault}
    (h : (Observation.insertSonar sonar).outcome o = .error f) : Raised .nothing f
  | insertDoor {door : DoorId} {isOpen : Bool} {o : Observation} {f : Fault}
    (h : (Observation.insertDoor door isOpen).outcome o = .error f) : Raised .nothing f
  | declare {c : RuleBase.Call} {b : RuleBase} {f : Fault} (h : c.operation.outcome b = .error f) :
    Raised .nothing f
  | evaluate {text : String} {i : Interpretation} {f : Fault} (h : Statement.evaluate text i = .error f) :
    Raised (.ofStatement text i.knows) f
  | trace {text : String} {i : Interpretation} {f : Fault} (h : Statement.trace text i = .error f) :
    Raised (.ofStatement text i.knows) f
  | check {b : RuleBase} {f : Fault} (h : b.check = .error f) : Raised (.ofBase b) f
  | ofRuleBase {b : RuleBase} {f : Fault} (h : Inference.ofRuleBase b = .error f) : Raised (.ofBase b) f
  | fuzzify {e : Inference} {f : Fault} (h : Inference.fuzzify.outcome e = .error f) : Raised .nothing f
  | applyRules {v : Verbosity} {e : Inference} {f : Fault}
    (h : (Inference.applyRules v).outcome e = .error f) :
    Raised (.ofInference ((Inference.applyRules v).after e)) f
  | achievement {v : Verbosity} {e : Inference} {f : Fault}
    (h : (Inference.achievement v).outcome e = .error f) :
    Raised (.ofInference ((Inference.achievement v).after e)) f
  | infer {v : Verbosity} {e : Inference} {f : Fault} (h : (Inference.cycle v).outcome e = .error f) :
    Raised (.ofInference ((Inference.cycle v).after e)) f
  | start {σ : Type} {s : σ} {behavior : Behavior} {f : Fault}
    (hown : behavior.declare.outcome RuleBase.empty ≠ .error f)
    (h : (behavior.start : Operation σ Activity).outcome s = .error f) :
    Raised (.ofBase (behavior.declare.after RuleBase.empty)) f
  | act {a : Activity} {o : Observation} {v : Verbosity} {f : Fault}
    (hown : (a.behavior.sense o).outcome .empty ≠ .error f)
    (h : (Activity.cycle o v).outcome a = .error f) :
    Raised (.ofInference ((Activity.cycle o v).after a).inference) f
  | engage {p : Pilot} {name : String} {target : Target} {f : Fault}
    (h : (Pilot.engage name target).outcome p = .error f) : Raised (.ofBehavior name) f
  | drive {calls : List Pilot.Call} {o : Observation} {f : Fault}
    (h : (Pilot.cycle o).outcome (Pilot.afterCalls calls Pilot.initial) = .error f) : Raised .nothing f

theorem genuine_of_raised [Trig] {s : Subject} {f : Fault} (h : Raised s f) : Genuine s f := by
  cases h with
  | checked h => exact .plain (Membership.plain_checked h)
  | put h => exact .plain (Table.plain_put _ _ _ f h)
  | insertSonar h => exact .plain (Observation.plain_insertSonar _ _ f h)
  | insertDoor h => exact .plain (Observation.plain_insertDoor _ _ _ f h)
  | declare h => exact .plain (RuleBase.plain_call _ _ f h)
  | evaluate h => exact Statement.genuine_evaluate List.mem_cons_self rfl h
  | trace h => exact Statement.genuine_evaluate List.mem_cons_self rfl (Statement.trace_eq_error_iff.1 h)
  | check h => exact RuleBase.genuine_check h
  | ofRuleBase h => exact Inference.genuine_ofRuleBase h
  | fuzzify h => exact .plain (Inference.plain_fuzzify _ f h)
  | applyRules h => exact Inference.genuine_applyRules h
  | achievement h => exact Inference.genuine_achievement h
  | infer h => exact Inference.genuine_cycle h
  | start hown h => exact Behavior.genuine_start hown h
  | act hown h => exact Activity.genuine_cycle hown h
  | engage h => exact Pilot.genuine_engage h
  | drive h => exact .plain (Pilot.plain_cycle h)

/-- What a fault keeps of a text is the longest beginning of whole characters that fits into 64 bytes: the
whole text where it fits, and otherwise all of it but for less than a character. Whatever operation returned a
fault, what the fault quotes is this beginning of a statement or a name which the operation was given and which
is at fault. -/
theorem faults_quote_longest_beginnings [Trig] :
    (∀ text : String, LongestBeginning 64 text (Text.snippet text) ∧
        (text.utf8ByteSize ≤ 64 → Text.snippet text = text) ∧
        (64 < text.utf8ByteSize → 60 < (Text.snippet text).utf8ByteSize)) ∧
      ∀ s f, Raised s f → Genuine s f := by
  refine ⟨fun text => ⟨longestBeginning_snippet text, Text.snippet_of_fits, fun hlong => ?_⟩,
    fun s f => genuine_of_raised⟩
  have hroom := (longestBeginning_snippet text).lt_size_add_four hlong
  have hlimit : snippetLimit = 64 := rfl
  omega

/-- After 63 bytes there is no room for a character of two, and the one after it is not taken either, though
there would be room for it. -/
theorem quotes_name_up_to_wide_character :
    let before := List.replicate 63 'A'
    let name := String.ofList (before ++ ['é', 'B'])
    let shown := String.ofList before
    Text.snippet name = shown ∧ LongestBeginning 64 name shown ∧
      @Raised platformTrig (.ofBehavior name) (.unknownBehavior shown) ∧
      Genuine (.ofBehavior name) (.unknownBehavior shown) := by
  intro before name shown
  obtain ⟨hsnippet, hgenuine⟩ := @faults_quote_longest_beginnings platformTrig
  have hshown : Text.snippet name = shown := by
    rw [Text.snippet, String.toList_ofList]
    decide +kernel
  have hraised : @Raised platformTrig (.ofBehavior name) (.unknownBehavior shown) := by
    refine @Raised.engage platformTrig Pilot.initial name (.door 0) _ ?_
    rw [← hshown, ← run_fst, @Pilot.run_engage platformTrig]
    decide +kernel
  exact ⟨hshown, hshown ▸ (hsnippet name).1, hraised, hgenuine _ _ hraised⟩

end FuzzyMotion

import FuzzyMotion.Proofs.Operation
import FuzzyMotion.Statement.Evaluation
import FuzzyMotion.Statement.ReadBack

/-!
The grammar of statements as a system of productions over tokens, stated without the reader and
without the phrases that it builds. A derivation is a tree of productions for one list of tokens, and
its value is computed along the tree.

The main statement is that evaluation succeeds exactly on the token lists that the grammar derives,
and that it gives the value of their derivation.
-/
namespace FuzzyMotion

namespace Interpretation

/-- An interpretation under which no statement lacks a predicate. -/
def total : Interpretation := fun _ => some 0

theorem knows_total (name : String) : total.knows name = true := rfl

end Interpretation

inductive Nonterminal where
  | statement | term | enclosure
  deriving DecidableEq, Repr

/-- The trees by which a nonterminal derives a list of tokens; one constructor per production. -/
inductive Derivation : Nonterminal → List Token → Type where
  | single {ts : List Token} (t : Derivation .term ts) : Derivation .statement ts
  | conjunction {ts us : List Token} (l : Derivation .term ts) (r : Derivation .term us) :
      Derivation .statement (ts ++ .and :: us)
  | disjunction {ts us : List Token} (l : Derivation .term ts) (r : Derivation .term us) :
      Derivation .statement (ts ++ .or :: us)
  | atom (name : String) : Derivation .term [.atom name]
  | enclosed {ts : List Token} (e : Derivation .enclosure ts) : Derivation .term ts
  | negated {ts : List Token} (e : Derivation .enclosure ts) : Derivation .term (.not :: ts)
  | parentheses {ts : List Token} (s : Derivation .statement ts) :
      Derivation .enclosure (.opening :: (ts ++ [.closing]))

namespace Derivation

/-- The degree of truth along the tree. -/
def value (i : Interpretation) {n : Nonterminal} {ts : List Token} : Derivation n ts → Float32
  | single t => t.value i
  | conjunction l r => Binary32.min (l.value i) (r.value i)
  | disjunction l r => Binary32.max (l.value i) (r.value i)
  | atom name => (i name).getD 0
  | enclosed e => e.value i
  | negated e => 1 - e.value i
  | parentheses s => s.value i

/-- What a derivation says about phrases: there is one with the same tokens and the same degree. An
enclosure is a statement in parentheses. -/
def Reads (i : Interpretation) (x : Float32) (ts : List Token) : Nonterminal → Prop
  | .statement => ∃ s : Statement, s.tokens = ts ∧ s.degree i = x
  | .term => ∃ t : Term, t.tokens = ts ∧ t.degree i = x
  | .enclosure => ∃ s : Statement, .opening :: (s.tokens ++ [.closing]) = ts ∧ s.degree i = x

theorem reads (i : Interpretation) {n : Nonterminal} {ts : List Token} (d : Derivation n ts) :
    Reads i (d.value i) ts n := by
  induction d with
  | single _ ih =>
    obtain ⟨t, rfl, hd⟩ := ih
    exact ⟨.single t, rfl, hd⟩
  | conjunction _ _ ihl ihr =>
    obtain ⟨l, rfl, hl⟩ := ihl
    obtain ⟨r, rfl, hr⟩ := ihr
    exact ⟨.both .and l r, rfl, by rw [Phrase.degree_both, hl, hr]; rfl⟩
  | disjunction _ _ ihl ihr =>
    obtain ⟨l, rfl, hl⟩ := ihl
    obtain ⟨r, rfl, hr⟩ := ihr
    exact ⟨.both .or l r, rfl, by rw [Phrase.degree_both, hl, hr]; rfl⟩
  | atom name => exact ⟨.atom name, rfl, rfl⟩
  | enclosed _ ih =>
    obtain ⟨s, rfl, hs⟩ := ih
    exact ⟨.group s, rfl, hs⟩
  | negated _ ih =>
    obtain ⟨s, rfl, hs⟩ := ih
    exact ⟨.negation s, rfl, by rw [Phrase.degree_negation, hs]; rfl⟩
  | parentheses _ ih =>
    obtain ⟨s, rfl, hs⟩ := ih
    exact ⟨s, rfl, hs⟩

end Derivation

def Rank.nonterminal : Rank → Nonterminal
  | .term => .term
  | .statement => .statement

/-- Every phrase is a derivation of its tokens. -/
def Phrase.derivation : {r : Rank} → (p : Phrase r) → Derivation r.nonterminal p.tokens
  | _, .atom name => .atom name
  | _, .group inner => .enclosed (.parentheses inner.derivation)
  | _, .negation inner => .negated (.parentheses inner.derivation)
  | _, .single term => .single term.derivation
  | _, .both .and left right => .conjunction left.derivation right.derivation
  | _, .both .or left right => .disjunction left.derivation right.derivation

namespace Statement

theorem mem_tokens_of_mem_atoms {r : Rank} {p : Phrase r} {name : String} (h : name ∈ p.atoms) :
    .atom name ∈ p.tokens := by
  rw [← Phrase.filterMap_name?_tokens] at h
  obtain ⟨token, hm, hn⟩ := List.mem_filterMap.1 h
  cases token with
  | atom other =>
    cases hn
    exact hm
  | _ => cases hn

variable {text : String} {i : Interpretation}

theorem ofText_eq_ok_iff {s : Statement} :
    ofText i text = .ok s ↔ Token.ofText text = s.tokens ∧ ∀ a ∈ s.atoms, i.knows a = true := by
  rw [← ofTokens_eq_ok_iff]
  exact mapError_eq_ok_iff

/-- A degree is that of the statement that has been read. -/
theorem evaluate_eq_map (text : String) (i : Interpretation) :
    evaluate text i = (ofText i text).map (·.degree i) :=
  interpret_eq_map Semantics.numeric i text

theorem evaluate_eq_error_iff {f : Fault} : evaluate text i = .error f ↔ ofText i text = .error f := by
  rw [evaluate_eq_map, map_eq_error_iff]

theorem evaluate_eq_ok_iff {x : Float32} :
    evaluate text i = .ok x ↔
      ∃ s : Statement, Token.ofText text = s.tokens ∧ (∀ a ∈ s.atoms, i.knows a = true) ∧
        s.degree i = x := by
  simp only [evaluate_eq_map, map_eq_ok_iff, ofText_eq_ok_iff, and_assoc]

/-- Evaluation accepts exactly the sentences of the grammar and gives the value of their derivation,
where every atom of the text has a degree. -/
theorem evaluate_iff_derivation (text : String) (i : Interpretation)
    (h : ∀ name, Token.atom name ∈ Token.ofText text → i.knows name = true) :
    ((∃ x, evaluate text i = .ok x) ↔ Nonempty (Derivation .statement (Token.ofText text))) ∧
      ∀ d : Derivation .statement (Token.ofText text), evaluate text i = .ok (d.value i) := by
  have hvalue : ∀ d : Derivation .statement (Token.ofText text),
      evaluate text i = .ok (d.value i) := by
    intro d
    obtain ⟨s, ht, hd⟩ := d.reads i
    refine evaluate_eq_ok_iff.2 ⟨s, ht.symm, ?_, hd⟩
    intro a ha
    apply h
    rw [← ht]
    exact mem_tokens_of_mem_atoms ha
  refine ⟨⟨?_, ?_⟩, hvalue⟩
  · rintro ⟨x, hx⟩
    obtain ⟨s, ht, -, -⟩ := evaluate_eq_ok_iff.1 hx
    rw [ht]
    exact ⟨Phrase.derivation s⟩
  · rintro ⟨d⟩
    exact ⟨d.value i, hvalue d⟩

/-- Two groups, one of them negated, under a negation. -/
theorem evaluate_nested_derivation :
    let text := "NOT((A OR NOT(B)) AND C)"
    let i : Interpretation := fun name => if name = "B" then some 0.75 else some 0.5
    (∀ name, Token.atom name ∈ Token.ofText text → i.knows name = true) ∧
      ((∃ x, evaluate text i = .ok x) ↔ Nonempty (Derivation .statement (Token.ofText text))) ∧
      ∀ d : Derivation .statement (Token.ofText text), evaluate text i = .ok (d.value i) := by
  intro text i
  have h : ∀ name, Token.atom name ∈ Token.ofText text → i.knows name = true := by
    intro name _
    by_cases hb : name = "B" <;> simp [i, Interpretation.knows, hb]
  exact ⟨h, evaluate_iff_derivation text i h⟩

end Statement

end FuzzyMotion

import FuzzyMotion.Proofs.Statement.Derivation
import FuzzyMotion.Statement.Evaluation
import Mathlib.Data.List.Chain

/-!
Layouts of tokens. A layout writes tokens in order, with blanks before, between and after them, and at least
one blank between two words. Scanning undoes every layout, and every text is a layout: nothing but the
blanks is lost. So the blanks between the tokens do not matter for the degree of a statement.
-/
namespace FuzzyMotion

open Text (isBlank)

namespace Text

/-- The characters of words are neither blank nor parentheses. -/
def isWordChar (c : Char) : Bool :=
  !isBlank c && c != '(' && c != ')'

theorem isWordChar_eq_true_iff {c : Char} :
    isWordChar c = true ↔ isBlank c = false ∧ c ≠ '(' ∧ c ≠ ')' := by
  simp [isWordChar, and_assoc]

theorem isWordChar_of_isBlank {c : Char} (h : isBlank c = true) : isWordChar c = false := by
  simp [isWordChar, h]

/-- What is no character of words and not blank is a parenthesis. -/
theorem eq_parenthesis {c : Char} (hword : isWordChar c = false) (hblank : isBlank c = false) :
    c = '(' ∨ c = ')' := by
  by_contra hcon
  rw [not_or] at hcon
  rw [isWordChar_eq_true_iff.2 ⟨hblank, hcon⟩] at hword
  cases hword

end Text

open Text (isWordChar isWordChar_eq_true_iff isWordChar_of_isBlank eq_parenthesis)

namespace Token

/-- Parentheses are no words. -/
def isWord : Token → Bool
  | opening => false
  | closing => false
  | _ => true

/-- A text that is one word. -/
def IsWordText (word : String) : Prop :=
  word ≠ "" ∧ ∀ c ∈ word.toList, isWordChar c = true

/-- An atom is a word that is not reserved. -/
def Proper : Token → Prop
  | atom name => IsWordText name ∧ name ≠ "AND" ∧ name ≠ "OR" ∧ name ≠ "NOT"
  | _ => True

section Words

variable {token : Token} {word : String}

theorem eq_of_not_isWord (h : token.isWord = false) : token = .opening ∨ token = .closing := by
  cases token with
  | opening => exact Or.inl rfl
  | closing => exact Or.inr rfl
  | _ => cases h

/-- A parenthesis is one character, and neither blank nor part of a word. -/
theorem text_of_not_isWord (h : token.isWord = false) :
    ∃ c, token.text.toList = [c] ∧ isBlank c = false ∧ isWordChar c = false := by
  rcases eq_of_not_isWord h with rfl | rfl
  · exact ⟨'(', rfl, by decide, by decide⟩
  · exact ⟨')', rfl, by decide, by decide⟩

theorem Proper.isWordText (h : token.Proper) (hw : token.isWord = true) : IsWordText token.text := by
  cases token with
  | opening => cases hw
  | closing => cases hw
  | and => exact ⟨by decide, List.all_eq_true.1 (by decide)⟩
  | or => exact ⟨by decide, List.all_eq_true.1 (by decide)⟩
  | not => exact ⟨by decide, List.all_eq_true.1 (by decide)⟩
  | atom name => exact h.1

theorem Proper.isBlank_text (h : token.Proper) {c : Char} (hc : c ∈ token.text.toList) :
    isBlank c = false := by
  cases hw : token.isWord with
  | true => exact (isWordChar_eq_true_iff.1 ((h.isWordText hw).2 c hc)).1
  | false =>
    obtain ⟨d, htext, hblank, -⟩ := text_of_not_isWord hw
    rw [htext] at hc
    rwa [List.mem_singleton.1 hc]

theorem Proper.ofWord_text (h : token.Proper) (hw : token.isWord = true) : ofWord token.text = token := by
  cases token with
  | opening => cases hw
  | closing => cases hw
  | and => rfl
  | or => rfl
  | not => rfl
  | atom name =>
    obtain ⟨-, hand, hor, hnot⟩ := h
    simp [ofWord, text, hand, hor, hnot]

theorem ofWord_cases (word : String) :
    (ofWord word).text = word ∧ (ofWord word).isWord = true ∧
      (IsWordText word → (ofWord word).Proper) := by
  unfold ofWord
  split_ifs with hand hor hnot
  · exact ⟨hand.symm, rfl, fun _ => trivial⟩
  · exact ⟨hor.symm, rfl, fun _ => trivial⟩
  · exact ⟨hnot.symm, rfl, fun _ => trivial⟩
  · exact ⟨rfl, rfl, fun h => ⟨h, hand, hor, hnot⟩⟩

end Words

section Scanning

variable {word rest : List Char}

/-- The rest of a text does not go on with the word before it. -/
def Boundary (rest : List Char) : Prop :=
  ∀ c ∈ rest.head?, isWordChar c = false

theorem scan_wordChar {c : Char} (h : isWordChar c = true) (word rest : List Char) :
    scan word (c :: rest) = scan (c :: word) rest := by
  obtain ⟨hblank, hopening, hclosing⟩ := isWordChar_eq_true_iff.1 h
  simp [scan, hblank, hopening, hclosing]

theorem scan_word {more : List Char} (h : ∀ c ∈ more, isWordChar c = true) (word rest : List Char) :
    scan word (more ++ rest) = scan (more.reverse ++ word) rest := by
  induction more generalizing word with
  | nil => rfl
  | cons c cs ih =>
    rw [List.forall_mem_cons] at h
    rw [List.cons_append, scan_wordChar h.1, ih h.2]
    simp

/-- At a boundary, the word that has been begun ends. -/
theorem scan_of_boundary (h : Boundary rest) (word : List Char) :
    scan word rest = ended word ++ scan [] rest := by
  cases rest with
  | nil => simp
  | cons c cs =>
    have hc : isWordChar c = false := h c rfl
    cases hblank : isBlank c with
    | true => rw [scan_blank _ _ hblank, scan_blank _ _ hblank, ended_nil, List.nil_append]
    | false => rcases eq_parenthesis hc hblank with rfl | rfl <;> simp

/-- The text of a token is scanned as this token, wherever a word ends with it. -/
theorem scan_text {token : Token} (h : token.Proper) (hrest : token.isWord = true → Boundary rest) :
    scan [] (token.text.toList ++ rest) = token :: scan [] rest := by
  cases hw : token.isWord with
  | false => rcases eq_of_not_isWord hw with rfl | rfl <;> simp [text]
  | true =>
    obtain ⟨hne, hchars⟩ := h.isWordText hw
    rw [scan_word hchars, scan_of_boundary (hrest hw), List.append_nil]
    have hended : ended token.text.toList.reverse = [token] := by
      cases hr : token.text.toList.reverse with
      | nil => exact absurd (String.toList_eq_nil_iff.1 (List.reverse_eq_nil_iff.1 hr)) hne
      | cons c cs =>
        rw [ended, ← hr, List.reverse_reverse, String.ofList_toList, h.ofWord_text hw]
    rw [hended]
    rfl

end Scanning

end Token

/-- A text of blanks. -/
structure Blanks where
  text : String
  blank : ∀ c ∈ text.toList, isBlank c = true

namespace Blanks

def none : Blanks := ⟨"", by simp⟩

def cons (c : Char) (h : isBlank c = true) (blanks : Blanks) : Blanks :=
  ⟨String.ofList (c :: blanks.text.toList), by
    rw [String.toList_ofList, List.forall_mem_cons]
    exact ⟨h, blanks.blank⟩⟩

theorem filter_text (blanks : Blanks) :
    blanks.text.toList.filter (fun c => !isBlank c) = [] := by
  rw [List.filter_eq_nil_iff]
  intro c hc
  simp [blanks.blank c hc]

end Blanks

/-- A token and the blanks before it. -/
structure Piece where
  gap : Blanks
  token : Token
  proper : token.Proper

namespace Piece

variable {pieces : List Piece} {last : Blanks}

/-- What pieces and the blanks after them write. -/
def write (last : Blanks) : List Piece → String
  | [] => last.text
  | piece :: rest => piece.gap.text ++ piece.token.text ++ write last rest

/-- Between two words there are blanks. -/
def Apart (left right : Piece) : Prop :=
  left.token.isWord = true → right.token.isWord = true → right.gap.text ≠ ""

theorem toList_write_cons (piece : Piece) (rest : List Piece) (last : Blanks) :
    (write last (piece :: rest)).toList =
      piece.gap.text.toList ++ (piece.token.text.toList ++ (write last rest).toList) := by
  simp [write]

/-- A piece that does not stand apart from a word before it begins with a parenthesis. -/
theorem boundary_write (h : ∀ piece ∈ pieces.head?, piece.token.isWord = true → piece.gap.text ≠ "") :
    Token.Boundary (write last pieces).toList := by
  intro c hc
  cases pieces with
  | nil => exact isWordChar_of_isBlank (last.blank c (List.mem_of_mem_head? hc))
  | cons piece rest =>
    rw [toList_write_cons] at hc
    cases hgap : piece.gap.text.toList with
    | cons b bs =>
      rw [hgap, List.cons_append, List.head?_cons] at hc
      obtain rfl := Option.mem_some.1 hc
      exact isWordChar_of_isBlank (piece.gap.blank _ (by simp [hgap]))
    | nil =>
      have hword : piece.token.isWord = false := by
        by_contra hw
        exact h piece rfl (by simpa using hw) (String.toList_eq_nil_iff.1 hgap)
      obtain ⟨d, htext, -, hd⟩ := Token.text_of_not_isWord hword
      rw [hgap, List.nil_append, htext] at hc
      rwa [← Option.some.inj hc]

/-- Scanning undoes writing. -/
theorem scan_write (h : pieces.IsChain Apart) :
    Token.scan [] (write last pieces).toList = pieces.map Piece.token := by
  induction pieces with
  | nil =>
    have hblanks := Token.scan_blanks last.text.toList [] last.blank
    rwa [List.append_nil] at hblanks
  | cons piece rest ih =>
    rw [List.isChain_cons] at h
    rw [toList_write_cons, Token.scan_blanks _ _ piece.gap.blank, Token.scan_text piece.proper, ih h.2,
      List.map_cons]
    exact fun hw => boundary_write fun next hnext => h.1 next hnext hw

/-- What pieces write is what their tokens write, and blanks. -/
theorem filter_write (pieces : List Piece) (last : Blanks) :
    (write last pieces).toList.filter (fun c => !isBlank c) =
      (pieces.map Piece.token).flatMap fun token => token.text.toList := by
  induction pieces with
  | nil => exact last.filter_text
  | cons piece rest ih =>
    have htoken : piece.token.text.toList.filter (fun c => !isBlank c) = piece.token.text.toList := by
      rw [List.filter_eq_self]
      exact fun c hc => by simp [piece.proper.isBlank_text hc]
    rw [toList_write_cons, List.filter_append, List.filter_append, piece.gap.filter_text, htoken, ih,
      List.map_cons, List.flatMap_cons, List.nil_append]

theorem write_append (ps : List Piece) (piece : Piece) (qs : List Piece) (last : Blanks) :
    write last (ps ++ piece :: qs) = write piece.gap ps ++ piece.token.text ++ write last qs := by
  induction ps with
  | nil => rfl
  | cons p ps ih => simp only [List.cons_append, write, ih, String.append_assoc]

/-- What is written before a word does not end with a word. -/
theorem boundary_before {ps : List Piece} {piece : Piece} (hw : piece.token.isWord = true)
    (h : ∀ p ∈ ps.getLast?, Apart p piece) :
    ∀ c ∈ (write piece.gap ps).toList.getLast?, isWordChar c = false := by
  intro c hc
  rcases List.eq_nil_or_concat ps with rfl | ⟨init, p, rfl⟩
  · exact isWordChar_of_isBlank (piece.gap.blank c (List.mem_of_getLast? hc))
  · rw [List.concat_eq_append, write_append, write, String.toList_append, List.getLast?_append] at hc
    cases hgap : piece.gap.text.toList.getLast? with
    | some b =>
      rw [hgap, Option.some_or] at hc
      obtain rfl := Option.mem_some.1 hc
      exact isWordChar_of_isBlank (piece.gap.blank _ (List.mem_of_getLast? hgap))
    | none =>
      have hempty : piece.gap.text = "" :=
        String.toList_eq_nil_iff.1 (List.getLast?_eq_none_iff.1 hgap)
      have hword : p.token.isWord = false := by
        by_contra hp
        exact h p (by simp) (by simpa using hp) hw hempty
      obtain ⟨d, htext, -, hd⟩ := Token.text_of_not_isWord hword
      rw [hgap, Option.none_or, String.toList_append, List.getLast?_append, htext] at hc
      rwa [← Option.some.inj hc]

/-- A word without blanks before it. -/
def ofWord (word : List Char) (hne : word ≠ []) (h : ∀ c ∈ word, isWordChar c = true) : Piece where
  gap := .none
  token := Token.ofWord (String.ofList word)
  proper := (Token.ofWord_cases _).2.2 ⟨by simpa using hne, by simpa using h⟩

theorem write_ofWord (word : List Char) (hne : word ≠ []) (h : ∀ c ∈ word, isWordChar c = true)
    (rest : List Piece) (last : Blanks) :
    (write last (ofWord word hne h :: rest)).toList = word ++ (write last rest).toList := by
  simp [toList_write_cons, ofWord, Blanks.none, (Token.ofWord_cases _).1]

end Piece

/-- Tokens in order, with blanks before, between and after them. -/
structure Layout where
  pieces : List Piece
  last : Blanks
  apart : pieces.IsChain Piece.Apart

namespace Layout

def tokens (l : Layout) : List Token :=
  l.pieces.map Piece.token

/-- What the layout writes. -/
def text (l : Layout) : String :=
  Piece.write l.last l.pieces

theorem ofText_text (l : Layout) : Token.ofText l.text = l.tokens :=
  Piece.scan_write l.apart

section Cons

variable (l : Layout) {c : Char}

theorem exists_cons_blank (h : isBlank c = true) : ∃ m : Layout, m.text.toList = c :: l.text.toList := by
  obtain ⟨pieces, last, hapart⟩ := l
  cases pieces with
  | nil => exact ⟨⟨[], last.cons c h, .nil⟩, by simp [text, Piece.write, Blanks.cons]⟩
  | cons piece rest =>
    rw [List.isChain_cons] at hapart
    refine ⟨⟨{ piece with gap := piece.gap.cons c h } :: rest, last, List.isChain_cons.2 hapart⟩, ?_⟩
    simp [text, Piece.write, Blanks.cons]

theorem exists_cons_parenthesis {token : Token} (hw : token.isWord = false) (hp : token.Proper)
    (ht : token.text.toList = [c]) : ∃ m : Layout, m.text.toList = c :: l.text.toList := by
  have hapart : ∀ piece ∈ l.pieces.head?, Piece.Apart ⟨.none, token, hp⟩ piece := by
    intro piece _ hword
    rw [hw] at hword
    cases hword
  refine ⟨⟨⟨.none, token, hp⟩ :: l.pieces, l.last, List.isChain_cons.2 ⟨hapart, l.apart⟩⟩, ?_⟩
  simp [text, Piece.write, Blanks.none, ht]

/-- A word goes on with the word that follows it, and otherwise it stands for itself. -/
theorem exists_cons_word (h : isWordChar c = true) : ∃ m : Layout, m.text.toList = c :: l.text.toList := by
  obtain ⟨pieces, last, hapart⟩ := l
  by_cases hjoin : ∃ piece ∈ pieces.head?, piece.token.isWord = true ∧ piece.gap.text = ""
  · obtain ⟨piece, hpiece, hw, hgap⟩ := hjoin
    obtain ⟨rest, rfl⟩ := List.head?_eq_some_iff.1 hpiece
    obtain ⟨hfirst, hrest⟩ := List.isChain_cons.1 hapart
    have hword : ∀ d ∈ c :: piece.token.text.toList, isWordChar d = true :=
      List.forall_mem_cons.2 ⟨h, (piece.proper.isWordText hw).2⟩
    refine ⟨⟨Piece.ofWord _ (List.cons_ne_nil _ _) hword :: rest, last,
      List.isChain_cons.2 ⟨fun next hnext _ => hfirst next hnext hw, hrest⟩⟩, ?_⟩
    refine (Piece.write_ofWord _ _ hword rest last).trans ?_
    simp [text, Piece.write, hgap]
  · have hword : ∀ d ∈ [c], isWordChar d = true := List.forall_mem_singleton.2 h
    refine ⟨⟨Piece.ofWord _ (List.cons_ne_nil _ _) hword :: pieces, last,
      List.isChain_cons.2 ⟨fun next hnext _ hw hgap => hjoin ⟨next, hnext, hw, hgap⟩, hapart⟩⟩, ?_⟩
    exact Piece.write_ofWord _ _ hword pieces last

end Cons

/-- Every text is the text of a layout. -/
theorem exists_of_text (text : String) : ∃ l : Layout, l.text = text := by
  have hchars : ∀ cs : List Char, ∃ l : Layout, l.text.toList = cs := by
    intro cs
    induction cs with
    | nil => exact ⟨⟨[], .none, .nil⟩, rfl⟩
    | cons c cs ih =>
      obtain ⟨l, rfl⟩ := ih
      cases hword : isWordChar c with
      | true => exact l.exists_cons_word hword
      | false =>
        cases hblank : isBlank c with
        | true => exact l.exists_cons_blank hblank
        | false =>
          rcases eq_parenthesis hword hblank with rfl | rfl
          · exact l.exists_cons_parenthesis (show Token.opening.isWord = false from rfl) trivial rfl
          · exact l.exists_cons_parenthesis (show Token.closing.isWord = false from rfl) trivial rfl
  obtain ⟨l, hl⟩ := hchars text.toList
  exact ⟨l, String.toList_injective hl⟩

/-- Around a word, a layout falls into two layouts, and the word goes on in neither of them. -/
theorem exists_around (l : Layout) {us vs : List Token} {token : Token} (h : l.tokens = us ++ token :: vs)
    (hw : token.isWord = true) :
    ∃ before after : Layout, l.text = before.text ++ token.text ++ after.text ∧ before.tokens = us ∧
      after.tokens = vs ∧ token.Proper ∧
      (∀ c ∈ before.text.toList.getLast?, isWordChar c = false) ∧ Token.Boundary after.text.toList := by
  obtain ⟨pieces, last, hapart⟩ := l
  obtain ⟨ps, rest, rfl, hps, hrest⟩ := List.map_eq_append_iff.1 h
  obtain ⟨piece, qs, rfl, rfl, hqs⟩ := List.map_eq_cons_iff.1 hrest
  obtain ⟨hbefore, hafter, hjoin⟩ := List.isChain_append.1 hapart
  obtain ⟨hnext, hafter⟩ := List.isChain_cons.1 hafter
  refine ⟨⟨ps, piece.gap, hbefore⟩, ⟨qs, last, hafter⟩, Piece.write_append ps piece qs last, hps, hqs,
    piece.proper, Piece.boundary_before hw fun p hp => hjoin p hp piece rfl, ?_⟩
  exact Piece.boundary_write fun next hn => hnext next hn hw

end Layout

namespace Statement

/-- Texts with the same tokens have the same degree and the same trace, or the same fault; a defect is
reported with the beginning of its own text. -/
structure Alike (i : Interpretation) (text other : String) : Prop where
  degree : ∀ x, evaluate text i = .ok x ↔ evaluate other i = .ok x
  trace : ∀ t, trace text i = .ok t ↔ trace other i = .ok t
  unknown : ∀ name, evaluate text i = .error (.unknownPredicate name) ↔
    evaluate other i = .error (.unknownPredicate name)
  defect : ∀ d, evaluate text i = .error (.malformed d (Text.snippet text)) ↔
    evaluate other i = .error (.malformed d (Text.snippet other))

/-- What is quoted of a text depends on the text, and only where there is a defect. -/
theorem fault_eq_unknownPredicate_iff (text other : String) {name : String} {o : Obstacle} :
    fault text o = .unknownPredicate name ↔ fault other o = .unknownPredicate name := by
  cases o <;> simp [fault]

theorem fault_eq_malformed_iff (text other : String) {d : Defect} {o : Obstacle} :
    fault text o = .malformed d (Text.snippet text) ↔
      fault other o = .malformed d (Text.snippet other) := by
  cases o <;> simp [fault]

theorem alike_of_tokens {text other : String} (h : Token.ofText text = Token.ofText other)
    (i : Interpretation) : Alike i text other where
  degree x := by
    simp only [evaluate, interpret, mapError_eq_ok_iff, h]
  trace t := by
    simp only [Statement.trace, interpret, map_eq_ok_iff, mapError_eq_ok_iff, h]
  unknown name := by
    simp only [evaluate, interpret, mapError_eq_error_iff, h,
      fault_eq_unknownPredicate_iff text other]
  defect d := by
    simp only [evaluate, interpret, mapError_eq_error_iff, h,
      fault_eq_malformed_iff text other]

end Statement

namespace Layout

/-- Scanning undoes every layout, and loses nothing. Every text is a layout of its tokens, which are what it
is without its blanks; a word among them is not empty and goes on neither before nor after it; and texts
that differ only in their layout are evaluated alike. -/
theorem scanning_undoes_layout :
    (∀ l : Layout, Token.ofText l.text = l.tokens) ∧
      (∀ text, (∃ l : Layout, l.text = text ∧ l.tokens = Token.ofText text) ∧
        ((Token.ofText text).flatMap fun token => token.text.toList) =
          text.toList.filter fun c => !isBlank c) ∧
      (∀ text us token vs, Token.ofText text = us ++ token :: vs → token.isWord = true →
        token.text ≠ "" ∧ (∀ c ∈ token.text.toList, isWordChar c = true) ∧
          ∃ before after, text = before ++ token.text ++ after ∧ Token.ofText before = us ∧
            Token.ofText after = vs ∧ (∀ c ∈ before.toList.getLast?, isWordChar c = false) ∧
            ∀ c ∈ after.toList.head?, isWordChar c = false) ∧
      ∀ l m : Layout, l.tokens = m.tokens → ∀ i, Statement.Alike i l.text m.text := by
  have hlayout : ∀ text, ∃ l : Layout, l.text = text ∧ l.tokens = Token.ofText text := by
    intro text
    obtain ⟨l, rfl⟩ := exists_of_text text
    exact ⟨l, rfl, l.ofText_text.symm⟩
  refine ⟨ofText_text, fun text => ⟨hlayout text, ?_⟩, ?_, ?_⟩
  · obtain ⟨l, rfl, htokens⟩ := hlayout text
    rw [← htokens]
    exact (Piece.filter_write l.pieces l.last).symm
  · intro text us token vs h hw
    obtain ⟨l, rfl, htokens⟩ := hlayout text
    obtain ⟨before, after, htext, hus, hvs, hproper, hbefore, hafter⟩ :=
      l.exists_around (htokens.trans h) hw
    obtain ⟨hne, hchars⟩ := hproper.isWordText hw
    exact ⟨hne, hchars, before.text, after.text, htext, before.ofText_text.trans hus,
      after.ofText_text.trans hvs, hbefore, hafter⟩
  · intro l m h i
    exact Statement.alike_of_tokens (by rw [l.ofText_text, m.ofText_text, h]) i

/-- With and without a blank before a parenthesis. -/
theorem scanning_undoes_respaced_negation :
    let i : Interpretation := fun _ => some 0.25
    Statement.Alike i "NOT(P)" "NOT (P)" ∧
      ∃ before after, "NOT(P)" = before ++ "P" ++ after ∧ Token.ofText before = [.not, .opening] ∧
        Token.ofText after = [.closing] := by
  intro i
  obtain ⟨-, htexts, hwords, halike⟩ := scanning_undoes_layout
  obtain ⟨⟨l, hl, hltokens⟩, -⟩ := htexts "NOT(P)"
  obtain ⟨⟨m, hm, hmtokens⟩, -⟩ := htexts "NOT (P)"
  have htokens : Token.ofText "NOT(P)" = Token.ofText "NOT (P)" := by decide
  have hsame := halike l m (by rw [hltokens, hmtokens, htokens]) i
  rw [hl, hm] at hsame
  obtain ⟨-, -, before, after, htext, hbefore, hafter, -⟩ :=
    hwords "NOT(P)" [.not, .opening] (.atom "P") [.closing] (by decide) rfl
  exact ⟨hsame, before, after, htext, hbefore, hafter⟩

end Layout

end FuzzyMotion

import FuzzyMotion.Text
import Mathlib.Data.List.Basic

/-!
Beginnings of texts. What is taken of a text character by character, up to the first one for which there is
no room, is the longest beginning that fits: no character is cut in two, and none is left out for which there
would have been room.
-/
namespace FuzzyMotion.Text

theorem utf8ByteSize_ofList (cs : List Char) : (String.ofList cs).utf8ByteSize = bytes cs := by
  induction cs with
  | nil => rfl
  | cons c cs ih =>
    rw [String.ofList_cons, String.utf8ByteSize_append, ih, String.utf8ByteSize_singleton, bytes_cons]

theorem bytes_toList (s : String) : bytes s.toList = s.utf8ByteSize := by
  rw [← utf8ByteSize_ofList, String.ofList_toList]

theorem bytes_le_of_prefix {a b : List Char} (h : a <+: b) : bytes a ≤ bytes b := by
  obtain ⟨rest, rfl⟩ := h
  rw [bytes_append]
  omega

/-- A beginning of a longer text is a beginning of every part of it that is long enough. -/
theorem prefix_of_bytes_lt {a b more : List Char} (h : a <+: b ++ more) (hlt : bytes a < bytes b) :
    a <+: b := by
  cases List.prefix_or_prefix_of_prefix h (List.prefix_append b more) with
  | inl hab => exact hab
  | inr hba =>
    have := bytes_le_of_prefix hba
    omega

theorem leading_prefix (limit : ℕ) (cs : List Char) : leading limit cs <+: cs := by
  induction cs generalizing limit with
  | nil => exact List.prefix_rfl
  | cons c cs ih =>
    unfold leading
    split
    · exact (List.prefix_cons_inj c).2 (ih _)
    · exact List.nil_prefix

/-- Every beginning that fits is taken, character after character. -/
theorem prefix_leading {limit : ℕ} {part cs : List Char} (h : part <+: cs) (hfit : bytes part ≤ limit) :
    part <+: leading limit cs := by
  induction cs generalizing limit part with
  | nil =>
    rw [List.prefix_nil.1 h]
    exact List.nil_prefix
  | cons c cs ih =>
    cases part with
    | nil => exact List.nil_prefix
    | cons d part =>
      obtain ⟨rfl, hpart⟩ := List.cons_prefix_cons.1 h
      rw [bytes_cons] at hfit
      rw [leading, if_pos (by omega), List.prefix_cons_inj]
      exact ih hpart (by omega)

/-- The longest beginning of a text, in whole characters, that fits into so many bytes of UTF-8. -/
structure LongestBeginning (limit : ℕ) (text shown : String) : Prop where
  isPrefix : shown.toList <+: text.toList
  fits : shown.utf8ByteSize ≤ limit
  longest : ∀ part : String, part.toList <+: text.toList → part.utf8ByteSize ≤ limit →
    part.toList <+: shown.toList

section LongestBeginning

variable {limit : ℕ} {text shown other : String}

theorem LongestBeginning.unique (h : LongestBeginning limit text shown)
    (hother : LongestBeginning limit text other) : shown = other := by
  have hle : shown.toList <+: other.toList := hother.longest shown h.isPrefix h.fits
  have hge : other.toList <+: shown.toList := h.longest other hother.isPrefix hother.fits
  exact String.toList_inj.1 (hle.eq_of_length_le hge.length_le)

theorem longestBeginning_self (hfit : text.utf8ByteSize ≤ limit) : LongestBeginning limit text text :=
  ⟨List.prefix_rfl, hfit, fun _ hpart _ => hpart⟩

/-- What is cut off begins with a character for which there is no room. -/
theorem LongestBeginning.next_not_fits (h : LongestBeginning limit text shown) {c : Char}
    {rest : List Char} (hnext : text.toList = shown.toList ++ c :: rest) :
    limit < shown.utf8ByteSize + c.utf8Size := by
  by_contra hroom
  have hpart : (String.ofList (shown.toList ++ [c])).toList <+: shown.toList := by
    refine h.longest _ ?_ ?_
    · rw [String.toList_ofList, hnext, List.prefix_append_right_inj]
      exact ⟨rest, rfl⟩
    · rw [utf8ByteSize_ofList, bytes_append, bytes_toList, bytes_cons, bytes_nil]
      omega
  have hlength := hpart.length_le
  rw [String.toList_ofList, List.length_append, List.length_singleton] at hlength
  omega

/-- No character is wider than four bytes, so at most three are left where a text is cut. -/
theorem LongestBeginning.lt_size_add_four (h : LongestBeginning limit text shown)
    (hlong : limit < text.utf8ByteSize) : limit < shown.utf8ByteSize + 4 := by
  obtain ⟨cut, hcut⟩ := h.isPrefix
  cases cut with
  | nil =>
    have hwhole : shown = text := String.toList_inj.1 (by rw [← hcut, List.append_nil])
    have := h.fits
    rw [hwhole] at this
    omega
  | cons c rest =>
    have hroom := h.next_not_fits hcut.symm
    have hwidth := c.utf8Size_le_four
    omega

theorem longestBeginning_snippet (text : String) :
    LongestBeginning snippetLimit text (snippet text) where
  isPrefix := by
    rw [snippet, String.toList_ofList]
    exact leading_prefix _ _
  fits := by
    rw [snippet, utf8ByteSize_ofList]
    exact bytes_leading_le _ _
  longest part hpart hfit := by
    rw [snippet, String.toList_ofList]
    exact prefix_leading hpart (by rwa [bytes_toList])

/-- A text that fits is kept as it is. -/
theorem snippet_of_fits (hfit : text.utf8ByteSize ≤ snippetLimit) : snippet text = text :=
  (longestBeginning_snippet text).unique (longestBeginning_self hfit)

end LongestBeginning

end FuzzyMotion.Text

import PropDiagram.Lexeme

set_option autoImplicit false

/-! # The texts of lexemes

Where a text is cut depends on its characters alone, not on where it stands: `Lexeme.cut` gives the
texts of the lexemes without their positions. A character that belongs to no word cuts the text in
two parts that do not see each other (`tokenize_append_separator`). So printed pieces that are joined
by spaces and brackets are found again, and a lexeme, cut once more, is itself
(`tokenize_of_mem`). -/

namespace PropDiagram

namespace Lexeme

/-! ## Cutting without positions -/

/-- The text of the word that ends, given in reverse. -/
def flushedText (word : List Char) : List String :=
  if word.isEmpty then [] else [String.ofList word.reverse]

def separatorText (c : Char) : List String := if c = ' ' then [] else [String.singleton c]

/-- The texts of the lexemes of the characters, where `word` holds, in reverse, the word characters
    read just before. -/
def cut : (word : List Char) → List Char → List String
  | word, [] => flushedText word
  | word, c :: cs =>
    if isWordChar c then cut (c :: word) cs else flushedText word ++ separatorText c ++ cut [] cs

theorem map_text_flush (position : Nat) (word : List Char) :
    (flush position word).map text = flushedText word := by
  unfold flush flushedText
  split <;> rfl

theorem map_text_ofSeparator (position : Nat) (c : Char) :
    (ofSeparator position c).map text = separatorText c := by
  unfold ofSeparator separatorText
  split <;> rfl

theorem map_text_scan (position : Nat) (word cs : List Char) :
    (scan position word cs).map text = cut word cs := by
  induction cs generalizing position word with
  | nil => exact map_text_flush position word
  | cons c cs ih =>
      rw [scan, cut]
      split
      · exact ih (position + 1) (c :: word)
      · rw [List.map_append, List.map_append, map_text_flush, map_text_ofSeparator, ih]

@[simp] theorem flushedText_nil : flushedText [] = [] := rfl

theorem separatorText_space : separatorText ' ' = [] := rfl

theorem cut_append_separator (word cs : List Char) {c : Char} (hc : isWordChar c = false)
    (ds : List Char) :
    cut word (cs ++ c :: ds) = cut word cs ++ separatorText c ++ cut [] ds := by
  induction cs generalizing word with
  | nil => simp [cut, hc]
  | cons d cs ih =>
      rw [List.cons_append, cut, cut]
      split
      · exact ih (d :: word)
      · rw [ih []]
        simp only [List.append_assoc]

theorem cut_of_word (word : List Char) {cs : List Char} (hcs : ∀ c ∈ cs, isWordChar c = true) :
    cut word cs = flushedText (cs.reverse ++ word) := by
  induction cs generalizing word with
  | nil => rfl
  | cons c cs ih =>
      rw [List.forall_mem_cons] at hcs
      rw [cut, if_pos hcs.1, ih (c :: word) hcs.2]
      simp

/-- Only spaces are cut away. -/
theorem cut_eq_nil_iff {word cs : List Char} :
    cut word cs = [] ↔ word = [] ∧ ∀ c ∈ cs, c = ' ' := by
  induction cs generalizing word with
  | nil =>
      rw [cut, flushedText]
      cases word <;> simp
  | cons c cs ih =>
      rw [cut]
      by_cases hc : isWordChar c = true
      · have hspace : c ≠ ' ' := by
          rintro rfl
          exact absurd hc (by decide)
        rw [if_pos hc, ih]
        simp [hspace]
      · rw [if_neg hc, List.append_eq_nil_iff, List.append_eq_nil_iff, ih, flushedText,
          separatorText, List.forall_mem_cons]
        cases word <;> simp

/-! ## What lexemes look like -/

/-- A bracket, or a word: some characters, none of which is a space or a bracket. -/
def IsWhole (s : String) : Prop :=
  s = Token.opening ∨ s = Token.closing
    ∨ (s.toList ≠ [] ∧ ∀ c ∈ s.toList, isWordChar c = true)

theorem eq_bracket_of_separator {c : Char} (hc : isWordChar c = false) (hspace : c ≠ ' ') :
    c = '(' ∨ c = ')' := by
  simp only [isWordChar, Bool.and_eq_false_iff, bne_eq_false_iff_eq] at hc
  grind

theorem isWhole_of_mem_flushedText {word : List Char} (hword : ∀ c ∈ word, isWordChar c = true)
    {s : String} (hs : s ∈ flushedText word) : IsWhole s := by
  unfold flushedText at hs
  split at hs
  · simp at hs
  · next hne =>
      rw [List.mem_singleton] at hs
      refine Or.inr (Or.inr ?_)
      rw [hs, String.toList_ofList]
      exact ⟨by simpa using hne, by simpa using hword⟩

theorem isWhole_of_mem_separatorText {c : Char} (hc : isWordChar c = false) {s : String}
    (hs : s ∈ separatorText c) : IsWhole s := by
  unfold separatorText at hs
  split at hs
  · simp at hs
  · next hspace =>
      rw [List.mem_singleton] at hs
      rcases eq_bracket_of_separator hc hspace with rfl | rfl
      · exact Or.inl hs
      · exact Or.inr (Or.inl hs)

theorem isWhole_of_mem_cut {word cs : List Char} (hword : ∀ c ∈ word, isWordChar c = true)
    {s : String} (hs : s ∈ cut word cs) : IsWhole s := by
  induction cs generalizing word with
  | nil => exact isWhole_of_mem_flushedText hword hs
  | cons c cs ih =>
      rw [cut] at hs
      split at hs
      · next hc => exact ih (List.forall_mem_cons.2 ⟨hc, hword⟩) hs
      · next hc =>
          rw [List.mem_append, List.mem_append] at hs
          rcases hs with (hs | hs) | hs
          · exact isWhole_of_mem_flushedText hword hs
          · exact isWhole_of_mem_separatorText (by simpa using hc) hs
          · exact ih (by simp) hs

end Lexeme

/-! ## Tokens of texts -/

open Lexeme

theorem tokenize_eq_cut (s : String) : tokenize s = cut [] s.toList := map_text_scan 0 [] s.toList

/-- A text without tokens consists of spaces. -/
theorem tokenize_eq_nil_iff (s : String) : tokenize s = [] ↔ ∀ c ∈ s.toList, c = ' ' := by
  rw [tokenize_eq_cut, cut_eq_nil_iff]
  simp

theorem tokenize_append_separator (s t : String) {c : Char} (hc : isWordChar c = false) :
    tokenize (s ++ String.singleton c ++ t) = tokenize s ++ separatorText c ++ tokenize t := by
  simp only [tokenize_eq_cut, String.toList_append, String.toList_singleton, List.append_assoc,
    List.singleton_append, cut_append_separator _ _ hc]

theorem tokenize_append_space (s t : String) :
    tokenize (s ++ " " ++ t) = tokenize s ++ tokenize t := by
  have h := tokenize_append_separator s t (c := ' ') rfl
  rw [separatorText_space, List.append_nil] at h
  exact h

theorem tokenize_bracketed (s : String) :
    tokenize ("(" ++ s ++ ")") = Token.opening :: (tokenize s ++ [Token.closing]) := by
  have hsplit : "(" ++ s ++ ")"
      = "" ++ String.singleton '(' ++ (s ++ String.singleton ')' ++ "") := by
    simp only [String.empty_append, String.append_empty, String.append_assoc]
    rfl
  rw [hsplit, tokenize_append_separator _ _ rfl, tokenize_append_separator _ _ rfl]
  simp [tokenize_eq_cut, cut, separatorText, Token.opening, Token.closing]

theorem tokenize_of_isWhole {s : String} (hs : IsWhole s) : tokenize s = [s] := by
  rcases hs with rfl | rfl | ⟨hne, hword⟩
  · decide +kernel
  · decide +kernel
  · rw [tokenize_eq_cut, cut_of_word [] hword, List.append_nil, flushedText, List.reverse_reverse,
      String.ofList_toList]
    exact if_neg (by simpa using hne)

/-- A lexeme is cut no further. -/
theorem tokenize_of_mem {s t : String} (ht : t ∈ tokenize s) : tokenize t = [t] := by
  rw [tokenize_eq_cut] at ht
  exact tokenize_of_isWhole (isWhole_of_mem_cut (by simp) ht)

end PropDiagram

import PropDiagram.Proofs.Spacing

set_option autoImplicit false

/-! # Where lexemes stand, and of what kind they are

A lexeme comes from a rule: one of the two for brackets, or the one for words, which looks the word up
among the keywords (`LexemeKind.Fits`). The rule gives the kind without a look at what the parser asks
later, whether a token is a bracket, a keyword or a literal; still the two agree
(`LexemeKind.Fits.eq_name_iff` and those before it).

Lexemes and spaces tile the text: from any position on, the characters are a space, or a lexeme that
starts there, and then the rest (`Lexeme.Tiles`). The scanner keeps this with each character that it
reads (`Lexeme.tiles_scan`), and the tiling tells all about positions: they rise, each lexeme is the
slice of the text at its position, and only spaces lie outside. -/

namespace PropDiagram

/-! ## Kinds -/

/-- Some characters, none of which is a space or a bracket. -/
def Lexeme.IsWord (s : String) : Prop := s.toList ≠ [] ∧ ∀ c ∈ s.toList, isWordChar c = true

theorem Lexeme.IsWord.isBracket_eq_false {s : String} (hs : IsWord s) :
    Token.isBracket s = false := by
  rw [← Bool.not_eq_true]
  intro hbracket
  obtain ⟨c, hc, hseparator⟩ := exists_toList_of_isBracket hbracket
  have hword := hs.2 c (by rw [hc]; exact List.mem_singleton_self c)
  rw [hseparator] at hword
  cases hword

theorem Lexeme.IsWord.ne_bracket {s b : String} (hs : IsWord s) (hb : Token.isBracket b = true) :
    s ≠ b := by
  rintro rfl
  rw [hs.isBracket_eq_false] at hb
  cases hb

namespace LexemeKind

open Lexeme

/-- The kind that is called so, where there is one. -/
def named (s : String) : LexemeKind :=
  if s = "LPAREN" then .opening else if s = "RPAREN" then .closing else ofWord s

theorem named_label (k : LexemeKind) : named k.label = k := by
  cases k with
  | keyword c => cases c <;> decide
  | _ => decide

theorem label_injective : Function.Injective label := Function.LeftInverse.injective named_label

theorem ofWord_eq_keyword_iff {s : String} {c : Connective} :
    ofWord s = .keyword c ↔ s = c.keyword := by
  rw [ofWord, ← Connective.ofKeyword?_eq_some_iff]
  cases Connective.ofKeyword? s <;> simp

theorem ofWord_eq_name_iff {s : String} : ofWord s = .name ↔ Token.isKeyword s = false := by
  rw [ofWord, Token.isKeyword]
  cases Connective.ofKeyword? s <;> simp

theorem ofWord_ne_opening (s : String) : ofWord s ≠ .opening := by
  rw [ofWord]
  split <;> simp

theorem ofWord_ne_closing (s : String) : ofWord s ≠ .closing := by
  rw [ofWord]
  split <;> simp

/-- Whether a rule cuts this text and gives it this kind: there is one for each bracket, and one for
    words. -/
inductive Fits : LexemeKind → String → Prop where
  | opening : Fits .opening Token.opening
  | closing : Fits .closing Token.closing
  | word {s : String} (hs : IsWord s) : Fits (ofWord s) s

namespace Fits

variable {k : LexemeKind} {s : String}

theorem bracket {c : Char} (hc : isWordChar c = false) (hspace : c ≠ ' ') :
    Fits (ofBracket c) (String.singleton c) := by
  rcases eq_bracket_of_separator hc hspace with rfl | rfl
  · exact opening
  · exact closing

theorem ne_empty (h : Fits k s) : s ≠ "" := by
  cases h with
  | opening => decide
  | closing => decide
  | word hs => exact fun hempty => hs.1 (congrArg String.toList hempty)

theorem length_pos (h : Fits k s) : 0 < s.length :=
  Nat.pos_of_ne_zero fun hzero => h.ne_empty (String.length_eq_zero_iff.1 hzero)

theorem ne_space (h : Fits k s) {c : Char} (hc : c ∈ s.toList) : c ≠ ' ' := by
  rintro rfl
  cases h with
  | opening => exact absurd hc (by decide)
  | closing => exact absurd hc (by decide)
  | word hs => exact absurd (hs.2 _ hc) (by decide)

theorem eq_opening_iff (h : Fits k s) : k = .opening ↔ s = Token.opening := by
  cases h with
  | opening => exact iff_of_true rfl rfl
  | closing => exact iff_of_false (by decide) (by decide)
  | word hs => exact iff_of_false (ofWord_ne_opening s) (hs.ne_bracket rfl)

theorem eq_closing_iff (h : Fits k s) : k = .closing ↔ s = Token.closing := by
  cases h with
  | opening => exact iff_of_false (by decide) (by decide)
  | closing => exact iff_of_true rfl rfl
  | word hs => exact iff_of_false (ofWord_ne_closing s) (hs.ne_bracket rfl)

theorem eq_keyword_iff (h : Fits k s) (c : Connective) : k = .keyword c ↔ s = c.keyword := by
  cases h with
  | opening => cases c <;> decide
  | closing => cases c <;> decide
  | word => exact ofWord_eq_keyword_iff

/-- What the lexer calls a name, the parser reads as a literal. -/
theorem eq_name_iff (h : Fits k s) : k = .name ↔ Token.isLiteral (some s) = true := by
  cases h with
  | opening => decide
  | closing => decide
  | word hs =>
      rw [Token.isLiteral_some, Token.isName, hs.isBracket_eq_false, ofWord_eq_name_iff]
      simp

end Fits

end LexemeKind

namespace Lexeme

/-! ## Tilings -/

/-- The position after the last character of the lexeme. -/
def stop (l : Lexeme) : Nat := l.position + l.text.length

/-- Whether the character at this position belongs to the lexeme. -/
def Covers (l : Lexeme) (i : Nat) : Prop := l.position ≤ i ∧ i < l.stop

/-- Whether the characters, the first of which stands at `start`, are the lexemes at their positions,
    with spaces around them. -/
inductive Tiles : (start : Nat) → List Lexeme → List Char → Prop where
  | nil (start : Nat) : Tiles start [] []
  | space {start : Nat} {ls : List Lexeme} {cs : List Char} (hrest : Tiles (start + 1) ls cs) :
      Tiles start ls (' ' :: cs)
  | lexeme {start : Nat} {k : LexemeKind} {s : String} {ls : List Lexeme} {cs : List Char}
      (hfits : k.Fits s) (hrest : Tiles (start + s.length) ls cs) :
      Tiles start (⟨k, s, start⟩ :: ls) (s.toList ++ cs)

namespace Tiles

variable {start : Nat} {l : Lexeme} {ls : List Lexeme} {cs : List Char}

theorem fits (h : Tiles start ls cs) (hl : l ∈ ls) : l.kind.Fits l.text := by
  induction h with
  | nil => cases hl
  | space _ ih => exact ih hl
  | lexeme hfits _ ih =>
      rcases List.mem_cons.1 hl with rfl | hl
      · exact hfits
      · exact ih hl

/-- Where a lexeme of a tiling occurs among the characters. -/
theorem exists_occurrence (h : Tiles start ls cs) (hl : l ∈ ls) :
    ∃ before after : List Char,
      cs = before ++ (l.text.toList ++ after) ∧ l.position = start + before.length := by
  induction h with
  | nil => cases hl
  | space _ ih =>
      obtain ⟨before, after, rfl, hposition⟩ := ih hl
      refine ⟨' ' :: before, after, rfl, ?_⟩
      rw [hposition, List.length_cons]
      omega
  | @lexeme start k s _ cs _ _ ih =>
      rcases List.mem_cons.1 hl with rfl | hl
      · exact ⟨[], cs, rfl, rfl⟩
      · obtain ⟨before, after, rfl, hposition⟩ := ih hl
        refine ⟨s.toList ++ before, after, (List.append_assoc ..).symm, ?_⟩
        rw [hposition, List.length_append, String.length_toList, Nat.add_assoc]

theorem start_le (h : Tiles start ls cs) (hl : l ∈ ls) : start ≤ l.position := by
  obtain ⟨before, _, _, hposition⟩ := h.exists_occurrence hl
  exact hposition ▸ Nat.le_add_right ..

theorem pairwise_stop_le (h : Tiles start ls cs) :
    ls.Pairwise fun l m => l.stop ≤ m.position := by
  induction h with
  | nil => exact .nil
  | space _ ih => exact ih
  | lexeme _ hrest ih => exact .cons (fun _ => hrest.start_le) ih

/-- Lexemes cover what is no space, and nothing else. -/
theorem covers_iff (h : Tiles start ls cs) (i : Nat) :
    (∃ l ∈ ls, l.Covers (start + i)) ↔ ∃ c, cs[i]? = some c ∧ c ≠ ' ' := by
  induction h generalizing i with
  | nil => simp
  | @space start ls cs hrest ih =>
      cases i with
      | zero =>
          refine iff_of_false ?_ (by simp)
          rintro ⟨l, hl, hle, -⟩
          have := hrest.start_le hl
          omega
      | succ i =>
          rw [List.getElem?_cons_succ, ← ih i, Nat.add_right_comm, Nat.add_assoc]
  | @lexeme start k s ls cs hfits hrest ih =>
      have hlength : s.toList.length = s.length := String.length_toList
      rcases Nat.lt_or_ge i s.length with hi | hi
      · -- The first lexeme reaches as far as `i`.
        have hi' : i < s.toList.length := by rwa [hlength]
        refine iff_of_true ⟨⟨k, s, start⟩, List.mem_cons_self, Nat.le_add_right .., ?_⟩ ?_
        · exact Nat.add_lt_add_left hi _
        · rw [List.getElem?_append_left hi', List.getElem?_eq_getElem hi']
          exact ⟨_, rfl, hfits.ne_space (List.getElem_mem hi')⟩
      · -- What lies after it is told by the rest of the tiling.
        obtain ⟨j, rfl⟩ := Nat.exists_eq_add_of_le hi
        have hhead : ¬ Covers ⟨k, s, start⟩ (start + (s.length + j)) := by
          rintro ⟨-, hlt⟩
          have : start + (s.length + j) < start + s.length := hlt
          omega
        rw [List.getElem?_append_right (by omega), hlength, Nat.add_sub_cancel_left, ← ih j,
          List.exists_mem_cons_iff, or_iff_right hhead, Nat.add_assoc]

/-! ### The scanner tiles the text -/

theorem separator {c : Char} (hc : isWordChar c = false) (h : Tiles (start + 1) ls cs) :
    Tiles start (ofSeparator start c ++ ls) (c :: cs) := by
  by_cases hspace : c = ' '
  · subst hspace
    exact h.space
  · have htile := Tiles.lexeme (.bracket hc hspace) (by rwa [String.length_singleton])
    rw [ofSeparator, if_neg hspace]
    rwa [String.toList_singleton] at htile

theorem word {word : List Char} (hword : ∀ c ∈ word, isWordChar c = true)
    (h : Tiles (start + word.length) ls cs) :
    Tiles start (flush (start + word.length) word ++ ls) (word.reverse ++ cs) := by
  by_cases hempty : word = []
  · subst hempty
    exact h
  · have hs : IsWord (String.ofList word.reverse) := by
      rw [IsWord, String.toList_ofList]
      exact ⟨by simpa using hempty, by simpa using hword⟩
    have htile := Tiles.lexeme (.word hs) (by rwa [String.length_ofList, List.length_reverse])
    rw [flush, if_neg (by simpa using hempty), Nat.add_sub_cancel]
    rwa [String.toList_ofList] at htile

end Tiles

/-- The invariant of the scanner: with the word characters that it holds, what it has still to read is
    tiled by the lexemes that it gives. -/
theorem tiles_scan (start : Nat) {word : List Char} (hword : ∀ c ∈ word, isWordChar c = true)
    (cs : List Char) : Tiles start (scan (start + word.length) word cs) (word.reverse ++ cs) := by
  induction cs generalizing start word with
  | nil =>
      rw [scan, ← List.append_nil (flush ..)]
      exact (Tiles.nil _).word hword
  | cons c cs ih =>
      rw [scan]
      by_cases hc : isWordChar c = true
      · have hlonger := ih start (List.forall_mem_cons.2 ⟨hc, hword⟩)
        rw [List.reverse_cons, List.append_assoc] at hlonger
        rw [if_pos hc]
        exact hlonger
      · have hrest := ih (start + word.length + 1) (List.forall_mem_nil _)
        rw [if_neg hc, List.append_assoc]
        exact (hrest.separator (by simpa using hc)).word hword

theorem tiles_ofText (s : String) : Tiles 0 (ofText s) s.toList :=
  tiles_scan 0 (List.forall_mem_nil _) s.toList

/-! ## The places and kinds of the lexemes of a text -/

theorem extract_of_mem_ofText {s : String} {l : Lexeme} (hl : l ∈ ofText s) :
    s.toList.extract l.position l.stop = l.text.toList := by
  obtain ⟨before, after, hs, hposition⟩ := (tiles_ofText s).exists_occurrence hl
  rw [Nat.zero_add] at hposition
  rw [hs, List.extract_eq_take_drop, List.drop_left' hposition.symm, stop, Nat.add_sub_cancel_left]
  exact List.take_left' String.length_toList

/-- **Lexemes say where they stand, and their kinds are what the parser takes them for.** The positions
    of the lexemes of a text rise, each lexeme ends before the next one starts, none is empty, and each
    is the slice of the text from its position on. A position lies in a lexeme exactly if the text has
    a character there that is no space. A lexeme is called a bracket exactly if it is that bracket,
    called by a keyword exactly if it is that keyword, and called a name exactly if it can name a
    literal. -/
theorem ofText_placed (s : String) :
    (ofText s).Pairwise (fun l m => l.position < m.position) ∧
    (ofText s).Pairwise (fun l m => l.stop ≤ m.position) ∧
    (∀ l ∈ ofText s,
      l.text ≠ "" ∧ String.ofList (s.toList.extract l.position l.stop) = l.text) ∧
    (∀ i, (∃ l ∈ ofText s, l.Covers i) ↔ ∃ c, s.toList[i]? = some c ∧ c ≠ ' ') ∧
    ∀ l ∈ ofText s,
      (l.kind.label = "LPAREN" ↔ l.text = "(") ∧
      (l.kind.label = "RPAREN" ↔ l.text = ")") ∧
      (∀ c : Connective, l.kind.label = c.keyword ↔ l.text = c.keyword) ∧
      (l.kind.label = "NAME" ↔ Token.isLiteral (some l.text) = true) := by
  have htiles := tiles_ofText s
  have hlabel : ∀ a b : LexemeKind, a.label = b.label ↔ a = b :=
    fun _ _ => LexemeKind.label_injective.eq_iff
  refine ⟨?_, htiles.pairwise_stop_le, ?_, ?_, ?_⟩
  · refine htiles.pairwise_stop_le.imp_of_mem fun hl _ hstop => ?_
    have hpos := (htiles.fits hl).length_pos
    rw [stop] at hstop
    omega
  · intro l hl
    refine ⟨(htiles.fits hl).ne_empty, ?_⟩
    rw [extract_of_mem_ofText hl, String.ofList_toList]
  · intro i
    simpa using htiles.covers_iff i
  · intro l hl
    have hfits := htiles.fits hl
    exact ⟨(hlabel _ .opening).trans hfits.eq_opening_iff,
      (hlabel _ .closing).trans hfits.eq_closing_iff,
      fun c => (hlabel _ (.keyword c)).trans (hfits.eq_keyword_iff c),
      (hlabel _ .name).trans hfits.eq_name_iff⟩

/-- A tab belongs to the word, which is then no keyword. -/
theorem ofText_placed_tabbed :
    ⟨.name, "\tAND", 7⟩ ∈ ofText " x(NOT)\tAND" ∧
    String.ofList (" x(NOT)\tAND".toList.extract 7 11) = "\tAND" ∧
    (LexemeKind.label .name = "AND" ↔ "\tAND" = "AND") ∧
    (LexemeKind.label .name = "NAME" ↔ Token.isLiteral (some "\tAND") = true) := by
  have hmem : ⟨.name, "\tAND", 7⟩ ∈ ofText " x(NOT)\tAND" := by decide +kernel
  obtain ⟨-, -, hslice, -, hkind⟩ := ofText_placed " x(NOT)\tAND"
  obtain ⟨-, -, hkeyword, hname⟩ := hkind _ hmem
  exact ⟨hmem, (hslice _ hmem).2, hkeyword .conjunction, hname⟩

end Lexeme

end PropDiagram

import PropDiagram.Proofs.Formula.Grammar
import PropDiagram.Proofs.Formula.Record
import PropDiagram.Proofs.Lexeme

set_option autoImplicit false

/-! # Printing and reading

A printed formula is cut into the tokens that write it, provided each of them is a lexeme
(`Formula.tokenize_text`): spaces and brackets keep the printed operands apart. The tokens of a text
are lexemes, and the reader accepts exactly the tokens of a formula, so a formula that was read is
read again from its printed form. -/

namespace PropDiagram

/-! ## Tokens of printed formulas -/

/-- With a space on both sides, the connective keeps what it joins apart. -/
theorem tokenize_intercalate {op : String} (hop : tokenize op = [op]) (texts : List String) :
    tokenize ((" " ++ op ++ " ").intercalate texts) = [op].intercalate (texts.map tokenize) := by
  induction texts with
  | nil => rfl
  | cons s texts ih =>
      cases texts with
      | nil => simp
      | cons t texts =>
          have hsplit (rest : String) :
              s ++ (" " ++ op ++ " ") ++ rest = s ++ " " ++ op ++ " " ++ rest := by
            simp only [String.append_assoc]
          rw [String.intercalate_cons_cons, hsplit, tokenize_append_space, tokenize_append_space,
            hop, ih]
          simp only [List.map_cons, List.intercalate_cons_cons]

namespace Formula

theorem mem_applicationTokens {op s : String} {operands : List (List String)} {ts : List String}
    (hts : ts ∈ operands) (hs : s ∈ ts) : s ∈ applicationTokens op operands := by
  have hjoined : s ∈ [op].intercalate operands := by
    induction operands with
    | nil => simp at hts
    | cons us operands ih =>
        cases operands with
        | nil =>
            rw [List.mem_singleton] at hts
            simpa [← hts] using hs
        | cons vs operands =>
            rw [List.intercalate_cons_cons]
            rcases List.mem_cons.1 hts with rfl | hts
            · simp [hs]
            · simp [ih hts]
  unfold applicationTokens
  split
  · next us =>
      rw [List.mem_singleton] at hts
      simp [← hts, hs]
  · simp [hjoined]

/-- One node of a printed formula: its operands are printed already. -/
theorem tokenize_applicationText {op : String} {operands : List String}
    (h : ∀ s ∈ applicationTokens op (operands.map tokenize), tokenize s = [s]) :
    tokenize (applicationText op operands) = applicationTokens op (operands.map tokenize) := by
  match operands with
  | [] => exact tokenize_bracketed _
  | [x] =>
      have hop : tokenize op = [op] := h op (by simp [applicationTokens])
      have hsplit : "(" ++ op ++ " " ++ x ++ ")" = "(" ++ (op ++ " " ++ x) ++ ")" := by
        simp only [String.append_assoc]
      rw [applicationText, hsplit, tokenize_bracketed, tokenize_append_space, hop]
      rfl
  | x :: y :: operands =>
      have hop : tokenize op = [op] :=
        h op (by simp [applicationTokens, List.intercalate_cons_cons])
      exact (tokenize_bracketed _).trans (by rw [tokenize_intercalate hop]; rfl)

/-- A printed formula is cut into the tokens that write it. -/
theorem tokenize_text {f : Formula String} (hf : ∀ s ∈ f.tokens, tokenize s = [s]) :
    tokenize f.text = f.tokens := by
  induction f using induct with
  | leaf name =>
      rw [tokens_literal] at hf
      rw [text_literal, tokens_literal]
      exact hf name (by simp)
  | node op xs ih =>
      rw [tokens_apply] at hf
      have hoperands : (xs.map text).map tokenize = xs.map tokens := by
        rw [List.map_map]
        refine List.map_congr_left fun x hx => ih x hx fun s hs => hf s ?_
        exact mem_applicationTokens (List.mem_map_of_mem hx) hs
      rw [← hoperands] at hf
      rw [text_apply, tokens_apply, tokenize_applicationText hf, hoperands]

end Formula

/-! ## Reading again -/

namespace FromText

section AnyLimits

variable [DepthLimits]

theorem outcome_parseText (s : String) :
    (parseText s).outcome = (parseTokens ((tokenize s).map some)).outcome := by
  simp only [parseText, tokens, Traced.outcome_bind, Traced.outcome_report, Traced.outcome_pure,
    Except.bind]

section Read

variable {s : String} {t : Formula String}

theorem parse_of_parseText (h : (parseText s).outcome = .ok t) :
    parse ((tokenize s).map some) = .ok t := by
  rw [outcome_parseText] at h
  exact (parseTokens_eq_ok_iff.1 h).1

theorem tokens_of_parseText (h : (parseText s).outcome = .ok t) : t.tokens = tokenize s :=
  (parseWithin_sound (parse_of_parseText h)).2

theorem tokenize_text_of_parseText (h : (parseText s).outcome = .ok t) :
    tokenize t.text = tokenize s := by
  rw [← tokens_of_parseText h]
  refine Formula.tokenize_text fun s' hs' => ?_
  rw [tokens_of_parseText h] at hs'
  exact tokenize_of_mem hs'

theorem parseText_text (h : (parseText s).outcome = .ok t) :
    (parseText t.text).outcome = .ok t := by
  rw [outcome_parseText] at h ⊢
  rw [tokenize_text_of_parseText ((outcome_parseText s).trans h)]
  exact h

end Read

/-- What a text is rewritten to: it is read, and the formula is printed. -/
def rewritten (s : String) : Except Fault String := do
  let t ← (parseText s).outcome
  pure t.text

theorem rewritten_of_ok {s : String} {t : Formula String} (h : (parseText s).outcome = .ok t) :
    rewritten s = .ok t.text := by
  rw [rewritten, h]
  rfl

theorem rewritten_of_error {s : String} {e : Fault} (h : (parseText s).outcome = .error e) :
    rewritten s = .error e := by
  rw [rewritten, h]
  rfl

/-- **Printing undoes reading, and reading undoes printing.** The printed form of a formula that was
    read has the tokens of the text it was read from, and it is read as the same formula. So two
    texts are read as the same formula exactly if both can be read and they have the same tokens;
    and to rewrite a text twice is to rewrite it once. -/
theorem parseText_text_roundTrip :
    (∀ (s : String) (t : Formula String), (parseText s).outcome = .ok t →
      tokenize t.text = tokenize s ∧ (parseText t.text).outcome = .ok t) ∧
    (∀ s s' : String,
      (∃ t, (parseText s).outcome = .ok t ∧ (parseText s').outcome = .ok t)
        ↔ (∃ t, (parseText s).outcome = .ok t) ∧ (∃ t, (parseText s').outcome = .ok t)
          ∧ tokenize s = tokenize s') ∧
    (∀ s : String, (rewritten s >>= rewritten) = rewritten s) := by
  refine ⟨?_, ?_, ?_⟩
  · intro s t h
    exact ⟨tokenize_text_of_parseText h, parseText_text h⟩
  · intro s s'
    constructor
    · rintro ⟨t, h, h'⟩
      refine ⟨⟨t, h⟩, ⟨t, h'⟩, ?_⟩
      rw [← tokens_of_parseText h, ← tokens_of_parseText h']
    · rintro ⟨⟨t, h⟩, -, htokens⟩
      refine ⟨t, h, ?_⟩
      rw [outcome_parseText, ← htokens, ← outcome_parseText]
      exact h
  · intro s
    cases h : (parseText s).outcome with
    | ok t =>
        rw [rewritten_of_ok h]
        exact rewritten_of_ok (parseText_text h)
    | error e =>
        rw [rewritten_of_error h]
        rfl

end AnyLimits

/-- Spaces that separate nothing, and a name that holds a tabulator. -/
theorem parseText_text_spaced :
    (parseText " (a\tb  NOT( NOT x)) ").outcome
      = .ok (.apply "NOT" [.literal "a\tb", .apply "NOT" [.literal "x"]]) ∧
    tokenize "(a\tb NOT (NOT x))" = tokenize " (a\tb  NOT( NOT x)) " ∧
    (parseText "(a\tb NOT (NOT x))").outcome
      = .ok (.apply "NOT" [.literal "a\tb", .apply "NOT" [.literal "x"]]) := by
  have hread : (parseText " (a\tb  NOT( NOT x)) ").outcome
      = .ok (.apply "NOT" [.literal "a\tb", .apply "NOT" [.literal "x"]]) := by
    rw [outcome_parseText]
    decide +kernel
  have htext : (Formula.apply "NOT" [.literal "a\tb", .apply "NOT" [.literal "x"]]).text
      = "(a\tb NOT (NOT x))" := by
    decide +kernel
  refine ⟨hread, ?_⟩
  have h := parseText_text_roundTrip.1 _ _ hread
  rw [htext] at h
  exact h

end FromText

end PropDiagram

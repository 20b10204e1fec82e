import PropDiagram.Proofs.Formula.Arity
import PropDiagram.Proofs.Formula.Viability
import PropDiagram.Proofs.FromText.Meaning

set_option autoImplicit false

/-! # What can be wrong with a text

Drawing the diagram of a text fails for one of five reasons, which are judged in this order: the
text is empty, it cannot be read, its formula cannot be written for the record, has too many
literals, or has a negation with two operands. A formula that was read has its names at its leaves
and nowhere nests deeper than its text, so nothing else can be wrong with it
(`Diagram.exists_outcome_build`), and a diagram that was built can always be drawn. -/

namespace PropDiagram

/-! ## Building -/

namespace Diagram

theorem isSome_of_mem_leaves {f : Formula String} {bs : List Bool}
    (hbs : bs.length = f.names.length) :
    ∀ x ∈ f.leaves, (Assignment.valuation (f.names.zip bs) x).isSome = true := by
  intro x hx
  obtain ⟨g, rfl⟩ := Assignment.exists_map_eq (Formula.nodup_names f) hbs
  have hname : x ∈ f.names := by rwa [Formula.names_eq, List.mem_eraseDups]
  rw [Assignment.valuation_zip_map, if_pos hname]
  rfl

/-- The decision tree of a grammatical formula over its own names can be built unless a negation has
    two operands. -/
theorem exists_ofFormula [DepthLimits] {f : Formula String} (hf : f.Grammatical)
    (hdepth : f.depth ≤ nestingLimit) :
    ∃ t, Tree.ofFormula f f.names
      = if f.hasBinaryNegation then .error (.wrongArity .negation) else .ok t := by
  have hvalue := fun (bs : List Bool) (hbs : bs.length = f.names.length) =>
    hf.exists_value (isSome_of_mem_leaves hbs) hdepth
  cases hfound : f.hasBinaryNegation with
  | true =>
      refine ⟨.leaf none, Tree.complete_eq_error fun bs hbs => ?_⟩
      obtain ⟨b, hb⟩ := hvalue bs hbs
      rwa [hfound] at hb
  | false =>
      refine Tree.exists_complete fun bs hbs => ?_
      obtain ⟨b, hb⟩ := hvalue bs hbs
      rw [hfound] at hb
      exact ⟨b, hb⟩

theorem exists_outcome_build [DepthLimits] {f : Formula String} (hf : f.Grammatical)
    (hdepth : f.depth ≤ nestingLimit) {limits : Limits} (hmost : limits.most ≤ 62) :
    ∃ d, (build f none limits).outcome
      = if limits.most < f.leaves.eraseDups.length then
          .error (.tooManyLiterals f.leaves.eraseDups.length limits.most)
        else if f.hasBinaryNegation then .error (.wrongArity .negation)
        else .ok d := by
  obtain ⟨t, ht⟩ := exists_ofFormula hf hdepth
  refine ⟨ofTree t, ?_⟩
  rw [outcome_build, Option.getD_none, ← Formula.names_eq]
  by_cases hmany : limits.most < f.names.length
  · rw [if_pos hmany, if_pos hmany]
  · have hlength : f.names.length < Assignments.lengthDigits := by
      rw [Assignments.lengthDigits]
      omega
    rw [if_neg hmany, if_neg hmany, if_neg (not_unwritable hlength), Assignments.ofOrder,
      dif_pos (Formula.nodup_names f), ht]
    dsimp only [Except.bind]
    rw [Assignments.length, if_pos hlength]
    cases f.hasBinaryNegation <;> rfl

end Diagram

namespace FromText

section AnyLimits

variable [DepthLimits] {text : String}

/-! ## Reading -/

/-- A text that cannot be read ends too early or too late, or it is malformed. Of a text that can be
    read the formula may still be too deep to be written. -/
theorem kind_of_parseText_error (hnesting : Token.nesting (tokenize text) ≤ nestingLimit)
    {e : Fault} (h : (parseText text).outcome = .error e) :
    e.kind = .endOfInput ∨ e.kind = .trailingInput ∨ e.kind = .malformed ∨
      e = .recordTooDeep ∧
        ∃ f, parse ((tokenize text).map some) = .ok f ∧ printingLimit < f.printingDepth := by
  rw [outcome_parseText, parseTokens_eq_error_iff] at h
  rcases h with h | h
  · rcases kind_of_parseWithin_error hnesting h with h | h | h
    · exact Or.inl h
    · exact Or.inr (Or.inl h)
    · exact Or.inr (Or.inr (Or.inl h))
  · exact Or.inr (Or.inr (Or.inr h))

theorem formula_eq_emptyInput_iff (hnesting : Token.nesting (tokenize text) ≤ nestingLimit) :
    (formula text).outcome = .error .emptyInput ↔ ∀ c ∈ text.toList, c = ' ' := by
  rw [outcome_formula, ← tokenize_eq_nil_iff]
  by_cases htokens : tokenize text = []
  · simp [htokens]
  · rw [if_neg htokens]
    refine iff_of_false (fun h => ?_) htokens
    have hkind := kind_of_parseText_error hnesting h
    simp [Fault.kind] at hkind

/-- A formula that was read is grammatical, and it nests no deeper than its text. -/
theorem grammatical_of_formula (hnesting : Token.nesting (tokenize text) ≤ nestingLimit)
    {f : Formula String} (h : (formula text).outcome = .ok f) :
    f.Grammatical ∧ f.depth ≤ nestingLimit := by
  have hread := parseText_of_formula h
  have htokens := tokens_of_parseText hread
  have hgram := (parseWithin_sound (parse_of_parseText hread)).1
  refine ⟨hgram, ?_⟩
  have hdeep := (hgram.nesting 0).2
  rw [htokens] at hdeep
  rw [Token.nesting] at hnesting
  omega

/-! ## Drawing -/

theorem exists_outcome_diagram (hnesting : Token.nesting (tokenize text) ≤ nestingLimit)
    (reduced : Bool) {limits : Diagram.Limits} (hmost : limits.most ≤ 62) {f : Formula String}
    (hf : (formula text).outcome = .ok f) :
    ∃ g, (diagram text ⟨reduced, none, limits⟩).outcome
      = if limits.most < f.leaves.eraseDups.length then
          .error (.tooManyLiterals f.leaves.eraseDups.length limits.most)
        else if f.hasBinaryNegation then .error (.wrongArity .negation)
        else .ok g := by
  obtain ⟨hgram, hdepth⟩ := grammatical_of_formula hnesting hf
  obtain ⟨d, hd⟩ := Diagram.exists_outcome_build hgram hdepth hmost
  rw [outcome_diagram, hf]
  dsimp only [Except.bind]
  by_cases hmany : limits.most < f.leaves.eraseDups.length
  · rw [if_pos hmany] at hd
    refine ⟨.empty, ?_⟩
    rw [hd, if_pos hmany]
  · rw [if_neg hmany] at hd
    cases hfound : f.hasBinaryNegation with
    | true =>
        rw [hfound, if_pos rfl] at hd
        refine ⟨.empty, ?_⟩
        rw [hd, if_neg hmany]
        rfl
    | false =>
        rw [hfound, if_neg Bool.false_ne_true] at hd
        obtain ⟨g, hg, -⟩ := exists_decides hd reduced
        refine ⟨g, ?_⟩
        rw [hd, if_neg hmany]
        exact hg

/-- **The faults of drawing a text.** Of a text whose brackets nest within the limit, over the names
    of its formula and with a limit of at most 62 literals, the diagram is refused as empty exactly
    if the text consists of spaces. Otherwise, if the text cannot be read, the fault of reading is
    reported, and if its formula is too deep to be written for the record, then that. Of a formula
    that was given out the diagram is refused if it has more literals than allowed, or else if a
    negation in it has two operands; and in no other case, so that then it is drawn. -/
theorem diagram_faults (hnesting : Token.nesting (tokenize text) ≤ nestingLimit) (reduced : Bool)
    (limits : Diagram.Limits) (hmost : limits.most ≤ 62) :
    ((diagram text ⟨reduced, none, limits⟩).outcome = .error .emptyInput
      ↔ ∀ c ∈ text.toList, c = ' ') ∧
    (∀ e, (formula text).outcome = .error e →
      (diagram text ⟨reduced, none, limits⟩).outcome = .error e ∧
        (e = .emptyInput ∨ e.kind = .endOfInput ∨ e.kind = .trailingInput ∨ e.kind = .malformed ∨
          e = .recordTooDeep ∧
            ∃ f, parse ((tokenize text).map some) = .ok f ∧ printingLimit < f.printingDepth)) ∧
    (∀ f, (formula text).outcome = .ok f → ∃ g,
      (diagram text ⟨reduced, none, limits⟩).outcome
        = if limits.most < f.leaves.eraseDups.length then
            .error (.tooManyLiterals f.leaves.eraseDups.length limits.most)
          else if f.hasBinaryNegation then .error (.wrongArity .negation)
          else .ok g) := by
  have hread : ∀ e, (formula text).outcome = .error e →
      (diagram text ⟨reduced, none, limits⟩).outcome = .error e := by
    intro e he
    rw [outcome_diagram, he]
    rfl
  refine ⟨?_, fun e he => ⟨hread e he, ?_⟩, fun f => exists_outcome_diagram hnesting reduced hmost⟩
  · rw [← formula_eq_emptyInput_iff hnesting]
    refine ⟨fun h => ?_, hread _⟩
    cases hf : (formula text).outcome with
    | error e =>
        rw [hread e hf, Except.error.injEq] at h
        rw [h]
    | ok f =>
        obtain ⟨g, hg⟩ := exists_outcome_diagram hnesting reduced hmost hf
        rw [hg] at h
        split at h
        · rw [Except.error.injEq] at h
          rcases Fault.tooManyLiterals_eq_or f.leaves.eraseDups.length limits.most with he | he <;>
            rw [he] at h <;> cases h
        · split at h
          · cases h
          · cases h
  · rw [outcome_formula] at he
    split at he
    · exact Or.inl (Except.error.inj he).symm
    · exact Or.inr (kind_of_parseText_error hnesting he)

end AnyLimits

/-- A negation between two operands is found only after the literals are counted. -/
theorem diagram_faults_binaryNegation :
    Token.nesting (tokenize "((A NOT B) AND C)") ≤ nestingLimit ∧
    (diagram "((A NOT B) AND C)" .usual).outcome = .error (.wrongArity .negation) ∧
    (diagram "((A NOT B) AND C)" ⟨false, none, ⟨2, 12⟩⟩).outcome
      = .error (.tooManyLiterals 3 2) := by
  have hnesting : Token.nesting (tokenize "((A NOT B) AND C)") ≤ nestingLimit := by decide +kernel
  have hread : (formula "((A NOT B) AND C)").outcome = .ok (.apply "AND"
      [.apply "NOT" [.literal "A", .literal "B"], .literal "C"]) := by
    decide +kernel
  refine ⟨hnesting, ?_, ?_⟩
  · obtain ⟨g, hg⟩ := (diagram_faults hnesting true .usual (by decide)).2.2 _ hread
    exact hg
  · obtain ⟨g, hg⟩ := (diagram_faults hnesting false ⟨2, 12⟩ (by decide)).2.2 _ hread
    exact hg

end FromText

end PropDiagram

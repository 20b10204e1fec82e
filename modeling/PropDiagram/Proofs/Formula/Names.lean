import PropDiagram.Assignment.Basic
import PropDiagram.Proofs.Formula.Evaluation
import PropDiagram.Proofs.Formula.Grammar

set_option autoImplicit false

/-! # The names of a formula

The names are gathered from a stack, which reads the leaves from left to right. The same names, in the
same order, are met in the tokens that a formula is read from, since brackets and keywords are all
that stands between them (`Formula.Grammatical.filter_tokens`). They are all that evaluation looks at:
valuations that agree on them give the same outcome, be it a value or a fault
(`Formula.valueWithin_congr`). -/

namespace PropDiagram

namespace Formula

variable {α : Type}

/-! ## Names among tokens -/

/-- The literals among the tokens of a formula are its leaves. -/
theorem Grammatical.filter_tokens {f : Formula String} (hf : f.Grammatical) :
    (f.tokens.filter fun s => Token.isLiteral (some s)) = f.leaves := by
  have hopening : Token.isName Token.opening = false := by decide
  have hclosing : Token.isName Token.closing = false := by decide
  have hkeyword (c : Connective) : Token.isName c.keyword = false := by simp [Token.isName]
  simp only [Token.isLiteral_some]
  induction hf with
  | literal h => simp [h]
  | negation hx ih =>
      rw [tokens_single]
      simp [hopening, hclosing, hkeyword, ih]
  | application c hx hy ihx ihy =>
      rw [tokens_pair]
      simp [hopening, hclosing, hkeyword, ihx, ihy]

/-! ## What evaluation looks at -/

theorem valueWithin_congr {leaf leaf' : α → Except Fault Bool} {f : Formula α}
    (h : ∀ a ∈ f.leaves, leaf a = leaf' a) : f.valueWithin leaf = f.valueWithin leaf' := by
  induction f using Formula.induct with
  | leaf a =>
      funext limit
      rw [valueWithin_literal, valueWithin_literal]
      exact h a (by simp)
  | node op xs ih =>
      have hoperands : xs.map (valueWithin leaf) = xs.map (valueWithin leaf') := by
        refine List.map_congr_left fun x hx => ih x hx fun a ha => h a ?_
        rw [leaves_apply]
        exact List.mem_flatten_of_mem (List.mem_map_of_mem hx) ha
      funext limit
      rw [valueWithin_apply, valueWithin_apply, hoperands]

theorem evaluate_congr [DepthLimits] {v w : Valuation} {f : Formula String}
    (h : ∀ x ∈ f.names, v x = w x) : f.evaluate v = f.evaluate w := by
  refine congrFun (valueWithin_congr fun x hx => ?_) nestingLimit
  rw [Valuation.lookup, Valuation.lookup, h x (by rwa [names_eq, List.mem_eraseDups])]

/-- **Names come by first occurrence, and evaluation looks at nothing else.** The names of a formula
    are its leaves from left to right without repetitions. If the formula was read from tokens, they
    are the literals among the tokens without repetitions. Valuations that agree on the names, each
    name bound by both to the same truth value or by neither, give the formula the same value or the
    same fault. -/
theorem names_by_first_occurrence [DepthLimits] :
    (∀ f : Formula String, f.names = f.leaves.eraseDups) ∧
    (∀ (limit : Nat) (tokens : List String) (f : Formula String),
      parseWithin limit (tokens.map some) = .ok f →
        f.names = (tokens.filter fun s => Token.isLiteral (some s)).eraseDups) ∧
    (∀ (f : Formula String) (v w : Valuation), (∀ x ∈ f.names, v x = w x) →
      f.evaluate v = f.evaluate w) := by
  refine ⟨names_eq, ?_, fun f v w => evaluate_congr⟩
  intro limit tokens f h
  obtain ⟨hgram, rfl⟩ := parseWithin_sound h
  rw [hgram.filter_tokens, names_eq]

/-- A name that comes again is not listed again. Values of different types that count as the same
    truth value are the same to evaluation, as is a name that does not occur; and a name that both
    lack is the fault of both. -/
theorem names_by_first_occurrence_repeated :
    let tokens := ["(", "B", "AND", "(", "A", "IMP", "B", ")", ")"]
    let f := Formula.apply "AND" [.literal "B", .apply "IMP" [.literal "A", .literal "B"]]
    let v := Assignment.valuationOf [("B", .text "")]
    let w := Assignment.valuationOf [("C", .truth true), ("B", .list [])]
    parse (tokens.map some) = .ok f ∧ f.names = ["B", "A"] ∧ (∀ x ∈ f.names, v x = w x) ∧
      f.evaluate v = .error (.unbound (some "A")) ∧
      f.evaluate w = .error (.unbound (some "A")) := by
  intro tokens f v w
  have hread : parse (tokens.map some) = .ok f := by rfl
  have hnames : f.names = ["B", "A"] :=
    (names_by_first_occurrence.2.1 nestingLimit tokens f hread).trans (by decide)
  have hagree : ∀ x ∈ f.names, v x = w x := by
    rw [hnames]
    decide
  have hv : f.evaluate v = .error (.unbound (some "A")) := by rfl
  exact ⟨hread, hnames, hagree, hv,
    (names_by_first_occurrence.2.2 f v w hagree).symm.trans hv⟩

end Formula

end PropDiagram

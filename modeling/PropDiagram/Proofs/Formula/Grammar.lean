import Mathlib.Data.List.Infix
import PropDiagram.Formula.Parser

set_option autoImplicit false

/-! # The grammar of formulas

Which formulas can be read, and from which tokens. A grammatical formula is a literal, a negation of
one operand, or a connective between two operands, where the connective may be any of the five. Its
tokens are written out by `Formula.tokens`.

The parser is sound for the grammar: what it reads is a grammatical formula, and what it consumed
are the tokens of that formula (`formula_sound`). It is complete, given enough room for nesting:
from the tokens of a grammatical formula, whatever follows them, it reads that formula
(`formula_complete`). So no token list belongs to two grammatical formulas. -/

namespace PropDiagram

/-! ## Nesting of brackets -/

namespace Token

/-- The number of unmatched opening brackets after one more token, if `n` were unmatched before. -/
def unmatchedAfter (n : Nat) (s : String) : Nat :=
  if s = opening then n + 1 else if s = closing then n - 1 else n

/-- The number of unmatched opening brackets after the tokens, if `n` were unmatched before. -/
def unmatched (n : Nat) (ts : List String) : Nat := ts.foldl unmatchedAfter n

/-- The greatest number of unmatched opening brackets in a prefix of the tokens, if `n` were
    unmatched before. -/
def peak : (n : Nat) → List String → Nat
  | n, [] => n
  | n, s :: ts => max n (peak (unmatchedAfter n s) ts)

/-- How deep the brackets nest: the greatest number of unmatched opening brackets in a prefix. -/
def nesting (ts : List String) : Nat := peak 0 ts

@[simp] theorem unmatched_nil (n : Nat) : unmatched n [] = n := rfl

@[simp] theorem unmatched_cons (n : Nat) (s : String) (ts : List String) :
    unmatched n (s :: ts) = unmatched (unmatchedAfter n s) ts := rfl

@[simp] theorem unmatched_append (n : Nat) (ts us : List String) :
    unmatched n (ts ++ us) = unmatched (unmatched n ts) us := List.foldl_append

theorem le_peak (n : Nat) (ts : List String) : n ≤ peak n ts := by
  cases ts with
  | nil => exact Nat.le_refl n
  | cons s ts => exact Nat.le_max_left _ _

theorem peak_append (n : Nat) (ts us : List String) :
    peak n (ts ++ us) = max (peak n ts) (peak (unmatched n ts) us) := by
  induction ts generalizing n with
  | nil =>
      have := le_peak n us
      simp only [List.nil_append, peak, unmatched_nil]
      omega
  | cons s ts ih =>
      simp only [List.cons_append, peak, unmatched_cons, ih]
      omega

/-- Nesting within a limit says that no prefix has more unmatched opening brackets. -/
theorem peak_le_iff (n : Nat) (ts : List String) (limit : Nat) :
    peak n ts ≤ limit ↔ ∀ us, us <+: ts → unmatched n us ≤ limit := by
  induction ts generalizing n with
  | nil => simp [peak]
  | cons s ts ih =>
      rw [peak, Nat.max_le, ih]
      constructor
      · rintro ⟨hn, hrest⟩ us hus
        rcases List.prefix_cons_iff.1 hus with rfl | ⟨vs, rfl, hvs⟩
        · exact hn
        · exact hrest vs hvs
      · intro h
        refine ⟨h [] (List.nil_prefix), ?_⟩
        intro us hus
        exact h (s :: us) ((List.prefix_cons_inj s).2 hus)

@[simp] theorem unmatchedAfter_opening (n : Nat) : unmatchedAfter n opening = n + 1 := rfl

@[simp] theorem unmatchedAfter_closing (n : Nat) : unmatchedAfter n closing = n - 1 := rfl

@[simp] theorem unmatchedAfter_keyword (n : Nat) (c : Connective) :
    unmatchedAfter n c.keyword = n := by
  cases c <;> rfl

theorem ne_opening_of_isName {s : String} (h : isName s = true) : s ≠ opening := by
  rintro rfl
  exact absurd h (by decide)

theorem ne_closing_of_isName {s : String} (h : isName s = true) : s ≠ closing := by
  rintro rfl
  exact absurd h (by decide)

theorem ne_keyword_of_isName {s : String} (h : isName s = true) (c : Connective) :
    s ≠ c.keyword := by
  rintro rfl
  simp [isName] at h

theorem unmatchedAfter_of_isName (n : Nat) {s : String} (h : isName s = true) :
    unmatchedAfter n s = n := by
  rw [unmatchedAfter, if_neg (ne_opening_of_isName h), if_neg (ne_closing_of_isName h)]

end Token

/-! ## Grammatical formulas -/

namespace Formula

/-- The formulas that can be written with tokens. -/
inductive Grammatical : Formula String → Prop
  /-- A token that is neither keyword nor bracket. -/
  | literal {name : String} (h : Token.isName name = true) : Grammatical (literal name)
  | negation {x : Formula String} (hx : Grammatical x) :
    Grammatical (apply Connective.negation.keyword [x])
  | application (c : Connective) {x y : Formula String} (hx : Grammatical x)
    (hy : Grammatical y) : Grammatical (apply c.keyword [x, y])

/-- The tokens of an application: the connective stands before a single operand, and otherwise
    between the operands. -/
def applicationTokens (op : String) : List (List String) → List String
  | [x] => Token.opening :: op :: (x ++ [Token.closing])
  | xs => Token.opening :: ([op].intercalate xs ++ [Token.closing])

/-- The tokens that write the formula. -/
def tokens : Formula String → List String := fold (fun name => [name]) applicationTokens

@[simp] theorem tokens_literal (name : String) : (literal name).tokens = [name] :=
  fold_literal ..

@[simp] theorem tokens_apply (op : String) (xs : List (Formula String)) :
    (apply op xs).tokens = applicationTokens op (xs.map tokens) := fold_apply ..

theorem tokens_single (op : String) (x : Formula String) :
    (apply op [x]).tokens = Token.opening :: op :: (x.tokens ++ [Token.closing]) := by
  rw [tokens_apply]
  rfl

theorem tokens_pair (op : String) (x y : Formula String) :
    (apply op [x, y]).tokens
      = Token.opening :: (x.tokens ++ op :: (y.tokens ++ [Token.closing])) := by
  rw [tokens_apply]
  simp [applicationTokens, List.intercalate]

/-- No formula starts with a keyword: this is why one token decides whether a bracket starts a
    negation. -/
theorem Grammatical.ahead_ne_keyword {f : Formula String} (hf : f.Grammatical) (c : Connective)
    (rest : List Token) : Token.ahead (f.tokens.map some ++ rest) ≠ some c.keyword := by
  have hopening : Token.opening ≠ c.keyword := by cases c <;> decide
  cases hf with
  | literal h =>
      rw [tokens_literal]
      intro heq
      exact Token.ne_keyword_of_isName h c (Option.some.inj heq)
  | negation hx =>
      rw [tokens_single]
      intro heq
      exact hopening (Option.some.inj heq)
  | application c' hx hy =>
      rw [tokens_pair]
      intro heq
      exact hopening (Option.some.inj heq)

/-- The brackets of a grammatical formula match, and they nest as deep as its operands do. -/
theorem Grammatical.nesting {f : Formula String} (hf : f.Grammatical) (n : Nat) :
    Token.unmatched n f.tokens = n ∧ n + f.depth ≤ Token.peak n f.tokens := by
  induction hf generalizing n with
  | literal h =>
      rw [tokens_literal, depth_literal]
      exact ⟨Token.unmatchedAfter_of_isName n h, Token.le_peak n _⟩
  | @negation x hx ih =>
      obtain ⟨hmatch, hdeep⟩ := ih (n + 1)
      rw [tokens_single]
      refine ⟨by simp [hmatch], ?_⟩
      simp only [Token.peak, Token.unmatchedAfter_opening, Token.unmatchedAfter_keyword,
        Token.peak_append, depth_apply, List.map_cons, List.map_nil, List.foldr_cons,
        List.foldr_nil]
      omega
  | @application c x y hx hy ihx ihy =>
      obtain ⟨hmatchx, hdeepx⟩ := ihx (n + 1)
      obtain ⟨hmatchy, hdeepy⟩ := ihy (n + 1)
      rw [tokens_pair]
      refine ⟨by simp [hmatchx, hmatchy], ?_⟩
      simp only [Token.peak, Token.unmatchedAfter_opening, Token.unmatchedAfter_keyword,
        Token.peak_append, hmatchx, depth_apply, List.map_cons, List.map_nil, List.foldr_cons,
        List.foldr_nil]
      omega

end Formula

/-! ## What a rule reads -/

namespace Rule

variable {α β : Type}

theorem bind_eq_ok_iff (x : Rule α) (f : α → Rule β) (ts : List Token) (b : β)
    (rest : List Token) :
    (x >>= f) ts = (.ok b, rest) ↔ ∃ a mid, x ts = (.ok a, mid) ∧ f a mid = (.ok b, rest) := by
  rw [bind_eq]
  constructor
  · intro h
    split at h
    · next a mid hx => exact ⟨a, mid, hx, h⟩
    · simp at h
  · rintro ⟨a, mid, hx, hf⟩
    rw [hx]
    exact hf

theorem next_eq_ok_iff (ts : List Token) (t : Token) (rest : List Token) :
    next ts = (.ok t, rest) ↔ ts = t :: rest := by
  cases ts with
  | nil => simp [next]
  | cons s ss => simp [next]

theorem literal_eq_ok_iff (ts : List Token) (f : Formula String) (rest : List Token) :
    literal ts = (.ok f, rest)
      ↔ ∃ s, Token.isName s = true ∧ f = .literal s ∧ ts = some s :: rest := by
  rw [literal, bind_eq_ok_iff]
  constructor
  · rintro ⟨t, mid, hnext, h⟩
    rw [next_eq_ok_iff] at hnext
    subst hnext
    cases t with
    | none => simp [fail] at h
    | some s =>
        dsimp only at h
        split at h
        · next hs =>
            rw [pure_eq, Prod.mk.injEq, Except.ok.injEq] at h
            obtain ⟨rfl, rfl⟩ := h
            exact ⟨s, hs, rfl, rfl⟩
        · simp [fail] at h
  · rintro ⟨s, hs, rfl, rfl⟩
    refine ⟨some s, rest, rfl, ?_⟩
    dsimp only
    rw [if_pos hs, pure_eq]

/-- A rule that reads one token and accepts only the text `s`. -/
theorem expect_eq_ok_iff (s : String) (e : Fault) (ts : List Token) (u : Unit)
    (rest : List Token) :
    (next >>= fun t => if t = some s then pure () else fail e : Rule Unit) ts = (.ok u, rest)
      ↔ ts = some s :: rest := by
  rw [bind_eq_ok_iff]
  constructor
  · rintro ⟨t, mid, hnext, h⟩
    rw [next_eq_ok_iff] at hnext
    split at h
    · next ht =>
        rw [pure_eq, Prod.mk.injEq] at h
        rw [hnext, ht, h.2]
    · simp [fail] at h
  · rintro rfl
    refine ⟨some s, rest, rfl, ?_⟩
    rw [if_pos rfl, pure_eq]

theorem opening_eq_ok_iff (ts : List Token) (u : Unit) (rest : List Token) :
    opening ts = (.ok u, rest) ↔ ts = some Token.opening :: rest :=
  expect_eq_ok_iff Token.opening .openingExpected ts u rest

theorem closing_eq_ok_iff (ts : List Token) (u : Unit) (rest : List Token) :
    closing ts = (.ok u, rest) ↔ ts = some Token.closing :: rest :=
  expect_eq_ok_iff Token.closing .closingExpected ts u rest

theorem connective_eq_ok_iff (ts : List Token) (op : String) (rest : List Token) :
    connective ts = (.ok op, rest)
      ↔ ∃ c : Connective, op = c.keyword ∧ ts = some c.keyword :: rest := by
  rw [connective, bind_eq_ok_iff]
  constructor
  · rintro ⟨t, mid, hnext, h⟩
    rw [next_eq_ok_iff] at hnext
    subst hnext
    cases t with
    | none => simp [fail] at h
    | some s =>
        dsimp only at h
        split at h
        · next hs =>
            rw [pure_eq, Prod.mk.injEq, Except.ok.injEq] at h
            obtain ⟨rfl, rfl⟩ := h
            obtain ⟨c, rfl⟩ := Token.isKeyword_iff.1 hs
            exact ⟨c, rfl, rfl⟩
        · simp [fail] at h
  · rintro ⟨c, rfl, rfl⟩
    refine ⟨some c.keyword, rest, rfl, ?_⟩
    dsimp only
    rw [if_pos (Token.isKeyword_keyword c), pure_eq]

theorem negation_eq_ok_iff (operand : Rule (Formula String)) (ts : List Token)
    (f : Formula String) (rest : List Token) :
    negation operand ts = (.ok f, rest)
      ↔ ∃ x, operand ts = (.ok x, some Token.closing :: rest)
          ∧ f = .apply Connective.negation.keyword [x] := by
  simp only [negation, bind_eq_ok_iff, closing_eq_ok_iff, pure_eq, Prod.mk.injEq,
    Except.ok.injEq]
  constructor
  · rintro ⟨x, _, hx, _, _, rfl, rfl, rfl⟩
    exact ⟨x, hx, rfl⟩
  · rintro ⟨x, hx, rfl⟩
    exact ⟨x, _, hx, (), rest, rfl, rfl, rfl⟩

theorem application_eq_ok_iff (operand : Rule (Formula String)) (ts : List Token)
    (f : Formula String) (rest : List Token) :
    application operand ts = (.ok f, rest)
      ↔ ∃ x y mid, ∃ c : Connective, operand ts = (.ok x, some c.keyword :: mid)
          ∧ operand mid = (.ok y, some Token.closing :: rest) ∧ f = .apply c.keyword [x, y] := by
  simp only [application, bind_eq_ok_iff, connective_eq_ok_iff, closing_eq_ok_iff, pure_eq,
    Prod.mk.injEq, Except.ok.injEq]
  constructor
  · rintro ⟨x, _, hx, _, mid, ⟨c, rfl, rfl⟩, y, _, hy, _, _, rfl, rfl, rfl⟩
    exact ⟨x, y, mid, c, hx, hy, rfl⟩
  · rintro ⟨x, y, mid, c, hx, hy, rfl⟩
    exact ⟨x, _, hx, _, mid, ⟨c, rfl, rfl⟩, y, _, hy, (), rest, rfl, rfl, rfl⟩

/-- A bracket commits to a negation exactly if the negation keyword follows it. -/
theorem bracketed_eq_ok_iff (operand : Rule (Formula String)) (ts : List Token)
    (f : Formula String) (rest : List Token) :
    bracketed operand ts = (.ok f, rest)
      ↔ (∃ us, ts = some Token.opening :: some Connective.negation.keyword :: us
            ∧ negation operand us = (.ok f, rest))
        ∨ (∃ us, ts = some Token.opening :: us
            ∧ Token.ahead us ≠ some Connective.negation.keyword
            ∧ application operand us = (.ok f, rest)) := by
  simp only [bracketed, bind_eq_ok_iff, opening_eq_ok_iff, peek, Prod.mk.injEq, Except.ok.injEq]
  constructor
  · rintro ⟨_, us, rfl, t, _, ⟨rfl, rfl⟩, h⟩
    split at h
    · next hahead =>
        rw [bind_eq_ok_iff] at h
        obtain ⟨t, vs, hnext, h⟩ := h
        rw [next_eq_ok_iff] at hnext
        subst hnext
        left
        refine ⟨vs, ?_, h⟩
        rw [← hahead]
        rfl
    · next hahead => exact Or.inr ⟨us, rfl, hahead, h⟩
  · rintro (⟨us, rfl, h⟩ | ⟨us, rfl, hahead, h⟩)
    · refine ⟨(), _, rfl, some Connective.negation.keyword, _, ⟨rfl, rfl⟩, ?_⟩
      rw [if_pos rfl, bind_eq_ok_iff]
      exact ⟨_, us, rfl, h⟩
    · refine ⟨(), us, rfl, _, us, ⟨rfl, rfl⟩, ?_⟩
      rw [if_neg hahead]
      exact h

/-- One token decides between a bracketed formula and a literal. -/
theorem formula_eq (limit : Nat) (ts : List Token) :
    formula limit ts =
      if Token.ahead ts = some Token.opening then
        match limit with
        | 0 => (.error .nestedTooDeeply, ts)
        | limit + 1 => bracketed (formula limit) ts
      else literal ts := by
  cases limit with
  | zero =>
      rw [formula, bind_eq]
      dsimp only [peek]
      split <;> rfl
  | succ limit =>
      rw [formula, bind_eq]
      dsimp only [peek]
      split <;> rfl

/-! ## Soundness and completeness -/

/-- What a rule reads is a grammatical formula, and the tokens it consumed write that formula. -/
def Sound (rule : Rule (Formula String)) : Prop :=
  ∀ (ts : List Token) (f : Formula String) (rest : List Token),
    rule ts = (.ok f, rest) → f.Grammatical ∧ ts = f.tokens.map some ++ rest

theorem Sound.texts {rule : Rule (Formula String)} (hrule : Sound rule) {tokens : List String}
    {f : Formula String} {rest : List Token} (h : rule (tokens.map some) = (.ok f, rest)) :
    f.Grammatical ∧ ∃ left, tokens = f.tokens ++ left ∧ rest = left.map some := by
  obtain ⟨hgram, htokens⟩ := hrule _ f rest h
  obtain ⟨read, left, rfl, hread, rfl⟩ := List.map_eq_append_iff.1 htokens
  rw [(List.map_inj_right fun _ _ => Option.some.inj).1 hread]
  exact ⟨hgram, left, rfl, rfl⟩

theorem sound_literal : Sound literal := by
  intro ts f rest h
  obtain ⟨s, hs, rfl, rfl⟩ := (literal_eq_ok_iff ts f rest).1 h
  exact ⟨.literal hs, by rw [Formula.tokens_literal]; rfl⟩

theorem Sound.bracketed {operand : Rule (Formula String)} (hoperand : Sound operand) :
    Sound (bracketed operand) := by
  intro ts f rest h
  rcases (bracketed_eq_ok_iff operand ts f rest).1 h with ⟨us, rfl, h⟩ | ⟨us, rfl, -, h⟩
  · obtain ⟨x, hx, rfl⟩ := (negation_eq_ok_iff operand us f rest).1 h
    obtain ⟨hgram, rfl⟩ := hoperand us x _ hx
    refine ⟨.negation hgram, ?_⟩
    rw [Formula.tokens_single]
    simp
  · obtain ⟨x, y, mid, c, hx, hy, rfl⟩ := (application_eq_ok_iff operand us f rest).1 h
    obtain ⟨hgramx, rfl⟩ := hoperand us x _ hx
    obtain ⟨hgramy, rfl⟩ := hoperand mid y _ hy
    refine ⟨.application c hgramx hgramy, ?_⟩
    rw [Formula.tokens_pair]
    simp

theorem formula_sound (limit : Nat) : Sound (formula limit) := by
  induction limit with
  | zero =>
      intro ts f rest h
      rw [formula_eq] at h
      split at h
      · simp at h
      · exact sound_literal ts f rest h
  | succ limit ih =>
      intro ts f rest h
      rw [formula_eq] at h
      split at h
      · exact ih.bracketed ts f rest h
      · exact sound_literal ts f rest h

/-- A grammatical formula is read from its tokens, whatever follows them. -/
theorem formula_complete {f : Formula String} (hf : f.Grammatical) (limit : Nat)
    (hdepth : f.depth ≤ limit) (rest : List Token) :
    formula limit (f.tokens.map some ++ rest) = (.ok f, rest) := by
  induction hf generalizing limit rest with
  | @literal name h =>
      have hname : some name ≠ some Token.opening := by
        intro heq
        exact Token.ne_opening_of_isName h (Option.some.inj heq)
      rw [formula_eq, Formula.tokens_literal]
      refine (if_neg hname).trans ?_
      rw [literal_eq_ok_iff]
      exact ⟨name, h, rfl, rfl⟩
  | @negation x hx ih =>
      simp only [Formula.depth_apply, List.map_cons, List.map_nil, List.foldr_cons,
        List.foldr_nil] at hdepth
      obtain ⟨limit, rfl⟩ := Nat.exists_eq_add_of_lt (show 0 < limit by omega)
      rw [Nat.zero_add, formula_eq, Formula.tokens_single]
      refine (if_pos rfl).trans ?_
      refine (bracketed_eq_ok_iff _ _ _ _).2 (Or.inl ⟨_, rfl, ?_⟩)
      refine (negation_eq_ok_iff _ _ _ _).2 ⟨x, ?_, rfl⟩
      have hread := ih limit (by omega) (some Token.closing :: rest)
      simpa using hread
  | @application c x y hx hy ihx ihy =>
      simp only [Formula.depth_apply, List.map_cons, List.map_nil, List.foldr_cons,
        List.foldr_nil] at hdepth
      obtain ⟨limit, rfl⟩ := Nat.exists_eq_add_of_lt (show 0 < limit by omega)
      rw [Nat.zero_add, formula_eq, Formula.tokens_pair]
      refine (if_pos rfl).trans ?_
      have hreadx := ihx limit (by omega)
        (some c.keyword :: (y.tokens.map some ++ some Token.closing :: rest))
      have hready := ihy limit (by omega) (some Token.closing :: rest)
      refine (bracketed_eq_ok_iff _ _ _ _).2 (Or.inr ⟨_, rfl, ?_, ?_⟩)
      · have := hx.ahead_ne_keyword Connective.negation
          (some c.keyword :: (y.tokens.map some ++ some Token.closing :: rest))
        simpa using this
      · refine (application_eq_ok_iff _ _ _ _).2 ⟨x, y, _, c, ?_, hready, rfl⟩
        simpa using hreadx

end Rule

/-! ## Whole sequences -/

/-- A formula is accepted if it is read to the last token. -/
theorem parseWithin_eq_ok_iff {limit : Nat} {tokens : List String} {f : Formula String} :
    parseWithin limit (tokens.map some) = .ok f
      ↔ Rule.formula limit (tokens.map some) = (.ok f, []) := by
  constructor
  · intro h
    rw [parseWithin] at h
    split at h
    · next g rest hread =>
        split at h
        · next hahead =>
            cases h
            obtain ⟨-, left, -, rfl⟩ := (Rule.formula_sound limit).texts hread
            -- The tokens are texts, so nothing ahead means that nothing is left.
            cases left with
            | nil => exact hread
            | cons s left => simp [Token.ahead] at hahead
        · simp at h
    · simp at h
  · intro h
    rw [parseWithin, h]
    rfl

theorem parseWithin_sound {limit : Nat} {tokens : List String} {f : Formula String}
    (h : parseWithin limit (tokens.map some) = .ok f) : f.Grammatical ∧ f.tokens = tokens := by
  obtain ⟨hgram, htokens⟩ := Rule.formula_sound limit _ _ _ (parseWithin_eq_ok_iff.1 h)
  rw [List.append_nil, List.map_inj_right fun _ _ => Option.some.inj] at htokens
  exact ⟨hgram, htokens.symm⟩

theorem parseWithin_tokens {f : Formula String} (hf : f.Grammatical) {limit : Nat}
    (h : Token.nesting f.tokens ≤ limit) : parseWithin limit (f.tokens.map some) = .ok f := by
  have hdepth : f.depth ≤ limit := by
    have := (hf.nesting 0).2
    rw [Token.nesting] at h
    omega
  have hread := Rule.formula_complete hf limit hdepth []
  rw [List.append_nil] at hread
  exact parseWithin_eq_ok_iff.2 hread

/-- The grammar is unambiguous. -/
theorem Formula.Grammatical.eq_of_tokens_eq {f g : Formula String} (hf : f.Grammatical)
    (hg : g.Grammatical) (h : f.tokens = g.tokens) : f = g := by
  have hreadf := parseWithin_tokens hf (Nat.le_refl _)
  have hreadg := parseWithin_tokens hg (Nat.le_refl _)
  rw [h, hreadg] at hreadf
  exact (Except.ok.inj hreadf).symm

/-- **The parser accepts exactly the grammar.** Among tokens whose brackets nest within the limit,
    it reads a formula if and only if the formula is grammatical and these are its tokens; and
    different grammatical formulas have different tokens. -/
theorem parseWithin_eq_ok_iff_grammatical :
    (∀ (limit : Nat) (tokens : List String), Token.nesting tokens ≤ limit →
      ∀ f : Formula String,
        parseWithin limit (tokens.map some) = .ok f ↔ f.Grammatical ∧ tokens = f.tokens) ∧
    (∀ f g : Formula String, f.Grammatical → g.Grammatical → f.tokens = g.tokens → f = g) := by
  refine ⟨?_, fun f g hf hg => hf.eq_of_tokens_eq hg⟩
  intro limit tokens hnesting f
  constructor
  · intro h
    obtain ⟨hgram, htokens⟩ := parseWithin_sound h
    exact ⟨hgram, htokens.symm⟩
  · rintro ⟨hgram, rfl⟩
    exact parseWithin_tokens hgram hnesting

/-- Negation between two operands, one of which is a negation. -/
theorem parse_infix_negation :
    Token.nesting ["(", "A", "NOT", "(", "NOT", "B", ")", ")"] ≤ nestingLimit ∧
    parse (["(", "A", "NOT", "(", "NOT", "B", ")", ")"].map some)
      = .ok (.apply "NOT" [.literal "A", .apply "NOT" [.literal "B"]]) ∧
    (∀ g : Formula String, g.Grammatical → g.tokens = ["(", "NOT", "B", ")"] →
      g = .apply "NOT" [.literal "B"]) := by
  have hnesting : Token.nesting ["(", "A", "NOT", "(", "NOT", "B", ")", ")"] ≤ nestingLimit := by
    decide
  have hnot : (Formula.apply "NOT" [Formula.literal "B"]).Grammatical :=
    .negation (.literal (by decide))
  have hgram : (Formula.apply "NOT" [.literal "A", .apply "NOT" [.literal "B"]]).Grammatical :=
    .application .negation (.literal (by decide)) hnot
  refine ⟨hnesting, ?_, ?_⟩
  · exact (parseWithin_eq_ok_iff_grammatical.1 nestingLimit _ hnesting _).2 ⟨hgram, by decide⟩
  · intro g hg htokens
    exact parseWithin_eq_ok_iff_grammatical.2 g _ hg hnot htokens

end PropDiagram

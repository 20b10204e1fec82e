import PropDiagram.Proofs.Formula.Awaited

set_option autoImplicit false

/-! # Reading without a limit

The rule for formulas gives up where brackets nest deeper than its limit. `Rule.unlimited` gives as
much room as there are tokens, which is more than any of them needs; it is the only rule that reads a
bracketed formula by reading its operands in the same way (`Rule.eq_unlimited_iff`).

A limit may take an answer away, but never changes it. This is a relation between two rules
(`Rule.Restricts`) that the combinators keep, so that it goes from the operands to the whole formula:
unless it gives up, the limited rule answers as the unlimited one does
(`Rule.formula_restricts_unlimited`). -/

namespace PropDiagram

theorem Token.eq_cons_of_ahead {ts : List Token} {s : String} (h : ahead ts = some s) :
    ∃ us, ts = some s :: us := by
  cases ts with
  | nil => simp [ahead] at h
  | cons t us =>
      obtain rfl : t = some s := h
      exact ⟨us, rfl⟩

namespace Rule

variable {α β : Type}

/-! ## Giving up -/

/-- Unless it gives up on nesting, the rule `x` answers as `y` does, and leaves the same tokens. -/
def Restricts (x y : Rule α) : Prop :=
  ∀ ts, (x ts).1 ≠ .error .nestedTooDeeply → y ts = x ts

theorem Restricts.refl (x : Rule α) : Restricts x x := fun _ _ => rfl

theorem restricts_fail (y : Rule α) : Restricts (fail .nestedTooDeeply) y :=
  fun _ h => absurd rfl h

theorem Restricts.bind {x y : Rule α} {f g : α → Rule β} (hxy : Restricts x y)
    (hfg : ∀ a, Restricts (f a) (g a)) : Restricts (x >>= f) (y >>= g) := by
  intro ts h
  rw [bind_eq] at h
  rw [bind_eq, bind_eq]
  rcases hx : x ts with ⟨r, mid⟩
  rw [hx] at h
  cases r with
  | ok a =>
      have hy : y ts = (.ok a, mid) := by rw [hxy ts (by simp [hx]), hx]
      rw [hy]
      exact hfg a mid h
  | error e =>
      have hy : y ts = (.error e, mid) := by
        rw [hxy ts (by rw [hx]; simpa using h), hx]
      rw [hy]

theorem Restricts.choose {x x' y y' : Rule α} {s : String} (hx : Restricts x x')
    (hy : Restricts y y') : Restricts (peek >>= fun t => if t = some s then x else y)
      (peek >>= fun t => if t = some s then x' else y') := by
  refine (Restricts.refl peek).bind fun t => ?_
  by_cases ht : t = some s
  · rw [if_pos ht, if_pos ht]
    exact hx
  · rw [if_neg ht, if_neg ht]
    exact hy

section Grammar

variable {x y : Rule (Formula String)}

theorem Restricts.negation (h : Restricts x y) : Restricts (negation x) (negation y) :=
  h.bind fun _ => .refl _

theorem Restricts.application (h : Restricts x y) : Restricts (application x) (application y) :=
  h.bind fun _ => (Restricts.refl _).bind fun _ => h.bind fun _ => .refl _

theorem Restricts.bracketed (h : Restricts x y) : Restricts (bracketed x) (bracketed y) :=
  (Restricts.refl _).bind fun _ =>
    ((Restricts.refl _).bind fun _ => h.negation).choose h.application

end Grammar

/-- A formula whose operands are read by the given rule. -/
def formulaOf (operand : Rule (Formula String)) : Rule (Formula String) := do
  if (← peek) = some Token.opening then bracketed operand else literal

theorem formula_succ (limit : Nat) : formula (limit + 1) = formulaOf (formula limit) := rfl

theorem Restricts.formulaOf {x y : Rule (Formula String)} (h : Restricts x y) :
    Restricts (formulaOf x) (formulaOf y) := h.bracketed.choose (.refl _)

/-- Every rule that reads its operands in the way it reads is restricted by the limited ones. -/
theorem formula_restricts {rule : Rule (Formula String)} (hrule : rule = formulaOf rule)
    (limit : Nat) : Restricts (formula limit) rule := by
  rw [hrule]
  induction limit with
  | zero => exact (restricts_fail _).choose (.refl _)
  | succ limit ih => exact Restricts.formulaOf (hrule ▸ ih)

theorem formula_restricts_formula {limit limit' : Nat} (h : limit ≤ limit') :
    Restricts (formula limit) (formula limit') := by
  induction limit generalizing limit' with
  | zero =>
      cases limit' with
      | zero => exact .refl _
      | succ limit' => exact (restricts_fail _).choose (.refl _)
  | succ limit ih =>
      obtain ⟨limit', rfl⟩ := Nat.exists_eq_add_of_le' h
      exact (ih (Nat.le_add_left _ _)).formulaOf

/-! ## Operands -/

/-- Behind an opening bracket stand the tokens `ts`, and an operand is looked for where `us` start:
    behind the negation keyword, or as the left operand of an application, or as its right one if a
    left one and a connective are read. -/
inductive OperandAt (operand : Rule (Formula String)) (ts : List Token) : List Token → Prop
  | negated {us : List Token} (h : ts = some Connective.negation.keyword :: us) :
    OperandAt operand ts us
  | left (h : Token.ahead ts ≠ some Connective.negation.keyword) : OperandAt operand ts ts
  | right (h : Token.ahead ts ≠ some Connective.negation.keyword) {x : Formula String}
    {c : Connective} {us : List Token} (hx : operand ts = (.ok x, some c.keyword :: us)) :
    OperandAt operand ts us

section Operands

variable {operand : Rule (Formula String)} {ts us : List Token}

theorem inside_negated (operand : Rule (Formula String)) (us : List Token) :
    inside operand (some Connective.negation.keyword :: us) = negation operand us :=
  choose_of_ahead rfl

theorem inside_of_not_negated (h : Token.ahead ts ≠ some Connective.negation.keyword) :
    inside operand ts = application operand ts := choose_of_not_ahead h

/-- The operands are all that may nest too deeply in a bracketed formula. -/
theorem inside_nestedTooDeeply_iff :
    (inside operand ts).1 = .error .nestedTooDeeply
      ↔ ∃ us, OperandAt operand ts us ∧ (operand us).1 = .error .nestedTooDeeply := by
  constructor
  · intro h
    obtain ⟨rest, h⟩ : ∃ rest, inside operand ts = (.error .nestedTooDeeply, rest) :=
      ⟨_, Prod.ext h rfl⟩
    by_cases hahead : Token.ahead ts = some Connective.negation.keyword
    · obtain ⟨us, rfl⟩ := Token.eq_cons_of_ahead hahead
      rw [inside_negated] at h
      exact ⟨us, .negated rfl, by rw [nestedTooDeeply_of_last h]⟩
    · rw [inside_of_not_negated hahead] at h
      rcases nestedTooDeeply_of_application h with hleft | ⟨x, c, us, hx, hright⟩
      · exact ⟨ts, .left hahead, by rw [hleft]⟩
      · exact ⟨us, .right hahead hx, by rw [hright]⟩
  · rintro ⟨us, hat, h⟩
    cases hat with
    | negated hts =>
        rw [hts, inside_negated]
        exact fst_bind_of_error h _
    | left hahead =>
        rw [inside_of_not_negated hahead]
        exact fst_bind_of_error h _
    | @right hahead x c _ hx =>
        rw [inside_of_not_negated hahead, application, bind_eq, hx]
        dsimp only
        rw [bind_eq, (connective_eq_ok_iff _ c.keyword us).2 ⟨c, rfl, rfl⟩]
        exact fst_bind_of_error h _

theorem OperandAt.length_le (hsound : Sound operand) (h : OperandAt operand ts us) :
    us.length ≤ ts.length := by
  cases h with
  | negated hts => simp [hts]
  | left => exact Nat.le_refl _
  | right _ hx =>
      obtain ⟨-, hts⟩ := hsound ts _ _ hx
      rw [hts, List.length_append, List.length_cons]
      omega

section Restricted

variable {operand' : Rule (Formula String)} (hrestricts : Restricts operand operand')

include hrestricts

theorem OperandAt.mono (h : OperandAt operand ts us) : OperandAt operand' ts us := by
  cases h with
  | negated hts => exact .negated hts
  | left hahead => exact .left hahead
  | right hahead hx => exact .right hahead ((hrestricts ts (by simp [hx])).trans hx)

/-- The restricted rule looks for the same operands, unless it gives up in the left one. -/
theorem OperandAt.restrict (h : OperandAt operand' ts us) :
    OperandAt operand ts us ∨
      OperandAt operand ts ts ∧ (operand ts).1 = .error .nestedTooDeeply := by
  cases h with
  | negated hts => exact Or.inl (.negated hts)
  | left hahead => exact Or.inl (.left hahead)
  | right hahead hx =>
      by_cases hleft : (operand ts).1 = .error .nestedTooDeeply
      · exact Or.inr ⟨.left hahead, hleft⟩
      · exact Or.inl (.right hahead ((hrestricts ts hleft).symm.trans hx))

end Restricted

end Operands

theorem formula_opening (limit : Nat) (ts : List Token) :
    formula (limit + 1) (some Token.opening :: ts) = inside (formula limit) ts := by
  rw [formula_eq]
  exact bracketed_opening _ ts

theorem formula_of_not_ahead {limit : Nat} {ts : List Token}
    (h : Token.ahead ts ≠ some Token.opening) : formula limit ts = literal ts := by
  rw [formula_eq, if_neg h]

theorem literal_ne_nestedTooDeeply (ts : List Token) :
    (literal ts).1 ≠ .error .nestedTooDeeply :=
  fun h => judges_literal.ne_nestedTooDeeply (Prod.ext h rfl)

/-- Each level of nesting takes a token. -/
theorem lt_length_of_nestedTooDeeply {limit : Nat} {ts : List Token}
    (h : (formula limit ts).1 = .error .nestedTooDeeply) : limit < ts.length := by
  induction limit generalizing ts with
  | zero =>
      cases ts with
      | nil => simp [formula_nil] at h
      | cons t ts => exact Nat.zero_lt_succ _
  | succ limit ih =>
      by_cases hahead : Token.ahead ts = some Token.opening
      · obtain ⟨ts, rfl⟩ := Token.eq_cons_of_ahead hahead
        rw [formula_opening, inside_nestedTooDeeply_iff] at h
        obtain ⟨us, hat, h⟩ := h
        have hlength := hat.length_le (formula_sound limit)
        have := ih h
        rw [List.length_cons]
        omega
      · rw [formula_of_not_ahead hahead] at h
        exact absurd h (literal_ne_nestedTooDeeply ts)

/-! ## The unlimited rule -/

/-- A formula, however deep its brackets nest. -/
def unlimited : Rule (Formula String) := fun ts => formula ts.length ts

theorem unlimited_ne_nestedTooDeeply (ts : List Token) :
    (unlimited ts).1 ≠ .error .nestedTooDeeply :=
  fun h => Nat.lt_irrefl _ (lt_length_of_nestedTooDeeply h)

theorem formula_restricts_unlimited (limit : Nat) : Restricts (formula limit) unlimited := by
  intro ts h
  rcases Nat.le_total limit ts.length with hle | hle
  · exact formula_restricts_formula hle ts h
  · exact (formula_restricts_formula hle ts (unlimited_ne_nestedTooDeeply ts)).symm

theorem unlimited_eq : unlimited = formulaOf unlimited := by
  funext ts
  have hsucc : formula (ts.length + 1) ts = unlimited ts :=
    formula_restricts_formula (Nat.le_succ _) ts (unlimited_ne_nestedTooDeeply ts)
  have hroom : (formulaOf (formula ts.length) ts).1 ≠ .error .nestedTooDeeply := by
    rw [← formula_succ, hsucc]
    exact unlimited_ne_nestedTooDeeply ts
  rw [(formula_restricts_unlimited ts.length).formulaOf ts hroom, ← formula_succ, hsucc]

/-- **What it is to read without a limit.** The unlimited rule is the only one that reads a formula
    by reading its operands as it reads the formula. -/
theorem eq_unlimited_iff {rule : Rule (Formula String)} :
    rule = unlimited ↔ rule = formulaOf rule := by
  constructor
  · rintro rfl
    exact unlimited_eq
  · intro hrule
    funext ts
    exact formula_restricts hrule ts.length ts (unlimited_ne_nestedTooDeeply ts)

theorem sound_unlimited : Sound unlimited := fun ts => formula_sound ts.length ts

theorem unlimited_opening (ts : List Token) :
    unlimited (some Token.opening :: ts) = inside unlimited ts := by
  have hahead : Token.ahead (some Token.opening :: ts) = some Token.opening := rfl
  rw [← bracketed_opening]
  exact (congrFun unlimited_eq _).trans (choose_of_ahead hahead)

theorem unlimited_of_not_ahead {ts : List Token} (h : Token.ahead ts ≠ some Token.opening) :
    unlimited ts = literal ts := formula_of_not_ahead h

end Rule

/-- The formula that the tokens form, however deep their brackets nest. -/
def parseUnlimited (tokens : List Token) : Except Fault (Formula String) :=
  parseWithin tokens.length tokens

end PropDiagram

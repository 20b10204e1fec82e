import PropDiagram.Proofs.Formula.Grammar

set_option autoImplicit false

/-! # Which fault is reported

A token list is viable if it begins some list that is accepted. The parser judges each token as it
comes: it asks for more tokens exactly while what it has seen is viable, and it refuses a token that
no continuation could mend at that token, so that nothing behind it matters.

That is a property of rules, `Prompt`, which the combinators keep. Choosing by the token ahead keeps
it only because the rule taken at the end of the tokens asks for a token there. -/

namespace PropDiagram

namespace Rule

variable {α β : Type}

theorem bind_eq_error_iff (x : Rule α) (f : α → Rule β) (ts : List Token) (e : Fault)
    (rest : List Token) :
    (x >>= f) ts = (.error e, rest)
      ↔ x ts = (.error e, rest) ∨ ∃ a mid, x ts = (.ok a, mid) ∧ f a mid = (.error e, rest) := by
  rw [bind_eq]
  constructor
  · intro h
    split at h
    · next a mid hx => exact Or.inr ⟨a, mid, hx, h⟩
    · next e' mid hx =>
        rw [Prod.mk.injEq, Except.error.injEq] at h
        left
        rw [hx, h.1, h.2]
  · rintro (hx | ⟨a, mid, hx, hf⟩)
    · rw [hx]
    · rw [hx]
      exact hf

/-! ## Prompt rules -/

/-- The rule judges each token as it comes. -/
structure Prompt (rule : Rule α) : Prop where
  /-- Unless the tokens end too early, what follows them makes no difference and stays unread. -/
  steady : ∀ (ts : List Token) (r : Except Fault α) (rest : List Token), rule ts = (r, rest) →
    r ≠ .error .endOfInput → ∀ us : List Token, rule (ts ++ us) = (r, rest ++ us)
  /-- Where the tokens end too early, further texts complete them. -/
  completes : ∀ ts rest : List Token, rule ts = (.error .endOfInput, rest) →
    ∃ (us : List String) (a : α), rule (ts ++ us.map some) = (.ok a, [])
  /-- No other fault than these is reported. -/
  faults : ∀ (ts : List Token) (e : Fault) (rest : List Token), rule ts = (.error e, rest) →
    e = .endOfInput ∨ e = .nestedTooDeeply ∨ e.kind = .malformed

/-- A prompt rule that can succeed. -/
structure Productive (rule : Rule α) : Prop extends Prompt rule where
  /-- Some texts are read to the last. -/
  starts : ∃ (us : List String) (a : α), rule (us.map some) = (.ok a, [])

theorem Prompt.steady_ok {rule : Rule α} (hrule : Prompt rule) {ts rest : List Token} {a : α}
    (h : rule ts = (.ok a, rest)) (us : List Token) : rule (ts ++ us) = (.ok a, rest ++ us) :=
  hrule.steady ts _ rest h (by simp) us

theorem Prompt.steady_error {rule : Rule α} (hrule : Prompt rule) {ts rest : List Token}
    {e : Fault} (h : rule ts = (.error e, rest)) (he : e ≠ .endOfInput) (us : List Token) :
    rule (ts ++ us) = (.error e, rest ++ us) :=
  hrule.steady ts _ rest h (by simpa using he) us

theorem productive_pure (a : α) : Productive (pure a : Rule α) where
  steady := by
    intro ts r rest h _ us
    rw [pure_eq, Prod.mk.injEq] at h
    rw [pure_eq, h.1, h.2]
  completes := by
    intro ts rest h
    simp [pure_eq] at h
  faults := by
    intro ts e rest h
    simp [pure_eq] at h
  starts := ⟨[], a, rfl⟩

theorem prompt_fail {e : Fault} (he : e = .nestedTooDeeply ∨ e.kind = .malformed) :
    Prompt (fail e : Rule α) where
  steady := by
    intro ts r rest h _ us
    rw [fail, Prod.mk.injEq] at h
    rw [fail, h.1, h.2]
  completes := by
    intro ts rest h
    rw [fail, Prod.mk.injEq, Except.error.injEq] at h
    rw [h.1] at he
    simp [Fault.kind] at he
  faults := by
    intro ts e' rest h
    rw [fail, Prod.mk.injEq, Except.error.injEq] at h
    rw [← h.1]
    exact Or.inr he

theorem productive_next : Productive next where
  steady := by
    intro ts r rest h hr us
    cases ts with
    | nil =>
        rw [next, Prod.mk.injEq] at h
        exact absurd h.1.symm hr
    | cons t ts =>
        rw [next, Prod.mk.injEq] at h
        rw [List.cons_append, next, h.1, h.2]
  completes := by
    intro ts rest h
    cases ts with
    | nil => exact ⟨["x"], some "x", rfl⟩
    | cons t ts => simp [next] at h
  faults := by
    intro ts e rest h
    cases ts with
    | nil =>
        rw [next, Prod.mk.injEq, Except.error.injEq] at h
        exact Or.inl h.1.symm
    | cons t ts => simp [next] at h
  starts := ⟨["x"], some "x", rfl⟩

theorem Productive.bind {x : Rule α} {f : α → Rule β} (hx : Productive x)
    (hf : ∀ a, Productive (f a)) : Productive (x >>= f) where
  steady := by
    intro ts r rest h hr us
    cases r with
    | ok b =>
        obtain ⟨a, mid, hxa, hfa⟩ := (bind_eq_ok_iff x f ts b rest).1 h
        exact (bind_eq_ok_iff x f _ b _).2
          ⟨a, mid ++ us, hx.steady_ok hxa us, (hf a).steady_ok hfa us⟩
    | error e =>
        have he : e ≠ .endOfInput := by
          rintro rfl
          exact hr rfl
        refine (bind_eq_error_iff x f _ e _).2 ?_
        rcases (bind_eq_error_iff x f ts e rest).1 h with hxe | ⟨a, mid, hxa, hfe⟩
        · exact Or.inl (hx.steady_error hxe he us)
        · exact Or.inr ⟨a, mid ++ us, hx.steady_ok hxa us, (hf a).steady_error hfe he us⟩
  completes := by
    intro ts rest h
    rcases (bind_eq_error_iff x f ts _ rest).1 h with hxe | ⟨a, mid, hxa, hfe⟩
    · -- The tokens end inside `x`: complete it, and start what comes after it.
      obtain ⟨us, a, hxa⟩ := hx.completes ts rest hxe
      obtain ⟨vs, b, hfb⟩ := (hf a).starts
      refine ⟨us ++ vs, b, (bind_eq_ok_iff x f _ b _).2 ⟨a, vs.map some, ?_, hfb⟩⟩
      rw [List.map_append, ← List.append_assoc]
      exact hx.steady_ok hxa (vs.map some)
    · obtain ⟨us, b, hfb⟩ := (hf a).completes mid rest hfe
      exact ⟨us, b, (bind_eq_ok_iff x f _ b _).2 ⟨a, _, hx.steady_ok hxa _, hfb⟩⟩
  faults := by
    intro ts e rest h
    rcases (bind_eq_error_iff x f ts e rest).1 h with hxe | ⟨a, mid, -, hfe⟩
    · exact hx.faults ts e rest hxe
    · exact (hf a).faults mid e rest hfe
  starts := by
    obtain ⟨us, a, hxa⟩ := hx.starts
    obtain ⟨vs, b, hfb⟩ := (hf a).starts
    refine ⟨us ++ vs, b, (bind_eq_ok_iff x f _ b _).2 ⟨a, vs.map some, ?_, hfb⟩⟩
    rw [List.map_append]
    exact hx.steady_ok hxa (vs.map some)

/-! ## Single tokens -/

/-- Every token is either taken or malformed, and some text is taken. -/
structure Judges (f : Token → Rule α) : Prop where
  verdict : ∀ t, (∃ a, f t = pure a) ∨ ∃ e : Fault, e.kind = .malformed ∧ f t = fail e
  accepts : ∃ (s : String) (a : α), f (some s) = pure a

theorem Judges.error {f : Token → Rule α} (hf : Judges f) {ts rest : List Token} {e : Fault}
    (h : (next >>= f) ts = (.error e, rest)) : (ts = [] ∧ e = .endOfInput) ∨ e.kind = .malformed := by
  cases ts with
  | nil =>
      rw [bind_eq, next, Prod.mk.injEq, Except.error.injEq] at h
      exact Or.inl ⟨rfl, h.1.symm⟩
  | cons t ts =>
      right
      rw [bind_eq, next] at h
      dsimp only at h
      rcases hf.verdict t with ⟨a, ht⟩ | ⟨e', he', ht⟩
      · simp [ht, pure_eq] at h
      · rw [ht, fail, Prod.mk.injEq, Except.error.injEq] at h
        rw [← h.1]
        exact he'

theorem Judges.ne_nestedTooDeeply {f : Token → Rule α} (hf : Judges f) {ts rest : List Token} :
    (next >>= f) ts ≠ (.error .nestedTooDeeply, rest) := by
  intro h
  rcases hf.error h with ⟨-, h⟩ | h
  · simp at h
  · simp [Fault.kind] at h

theorem Judges.prompt {f : Token → Rule α} (hf : Judges f) (t : Token) : Prompt (f t) := by
  rcases hf.verdict t with ⟨a, ht⟩ | ⟨e, he, ht⟩
  · rw [ht]
    exact (productive_pure a).toPrompt
  · rw [ht]
    exact prompt_fail (Or.inr he)

theorem Judges.starts {f : Token → Rule α} (hf : Judges f) :
    ∃ (us : List String) (a : α), (next >>= f) (us.map some) = (.ok a, []) := by
  obtain ⟨s, a, hs⟩ := hf.accepts
  refine ⟨[s], a, ?_⟩
  show f (some s) [] = (.ok a, [])
  rw [hs, pure_eq]

theorem Judges.productive {f : Token → Rule α} (hf : Judges f) : Productive (next >>= f) where
  steady := by
    intro ts r rest h hr us
    cases ts with
    | nil =>
        rw [bind_eq, next, Prod.mk.injEq] at h
        exact absurd h.1.symm hr
    | cons t ts => exact (hf.prompt t).steady ts r rest h hr us
  completes := by
    intro ts rest h
    rcases hf.error h with ⟨rfl, -⟩ | h
    · exact hf.starts
    · simp [Fault.kind] at h
  faults := by
    intro ts e rest h
    rcases hf.error h with ⟨-, h⟩ | h
    · exact Or.inl h
    · exact Or.inr (Or.inr h)
  starts := hf.starts

theorem judges_expect (s : String) {e : Fault} (he : e.kind = .malformed) :
    Judges fun t => (if t = some s then pure () else fail e : Rule Unit) where
  verdict := by
    intro t
    by_cases ht : t = some s
    · exact Or.inl ⟨(), if_pos ht⟩
    · exact Or.inr ⟨e, he, if_neg ht⟩
  accepts := ⟨s, (), if_pos rfl⟩

theorem judges_literal : Judges fun t => (match t with
    | some s => if Token.isName s then pure (.literal s) else fail (.operandExpected (some s))
    | none => fail (.operandExpected none) : Rule (Formula String)) where
  verdict := by
    intro t
    cases t with
    | none => exact Or.inr ⟨.operandExpected none, rfl, rfl⟩
    | some s =>
        by_cases hs : Token.isName s = true
        · exact Or.inl ⟨.literal s, if_pos hs⟩
        · exact Or.inr ⟨.operandExpected (some s), rfl, if_neg hs⟩
  accepts := ⟨"x", .literal "x", if_pos (by decide)⟩

theorem judges_connective : Judges fun t => (match t with
    | some s => if Token.isKeyword s then pure s else fail (.connectiveExpected (some s))
    | none => fail (.connectiveExpected none) : Rule String) where
  verdict := by
    intro t
    cases t with
    | none => exact Or.inr ⟨.connectiveExpected none, rfl, rfl⟩
    | some s =>
        by_cases hs : Token.isKeyword s = true
        · exact Or.inl ⟨s, if_pos hs⟩
        · exact Or.inr ⟨.connectiveExpected (some s), rfl, if_neg hs⟩
  accepts := ⟨"AND", "AND", if_pos (by decide)⟩

theorem productive_literal : Productive literal := judges_literal.productive

theorem productive_opening : Productive opening :=
  (judges_expect Token.opening (e := .openingExpected) rfl).productive

theorem productive_closing : Productive closing :=
  (judges_expect Token.closing (e := .closingExpected) rfl).productive

theorem productive_connective : Productive connective := judges_connective.productive

/-! ## Choosing by the token ahead -/

section Choice

variable {s : String} {x y : Rule α} {ts : List Token}

theorem choose_of_ahead (h : Token.ahead ts = some s) :
    (peek >>= fun t => if t = some s then x else y) ts = x ts := by
  rw [bind_eq]
  dsimp only [peek]
  rw [if_pos h]

theorem choose_of_not_ahead (h : Token.ahead ts ≠ some s) :
    (peek >>= fun t => if t = some s then x else y) ts = y ts := by
  rw [bind_eq]
  dsimp only [peek]
  rw [if_neg h]

/-- At the end of the tokens the choice falls on `y`, which a further token could still change. That
    does no harm, since `y` asks for a token there. -/
theorem Prompt.choose (hx : Prompt x) (hy : Prompt y) (hnil : y [] = (.error .endOfInput, []))
    (hstart : ∃ (us : List String) (a : α),
      (peek >>= fun t => if t = some s then x else y) (us.map some) = (.ok a, [])) :
    Productive (peek >>= fun t => if t = some s then x else y) where
  steady := by
    intro ts r rest h hr us
    cases ts with
    | nil =>
        rw [choose_of_not_ahead (by simp [Token.ahead]), hnil, Prod.mk.injEq] at h
        exact absurd h.1.symm hr
    | cons t ts =>
        by_cases ht : Token.ahead (t :: ts) = some s
        · rw [choose_of_ahead ht] at h
          refine (choose_of_ahead ?_).trans (hx.steady _ r rest h hr us)
          exact ht
        · rw [choose_of_not_ahead ht] at h
          refine (choose_of_not_ahead ?_).trans (hy.steady _ r rest h hr us)
          exact ht
  completes := by
    intro ts rest h
    cases ts with
    | nil => exact hstart
    | cons t ts =>
        by_cases ht : Token.ahead (t :: ts) = some s
        · rw [choose_of_ahead ht] at h
          obtain ⟨us, a, hread⟩ := hx.completes _ rest h
          refine ⟨us, a, (choose_of_ahead ?_).trans hread⟩
          exact ht
        · rw [choose_of_not_ahead ht] at h
          obtain ⟨us, a, hread⟩ := hy.completes _ rest h
          refine ⟨us, a, (choose_of_not_ahead ?_).trans hread⟩
          exact ht
  faults := by
    intro ts e rest h
    by_cases hahead : Token.ahead ts = some s
    · rw [choose_of_ahead hahead] at h
      exact hx.faults ts e rest h
    · rw [choose_of_not_ahead hahead] at h
      exact hy.faults ts e rest h
  starts := hstart

end Choice

/-! ## The grammar -/

theorem Productive.negation {operand : Rule (Formula String)} (h : Productive operand) :
    Productive (negation operand) :=
  h.bind fun _ => productive_closing.bind fun _ => productive_pure _

theorem Productive.application {operand : Rule (Formula String)} (h : Productive operand) :
    Productive (application operand) :=
  h.bind fun _ => productive_connective.bind fun _ => h.bind fun _ =>
    productive_closing.bind fun _ => productive_pure _

theorem Productive.bracketed {operand : Rule (Formula String)} (h : Productive operand)
    (hnil : operand [] = (.error .endOfInput, [])) : Productive (bracketed operand) := by
  have hnot : Productive (next >>= fun _ => Rule.negation operand) :=
    productive_next.bind fun _ => h.negation
  have happ : Rule.application operand [] = (.error .endOfInput, []) := by
    rw [Rule.application, bind_eq, hnil]
  refine productive_opening.bind fun _ => hnot.toPrompt.choose h.application.toPrompt happ ?_
  obtain ⟨us, f, hread⟩ := h.negation.starts
  exact ⟨Connective.negation.keyword :: us, f, hread⟩

theorem formula_nil (limit : Nat) : formula limit [] = (.error .endOfInput, []) := by
  rw [formula_eq]
  rfl

theorem productive_formula (limit : Nat) : Productive (formula limit) := by
  have hlimited : Prompt (fail .nestedTooDeeply : Rule (Formula String)) :=
    prompt_fail (Or.inl rfl)
  induction limit with
  | zero =>
      exact hlimited.choose productive_literal.toPrompt rfl ⟨["x"], .literal "x", by decide⟩
  | succ limit ih =>
      exact (ih.bracketed (formula_nil limit)).toPrompt.choose productive_literal.toPrompt rfl
        ⟨["x"], .literal "x", rfl⟩

/-! ## Room for nesting -/

/-- The last operand of a bracketed formula is all that can nest too deeply before the bracket
    closes. -/
theorem nestedTooDeeply_of_last {operand : Rule (Formula String)}
    {finish : Formula String → Formula String} {ts rest : List Token}
    (h : (operand >>= fun x => closing >>= fun _ => pure (finish x) : Rule (Formula String)) ts
      = (.error .nestedTooDeeply, rest)) :
    operand ts = (.error .nestedTooDeeply, rest) := by
  rw [bind_eq_error_iff] at h
  rcases h with h | ⟨x, mid, -, h⟩
  · exact h
  · rw [bind_eq_error_iff] at h
    rcases h with h | ⟨_, _, -, h⟩
    · exact absurd h (judges_expect Token.closing rfl).ne_nestedTooDeeply
    · simp [pure_eq] at h

theorem nestedTooDeeply_of_application {operand : Rule (Formula String)} {ts rest : List Token}
    (h : application operand ts = (.error .nestedTooDeeply, rest)) :
    operand ts = (.error .nestedTooDeeply, rest) ∨
      ∃ (x : Formula String) (c : Connective) (mid : List Token),
        operand ts = (.ok x, some c.keyword :: mid)
          ∧ operand mid = (.error .nestedTooDeeply, rest) := by
  rw [application, bind_eq_error_iff] at h
  rcases h with h | ⟨x, _, hx, h⟩
  · exact Or.inl h
  · rw [bind_eq_error_iff] at h
    rcases h with h | ⟨op, mid, hop, h⟩
    · exact absurd h judges_connective.ne_nestedTooDeeply
    · obtain ⟨c, rfl, rfl⟩ := (connective_eq_ok_iff _ op mid).1 hop
      exact Or.inr ⟨x, c, mid, hx, nestedTooDeeply_of_last h⟩

/-- The rule gives up on nesting only where the brackets nest more than `limit` deep. -/
def Roomy (limit : Nat) (rule : Rule (Formula String)) : Prop :=
  ∀ (tokens : List String) (rest : List Token),
    rule (tokens.map some) = (.error .nestedTooDeeply, rest) →
      ∀ n, n + limit < Token.peak n tokens

theorem Roomy.bracketed {limit : Nat} {operand : Rule (Formula String)}
    (hroom : Roomy limit operand) (hsound : Sound operand) :
    Roomy (limit + 1) (bracketed operand) := by
  intro tokens rest h n
  rw [Rule.bracketed, bind_eq_error_iff] at h
  rcases h with h | ⟨u, mid, hopen, h⟩
  · exact absurd h (judges_expect Token.opening rfl).ne_nestedTooDeeply
  · obtain ⟨s, inner, rfl, hs, rfl⟩ := List.map_eq_cons_iff.1 ((opening_eq_ok_iff _ u mid).1 hopen)
    obtain rfl := Option.some.inj hs
    -- All that follows the bracket is read with one more bracket unmatched.
    suffices hinner : n + 1 + limit < Token.peak (n + 1) inner by
      simp only [Token.peak, Token.unmatchedAfter_opening]
      omega
    by_cases hahead : Token.ahead (inner.map some) = some Connective.negation.keyword
    · rw [choose_of_ahead hahead] at h
      cases inner with
      | nil => simp [Token.ahead] at hahead
      | cons t inner =>
          obtain rfl := Option.some.inj hahead
          have hdeep := hroom inner rest (nestedTooDeeply_of_last h) (n + 1)
          simp only [Token.peak, Token.unmatchedAfter_keyword]
          omega
    · rw [choose_of_not_ahead hahead] at h
      rcases nestedTooDeeply_of_application h with hx | ⟨x, c, mid, hx, hy⟩
      · exact hroom inner rest hx (n + 1)
      · obtain ⟨hgram, left, rfl, hmid⟩ := hsound.texts hx
        obtain ⟨s, left, rfl, hs, rfl⟩ := List.map_eq_cons_iff.1 hmid.symm
        obtain rfl := Option.some.inj hs
        have hdeep := hroom left rest hy (n + 1)
        rw [Token.peak_append, (hgram.nesting (n + 1)).1]
        simp only [Token.peak, Token.unmatchedAfter_keyword]
        omega

theorem roomy_formula (limit : Nat) : Roomy limit (formula limit) := by
  have hliteral (tokens : List String) (rest : List Token) :
      literal (tokens.map some) ≠ (.error .nestedTooDeeply, rest) :=
    judges_literal.ne_nestedTooDeeply
  induction limit with
  | zero =>
      intro tokens rest h n
      rw [formula_eq] at h
      split at h
      · next hahead =>
          cases tokens with
          | nil => simp [Token.ahead] at hahead
          | cons s tokens =>
              obtain rfl := Option.some.inj hahead
              have := Token.le_peak (n + 1) tokens
              simp only [Token.peak, Token.unmatchedAfter_opening]
              omega
      · exact absurd h (hliteral tokens rest)
  | succ limit ih =>
      intro tokens rest h n
      rw [formula_eq] at h
      split at h
      · exact ih.bracketed (formula_sound limit) tokens rest h n
      · exact absurd h (hliteral tokens rest)

end Rule

/-! ## Whole sequences -/

/-- The tokens form a formula. -/
def Accepted (limit : Nat) (tokens : List String) : Prop :=
  ∃ f, parseWithin limit (tokens.map some) = .ok f

/-- The tokens begin a list that is accepted. -/
def Viable (limit : Nat) (tokens : List String) : Prop :=
  ∃ rest : List String, Accepted limit (tokens ++ rest)

/-- Some of the tokens, but not all, already form a formula. -/
def AcceptedEarly (limit : Nat) (tokens : List String) : Prop :=
  ∃ start, start <+: tokens ∧ start ≠ tokens ∧ Accepted limit start

/-- What reading the tokens comes to: the kind of the fault, or none if a formula is read. -/
def verdict (limit : Nat) (tokens : List String) : Option FaultKind :=
  match parseWithin limit (tokens.map some) with
  | .ok _ => none
  | .error e => some e.kind

section Verdict

variable {limit : Nat} {tokens : List String}

theorem parseWithin_of_error {ts rest : List Token} {e : Fault}
    (h : Rule.formula limit ts = (.error e, rest)) : parseWithin limit ts = .error e := by
  rw [parseWithin, h]

theorem parseWithin_of_left {ts : List Token} {f : Formula String} {s : String}
    {left : List Token} (h : Rule.formula limit ts = (.ok f, some s :: left)) :
    parseWithin limit ts = .error .trailingInput := by
  rw [parseWithin, h]
  rfl

theorem accepted_iff :
    Accepted limit tokens ↔ ∃ f, Rule.formula limit (tokens.map some) = (.ok f, []) :=
  exists_congr fun _ => parseWithin_eq_ok_iff

/-- A list that extends an accepted one is read as that one is: no formula begins another. -/
theorem acceptedEarly_iff (hnesting : Token.nesting tokens ≤ limit) :
    AcceptedEarly limit tokens
      ↔ ∃ f t rest, Rule.formula limit (tokens.map some) = (.ok f, t :: rest) := by
  constructor
  · rintro ⟨start, ⟨left, rfl⟩, hproper, haccepted⟩
    obtain ⟨f, hread⟩ := accepted_iff.1 haccepted
    have hreadAll := (Rule.productive_formula limit).steady_ok hread (left.map some)
    cases left with
    | nil => simp at hproper
    | cons s left =>
        rw [List.map_append]
        exact ⟨f, some s, left.map some, hreadAll⟩
  · rintro ⟨f, t, rest, hread⟩
    obtain ⟨hgram, left, rfl, hleft⟩ := (Rule.formula_sound limit).texts hread
    have hroom : Token.nesting f.tokens ≤ limit := by
      rw [Token.nesting, Token.peak_append] at hnesting
      rw [Token.nesting]
      omega
    refine ⟨f.tokens, List.prefix_append _ _, ?_, f, parseWithin_tokens hgram hroom⟩
    intro heq
    rw [List.self_eq_append_right.1 heq] at hleft
    simp at hleft

/-- What is being read stays viable until a token is refused or a formula is complete. -/
theorem viable_iff :
    Viable limit tokens
      ↔ (∃ f, Rule.formula limit (tokens.map some) = (.ok f, []))
        ∨ ∃ rest, Rule.formula limit (tokens.map some) = (.error .endOfInput, rest) := by
  have hformula := Rule.productive_formula limit
  constructor
  · rintro ⟨more, haccepted⟩
    obtain ⟨f, hreadAll⟩ := accepted_iff.1 haccepted
    rw [List.map_append] at hreadAll
    rcases hread : Rule.formula limit (tokens.map some) with ⟨r, rest⟩
    cases r with
    | ok g =>
        rw [hformula.steady_ok hread, Prod.mk.injEq] at hreadAll
        rw [(List.append_eq_nil_iff.1 hreadAll.2).1]
        exact Or.inl ⟨g, rfl⟩
    | error e =>
        by_cases he : e = .endOfInput
        · rw [he]
          exact Or.inr ⟨rest, rfl⟩
        · rw [hformula.steady_error hread he] at hreadAll
          simp at hreadAll
  · rintro (hread | ⟨rest, hread⟩)
    · refine ⟨[], ?_⟩
      rw [List.append_nil]
      exact accepted_iff.2 hread
    · obtain ⟨more, f, hreadAll⟩ := hformula.completes _ rest hread
      refine ⟨more, accepted_iff.2 ⟨f, ?_⟩⟩
      rw [List.map_append]
      exact hreadAll

/-- What the rule comes to when there is room for all brackets: it reads everything or leaves tokens,
    or the input ends too early or is malformed. -/
theorem formula_outcomes (hnesting : Token.nesting tokens ≤ limit)
    {r : Except Fault (Formula String)} {rest : List Token}
    (hread : Rule.formula limit (tokens.map some) = (r, rest)) :
    (∃ f, r = .ok f ∧ rest = []) ∨ (∃ f s left, r = .ok f ∧ rest = some s :: left) ∨
      ∃ e, r = .error e ∧ (e = .endOfInput ∨ e.kind = .malformed) := by
  cases r with
  | ok f =>
      obtain ⟨-, left, -, rfl⟩ := (Rule.formula_sound limit).texts hread
      cases left with
      | nil => exact Or.inl ⟨f, rfl, rfl⟩
      | cons s left => exact Or.inr (Or.inl ⟨f, s, left.map some, rfl, rfl⟩)
  | error e =>
      rcases (Rule.productive_formula limit).faults _ e rest hread with he | rfl | he
      · exact Or.inr (Or.inr ⟨e, rfl, Or.inl he⟩)
      · have := Rule.roomy_formula limit tokens rest hread 0
        rw [Token.nesting] at hnesting
        omega
      · exact Or.inr (Or.inr ⟨e, rfl, Or.inr he⟩)

/-- The kinds of fault that are left when there is room for all brackets. -/
theorem kind_of_parseWithin_error (hnesting : Token.nesting tokens ≤ limit) {e : Fault}
    (h : parseWithin limit (tokens.map some) = .error e) :
    e.kind = .endOfInput ∨ e.kind = .trailingInput ∨ e.kind = .malformed := by
  rcases hread : Rule.formula limit (tokens.map some) with ⟨r, rest⟩
  rcases formula_outcomes hnesting hread with ⟨f, rfl, rfl⟩ | ⟨f, s, left, rfl, rfl⟩ |
    ⟨e', rfl, he⟩
  · rw [parseWithin_eq_ok_iff.2 hread] at h
    cases h
  · rw [parseWithin_of_left hread] at h
    cases h
    exact Or.inr (Or.inl rfl)
  · rw [parseWithin_of_error hread] at h
    cases h
    rcases he with rfl | he
    · exact Or.inl rfl
    · exact Or.inr (Or.inr he)

/-- **Prefixes decide which fault is reported.** Of tokens whose brackets nest within the limit, a
    formula is read, or the input ends too early, or too late, or it is malformed. It ends too early
    exactly if the tokens are viable but not accepted, and too late exactly if a proper prefix is
    accepted. It is malformed exactly if the tokens are not viable and no proper prefix is accepted;
    and then the same fault is reported whatever follows them. -/
theorem verdict_by_prefixes (hnesting : Token.nesting tokens ≤ limit) :
    verdict limit tokens ∈ [none, some .endOfInput, some .trailingInput, some .malformed] ∧
    (verdict limit tokens = none ↔ Accepted limit tokens) ∧
    (verdict limit tokens = some .endOfInput
      ↔ Viable limit tokens ∧ ¬ Accepted limit tokens) ∧
    (verdict limit tokens = some .trailingInput ↔ AcceptedEarly limit tokens) ∧
    (verdict limit tokens = some .malformed
      ↔ ¬ Viable limit tokens ∧ ¬ AcceptedEarly limit tokens) ∧
    (verdict limit tokens = some .malformed →
      ∃ e : Fault, e.kind = .malformed ∧
        ∀ rest : List Token, parseWithin limit (tokens.map some ++ rest) = .error e) := by
  rw [accepted_iff, viable_iff, acceptedEarly_iff hnesting]
  rcases hread : Rule.formula limit (tokens.map some) with ⟨r, rest⟩
  rcases formula_outcomes hnesting hread with ⟨f, rfl, rfl⟩ | ⟨f, s, left, rfl, rfl⟩ |
    ⟨e, rfl, rfl | he⟩
  · rw [verdict, parseWithin_eq_ok_iff.2 hread]
    simp
  · rw [verdict, parseWithin_of_left hread]
    simp [Fault.kind]
  · rw [verdict, parseWithin_of_error hread]
    simp [Fault.kind]
  · have hend : e ≠ .endOfInput := by
      rintro rfl
      simp [Fault.kind] at he
    have hsame (rest' : List Token) : parseWithin limit (tokens.map some ++ rest') = .error e :=
      parseWithin_of_error ((Rule.productive_formula limit).steady_error hread hend rest')
    rw [verdict, parseWithin_of_error hread]
    simpa [he, hend] using ⟨e, he, hsame⟩

/-- A missing connective is met before the brackets that are missing behind it, and nothing that
    follows mends it. -/
theorem verdict_missing_connective :
    Token.nesting ["(", "(", "A", "B", ")", "AND", "(", "C"] ≤ nestingLimit ∧
    ¬ Viable nestingLimit ["(", "(", "A", "B", ")", "AND", "(", "C"] ∧
    ∀ rest : List Token, parse (["(", "(", "A", "B", ")", "AND", "(", "C"].map some ++ rest)
      = .error (.connectiveExpected (some "B")) := by
  have hnesting : Token.nesting ["(", "(", "A", "B", ")", "AND", "(", "C"] ≤ nestingLimit := by
    decide
  have hread : parse (["(", "(", "A", "B", ")", "AND", "(", "C"].map some)
      = .error (.connectiveExpected (some "B")) := by
    rfl
  have hverdict : verdict nestingLimit ["(", "(", "A", "B", ")", "AND", "(", "C"]
      = some .malformed := by
    rfl
  obtain ⟨-, -, -, -, hmalformed, hsame⟩ := verdict_by_prefixes hnesting
  refine ⟨hnesting, (hmalformed.1 hverdict).1, ?_⟩
  obtain ⟨e, -, he⟩ := hsame hverdict
  have halone := he []
  rw [List.append_nil] at halone
  rw [show e = .connectiveExpected (some "B") from Except.error.inj (halone.symm.trans hread)] at he
  exact he

end Verdict

end PropDiagram

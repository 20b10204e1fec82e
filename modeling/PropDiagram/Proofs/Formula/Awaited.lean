import PropDiagram.Proofs.Formula.Viability

set_option autoImplicit false

/-! # What the parser waits for

Where tokens that begin a formula end too early, the parser waits for one of three things: an operand,
a connective or a closing bracket. This decides which tokens it would take next, and it decides what
it reports of a token that it does not take (`Rule.Awaits`). So the report is true: the tokens before
the refused one can go on with what the message asks for, and not with what the other messages ask for
(`refusal_names_awaited`).

That a rule waits for one thing at a time is kept by sequencing and by choosing on the token ahead
(`Rule.Attentive`). An opening bracket is never waited for: it is only asked for where it is known to
stand. -/

namespace PropDiagram

/-! ## Three things to wait for -/

theorem append_ne_of_not_prefix {start s : String} (h : ¬ start.toList <+: s.toList) (t : String) :
    start ++ t ≠ s := by
  rintro rfl
  rw [String.toList_append] at h
  exact h (List.prefix_append _ _)

/-- What the parser may wait for. -/
inductive Awaited where
  | operand
  | connective
  | closing
deriving DecidableEq, Repr

namespace Awaited

/-- The fault of a token that is none of what is awaited. -/
def fault : Awaited → Token → Fault
  | operand, t => .operandExpected t
  | connective, t => .connectiveExpected t
  | closing, _ => .closingExpected

/-- What is said of the text `x` where it is none of what is awaited. -/
def complaint : Awaited → (x : String) → String
  | operand, x => "Expected a literal or a formula, got '" ++ x ++ "'."
  | connective, x => "'" ++ x ++ "' is not a valid operator."
  | closing, _ => "Expected a closing bracket."

theorem message_fault (k : Awaited) (t : Token) :
    (k.fault t).message = k.complaint (Fault.tokenText t) := by
  cases k <;> rfl

theorem complaint_ne (k : Awaited) (x : String) :
    k.complaint x ≠ "Expected an opening bracket." := by
  cases k with
  | operand =>
      show "Expected a literal or a formula, got '" ++ x ++ "'." ≠ _
      rw [String.append_assoc]
      exact append_ne_of_not_prefix (by decide +kernel) _
  | connective =>
      show "'" ++ x ++ "' is not a valid operator." ≠ _
      rw [String.append_assoc]
      exact append_ne_of_not_prefix (by decide +kernel) _
  | closing => exact show "Expected a closing bracket." ≠ _ by decide

/-- The texts that stand for what is awaited: all literals for an operand, and one keyword for a
    connective. -/
def Samples : Awaited → String → Prop
  | operand, s => Token.isName s = true
  | connective, s => s = Connective.conjunction.keyword
  | closing, s => s = Token.closing

theorem exists_samples (k : Awaited) : ∃ s, k.Samples s := by
  cases k with
  | operand => exact ⟨"x", show Token.isName "x" = true by decide⟩
  | connective => exact ⟨_, rfl⟩
  | closing => exact ⟨_, rfl⟩

/-- The tokens that are taken wherever this is awaited. -/
def Admits : Awaited → Token → Prop
  | operand, t => t.isLiteral = true
  | connective, t => ∃ c : Connective, t = some c.keyword
  | closing, t => t = some Token.closing

/-- The tokens that are refused wherever this is awaited. Whether an operand may start with a bracket
    depends on the room for nesting, and after a bracket the negation keyword is no operand. -/
def Refuses : Awaited → Token → Prop
  | operand, t => t.isLiteral = false ∧ t ≠ some Token.opening ∧
      t ≠ some Connective.negation.keyword
  | connective, t => ∀ c : Connective, t ≠ some c.keyword
  | closing, t => t ≠ some Token.closing

theorem Samples.admits {k : Awaited} {s : String} (h : k.Samples s) : k.Admits (some s) := by
  cases k with
  | operand => exact h
  | connective => exact ⟨.conjunction, congrArg some h⟩
  | closing => exact congrArg some h

theorem Samples.refuses {j k : Awaited} {s : String} (h : j.Samples s) (hne : j ≠ k) :
    k.Refuses (some s) := by
  cases j with
  | operand =>
      have hname : Token.isName s = true := h
      cases k with
      | operand => exact absurd rfl hne
      | connective => exact fun c hc => Token.ne_keyword_of_isName hname c (Option.some.inj hc)
      | closing => exact fun hs => Token.ne_closing_of_isName hname (Option.some.inj hs)
  | connective =>
      obtain rfl : s = Connective.conjunction.keyword := h
      cases k with
      | operand => exact ⟨by decide, by decide, by decide⟩
      | connective => exact absurd rfl hne
      | closing => exact show some Connective.conjunction.keyword ≠ some Token.closing by decide
  | closing =>
      obtain rfl : s = Token.closing := h
      cases k with
      | operand => exact ⟨by decide, by decide, by decide⟩
      | connective =>
          intro c
          cases c <;> decide
      | closing => exact absurd rfl hne

end Awaited

namespace Rule

variable {α β : Type}

/-! ## Rules that wait -/

/-- All tokens were read: they sufficed, or more are asked for. -/
def Taken (r : Except Fault α × List Token) : Prop :=
  (∃ a, r = (.ok a, [])) ∨ ∃ rest, r = (.error .endOfInput, rest)

/-- After these tokens, the rule waits for `k`. -/
structure Awaits (rule : Rule α) (ts : List Token) (k : Awaited) : Prop where
  admitted : ∀ t, k.Admits t → Taken (rule (ts ++ [t]))
  refused : ∀ t, k.Refuses t → (rule (ts ++ [t])).1 = .error (k.fault t)
  cases : ∀ t, Taken (rule (ts ++ [t])) ∨ (rule (ts ++ [t])).1 = .error .nestedTooDeeply ∨
    (rule (ts ++ [t])).1 = .error (k.fault t)

/-- The rule waits for one thing at a time: wherever the tokens end too early, it waits for one of the
    three. -/
structure Attentive (rule : Rule α) : Prop where
  open_nil : Taken (rule [])
  awaits : ∀ ts rest, rule ts = (.error .endOfInput, rest) → ∃ k, Awaits rule ts k

theorem Awaits.of_eq {rule rule' : Rule α} {ts ts' : List Token} {k : Awaited}
    (h : Awaits rule' ts' k) (heq : ∀ t, rule (ts ++ [t]) = rule' (ts' ++ [t])) :
    Awaits rule ts k where
  admitted t ht := heq t ▸ h.admitted t ht
  refused t ht := heq t ▸ h.refused t ht
  cases t := heq t ▸ h.cases t

theorem fst_bind_of_error {x : Rule α} {ts : List Token} {e : Fault} (h : (x ts).1 = .error e)
    (f : α → Rule β) : ((x >>= f) ts).1 = .error e := by
  rcases hx : x ts with ⟨r, rest⟩
  rw [hx] at h
  dsimp only at h
  rw [bind_eq, hx, h]

theorem Taken.bind {x : Rule α} {ts : List Token} (h : Taken (x ts)) {f : α → Rule β}
    (hf : ∀ a, Taken (f a [])) : Taken ((x >>= f) ts) := by
  rcases h with ⟨a, h⟩ | ⟨rest, h⟩
  · rw [bind_eq, h]
    exact hf a
  · rw [bind_eq, h]
    exact Or.inr ⟨rest, rfl⟩

theorem Awaits.bind {x : Rule α} {ts : List Token} {k : Awaited} (h : Awaits x ts k)
    {f : α → Rule β} (hf : ∀ a, Taken (f a [])) : Awaits (x >>= f) ts k where
  admitted t ht := (h.admitted t ht).bind hf
  refused t ht := fst_bind_of_error (h.refused t ht) f
  cases t := by
    rcases h.cases t with ht | ht | ht
    · exact Or.inl (ht.bind hf)
    · exact Or.inr (Or.inl (fst_bind_of_error ht f))
    · exact Or.inr (Or.inr (fst_bind_of_error ht f))

theorem attentive_pure (a : α) : Attentive (pure a : Rule α) where
  open_nil := Or.inl ⟨a, rfl⟩
  awaits := by
    intro ts rest h
    simp [pure_eq] at h

theorem Attentive.bind {x : Rule α} {f : α → Rule β} (hx : Attentive x) (hprompt : Prompt x)
    (hf : ∀ a, Attentive (f a)) : Attentive (x >>= f) where
  open_nil := hx.open_nil.bind fun a => (hf a).open_nil
  awaits := by
    intro ts rest h
    rcases (bind_eq_error_iff x f ts _ rest).1 h with hxe | ⟨a, mid, hxa, hfe⟩
    · obtain ⟨k, hk⟩ := hx.awaits ts rest hxe
      exact ⟨k, hk.bind fun a => (hf a).open_nil⟩
    · -- What `x` has read stays read when a token is added.
      obtain ⟨k, hk⟩ := (hf a).awaits mid rest hfe
      refine ⟨k, hk.of_eq fun t => ?_⟩
      rw [bind_eq, hprompt.steady_ok hxa]

/-! ## Single tokens -/

/-- Every token is either taken or refused with the fault of what is awaited, as the two predicates
    say. -/
def Discerns (k : Awaited) (f : Token → Rule α) : Prop :=
  ∀ t, (∃ a, f t = pure a) ∧ ¬ k.Refuses t ∨ f t = fail (k.fault t) ∧ ¬ k.Admits t

theorem Discerns.awaits {k : Awaited} {f : Token → Rule α} (hf : Discerns k f) :
    Awaits (next >>= f) [] k where
  admitted t ht := by
    rcases hf t with ⟨⟨a, hft⟩, -⟩ | ⟨-, hnot⟩
    · exact Or.inl ⟨a, congrFun hft []⟩
    · exact absurd ht hnot
  refused t ht := by
    rcases hf t with ⟨-, hnot⟩ | ⟨hft, -⟩
    · exact absurd ht hnot
    · exact congrArg Prod.fst (congrFun hft [])
  cases t := by
    rcases hf t with ⟨⟨a, hft⟩, -⟩ | ⟨hft, -⟩
    · exact Or.inl (Or.inl ⟨a, congrFun hft []⟩)
    · exact Or.inr (Or.inr (congrArg Prod.fst (congrFun hft [])))

theorem Judges.attentive {f : Token → Rule α} (hf : Judges f) {k : Awaited}
    (hk : Awaits (next >>= f) [] k) : Attentive (next >>= f) where
  open_nil := Or.inr ⟨[], rfl⟩
  awaits := by
    intro ts rest h
    rcases hf.error h with ⟨rfl, -⟩ | h
    · exact ⟨k, hk⟩
    · simp [Fault.kind] at h

theorem awaits_literal : Awaits literal [] .operand := by
  refine Discerns.awaits fun t => ?_
  cases t with
  | none => exact Or.inr ⟨rfl, by simp [Awaited.Admits]⟩
  | some s =>
      by_cases hs : Token.isName s = true
      · exact Or.inl ⟨⟨.literal s, if_pos hs⟩, by simp [Awaited.Refuses, hs]⟩
      · exact Or.inr ⟨if_neg hs, by simp [Awaited.Admits, hs]⟩

theorem awaits_connective : Awaits connective [] .connective := by
  refine Discerns.awaits fun t => ?_
  cases t with
  | none => exact Or.inr ⟨rfl, by simp [Awaited.Admits]⟩
  | some s =>
      by_cases hs : Token.isKeyword s = true
      · obtain ⟨c, rfl⟩ := Token.isKeyword_iff.1 hs
        exact Or.inl ⟨⟨c.keyword, if_pos hs⟩, fun hnot => hnot c rfl⟩
      · refine Or.inr ⟨if_neg hs, ?_⟩
        rintro ⟨c, hc⟩
        obtain rfl := Option.some.inj hc
        exact hs (Token.isKeyword_keyword c)

theorem awaits_closing : Awaits closing [] .closing := by
  refine Discerns.awaits fun t => ?_
  by_cases ht : t = some Token.closing
  · exact Or.inl ⟨⟨(), if_pos ht⟩, fun hnot => hnot ht⟩
  · exact Or.inr ⟨if_neg ht, ht⟩

theorem attentive_literal : Attentive literal := judges_literal.attentive awaits_literal

theorem attentive_connective : Attentive connective :=
  judges_connective.attentive awaits_connective

theorem attentive_closing : Attentive closing :=
  (judges_expect Token.closing rfl).attentive awaits_closing

/-! ## Choosing by the token ahead -/

section Choice

variable {s : String} {x y : Rule α}

theorem choose_cons (ts : List Token) :
    (peek >>= fun t => if t = some s then x else y) (some s :: ts) = x (some s :: ts) :=
  choose_of_ahead rfl

theorem choose_cons_of_ne {t : Token} (ht : t ≠ some s) (ts : List Token) :
    (peek >>= fun t => if t = some s then x else y) (t :: ts) = y (t :: ts) := by
  have hahead : Token.ahead (t :: ts) ≠ some s := ht
  exact choose_of_not_ahead hahead

/-- At the end of the tokens the choice waits for what `y` waits for there, if this neither admits nor
    refuses `s`. -/
theorem Awaits.choose {k : Awaited} (hy : Awaits y [] k) (hadmits : ¬ k.Admits (some s))
    (hrefuses : ¬ k.Refuses (some s))
    (hx : Taken (x [some s]) ∨ (x [some s]).1 = .error .nestedTooDeeply) :
    Awaits (peek >>= fun t => if t = some s then x else y) [] k where
  admitted t ht := by
    rw [List.nil_append, choose_cons_of_ne fun heq => hadmits (heq ▸ ht)]
    exact hy.admitted t ht
  refused t ht := by
    rw [List.nil_append, choose_cons_of_ne fun heq => hrefuses (heq ▸ ht)]
    exact hy.refused t ht
  cases t := by
    rw [List.nil_append]
    by_cases ht : t = some s
    · rw [ht, choose_cons]
      exact hx.imp_right Or.inl
    · rw [choose_cons_of_ne ht]
      exact hy.cases t

theorem Attentive.choose {k : Awaited}
    (hnil : Awaits (peek >>= fun t => if t = some s then x else y) [] k) (hy : Attentive y)
    (hx : ∀ ts rest, x (some s :: ts) = (.error .endOfInput, rest) →
      ∃ k, Awaits x (some s :: ts) k) :
    Attentive (peek >>= fun t => if t = some s then x else y) where
  open_nil := by
    rw [choose_of_not_ahead (by simp [Token.ahead])]
    exact hy.open_nil
  awaits := by
    intro ts rest h
    cases ts with
    | nil => exact ⟨k, hnil⟩
    | cons t ts =>
        by_cases ht : t = some s
        · subst ht
          rw [choose_cons] at h
          obtain ⟨k, hk⟩ := hx ts rest h
          exact ⟨k, hk.of_eq fun t => choose_cons _⟩
        · rw [choose_cons_of_ne ht] at h
          obtain ⟨k, hk⟩ := hy.awaits _ rest h
          exact ⟨k, hk.of_eq fun t' => choose_cons_of_ne ht _⟩

end Choice

/-! ## The grammar -/

section Grammar

variable {operand : Rule (Formula String)}

theorem Attentive.negation (h : Attentive operand) (hprompt : Prompt operand) :
    Attentive (negation operand) :=
  h.bind hprompt fun _ => attentive_closing.bind productive_closing.toPrompt fun _ =>
    attentive_pure _

theorem Attentive.application (h : Attentive operand) (hprompt : Prompt operand) :
    Attentive (application operand) :=
  h.bind hprompt fun _ => attentive_connective.bind productive_connective.toPrompt fun _ =>
    h.bind hprompt fun _ => attentive_closing.bind productive_closing.toPrompt fun _ =>
      attentive_pure _

/-- What follows the bracket of a formula. -/
def inside (operand : Rule (Formula String)) : Rule (Formula String) := do
  if (← peek) = some Connective.negation.keyword then
    let _ ← next
    Rule.negation operand
  else
    Rule.application operand

theorem bracketed_opening (operand : Rule (Formula String)) (ts : List Token) :
    bracketed operand (some Token.opening :: ts) = inside operand ts := by
  rw [bracketed, bind_eq, (opening_eq_ok_iff _ () ts).2 rfl]
  rfl

theorem Attentive.inside (h : Attentive operand) (hprompt : Prompt operand)
    (hnil : Awaits operand [] .operand) : Attentive (inside operand) := by
  have happ : Awaits (Rule.application operand) [] .operand :=
    hnil.bind fun _ => Or.inr ⟨[], rfl⟩
  have hnot := h.negation hprompt
  refine Attentive.choose (happ.choose (by simp [Awaited.Admits, Token.isName])
    (by simp [Awaited.Refuses]) (Or.inl hnot.open_nil)) (h.application hprompt) ?_
  intro ts rest hread
  obtain ⟨k, hk⟩ := hnot.awaits ts rest hread
  exact ⟨k, hk.of_eq fun _ => rfl⟩

theorem attentive_formula (limit : Nat) :
    Attentive (formula limit) ∧ Awaits (formula limit) [] .operand := by
  have hadmits : ¬ Awaited.operand.Admits (some Token.opening) := by
    simp [Awaited.Admits, Token.isName, Token.isBracket]
  have hrefuses : ¬ Awaited.operand.Refuses (some Token.opening) := by simp [Awaited.Refuses]
  induction limit with
  | zero =>
      have hnil := awaits_literal.choose (x := fail .nestedTooDeeply) hadmits hrefuses
        (Or.inr rfl)
      refine ⟨Attentive.choose hnil attentive_literal ?_, hnil⟩
      intro ts rest hread
      cases hread
  | succ limit ih =>
      have hinside := ih.1.inside (productive_formula limit).toPrompt ih.2
      have hnil := awaits_literal.choose (x := bracketed (formula limit)) hadmits hrefuses
        (Or.inl (bracketed_opening _ [] ▸ hinside.open_nil))
      refine ⟨Attentive.choose hnil attentive_literal ?_, hnil⟩
      intro ts rest hread
      rw [bracketed_opening] at hread
      obtain ⟨k, hk⟩ := hinside.awaits ts rest hread
      exact ⟨k, hk.of_eq fun t => bracketed_opening _ _⟩

end Grammar

/-! ## Refused tokens -/

/-- A malformed token list is read up to a token that is none of what is awaited there. -/
theorem Attentive.exists_refused {rule : Rule α} (h : Attentive rule) (hprompt : Prompt rule)
    (hnil : rule [] = (.error .endOfInput, [])) {ts rest : List Token} {e : Fault}
    (hread : rule ts = (.error e, rest)) (he : e.kind = .malformed) :
    ∃ before t after k left, ts = before ++ t :: after ∧
      rule before = (.error .endOfInput, left) ∧ Awaits rule before k ∧
      (rule (before ++ [t])).1 = .error e ∧ e = k.fault t := by
  induction ts using List.reverseRecOn generalizing rest with
  | nil =>
      rw [hnil] at hread
      cases hread
      simp [Fault.kind] at he
  | append_singleton ts t ih =>
      rcases hts : rule ts with ⟨r, left⟩
      by_cases hr : r = .error .endOfInput
      · subst hr
        obtain ⟨k, hk⟩ := h.awaits ts left hts
        have hrefused : (rule (ts ++ [t])).1 = .error e := by rw [hread]
        refine ⟨ts, t, [], k, left, rfl, hts, hk, hrefused, ?_⟩
        rcases hk.cases t with (⟨a, ht⟩ | ⟨rest', ht⟩) | ht | ht
        · simp [ht] at hrefused
        · rw [ht, Except.error.injEq] at hrefused
          simp [← hrefused, Fault.kind] at he
        · rw [ht, Except.error.injEq] at hrefused
          simp [← hrefused, Fault.kind] at he
        · rw [ht, Except.error.injEq] at hrefused
          exact hrefused.symm
      · -- The fault was found before the last token.
        have hsame := hprompt.steady ts r left hts hr [t]
        rw [hread, Prod.mk.injEq] at hsame
        obtain ⟨before, t', after, k, left', rfl, hrest⟩ := ih (hsame.1 ▸ hts)
        exact ⟨before, t', after ++ [t], k, left', by simp, hrest⟩

/-- Besides the end of the tokens and too deep nesting, only refused tokens are reported. -/
theorem fault_of_formula {limit : Nat} {ts rest : List Token} {e : Fault}
    (h : formula limit ts = (.error e, rest)) :
    e = .endOfInput ∨ e = .nestedTooDeeply ∨ ∃ (k : Awaited) (t : Token), e = k.fault t := by
  have hprompt := (productive_formula limit).toPrompt
  rcases hprompt.faults ts e rest h with he | he | he
  · exact Or.inl he
  · exact Or.inr (Or.inl he)
  · obtain ⟨-, t, -, k, -, -, -, -, -, hfault⟩ :=
      (attentive_formula limit).1.exists_refused hprompt (formula_nil limit) h he
    exact Or.inr (Or.inr ⟨k, t, hfault⟩)

end Rule

/-! ## Whole sequences -/

/-- Whether the tokens and then something that stands for `k` begin a list that is accepted. -/
def Continues (limit : Nat) (tokens : List String) (k : Awaited) : Prop :=
  ∃ s, k.Samples s ∧ Viable limit (tokens ++ [s])

section Refusal

variable {limit : Nat} {tokens : List String} {k : Awaited}

theorem viable_concat_of_admits (h : Rule.Awaits (Rule.formula limit) (tokens.map some) k)
    {s : String} (hs : k.Admits (some s)) : Viable limit (tokens ++ [s]) := by
  rw [viable_iff, List.map_append, List.map_singleton]
  exact h.admitted _ hs

theorem not_viable_of_refused {t : Token}
    (h : (Rule.formula limit (tokens.map some)).1 = .error (k.fault t)) :
    ¬ Viable limit tokens := by
  rw [viable_iff]
  rintro (⟨f, hread⟩ | ⟨rest, hread⟩)
  · simp [hread] at h
  · rw [hread, Except.error.injEq] at h
    cases k <;> cases h

theorem not_viable_concat_of_refuses (h : Rule.Awaits (Rule.formula limit) (tokens.map some) k)
    {s : String} (hs : k.Refuses (some s)) : ¬ Viable limit (tokens ++ [s]) := by
  refine not_viable_of_refused (k := k) (t := some s) ?_
  rw [List.map_append, List.map_singleton]
  exact h.refused _ hs

/-- The tokens go on with what is awaited, and not with the other two. -/
theorem continues_iff (h : Rule.Awaits (Rule.formula limit) (tokens.map some) k) (j : Awaited) :
    Continues limit tokens j ↔ j = k := by
  constructor
  · rintro ⟨s, hs, hviable⟩
    by_contra hne
    exact not_viable_concat_of_refuses h (hs.refuses hne) hviable
  · rintro rfl
    obtain ⟨s, hs⟩ := j.exists_samples
    exact ⟨s, hs, viable_concat_of_admits h hs.admits⟩

theorem Viable.of_prefix {start : List String} (h : Viable limit tokens) (hstart : start <+: tokens) :
    Viable limit start := by
  obtain ⟨more, rfl⟩ := hstart
  obtain ⟨rest, hrest⟩ := h
  exact ⟨more ++ rest, by rwa [← List.append_assoc]⟩

/-- Reading fails where the grammar does, or because tokens are left. -/
theorem formula_of_parseWithin_error {ts : List Token} {e : Fault}
    (h : parseWithin limit ts = .error e) :
    e = .trailingInput ∨ ∃ rest, Rule.formula limit ts = (.error e, rest) := by
  rw [parseWithin] at h
  split at h
  · split at h
    · cases h
    · cases h
      exact Or.inl rfl
  · next e' rest hread =>
      cases h
      exact Or.inr ⟨rest, hread⟩

/-- That an opening bracket is missing is never reported, whatever the tokens. -/
theorem message_ne_of_parseWithin {ts : List Token} {e : Fault}
    (h : parseWithin limit ts = .error e) : e.message ≠ "Expected an opening bracket." := by
  rcases formula_of_parseWithin_error h with rfl | ⟨rest, hread⟩
  · exact show Fault.message .trailingInput ≠ _ by decide
  · rcases Rule.fault_of_formula hread with rfl | rfl | ⟨k, t, rfl⟩
    · exact show Fault.message .endOfInput ≠ _ by decide
    · exact show Fault.message .nestedTooDeeply ≠ _ by decide
    · rw [Awaited.message_fault]
      exact k.complaint_ne _

/-- **A refusal names what is awaited.** If tokens are malformed, let `before` be the longest part at
    their front that begins some accepted list, and `x` the token after it. Then exactly one of the
    following begins an accepted list, too: `before` and some literal, or `before` and the keyword of
    conjunction, in which case every keyword will do, or `before` and a closing bracket. And the
    message is the one that asks for this. That an opening bracket is missing is never reported. -/
theorem refusal_names_awaited :
    (∀ (limit : Nat) (tokens : List String) (e : Fault),
      parseWithin limit (tokens.map some) = .error e → e.kind = .malformed →
      ∃ (before : List String) (x : String) (after : List String) (k : Awaited),
        tokens = before ++ x :: after ∧ Viable limit before ∧
        (∀ start, start <+: tokens → Viable limit start → start <+: before) ∧
        (∀ j, Continues limit before j ↔ j = k) ∧
        (k = .connective → ∀ c : Connective, Viable limit (before ++ [c.keyword])) ∧
        e.message = k.complaint x) ∧
    (∀ (limit : Nat) (ts : List Token) (e : Fault), parseWithin limit ts = .error e →
      e.message ≠ "Expected an opening bracket.") := by
  refine ⟨?_, fun limit ts e => message_ne_of_parseWithin⟩
  intro limit tokens e h he
  have htrailing : e ≠ .trailingInput := by
    rintro rfl
    cases he
  obtain ⟨rest, hread⟩ := (formula_of_parseWithin_error h).resolve_left htrailing
  obtain ⟨ts, t, ts', k, left, hsplit, hbefore, hawaits, hrefused, rfl⟩ :=
    (Rule.attentive_formula limit).1.exists_refused (Rule.productive_formula limit).toPrompt
      (Rule.formula_nil limit) hread he
  obtain ⟨before, rest', rfl, rfl, hrest'⟩ := List.map_eq_append_iff.1 hsplit
  obtain ⟨x, after, rfl, rfl, rfl⟩ := List.map_eq_cons_iff.1 hrest'
  have hviable : Viable limit before := viable_iff.2 (Or.inr ⟨left, hbefore⟩)
  have hstop : ¬ Viable limit (before ++ [x]) := by
    refine not_viable_of_refused (k := k) (t := some x) ?_
    rw [List.map_append, List.map_singleton]
    exact hrefused
  refine ⟨before, x, after, k, rfl, hviable, ?_, continues_iff hawaits, ?_, k.message_fault _⟩
  · -- A viable prefix that is longer would reach over the refused token.
    intro start hstart hviableStart
    rcases List.prefix_or_prefix_of_prefix hstart (List.prefix_append before (x :: after)) with
      hshort | hlong
    · exact hshort
    · obtain ⟨more, rfl⟩ := hlong
      rw [List.prefix_append_right_inj] at hstart
      cases more with
      | nil => simp
      | cons y more =>
          obtain ⟨rfl, -⟩ := List.cons_prefix_cons.1 hstart
          refine absurd (hviableStart.of_prefix ?_) hstop
          exact (List.prefix_append_right_inj before).2 ⟨more, rfl⟩
  · rintro rfl c
    exact viable_concat_of_admits hawaits ⟨c, rfl⟩

/-- After a connective an operand is awaited, and a negation keyword without its bracket is none. -/
theorem refusal_names_awaited_negation :
    let tokens := ["(", "A", "AND", "NOT", "B", ")"]
    let e := Fault.operandExpected (some "NOT")
    parse (tokens.map some) = .error e ∧ e.kind = .malformed ∧
    ∃ (before : List String) (x : String) (after : List String) (k : Awaited),
      tokens = before ++ x :: after ∧ Viable nestingLimit before ∧
      (∀ start, start <+: tokens → Viable nestingLimit start → start <+: before) ∧
      (∀ j, Continues nestingLimit before j ↔ j = k) ∧
      (k = .connective → ∀ c : Connective, Viable nestingLimit (before ++ [c.keyword])) ∧
      e.message = k.complaint x := by
  intro tokens e
  have hread : parse (tokens.map some) = .error e := by rfl
  exact ⟨hread, rfl, refusal_names_awaited.1 nestingLimit tokens e hread rfl⟩

end Refusal

end PropDiagram

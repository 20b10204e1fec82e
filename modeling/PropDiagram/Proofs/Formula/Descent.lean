import Mathlib.Data.List.ReduceOption
import PropDiagram.Proofs.Formula.Unlimited

set_option autoImplicit false

/-! # How deep the parser descends

A rule takes the tokens that it reads, except that a token it refuses is read but not taken
(`Rule.takes`). An opening bracket is taken only where an operand may start: there the parser
descends, while it refuses a bracket that stands in place of a connective or of a closing bracket.

So the depth to which the unlimited parser has descended is how deep the brackets nest that it takes
(`Rule.height`). One step of the induction is a bracketed formula, which nests one level deeper than
the deepest of the operands that are looked for in it (`Rule.lt_height_inside_iff`); the limited rule
gives up under the same condition with one level less (`Rule.inside_nestedTooDeeply_iff`). Together:
the limit is exceeded exactly where the unlimited parser descends deeper
(`Rule.nestedTooDeeply_iff_lt_height`). -/

namespace PropDiagram

namespace Rule

variable {α β : Type}

/-! ## Tokens that are taken -/

/-- The number of tokens that are read but refused: one if the fault is a malformed token. -/
def refusals : Except Fault α → Nat
  | .ok _ => 0
  | .error e => if e.kind = .malformed then 1 else 0

/-- What the rule takes before it finishes or fails: the tokens that it reads, without the one that it
    refuses. -/
def takes (rule : Rule α) (ts : List Token) : List Token :=
  ts.take (ts.length - ((rule ts).2.length + refusals (rule ts).1))

/-- The rule reads from the front, and if it refuses a token then this is the last that it reads. -/
def Orderly (rule : Rule α) : Prop :=
  ∀ ts, ∃ refused, ts = rule.takes ts ++ (refused ++ (rule ts).2) ∧
    refused.length = refusals (rule ts).1

section Takes

variable {x y : Rule α} {f : α → Rule β} {ts us rest : List Token}

theorem takes_eq (refused : List Token) {r : Except Fault α} (hread : x ts = (r, rest))
    (hts : ts = us ++ (refused ++ rest)) (hrefused : refused.length = refusals r) :
    x.takes ts = us := by
  have hlength : ts.length - (rest.length + refusals r) = us.length := by
    rw [hts, List.length_append, List.length_append, hrefused]
    omega
  rw [takes, hread, hlength, hts, List.take_left]

theorem Orderly.of_split
    (h : ∀ ts, ∃ us refused, ts = us ++ (refused ++ (x ts).2) ∧
      refused.length = refusals (x ts).1) : Orderly x := by
  intro ts
  obtain ⟨us, refused, hts, hrefused⟩ := h ts
  have htakes : x.takes ts = us := takes_eq refused (Prod.eta _).symm hts hrefused
  exact ⟨refused, htakes.symm ▸ hts, hrefused⟩

theorem takes_congr (h : x ts = y ts) : x.takes ts = y.takes ts := by
  rw [takes, takes, h]

theorem takes_of_ok {a : α} (hread : x ts = (.ok a, rest)) (hts : ts = us ++ rest) :
    x.takes ts = us := takes_eq [] hread hts rfl

theorem Orderly.eq_append_of_ok (hx : Orderly x) {a : α} (hread : x ts = (.ok a, rest)) :
    ts = x.takes ts ++ rest := by
  obtain ⟨refused, hts, hrefused⟩ := hx ts
  rw [hread] at hts hrefused
  rwa [List.length_eq_zero_iff.1 hrefused, List.nil_append] at hts

theorem takes_cons (hy : Orderly y) {t : Token} (h : x (t :: ts) = y ts) :
    x.takes (t :: ts) = t :: y.takes ts := by
  obtain ⟨refused, hts, hrefused⟩ := hy ts
  refine takes_eq refused h ?_ hrefused
  rw [List.cons_append, ← hts]

theorem takes_bind_of_error {e : Fault} (hread : x ts = (.error e, rest)) (f : α → Rule β) :
    (x >>= f).takes ts = x.takes ts := by
  rw [takes, takes, bind_eq, hread]
  rfl

theorem takes_bind_of_ok (hx : Orderly x) (hf : ∀ a, Orderly (f a)) {a : α}
    (hread : x ts = (.ok a, rest)) : (x >>= f).takes ts = x.takes ts ++ (f a).takes rest := by
  obtain ⟨refused, hrest, hrefused⟩ := hf a rest
  have hbind : (x >>= f) ts = f a rest := by rw [bind_eq, hread]
  refine takes_eq refused hbind ?_ hrefused
  rw [List.append_assoc, ← hrest]
  exact hx.eq_append_of_ok hread

theorem orderly_pure (a : α) : Orderly (pure a : Rule α) :=
  .of_split fun _ => ⟨[], [], rfl, rfl⟩

theorem orderly_fail {e : Fault} (he : e.kind ≠ .malformed) : Orderly (fail e : Rule α) :=
  .of_split fun _ => ⟨[], [], rfl, (if_neg he).symm⟩

theorem orderly_peek : Orderly peek := .of_split fun _ => ⟨[], [], rfl, rfl⟩

theorem orderly_next : Orderly next :=
  .of_split fun ts => by
    cases ts with
    | nil => exact ⟨[], [], rfl, rfl⟩
    | cons t ts => exact ⟨[t], [], rfl, rfl⟩

theorem Orderly.bind (hx : Orderly x) (hf : ∀ a, Orderly (f a)) : Orderly (x >>= f) := by
  refine .of_split fun ts => ?_
  rcases hread : x ts with ⟨r, rest⟩
  cases r with
  | ok a =>
      obtain ⟨refused, hrest, hrefused⟩ := hf a rest
      refine ⟨x.takes ts ++ (f a).takes rest, refused, ?_, ?_⟩
      · rw [bind_eq, hread, List.append_assoc, ← hrest]
        exact hx.eq_append_of_ok hread
      · rw [bind_eq, hread]
        exact hrefused
  | error e =>
      obtain ⟨refused, hts, hrefused⟩ := hx ts
      rw [hread] at hts hrefused
      refine ⟨x.takes ts, refused, ?_, ?_⟩
      · rwa [bind_eq, hread]
      · rwa [bind_eq, hread]

theorem Orderly.choose (hx : Orderly x) (hy : Orderly y) (s : String) :
    Orderly (peek >>= fun t => if t = some s then x else y) :=
  orderly_peek.bind fun t => by
    by_cases ht : t = some s
    · rwa [if_pos ht]
    · rwa [if_neg ht]

/-- A token that is judged is either taken or refused. -/
theorem Judges.orderly {f : Token → Rule α} (hf : Judges f) : Orderly (next >>= f) := by
  refine .of_split fun ts => ?_
  cases ts with
  | nil => exact ⟨[], [], rfl, rfl⟩
  | cons t ts =>
      rw [bind_eq]
      rcases hf.verdict t with ⟨a, ht⟩ | ⟨e, he, ht⟩
      · exact ⟨[t], [], by simp [next, ht, pure_eq], by simp [next, ht, pure_eq, refusals]⟩
      · exact ⟨[], [t], by simp [next, ht, fail], by simp [next, ht, fail, refusals, he]⟩

/-- Where judging fails, nothing is taken. -/
theorem Judges.takes_of_error {f : Token → Rule α} (hf : Judges f) {e : Fault}
    (h : (next >>= f) ts = (.error e, rest)) : (next >>= f).takes ts = [] := by
  cases ts with
  | nil => rfl
  | cons t ts =>
      rw [bind_eq] at h
      rcases hf.verdict t with ⟨a, ht⟩ | ⟨e', he', ht⟩
      · simp [next, ht, pure_eq] at h
      · simp [takes, bind_eq, next, ht, fail, refusals, he']

end Takes

/-! ## The grammar -/

section Grammar

variable {operand : Rule (Formula String)}

theorem orderly_literal : Orderly literal := judges_literal.orderly

theorem orderly_connective : Orderly connective := judges_connective.orderly

theorem judges_closing :
    Judges fun t => (if t = some Token.closing then pure () else fail .closingExpected : Rule Unit) :=
  judges_expect Token.closing rfl

theorem orderly_closing : Orderly closing := judges_closing.orderly

theorem Orderly.negation (h : Orderly operand) : Orderly (negation operand) :=
  h.bind fun _ => orderly_closing.bind fun _ => orderly_pure _

theorem Orderly.application (h : Orderly operand) : Orderly (application operand) :=
  h.bind fun _ => orderly_connective.bind fun _ => h.bind fun _ =>
    orderly_closing.bind fun _ => orderly_pure _

theorem Orderly.inside (h : Orderly operand) : Orderly (inside operand) :=
  (orderly_next.bind fun _ => h.negation).choose h.application _

theorem Orderly.formulaOf (h : Orderly operand) : Orderly (formulaOf operand) :=
  Orderly.choose ((judges_expect Token.opening rfl).orderly.bind fun _ => h.inside)
    orderly_literal _

theorem orderly_formula (limit : Nat) : Orderly (formula limit) := by
  induction limit with
  | zero => exact (orderly_fail (by decide)).choose orderly_literal _
  | succ limit ih => exact ih.formulaOf

theorem orderly_unlimited : Orderly unlimited := fun ts => orderly_formula ts.length ts

end Grammar

/-! ## How deep the taken brackets nest -/

/-- The greatest number of unmatched opening brackets in a prefix of what the rule takes, if `n` were
    unmatched before. -/
def height (rule : Rule α) (n : Nat) (ts : List Token) : Nat :=
  Token.peak n (rule.takes ts).reduceOption

section Height

variable {x y : Rule α} {f : α → Rule β} {ts us rest : List Token}

theorem le_height (rule : Rule α) (n : Nat) (ts : List Token) : n ≤ rule.height n ts :=
  Token.le_peak n _

theorem height_congr (h : x ts = y ts) (n : Nat) : x.height n ts = y.height n ts := by
  rw [height, height, takes_congr h]

theorem height_of_takes_nil (h : x.takes ts = []) (n : Nat) : x.height n ts = n := by
  rw [height, h]
  rfl

theorem height_bind_of_error {e : Fault} (hread : x ts = (.error e, rest)) (f : α → Rule β)
    (n : Nat) : (x >>= f).height n ts = x.height n ts := by
  rw [height, height, takes_bind_of_error hread]

theorem height_bind_of_ok (hx : Orderly x) (hf : ∀ a, Orderly (f a)) {a : α}
    (hread : x ts = (.ok a, rest)) (n : Nat) :
    (x >>= f).height n ts = max (x.height n ts)
      ((f a).height (Token.unmatched n (x.takes ts).reduceOption) rest) := by
  rw [height, takes_bind_of_ok hx hf hread, List.reduceOption_append, Token.peak_append]
  rfl

/-- What follows a rule does not make its brackets nest less deep. -/
theorem height_le_bind (hx : Orderly x) (hf : ∀ a, Orderly (f a)) (n : Nat) (ts : List Token) :
    x.height n ts ≤ (x >>= f).height n ts := by
  rcases hread : x ts with ⟨r, rest⟩
  cases r with
  | ok a =>
      rw [height_bind_of_ok hx hf hread]
      exact Nat.le_max_left _ _
  | error e => rw [height_bind_of_error hread]

theorem reduceOption_map_some (tokens : List String) : (tokens.map some).reduceOption = tokens := by
  rw [List.reduceOption, List.filterMap_map, Function.id_comp, List.filterMap_some]

section Grammar

variable {operand : Rule (Formula String)}

/-- What is read as a formula leaves as many brackets unmatched as there were before. -/
theorem unmatched_takes (hsound : Sound operand) {z : Formula String}
    (hread : operand ts = (.ok z, rest)) (n : Nat) :
    Token.unmatched n (operand.takes ts).reduceOption = n := by
  obtain ⟨hgram, hts⟩ := hsound ts z rest hread
  rw [takes_of_ok hread hts, reduceOption_map_some]
  exact (hgram.nesting n).1

theorem height_bind_operand (hsound : Sound operand) (horderly : Orderly operand)
    {f : Formula String → Rule β} (hf : ∀ z, Orderly (f z)) {z : Formula String}
    (hread : operand ts = (.ok z, rest)) (n : Nat) :
    (operand >>= f).height n ts = max (operand.height n ts) ((f z).height n rest) := by
  rw [height_bind_of_ok horderly hf hread, unmatched_takes hsound hread]

/-- Closing a bracket does not nest deeper. -/
theorem height_closing (z : Formula String) (n : Nat) (ts : List Token) :
    (closing >>= fun _ => pure z : Rule (Formula String)).height n ts = n := by
  rcases hread : closing ts with ⟨r, rest⟩
  cases r with
  | ok u =>
      have hts := (closing_eq_ok_iff ts u rest).1 hread
      have htakes : closing.takes ts = [some Token.closing] := takes_of_ok hread hts
      have hpure (m : Nat) : (pure z : Rule (Formula String)).height m rest = m :=
        height_of_takes_nil (takes_of_ok rfl rfl) m
      rw [height_bind_of_ok orderly_closing (fun _ => orderly_pure z) hread, height, htakes, hpure]
      simp [Token.peak]
  | error e =>
      rw [height_bind_of_error hread]
      exact height_of_takes_nil (judges_closing.takes_of_error hread) n

theorem orderly_close (z : Formula String) :
    Orderly (closing >>= fun _ => pure z : Rule (Formula String)) :=
  orderly_closing.bind fun _ => orderly_pure z

theorem height_last (hsound : Sound operand) (horderly : Orderly operand)
    (finish : Formula String → Formula String) (n : Nat) (ts : List Token) :
    (operand >>= fun z => closing >>= fun _ => pure (finish z) : Rule (Formula String)).height n ts
      = operand.height n ts := by
  rcases hread : operand ts with ⟨r, rest⟩
  cases r with
  | ok z =>
      rw [height_bind_operand hsound horderly (fun _ => orderly_close _) hread, height_closing]
      exact Nat.max_eq_left (le_height operand n ts)
  | error e => exact height_bind_of_error hread _ n

theorem height_bind_connective {f : String → Rule β} (hf : ∀ op, Orderly (f op)) (c : Connective)
    (n : Nat) (us : List Token) :
    (connective >>= f).height n (some c.keyword :: us) = (f c.keyword).height n us := by
  have hread : connective (some c.keyword :: us) = (.ok c.keyword, us) :=
    (connective_eq_ok_iff _ c.keyword us).2 ⟨c, rfl, rfl⟩
  have htakes : connective.takes (some c.keyword :: us) = [some c.keyword] :=
    takes_of_ok hread rfl
  have hle := le_height (f c.keyword) n us
  rw [height_bind_of_ok orderly_connective hf hread, height, htakes, List.reduceOption_cons_of_some,
    List.reduceOption_nil, Token.unmatched_cons, Token.unmatched_nil, Token.unmatchedAfter_keyword]
  simp [Token.peak, hle]

theorem orderly_right (horderly : Orderly operand) (z : Formula String) (op : String) :
    Orderly (operand >>= fun z' => closing >>= fun _ => pure (.apply op [z, z'])
      : Rule (Formula String)) := horderly.bind fun _ => orderly_close _

/-- An application nests as deep as its operands, if the right one is looked for. -/
theorem height_application_of_right (hsound : Sound operand) (horderly : Orderly operand)
    {z : Formula String} {c : Connective} (hread : operand ts = (.ok z, some c.keyword :: us))
    (n : Nat) :
    (application operand).height n ts = max (operand.height n ts) (operand.height n us) := by
  rw [application, height_bind_operand hsound horderly
    (fun z => orderly_connective.bind (orderly_right horderly z)) hread,
    height_bind_connective (orderly_right horderly z), height_last hsound horderly]

/-- Otherwise it nests as deep as its left operand. -/
theorem height_application_of_left (hsound : Sound operand) (horderly : Orderly operand)
    (hleft : ∀ z (c : Connective) us, operand ts ≠ (.ok z, some c.keyword :: us)) (n : Nat) :
    (application operand).height n ts = operand.height n ts := by
  rcases hread : operand ts with ⟨r, mid⟩
  cases r with
  | error e => exact height_bind_of_error hread _ n
  | ok z =>
      rw [application, height_bind_operand hsound horderly
        (fun z => orderly_connective.bind (orderly_right horderly z)) hread]
      rcases hop : connective mid with ⟨r, us⟩
      cases r with
      | error e =>
          have hnone : connective.height n mid = n :=
            height_of_takes_nil (judges_connective.takes_of_error hop) n
          rw [height_bind_of_error hop, hnone]
          exact Nat.max_eq_left (le_height operand n ts)
      | ok op =>
          obtain ⟨c, -, rfl⟩ := (connective_eq_ok_iff mid op us).1 hop
          exact absurd hread (hleft z c us)

theorem height_inside_negated (hsound : Sound operand) (horderly : Orderly operand) (n : Nat)
    (us : List Token) :
    (inside operand).height n (some Connective.negation.keyword :: us) = operand.height n us := by
  have htakes : (inside operand).takes (some Connective.negation.keyword :: us)
      = some Connective.negation.keyword :: (negation operand).takes us :=
    takes_cons horderly.negation (inside_negated operand us)
  have hnegation : (negation operand).height n us = operand.height n us :=
    height_last hsound horderly _ n us
  have hle := le_height operand n us
  rw [← hnegation] at hle ⊢
  rw [height, htakes, List.reduceOption_cons_of_some, Token.peak, Token.unmatchedAfter_keyword]
  exact Nat.max_eq_right hle

/-- What stands in brackets nests as deep as the operands that are looked for in it. -/
theorem lt_height_inside_iff (hsound : Sound operand) (horderly : Orderly operand) (k n : Nat)
    (ts : List Token) :
    k < (inside operand).height n ts ↔ ∃ us, OperandAt operand ts us ∧ k < operand.height n us := by
  by_cases hahead : Token.ahead ts = some Connective.negation.keyword
  · obtain ⟨us, rfl⟩ := Token.eq_cons_of_ahead hahead
    rw [height_inside_negated hsound horderly]
    constructor
    · intro h
      exact ⟨us, .negated rfl, h⟩
    · rintro ⟨us', hat, h⟩
      cases hat with
      | negated hts =>
          cases hts
          exact h
      | left hnot => exact absurd hahead hnot
      | right hnot => exact absurd hahead hnot
  · rw [height_congr (inside_of_not_negated hahead)]
    constructor
    · intro h
      by_cases hleft : ∀ z (c : Connective) us, operand ts ≠ (.ok z, some c.keyword :: us)
      · rw [height_application_of_left hsound horderly hleft] at h
        exact ⟨ts, .left hahead, h⟩
      · push Not at hleft
        obtain ⟨z, c, us, hread⟩ := hleft
        rw [height_application_of_right hsound horderly hread] at h
        by_cases hk : k < operand.height n ts
        · exact ⟨ts, .left hahead, hk⟩
        · exact ⟨us, .right hahead hread, by omega⟩
    · rintro ⟨us, hat, h⟩
      cases hat with
      | negated hts => simp [hts, Token.ahead] at hahead
      | left =>
          exact h.trans_le (height_le_bind horderly
            (fun z => orderly_connective.bind (orderly_right horderly z)) n ts)
      | right _ hread =>
          rw [height_application_of_right hsound horderly hread]
          omega

end Grammar

/-! ## The limit and the depth -/

/-- The unlimited parser descends at an opening bracket. -/
theorem height_unlimited_opening (n : Nat) (ts : List Token) :
    unlimited.height n (some Token.opening :: ts) = (inside unlimited).height (n + 1) ts := by
  have htakes : unlimited.takes (some Token.opening :: ts)
      = some Token.opening :: (inside unlimited).takes ts :=
    takes_cons orderly_unlimited.inside (unlimited_opening ts)
  have hle := le_height (inside unlimited) (n + 1) ts
  rw [height, htakes, List.reduceOption_cons_of_some, Token.peak, Token.unmatchedAfter_opening]
  exact Nat.max_eq_right (Nat.le_of_succ_le hle)

theorem height_unlimited_of_not_ahead (h : Token.ahead ts ≠ some Token.opening) (n : Nat) :
    unlimited.height n ts = n := by
  rw [height_congr (unlimited_of_not_ahead h)]
  rcases hread : literal ts with ⟨r, rest⟩
  cases r with
  | ok z =>
      obtain ⟨s, hs, -, rfl⟩ := (literal_eq_ok_iff ts z rest).1 hread
      have htakes : literal.takes (some s :: rest) = [some s] := takes_of_ok hread rfl
      rw [height, htakes]
      simp [Token.peak, Token.unmatchedAfter_of_isName n hs]
  | error e => exact height_of_takes_nil (judges_literal.takes_of_error hread) n

/-- **The limit is a bound on the depth.** A rule with a limit gives up on nesting exactly where the
    unlimited one descends more than `limit` levels. -/
theorem nestedTooDeeply_iff_lt_height (limit n : Nat) (ts : List Token) :
    (formula limit ts).1 = .error .nestedTooDeeply ↔ n + limit < unlimited.height n ts := by
  induction limit generalizing n ts with
  | zero =>
      by_cases hahead : Token.ahead ts = some Token.opening
      · obtain ⟨us, rfl⟩ := Token.eq_cons_of_ahead hahead
        have hle := le_height (inside unlimited) (n + 1) us
        rw [height_unlimited_opening]
        exact iff_of_true rfl (by omega)
      · rw [formula_of_not_ahead hahead, height_unlimited_of_not_ahead hahead]
        exact iff_of_false (literal_ne_nestedTooDeeply ts) (by omega)
  | succ limit ih =>
      by_cases hahead : Token.ahead ts = some Token.opening
      · obtain ⟨ts, rfl⟩ := Token.eq_cons_of_ahead hahead
        rw [formula_opening, height_unlimited_opening, inside_nestedTooDeeply_iff,
          lt_height_inside_iff sound_unlimited orderly_unlimited]
        have hlevel (us : List Token) : (formula limit us).1 = .error .nestedTooDeeply
            ↔ n + (limit + 1) < unlimited.height (n + 1) us := by
          rw [ih (n + 1)]
          omega
        have hrestricts := formula_restricts_unlimited limit
        constructor
        · rintro ⟨us, hat, h⟩
          exact ⟨us, hat.mono hrestricts, (hlevel us).1 h⟩
        · rintro ⟨us, hat, h⟩
          rcases hat.restrict hrestricts with hat | ⟨hat, hleft⟩
          · exact ⟨us, hat, (hlevel us).2 h⟩
          · exact ⟨ts, hat, hleft⟩
      · rw [formula_of_not_ahead hahead, height_unlimited_of_not_ahead hahead]
        exact iff_of_false (literal_ne_nestedTooDeeply ts) (by omega)

end Height

end Rule

/-! ## Whole sequences -/

section Parse

variable {limit : Nat} {ts : List Token}

theorem parseWithin_eq_nestedTooDeeply_iff :
    parseWithin limit ts = .error .nestedTooDeeply
      ↔ (Rule.formula limit ts).1 = .error .nestedTooDeeply := by
  rw [parseWithin]
  rcases Rule.formula limit ts with ⟨r, rest⟩
  cases r with
  | ok f =>
      dsimp only
      split <;> simp
  | error e => simp

/-- The limited parser gives up exactly if the unlimited one takes brackets that nest deeper. -/
theorem parseWithin_gives_up_iff :
    parseWithin limit ts = .error .nestedTooDeeply
      ↔ limit < Token.nesting (Rule.unlimited.takes ts).reduceOption := by
  rw [parseWithin_eq_nestedTooDeeply_iff, Rule.nestedTooDeeply_iff_lt_height limit 0, Nat.zero_add]
  rfl

/-- The second bracket is taken, the third is refused, and the fourth is not read. -/
example : Rule.unlimited.takes (["(", "(", "A", "(", "("].map some) = ["(", "(", "A"].map some := by
  decide

/-- If it does not give up, its answer is that of the unlimited one. -/
theorem parseWithin_eq_parseUnlimited (h : parseWithin limit ts ≠ .error .nestedTooDeeply) :
    parseWithin limit ts = parseUnlimited ts := by
  rw [Ne, parseWithin_eq_nestedTooDeeply_iff] at h
  have hsame : Rule.formula ts.length ts = Rule.formula limit ts :=
    Rule.formula_restricts_unlimited limit ts h
  rw [parseUnlimited, parseWithin, parseWithin, hsame]

/-- The parser gives up at a token up to which the tokens were only too few, and whatever stands
    behind that token. -/
theorem parseWithin_gives_up_at (h : parseWithin limit ts = .error .nestedTooDeeply) :
    ∃ before t after, ts = before ++ t :: after ∧ parseWithin limit before = .error .endOfInput ∧
      ∀ rest, parseWithin limit (before ++ t :: rest) = .error .nestedTooDeeply := by
  have hprompt := (Rule.productive_formula limit).toPrompt
  rw [parseWithin_eq_nestedTooDeeply_iff] at h
  induction ts using List.reverseRecOn with
  | nil => simp [Rule.formula_nil] at h
  | append_singleton ts t ih =>
      rcases hread : Rule.formula limit ts with ⟨r, left⟩
      by_cases hr : r = .error .endOfInput
      · subst hr
        refine ⟨ts, t, [], rfl, parseWithin_of_error hread, fun rest => ?_⟩
        have hsplit : ts ++ t :: rest = ts ++ [t] ++ rest := by simp
        rw [hsplit]
        exact parseWithin_of_error (hprompt.steady_error (Prod.ext h rfl) (by simp) rest)
      · -- The parser had given up before the last token.
        have hsame := hprompt.steady ts r left hread hr [t]
        rw [hsame] at h
        obtain ⟨before, t', after, rfl, hrest⟩ := ih (by rw [hread]; exact h)
        exact ⟨before, t', after ++ [t], by simp, hrest⟩

end Parse

end PropDiagram

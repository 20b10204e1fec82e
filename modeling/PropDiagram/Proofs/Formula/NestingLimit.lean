import PropDiagram.Proofs.Formula.Descent
import PropDiagram.Proofs.Formula.Record

set_option autoImplicit false

/-! # What the nesting limit changes

Reading and evaluating give up where formulas nest deeper than a limit. This is one of several things
that may go wrong, and as with all others the first that goes wrong is the outcome: what is wrong to
the left of the first place that is too deep is reported, and what stands to its right is not looked
at. So a limit only ever takes an answer away, and a greater limit takes fewer
(`nesting_limit_takes_away`).

The formula that was read is written for a record before it is given out, and the stack may not
suffice for this although it sufficed for reading. Then the fault is not the one of nesting. This can
happen unless writing has four calls for every level that reading has
(`FromText.never_recordTooDeep_iff`).

For evaluation, `Formula.visits` lists what happens in its order: a node is reached before the nodes
below it are, and judged after them. -/

namespace PropDiagram

namespace Formula

variable {α β γ : Type}

/-! ## Visits -/

/-- A step of evaluation: a node so many levels below the root is reached, or a node is judged. -/
inductive Visit where
  | reach (depth : Nat)
  | judge (n : Node)
deriving DecidableEq, Repr

/-- What is wrong with the step when no node more than `limit` levels below the root may be
    reached. -/
def Visit.fault? (values : Valuation) (limit : Nat) : Visit → Option Fault
  | reach depth => if limit < depth then some .nestedTooDeeply else none
  | judge n => n.fault? values

/-- The steps of evaluating a formula that stands `depth` levels below the root, from left to
    right. -/
def visits : Formula String → (depth : Nat) → List Visit :=
  fold (fun name depth => [.reach depth, .judge (.literal name)])
    fun op parts depth => .reach depth :: ((parts.map fun part => part (depth + 1)).flatten
      ++ [.judge (.application op parts.length)])

@[simp] theorem visits_literal (name : String) (depth : Nat) :
    (literal name).visits depth = [.reach depth, .judge (.literal name)] := by
  simp only [visits, fold_literal]

@[simp] theorem visits_apply (op : String) (xs : List (Formula String)) (depth : Nat) :
    (apply op xs).visits depth = .reach depth :: ((xs.map fun x => x.visits (depth + 1)).flatten
      ++ [.judge (.application op xs.length)]) := by
  simp [visits, fold_apply, Function.comp_def]

theorem visits_eq_cons (f : Formula String) (depth : Nat) :
    ∃ rest, f.visits depth = .reach depth :: rest := by
  cases f with
  | literal name => exact ⟨_, visits_literal name depth⟩
  | apply op xs => exact ⟨_, visits_apply op xs depth⟩

theorem Visit.fault?_reach_of_le {values : Valuation} {limit depth : Nat} (h : depth ≤ limit) :
    (reach depth).fault? values limit = none := if_neg (Nat.not_lt.2 h)

theorem Visit.fault?_reach_of_lt {values : Valuation} {limit depth : Nat} (h : limit < depth) :
    (reach depth).fault? values limit = some .nestedTooDeeply := if_pos h

theorem Node.fault?_ne_nestedTooDeeply (values : Valuation) (n : Node) :
    n.fault? values ≠ some .nestedTooDeeply := by
  cases n with
  | literal name =>
      rw [fault?]
      split <;> simp
  | application op count =>
      rw [fault?]
      split
      · simp
      · split <;> simp

theorem Visit.fault?_eq_nestedTooDeeply_iff {values : Valuation} {limit : Nat} {v : Visit} :
    v.fault? values limit = some .nestedTooDeeply ↔ ∃ depth, v = .reach depth ∧ limit < depth := by
  cases v with
  | reach depth => simp [Visit.fault?]
  | judge n => simpa [Visit.fault?] using n.fault?_ne_nestedTooDeeply values

/-! ## The first step with a fault -/

/-- Operands fail with the first fault of their steps. That a first operand is reached when there is no
    room is a fault already. -/
theorem failsWith_descend {values : Valuation} {xs : List (Formula String)} {depth limit : Nat}
    (h : ∀ x ∈ xs, ∀ depth limit, FailsWith
      ((x.visits depth).findSome? (Visit.fault? values (depth + limit)))
      (x.valueWithin values.lookup limit)) :
    FailsWith
      ((xs.map fun x => x.visits (depth + 1)).flatten.findSome?
        (Visit.fault? values (depth + limit)))
      (descend limit (xs.map (valueWithin values.lookup))) := by
  cases limit with
  | zero =>
      cases xs with
      | nil => exact .ok []
      | cons x xs =>
          obtain ⟨rest, hrest⟩ := x.visits_eq_cons (depth + 1)
          rw [List.map_cons, List.flatten_cons, hrest, List.cons_append, List.findSome?_cons,
            Visit.fault?_reach_of_lt (show depth + 0 < depth + 1 by omega)]
          exact rfl
  | succ limit =>
      rw [descend_succ, ← Nat.succ_add_eq_add_succ]
      exact failsWith_collect fun x hx => h x hx (depth + 1) limit

theorem length_of_descend {f : γ → Nat → Except Fault β} {limit : Nat} {xs : List γ} {bs : List β}
    (h : descend limit (xs.map f) = .ok bs) : bs.length = xs.length := by
  cases limit with
  | zero =>
      cases descend_zero_eq_ok h
      cases h
      rfl
  | succ limit =>
      rw [descend_succ] at h
      rw [length_collect h, List.length_map]

/-- With a limit, a formula fails with the first fault of its steps. -/
theorem failsWith_valueWithin (values : Valuation) (f : Formula String) :
    ∀ depth limit, FailsWith ((f.visits depth).findSome? (Visit.fault? values (depth + limit)))
      (f.valueWithin values.lookup limit) := by
  induction f using Formula.induct with
  | leaf name =>
      intro depth limit
      have hvalue := failsWith_value values (literal name)
      rw [nodes_literal, List.findSome?_singleton, value_literal] at hvalue
      rw [visits_literal, valueWithin_literal, List.findSome?_cons,
        Visit.fault?_reach_of_le (Nat.le_add_right depth limit), List.findSome?_singleton]
      exact hvalue
  | node op xs ih =>
      intro depth limit
      rw [visits_apply, valueWithin_apply, List.findSome?_cons,
        Visit.fault?_reach_of_le (Nat.le_add_right depth limit)]
      dsimp only
      rw [List.findSome?_append, List.findSome?_singleton]
      refine (failsWith_descend ih).bind fun bs hbs => ?_
      rw [← length_of_descend hbs]
      exact failsWith_applyNamed values op bs

section Limit

variable (values : Valuation) (f : Formula String) (limit : Nat)

/-- The first step that goes wrong is the outcome, whatever comes after it. -/
theorem valueWithin_eq_error_iff (e : Fault) :
    f.valueWithin values.lookup limit = .error e ↔ ∃ before v after,
      f.visits 0 = before ++ v :: after ∧ v.fault? values limit = some e ∧
        ∀ w ∈ before, w.fault? values limit = none := by
  have hfails := failsWith_valueWithin values f 0 limit
  rw [Nat.zero_add] at hfails
  rw [hfails.eq_error_iff, List.findSome?_eq_some_iff]

/-- Evaluation gives up exactly if a node that is too deep is reached before any node is judged to
    be at fault. -/
theorem valueWithin_gives_up_iff :
    f.valueWithin values.lookup limit = .error .nestedTooDeeply ↔ ∃ before depth after,
      f.visits 0 = before ++ .reach depth :: after ∧ limit < depth ∧
        ∀ n, .judge n ∈ before → n.fault? values = none := by
  constructor
  · intro h
    obtain ⟨before, v, after, hvisits, hfault, hbefore⟩ :=
      (valueWithin_eq_error_iff values f limit _).1 h
    obtain ⟨depth, rfl, hdepth⟩ := Visit.fault?_eq_nestedTooDeeply_iff.1 hfault
    exact ⟨before, depth, after, hvisits, hdepth, fun n hn => hbefore _ hn⟩
  · rintro ⟨before, depth, after, hvisits, hdepth, hbefore⟩
    have hfails := failsWith_valueWithin values f 0 limit
    rw [Nat.zero_add] at hfails
    rw [hfails.eq_error_iff, hvisits, List.findSome?_append, List.findSome?_cons,
      Visit.fault?_reach_of_lt hdepth]
    -- A fault before this step can only be that another node is too deep.
    cases hfirst : before.findSome? (Visit.fault? values limit) with
    | none => rfl
    | some e =>
        obtain ⟨w, hw, hfault⟩ := List.exists_of_findSome?_eq_some hfirst
        cases w with
        | reach depth' =>
            rw [Visit.fault?, Option.ite_none_right_eq_some] at hfault
            rw [← hfault.2]
            rfl
        | judge n =>
            rw [Visit.fault?, hbefore n hw] at hfault
            cases hfault

end Limit

/-! ## Without a limit -/

/-- Results that may differ only where they are the fault `e` give the same collection, unless that
    is `e`. -/
theorem collect_map_congr {e : Fault} {f g : γ → Except Fault β} {xs : List γ}
    (h : ∀ x ∈ xs, f x ≠ .error e → g x = f x) (hne : collect (xs.map f) ≠ .error e) :
    collect (xs.map g) = collect (xs.map f) := by
  induction xs with
  | nil => rfl
  | cons x xs ih =>
      obtain ⟨hx, hxs⟩ := List.forall_mem_cons.1 h
      rw [List.map_cons, collect_cons] at hne
      rw [List.map_cons, List.map_cons, collect_cons, collect_cons]
      cases hfx : f x with
      | error e' =>
          have hne' : f x ≠ .error e := by simpa [hfx, Except.bind] using hne
          rw [hx hne', hfx]
          rfl
      | ok b =>
          have hrest : collect (xs.map f) ≠ .error e := by
            intro hrest
            rw [hfx, hrest] at hne
            exact hne rfl
          rw [hx (by simp [hfx]), hfx, ih hxs hrest]

/-- Unless it gives up on nesting, evaluation with a limit gives the value without one. -/
theorem valueWithin_eq_value_of_ne (leaf : α → Except Fault Bool) (f : Formula α) :
    ∀ limit, f.valueWithin leaf limit ≠ .error .nestedTooDeeply →
      f.valueWithin leaf limit = f.value leaf := by
  induction f using Formula.induct with
  | leaf a =>
      intro limit _
      rw [valueWithin_literal, value_literal]
  | node op xs ih =>
      intro limit hne
      rw [valueWithin_apply] at hne
      rw [valueWithin_apply, value_apply]
      cases limit with
      | zero =>
          cases xs with
          | nil => rfl
          | cons x xs => exact absurd rfl hne
      | succ limit =>
          rw [descend_succ] at hne ⊢
          have hcollect : collect (xs.map fun x => x.valueWithin leaf limit)
              ≠ .error .nestedTooDeeply := by
            intro hcollect
            rw [hcollect] at hne
            exact hne rfl
          rw [collect_map_congr (fun x hx hxne => (ih x hx limit hxne).symm) hcollect]

end Formula

/-! ## Greater limits -/

section Greater

variable {limit limit' : Nat}

/-- A limit that takes no answer away does not do so when it is raised. -/
theorem parseWithin_of_le (h : limit ≤ limit') {ts : List Token}
    (hne : parseWithin limit ts ≠ .error .nestedTooDeeply) :
    parseWithin limit' ts = parseWithin limit ts := by
  have hne' : parseWithin limit' ts ≠ .error .nestedTooDeeply := by
    rw [Ne, parseWithin_gives_up_iff] at hne ⊢
    omega
  rw [parseWithin_eq_parseUnlimited hne, parseWithin_eq_parseUnlimited hne']

theorem Formula.valueWithin_of_le (h : limit ≤ limit') (values : Valuation) {f : Formula String}
    (hne : f.valueWithin values.lookup limit ≠ .error .nestedTooDeeply) :
    f.valueWithin values.lookup limit' = f.valueWithin values.lookup limit := by
  have hne' : f.valueWithin values.lookup limit' ≠ .error .nestedTooDeeply := by
    rw [Ne, valueWithin_gives_up_iff] at hne ⊢
    rintro ⟨before, depth, after, hvisits, hdepth, hbefore⟩
    exact hne ⟨before, depth, after, hvisits, h.trans_lt hdepth, hbefore⟩
  rw [valueWithin_eq_value_of_ne _ f limit hne, valueWithin_eq_value_of_ne _ f limit' hne']

end Greater

/-! ## Reading and writing -/

section Reading

variable {limit : Nat} {ts : List Token} {f : Formula String}

theorem depth_le_of_parseWithin (h : parseWithin limit ts = .ok f) : f.depth ≤ limit := by
  have hne : ¬ parseWithin limit ts = .error .nestedTooDeeply := by simp [h]
  rcases hread : Rule.formula limit ts with ⟨r, rest⟩
  have hok : r = .ok f := by
    rw [parseWithin, hread] at h
    cases r with
    | ok g =>
        dsimp only at h
        split at h <;> simp_all
    | error e => cases h
  subst hok
  have hunlimited : Rule.unlimited ts = (.ok f, rest) :=
    (Rule.formula_restricts_unlimited limit ts (by simp [hread])).trans hread
  obtain ⟨hgram, htokens⟩ := Rule.sound_unlimited _ _ _ hunlimited
  have hdeep := (hgram.nesting 0).2
  rw [parseWithin_gives_up_iff, Rule.takes_of_ok hunlimited htokens,
    Rule.reduceOption_map_some, Token.nesting] at hne
  omega

theorem parseWithin_ne_recordTooDeep : parseWithin limit ts ≠ .error .recordTooDeep := by
  rw [parseWithin]
  rcases hread : Rule.formula limit ts with ⟨r, rest⟩
  cases r with
  | ok g =>
      dsimp only
      split <;> simp
  | error e =>
      rintro ⟨⟩
      have hfaults := (Rule.productive_formula limit).faults _ _ _ hread
      simp [Fault.kind] at hfaults

end Reading

namespace Formula

/-- Applications nested so many levels to the left. -/
def leftNested : (levels : Nat) → Formula String
  | 0 => literal "A"
  | levels + 1 => apply "AND" [leftNested levels, literal "A"]

theorem grammatical_leftNested (levels : Nat) : (leftNested levels).Grammatical := by
  induction levels with
  | zero => exact .literal rfl
  | succ levels ih => exact .application .conjunction ih (.literal rfl)

theorem depth_leftNested (levels : Nat) : (leftNested levels).depth = levels := by
  induction levels with
  | zero => exact depth_literal _
  | succ levels ih => simp [leftNested, ih]

theorem printingDepth_leftNested (levels : Nat) :
    (leftNested levels).printingDepth = 4 * levels := by
  induction levels with
  | zero => exact printingDepth_literal _
  | succ levels ih =>
      have hcost : printingCost [leftNested levels, literal "A"].length = 4 := rfl
      simp only [leftNested, printingDepth_apply, hcost, List.map_cons, List.map_nil,
        List.foldr_cons, List.foldr_nil, ih, printingDepth_literal]
      omega

end Formula

namespace FromText

variable [limits : DepthLimits] {ts : List Token}

theorem parseTokens_gives_up_iff :
    (parseTokens ts).outcome = .error .nestedTooDeeply
      ↔ nestingLimit < Token.nesting (Rule.unlimited.takes ts).reduceOption := by
  rw [parseTokens_eq_error_iff, parse, parseWithin_gives_up_iff]
  simp

theorem parseTokens_gives_up_at (h : (parseTokens ts).outcome = .error .nestedTooDeeply) :
    ∃ before t after, ts = before ++ t :: after ∧
      (parseTokens before).outcome = .error .endOfInput ∧
      ∀ rest, (parseTokens (before ++ t :: rest)).outcome = .error .nestedTooDeeply := by
  simp only [parseTokens_eq_error_iff, reduceCtorEq, false_and, or_false] at h ⊢
  exact parseWithin_gives_up_at h

theorem parseTokens_eq_recordTooDeep_iff :
    (parseTokens ts).outcome = .error .recordTooDeep
      ↔ ∃ f, parse ts = .ok f ∧ printingLimit < f.printingDepth := by
  rw [parseTokens_eq_error_iff, parse]
  simp [parseWithin_ne_recordTooDeep]

/-- If writing does not fail, what comes out is what was read. -/
theorem parseTokens_eq_parse (hrecord : (parseTokens ts).outcome ≠ .error .recordTooDeep) :
    (parseTokens ts).outcome = parse ts := by
  cases hparse : parse ts with
  | error e => exact parseTokens_eq_error_iff.2 (Or.inl hparse)
  | ok f =>
      refine parseTokens_eq_ok_iff.2 ⟨hparse, ?_⟩
      by_contra hdepth
      exact hrecord (parseTokens_eq_recordTooDeep_iff.2 ⟨f, hparse, Nat.not_le.1 hdepth⟩)

section Answer

variable (hnesting : (parseTokens ts).outcome ≠ .error .nestedTooDeeply)
  (hrecord : (parseTokens ts).outcome ≠ .error .recordTooDeep)

include hnesting hrecord

theorem parseTokens_eq_parseUnlimited : (parseTokens ts).outcome = parseUnlimited ts := by
  have hparse := parseTokens_eq_parse hrecord
  rw [hparse] at hnesting
  exact hparse.trans (parseWithin_eq_parseUnlimited hnesting)

theorem parseTokens_of_le {greater : DepthLimits}
    (hle : limits.nestingLimit ≤ greater.nestingLimit)
    (hle' : limits.printingLimit ≤ greater.printingLimit) :
    (@parseTokens greater ts).outcome = (@parseTokens limits ts).outcome := by
  have hparse := @parseTokens_eq_parse limits ts hrecord
  have hsame : @parse greater ts = @parse limits ts :=
    parseWithin_of_le hle (by rwa [hparse] at hnesting)
  rw [hparse, outcome_parseTokens, hsame]
  cases hread : @parse limits ts with
  | error e => rfl
  | ok f =>
      rw [hread] at hparse
      exact if_pos (((@parseTokens_eq_ok_iff limits ts f).1 hparse).2.trans hle')

end Answer

/-- Writing never fails exactly if it has four calls for every level that reading has. -/
theorem never_recordTooDeep_iff :
    (∀ ts, (parseTokens ts).outcome ≠ .error .recordTooDeep)
      ↔ 4 * limits.nestingLimit ≤ limits.printingLimit := by
  constructor
  · intro hnever
    by_contra hless
    have hgram := Formula.grammatical_leftNested nestingLimit
    have hread := Rule.formula_complete hgram nestingLimit (Formula.depth_leftNested _).le []
    rw [List.append_nil] at hread
    refine hnever _ (parseTokens_eq_recordTooDeep_iff.2 ⟨_, parseWithin_eq_ok_iff.2 hread, ?_⟩)
    rw [Formula.printingDepth_leftNested]
    omega
  · intro hle ts h
    obtain ⟨f, hread, hdeep⟩ := parseTokens_eq_recordTooDeep_iff.1 h
    have hdepth := depth_le_of_parseWithin hread
    have hcost := f.printingDepth_le
    omega

end FromText

open FromText in
/-- **A nesting limit only takes answers away.** Let the unlimited parser be the rule that reads the
    operands of a bracketed formula as it reads the formula.

    Parsing gives up exactly if the brackets that the unlimited parser takes, before it finishes or
    fails, nest deeper than the limit; and then nothing was wrong before the token where it gives up,
    and nothing behind this token matters. If it does not give up and reads a formula for which the
    stack of writing does not suffice, there is another fault instead of the formula. Otherwise it
    gives the formula or the fault of the unlimited parser. There is never another fault exactly if
    writing has four calls for every level that reading has.

    Evaluation gives up exactly if, from left to right, a node that is too deep is reached before any
    node is at fault; in every case the first step that goes wrong is the outcome. Otherwise it gives
    what evaluation without a limit gives.

    Neither gives another answer with greater limits, unless it failed for its depth. -/
theorem nesting_limit_takes_away [limits : DepthLimits] :
    (∀ rule : Rule (Formula String), rule = Rule.unlimited ↔ rule = Rule.formulaOf rule) ∧
    (∀ ts : List Token,
      ((parseTokens ts).outcome = .error .nestedTooDeeply
        ↔ nestingLimit < Token.nesting (Rule.unlimited.takes ts).reduceOption) ∧
      ((parseTokens ts).outcome = .error .nestedTooDeeply → ∃ before t after,
        ts = before ++ t :: after ∧ (parseTokens before).outcome = .error .endOfInput ∧
        ∀ rest, (parseTokens (before ++ t :: rest)).outcome = .error .nestedTooDeeply) ∧
      ((parseTokens ts).outcome = .error .recordTooDeep
        ↔ Token.nesting (Rule.unlimited.takes ts).reduceOption ≤ nestingLimit ∧
          ∃ f, parseUnlimited ts = .ok f ∧ printingLimit < f.printingDepth) ∧
      ((parseTokens ts).outcome ≠ .error .nestedTooDeeply →
        (parseTokens ts).outcome ≠ .error .recordTooDeep →
        (parseTokens ts).outcome = parseUnlimited ts ∧
        ∀ greater : DepthLimits, limits.nestingLimit ≤ greater.nestingLimit →
          limits.printingLimit ≤ greater.printingLimit →
          (@parseTokens greater ts).outcome = (@parseTokens limits ts).outcome)) ∧
    ((∀ ts, (parseTokens ts).outcome ≠ .error .recordTooDeep)
      ↔ 4 * limits.nestingLimit ≤ limits.printingLimit) ∧
    ∀ (values : Valuation) (f : Formula String),
      (f.evaluate values = .error .nestedTooDeeply ↔ ∃ before depth after,
        f.visits 0 = before ++ .reach depth :: after ∧ nestingLimit < depth ∧
          ∀ n, .judge n ∈ before → n.fault? values = none) ∧
      (∀ e, f.evaluate values = .error e ↔ ∃ before v after,
        f.visits 0 = before ++ v :: after ∧ v.fault? values nestingLimit = some e ∧
          ∀ w ∈ before, w.fault? values nestingLimit = none) ∧
      (f.evaluate values ≠ .error .nestedTooDeeply → f.evaluate values = f.value values.lookup ∧
        ∀ greater : DepthLimits, limits.nestingLimit ≤ greater.nestingLimit →
          @Formula.evaluate greater values f = @Formula.evaluate limits values f) := by
  refine ⟨fun rule => Rule.eq_unlimited_iff, fun ts => ⟨parseTokens_gives_up_iff,
    parseTokens_gives_up_at, ?_, fun hne hne' => ⟨?_, fun greater hle hle' => ?_⟩⟩,
    never_recordTooDeep_iff, fun values f => ⟨?_, ?_, fun hne => ⟨?_, fun greater h => ?_⟩⟩⟩
  · rw [parseTokens_eq_recordTooDeep_iff, ← Nat.not_lt, ← parseWithin_gives_up_iff]
    constructor
    · rintro ⟨f, hread, hdeep⟩
      have hne : parseWithin nestingLimit ts ≠ .error .nestedTooDeeply := by
        rw [← parse, hread]
        simp
      exact ⟨hne, f, parseWithin_eq_parseUnlimited hne ▸ hread, hdeep⟩
    · rintro ⟨hne, f, hread, hdeep⟩
      exact ⟨f, (parseWithin_eq_parseUnlimited hne).trans hread, hdeep⟩
  · exact parseTokens_eq_parseUnlimited hne hne'
  · exact @parseTokens_of_le limits ts hne hne' greater hle hle'
  · exact f.valueWithin_gives_up_iff values nestingLimit
  · exact f.valueWithin_eq_error_iff values nestingLimit
  · exact f.valueWithin_eq_value_of_ne _ nestingLimit hne
  · exact Formula.valueWithin_of_le h values hne

open FromText in
/-- With room for one level, a bracket in place of a connective is refused, so that the two brackets
    behind it are not read, while in place of an operand it is too deep; and a word that is no
    connective comes before an operand that is too deep. The usual limits do not rule out that a
    formula is read and cannot be written. -/
theorem nesting_limit_takes_away_one :
    (∀ limits : DepthLimits, 1 ≤ limits.nestingLimit → 4 ≤ limits.printingLimit →
      (@parseTokens limits (["(", "A", "(", "(", "("].map some)).outcome
        = .error (.connectiveExpected (some "("))) ∧
    (∃ before t after, ["(", "A", "AND", "(", "("].map some = before ++ t :: after ∧
      (@parseTokens ⟨1, 4⟩ before).outcome = .error .endOfInput ∧
      ∀ rest, (@parseTokens ⟨1, 4⟩ (before ++ t :: rest)).outcome = .error .nestedTooDeeply) ∧
    (∀ limits : DepthLimits, 1 ≤ limits.nestingLimit →
      @Formula.evaluate limits (fun _ => none)
        (.apply "OR" [.apply "XOR" [], .apply "NOT" [.literal "A"]])
          = .error (.unknownConnective "XOR")) ∧
    ∃ ts, (parseTokens ts).outcome = .error .recordTooDeep := by
  obtain ⟨-, hparse, -, hvalue⟩ := @nesting_limit_takes_away ⟨1, 4⟩
  have hrefused : (@parseTokens ⟨1, 4⟩ (["(", "A", "(", "(", "("].map some)).outcome
      = .error (.connectiveExpected (some "(")) := rfl
  have hdeep : (@parseTokens ⟨1, 4⟩ (["(", "A", "AND", "(", "("].map some)).outcome
      = .error .nestedTooDeeply := rfl
  have hword : @Formula.evaluate ⟨1, 4⟩ (fun _ => none)
      (.apply "OR" [.apply "XOR" [], .apply "NOT" [.literal "A"]])
        = .error (.unknownConnective "XOR") := rfl
  refine ⟨fun limits h h' => ?_, (hparse _).2.1 hdeep, fun limits h => ?_, ?_⟩
  · have hsame := ((hparse (["(", "A", "(", "(", "("].map some)).2.2.2 (by rw [hrefused]; simp)
      (by rw [hrefused]; simp)).2 limits h h'
    exact hsame.trans hrefused
  · have hsame := ((hvalue _ _).2.2 (by rw [hword]; simp)).2 limits h
    exact hsame.trans hword
  · obtain ⟨-, -, hnever, -⟩ := nesting_limit_takes_away
    by_contra hnot
    exact absurd (hnever.1 (not_exists.1 hnot)) (by decide)

end PropDiagram

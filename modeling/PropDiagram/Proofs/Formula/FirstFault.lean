import PropDiagram.Proofs.Formula.Evaluation

set_option autoImplicit false

/-! # The first fault of a formula

Whatever is wrong with a formula is wrong with one of its nodes (`Formula.Node.fault?`): a literal is
not bound, a word is no connective, or a connective does not accept that many operands.
`Formula.nodes` lists the nodes in post-order, which is the order in which evaluation comes to judge
them. Since it skips none before the first fault, that fault is the outcome
(`Formula.evaluate_first_fault`).

The limit plays no part in this: a formula that does not nest deeper is evaluated as without a limit
(`Formula.valueWithin_eq_value`). -/

namespace PropDiagram

/-! ## Computations with one possible fault -/

/-- Whether the computation fails with the fault, or succeeds if there is none. -/
def FailsWith {β : Type} (fault : Option Fault) (r : Except Fault β) : Prop :=
  match fault with
  | some e => r = .error e
  | none => ∃ b, r = .ok b

namespace FailsWith

variable {α β : Type} {fault : Option Fault} {r : Except Fault β}

theorem ok (b : β) : FailsWith none (.ok b : Except Fault β) := ⟨b, rfl⟩

theorem bind {fault' : Option Fault} {x : Except Fault α} {f : α → Except Fault β}
    (hx : FailsWith fault x) (hf : ∀ a, x = .ok a → FailsWith fault' (f a)) :
    FailsWith (fault.or fault') (x.bind f) := by
  cases fault with
  | some e =>
      rw [FailsWith] at hx
      rw [hx]
      rfl
  | none =>
      obtain ⟨a, rfl⟩ := hx
      exact hf a rfl

theorem eq_error_iff (h : FailsWith fault r) (e : Fault) : r = .error e ↔ fault = some e := by
  cases fault with
  | some e' =>
      rw [FailsWith] at h
      rw [h, Except.error.injEq, Option.some.injEq]
  | none =>
      obtain ⟨b, rfl⟩ := h
      simp

theorem eq_ok_iff (h : FailsWith fault r) : (∃ b, r = .ok b) ↔ fault = none := by
  cases fault with
  | some e =>
      rw [FailsWith] at h
      simp [h]
  | none => exact iff_of_true h rfl

end FailsWith

namespace Formula

variable {α β γ : Type}

/-! ## Nodes -/

/-- A node of a formula, without what is below it: a literal, or a word applied to so many
    operands. -/
inductive Node where
  | literal (name : String)
  | application (op : String) (count : Nat)
deriving DecidableEq, Repr

/-- What is wrong with the node itself, if anything is. -/
def Node.fault? (values : Valuation) : Node → Option Fault
  | literal name => if (values name).isNone then some (.unbound (some name)) else none
  | application op count =>
    match Connective.ofKeyword? op with
    | none => some (.unknownConnective op)
    | some c => if c.accepts count then none else some (.wrongArity c)

/-- The nodes of a formula in post-order, every occurrence of a literal for itself. -/
def nodes : Formula String → List Node :=
  fold (fun name => [.literal name]) fun op parts => parts.flatten ++ [.application op parts.length]

@[simp] theorem nodes_literal (name : String) : (literal name).nodes = [.literal name] :=
  fold_literal ..

@[simp] theorem nodes_apply (op : String) (xs : List (Formula String)) :
    (apply op xs).nodes = (xs.map nodes).flatten ++ [.application op xs.length] := by
  simp [nodes, fold_apply]

theorem Node.fault?_congr {v w : Valuation} (h : ∀ x, (v x).isSome = (w x).isSome) (n : Node) :
    n.fault? v = n.fault? w := by
  cases n with
  | literal name =>
      have hname : (v name).isNone = (w name).isNone := by
        rw [← Option.not_isSome, ← Option.not_isSome, h name]
      rw [fault?, fault?, hname]
  | application op count => rfl

/-! ## Depth -/

theorem foldr_max_le_iff {f : γ → Nat} {xs : List γ} {limit : Nat} :
    (xs.map f).foldr max 0 ≤ limit ↔ ∀ x ∈ xs, f x ≤ limit := by
  induction xs with
  | nil => simp
  | cons x xs ih => simp only [List.map_cons, List.foldr_cons, Nat.max_le, ih, List.forall_mem_cons]

theorem depth_apply_le_iff {op : String} {xs : List (Formula α)} {limit : Nat} :
    (apply op xs).depth ≤ limit ↔ ∀ x ∈ xs, x.depth + 1 ≤ limit := by
  rw [depth_apply, List.map_map, foldr_max_le_iff]
  rfl

/-- Within the limit, the limit makes no difference. -/
theorem valueWithin_eq_value (leaf : α → Except Fault Bool) {f : Formula α} {limit : Nat}
    (h : f.depth ≤ limit) : f.valueWithin leaf limit = f.value leaf := by
  induction f using Formula.induct generalizing limit with
  | leaf a => rw [valueWithin_literal, value_literal]
  | node op xs ih =>
      rw [depth_apply_le_iff] at h
      rw [valueWithin_apply, value_apply]
      cases limit with
      | zero =>
          cases xs with
          | nil => rfl
          | cons x xs => exact absurd (h x List.mem_cons_self) (Nat.not_succ_le_zero _)
      | succ limit =>
          have hoperands : xs.map (fun x => x.valueWithin leaf limit) = xs.map (value leaf) :=
            List.map_congr_left fun x hx => ih x hx (Nat.le_of_succ_le_succ (h x hx))
          rw [descend_succ, hoperands]

/-! ## Faults in post-order -/

/-- A collection fails with the first fault of its items. -/
theorem failsWith_collect {ν : Type} {f : γ → Except Fault β} {parts : γ → List ν}
    {fault : ν → Option Fault} {xs : List γ}
    (h : ∀ x ∈ xs, FailsWith ((parts x).findSome? fault) (f x)) :
    FailsWith ((xs.map parts).flatten.findSome? fault) (collect (xs.map f)) := by
  induction xs with
  | nil => exact .ok []
  | cons x xs ih =>
      obtain ⟨hx, hxs⟩ := List.forall_mem_cons.1 h
      rw [List.map_cons, List.map_cons, List.flatten_cons, List.findSome?_append, collect_cons]
      refine hx.bind fun b _ => ?_
      rw [← Option.or_none (o := (xs.map parts).flatten.findSome? fault)]
      exact (ih hxs).bind fun bs _ => .ok _

theorem failsWith_applyNamed (values : Valuation) (op : String) (bs : List Bool) :
    FailsWith (Node.fault? values (.application op bs.length)) (Connective.applyNamed op bs) := by
  rw [Node.fault?, Connective.applyNamed]
  cases Connective.ofKeyword? op with
  | none => exact rfl
  | some c =>
      dsimp only
      by_cases haccepts : c.accepts bs.length = true
      · rw [if_pos haccepts, if_pos haccepts]
        exact .ok _
      · rw [if_neg haccepts, if_neg haccepts]
        exact rfl

/-- Without a limit, a formula fails with the first fault of its nodes. -/
theorem failsWith_value (values : Valuation) (f : Formula String) :
    FailsWith (f.nodes.findSome? (Node.fault? values)) (f.value values.lookup) := by
  induction f using Formula.induct with
  | leaf name =>
      rw [nodes_literal, value_literal, List.findSome?_singleton, Node.fault?, Valuation.lookup]
      cases values name with
      | none => exact rfl
      | some b => exact .ok b
  | node op xs ih =>
      rw [nodes_apply, value_apply, List.findSome?_append, List.findSome?_singleton]
      refine (failsWith_collect ih).bind fun bs hbs => ?_
      have hlength : xs.length = bs.length := by rw [length_collect hbs, List.length_map]
      rw [hlength]
      exact failsWith_applyNamed values op bs

theorem failsWith_evaluate [DepthLimits] {f : Formula String} (hdepth : f.depth ≤ nestingLimit)
    (values : Valuation) :
    FailsWith (f.nodes.findSome? (Node.fault? values)) (f.evaluate values) := by
  rw [evaluate, valueWithin_eq_value _ hdepth]
  exact failsWith_value values f

theorem findSome?_fault?_congr {v w : Valuation} (h : ∀ x, (v x).isSome = (w x).isSome)
    (ns : List Node) : ns.findSome? (Node.fault? v) = ns.findSome? (Node.fault? w) :=
  congrArg ns.findSome? (funext fun n => n.fault?_congr h)

/-- **The first fault in post-order wins.** A formula that nests within the limit has a value exactly
    if none of its nodes has a fault. Otherwise evaluation fails with the fault of the node that comes
    first in post-order among those that have one. So under valuations that bind the same names, the
    formula has a value under both, or fails under both with the same fault. -/
theorem evaluate_first_fault [DepthLimits] {f : Formula String} (hdepth : f.depth ≤ nestingLimit)
    (values : Valuation) :
    ((∃ b, f.evaluate values = .ok b) ↔ ∀ n ∈ f.nodes, n.fault? values = none) ∧
    (∀ e, f.evaluate values = .error e ↔ ∃ before n after, f.nodes = before ++ n :: after ∧
      n.fault? values = some e ∧ ∀ m ∈ before, m.fault? values = none) ∧
    ∀ values' : Valuation, (∀ x, (values' x).isSome = (values x).isSome) →
      (∃ b b', f.evaluate values = .ok b ∧ f.evaluate values' = .ok b') ∨
        ∃ e, f.evaluate values = .error e ∧ f.evaluate values' = .error e := by
  have hfails := failsWith_evaluate hdepth values
  refine ⟨?_, fun e => ?_, fun values' hbound => ?_⟩
  · rw [hfails.eq_ok_iff, List.findSome?_eq_none_iff]
  · rw [hfails.eq_error_iff, List.findSome?_eq_some_iff]
  · have hfails' := failsWith_evaluate hdepth values'
    rw [findSome?_fault?_congr hbound] at hfails'
    cases hfault : f.nodes.findSome? (Node.fault? values) with
    | none =>
        obtain ⟨b, hb⟩ := hfails.eq_ok_iff.2 hfault
        obtain ⟨b', hb'⟩ := hfails'.eq_ok_iff.2 hfault
        exact Or.inl ⟨b, b', hb, hb'⟩
    | some e => exact Or.inr ⟨e, (hfails.eq_error_iff e).2 hfault, (hfails'.eq_error_iff e).2 hfault⟩

/-- A negation with two operands comes before a literal that is not bound, and this before the word
    it is applied to. -/
theorem evaluate_first_fault_of_three :
    let f := Formula.apply "OR" [.apply "NOT" [.literal "x", .literal "y"],
      .apply "XOR" [.literal "z"]]
    let values : Bool → Valuation := fun b name => if name = "z" then none else some b
    f.depth ≤ nestingLimit ∧ (∀ x, (values false x).isSome = (values true x).isSome) ∧
      f.evaluate (values true) = .error (.wrongArity .negation) ∧
      f.evaluate (values false) = .error (.wrongArity .negation) := by
  intro f values
  have hdepth : f.depth ≤ nestingLimit := by decide
  have hbound : ∀ x, (values false x).isSome = (values true x).isSome := by
    intro x
    by_cases hx : x = "z" <;> simp [values, hx]
  have hfault : f.evaluate (values true) = .error (.wrongArity .negation) :=
    ((evaluate_first_fault hdepth (values true)).2.1 _).2
      ⟨[.literal "x", .literal "y"], .application "NOT" 2,
        [.literal "z", .application "XOR" 1, .application "OR" 2], rfl, rfl, by decide⟩
  refine ⟨hdepth, hbound, hfault, ?_⟩
  rcases (evaluate_first_fault hdepth (values true)).2.2 (values false) hbound with
    ⟨b, -, hb, -⟩ | ⟨e, he, he'⟩
  · rw [hfault] at hb
    cases hb
  · rw [hfault] at he
    cases he
    exact he'

end Formula

end PropDiagram

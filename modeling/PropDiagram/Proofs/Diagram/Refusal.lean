import PropDiagram.Proofs.Diagram.DecisionTree
import PropDiagram.Proofs.Formula.FirstFault

set_option autoImplicit false

/-! # When building fails

Building a diagram is refused for one of three reasons, which are judged in this order: the order has
too many names, it repeats a name, or the formula has no value (`Diagram.build_refusals`). Of too many
names the fault tells how large the tree would be, and with far too many it fails to do so
(`Diagram.outcome_build_of_lt`).

The last reason is a matter of the formula alone. Every assignment to the names binds the same names, so
every leaf of the decision tree fails with the first fault of the nodes of the formula, or none does
(`Tree.failsWith_ofFormula`). That fault is the outcome of building, and of evaluating the formula
under any assignment. -/

namespace PropDiagram

/-! ## Formulas without faults of their own -/

namespace Formula

/-- Whether every word of the formula is a connective and is applied to a number of operands that it
    accepts. -/
def Legal (f : Formula String) : Prop :=
  ∀ op count, Node.application op count ∈ f.nodes →
    ∃ c : Connective, op = c.keyword ∧ c.accepts count = true

theorem literal_mem_nodes_iff (f : Formula String) (x : String) :
    .literal x ∈ f.nodes ↔ x ∈ f.leaves := by
  induction f using Formula.induct with
  | leaf name => simp
  | node op xs ih =>
      rw [nodes_apply, leaves_apply, List.mem_append, List.mem_singleton]
      simp only [reduceCtorEq, or_false, List.mem_flatten, List.mem_map, exists_exists_and_eq_and]
      exact exists_congr fun y => and_congr_right fun hy => ih y hy

theorem Node.fault?_literal_eq_none_iff (values : Valuation) (x : String) :
    fault? values (.literal x) = none ↔ (values x).isSome = true := by
  rw [fault?]
  cases values x <;> simp

theorem Node.fault?_application_eq_none_iff (values : Valuation) (op : String) (count : Nat) :
    fault? values (.application op count) = none ↔
      ∃ c : Connective, op = c.keyword ∧ c.accepts count = true := by
  simp only [← Connective.ofKeyword?_eq_some_iff]
  rw [fault?]
  cases Connective.ofKeyword? op with
  | none => simp
  | some c => simp

theorem Node.evaluation_mem_lineage {values : Valuation} {n : Node} {e : Fault}
    (h : n.fault? values = some e) : FaultKind.evaluation ∈ e.kind.lineage := by
  cases n with
  | literal name =>
      rw [fault?] at h
      split at h
      · cases h
        simp [Fault.kind, FaultKind.lineage]
      · cases h
  | application op count =>
      rw [fault?] at h
      split at h
      · cases h
        simp [Fault.kind, FaultKind.lineage]
      · split at h
        · cases h
        · cases h
          simp [Fault.kind, FaultKind.lineage]

/-- A formula has no fault if it is legal and its leaves are bound. -/
theorem firstFault_eq_none_iff (values : Valuation) (f : Formula String) :
    f.nodes.findSome? (Node.fault? values) = none ↔
      f.Legal ∧ ∀ x ∈ f.leaves, (values x).isSome = true := by
  rw [List.findSome?_eq_none_iff]
  constructor
  · intro h
    refine ⟨fun op count hmem => ?_, fun x hx => ?_⟩
    · exact (Node.fault?_application_eq_none_iff values op count).1 (h _ hmem)
    · exact (Node.fault?_literal_eq_none_iff values x).1
        (h _ ((literal_mem_nodes_iff f x).2 hx))
  · rintro ⟨hlegal, hbound⟩ n hn
    cases n with
    | literal x =>
        exact (Node.fault?_literal_eq_none_iff values x).2
          (hbound x ((literal_mem_nodes_iff f x).1 hn))
    | application op count =>
        exact (Node.fault?_application_eq_none_iff values op count).2 (hlegal op count hn)

end Formula

/-! ## The leaves of a decision tree -/

/-- Binds the names of an order, to whatever value. -/
def Valuation.binding (order : List String) : Valuation :=
  fun x => if x ∈ order then some false else none

theorem Valuation.isSome_binding (order : List String) (x : String) :
    (binding order x).isSome = true ↔ x ∈ order := by
  rw [binding]
  split <;> simp [*]

theorem Assignment.isSome_valuation_zip {order : List String} (hnodup : order.Nodup)
    {bs : List Bool} (h : bs.length = order.length) (x : String) :
    (valuation (order.zip bs) x).isSome = (Valuation.binding order x).isSome := by
  obtain ⟨g, rfl⟩ := exists_map_eq hnodup h
  rw [valuation_zip_map, Valuation.binding]
  split <;> rfl

theorem Tree.failsWith_complete {f : Assignment → Except Fault Bool} {order : List String}
    {assigned : Assignment} {fault : Option Fault}
    (h : ∀ bs : List Bool, bs.length = order.length →
      FailsWith fault (f (assigned ++ order.zip bs))) :
    FailsWith fault (complete f order assigned) := by
  cases fault with
  | some e => exact complete_eq_error h
  | none => exact exists_complete h

section

variable [DepthLimits] {f : Formula String} {order : List String}

/-- Under every assignment to the order, the formula fails with the same fault. -/
theorem Formula.failsWith_evaluate_zip (hdepth : f.depth ≤ nestingLimit) (hnodup : order.Nodup)
    {bs : List Bool} (h : bs.length = order.length) :
    FailsWith (f.nodes.findSome? (Node.fault? (Valuation.binding order)))
      (f.evaluate (Assignment.valuation (order.zip bs))) := by
  rw [← findSome?_fault?_congr (Assignment.isSome_valuation_zip hnodup h)]
  exact failsWith_evaluate hdepth _

theorem Tree.failsWith_ofFormula (hdepth : f.depth ≤ nestingLimit) (hnodup : order.Nodup) :
    FailsWith (f.nodes.findSome? (Formula.Node.fault? (Valuation.binding order)))
      (ofFormula f order) :=
  failsWith_complete fun _ h => f.failsWith_evaluate_zip hdepth hnodup h

end

/-! ## Building -/

namespace Diagram

section AnyLimits

variable [DepthLimits] {f : Formula String} {choice : Option (List String)} {limits : Limits}

/-- Too many names are refused, by their number as long as the message can be written. -/
theorem outcome_build_of_lt (h : limits.most < (choice.getD f.names).length) :
    (build f choice limits).outcome = .error
      (if (choice.getD f.names).length < 14284 ∧ Text.isWritable limits.most = true then
        .literalLimit (choice.getD f.names).length limits.most
      else .numberTooLong) := by
  rw [outcome_build, if_pos h, Fault.tooManyLiterals]
  simp only [Bool.and_eq_true, isWritable_completeSize_iff, and_comm]

theorem outcome_build_of_le (hmost : limits.most ≤ 62)
    (h : ((choice.getD f.names).length : Int) ≤ limits.most) :
    (build f choice limits).outcome
      = if (choice.getD f.names).Nodup then
          (Tree.ofFormula f (choice.getD f.names)).bind fun t => .ok (ofTree t)
        else .error (.duplicateNames (choice.getD f.names)) := by
  have hlength : (choice.getD f.names).length < Assignments.lengthDigits := by
    rw [Assignments.lengthDigits]
    omega
  rw [outcome_build, if_neg (Int.not_lt.2 h), if_neg (not_unwritable hlength), Assignments.ofOrder]
  split
  · dsimp only [Except.bind]
    rw [Assignments.length, if_pos hlength]
  · rfl

/-- Building over names that differ fails with the first fault of the formula. -/
theorem failsWith_build (hdepth : f.depth ≤ nestingLimit) (hmost : limits.most ≤ 62)
    (h : ((choice.getD f.names).length : Int) ≤ limits.most) (hnodup : (choice.getD f.names).Nodup) :
    FailsWith (f.nodes.findSome? (Formula.Node.fault? (Valuation.binding (choice.getD f.names))))
      (build f choice limits).outcome := by
  rw [outcome_build_of_le hmost h, if_pos hnodup, ← Option.or_none (o := f.nodes.findSome? _)]
  exact (Tree.failsWith_ofFormula hdepth hnodup).bind fun t _ => .ok _

/-- What building fails with where there are not too many names. -/
theorem fault_of_build_of_le (hdepth : f.depth ≤ nestingLimit) (hmost : limits.most ≤ 62)
    (h : ((choice.getD f.names).length : Int) ≤ limits.most) {e : Fault}
    (he : (build f choice limits).outcome = .error e) :
    (¬(choice.getD f.names).Nodup ∧ e = .duplicateNames (choice.getD f.names)) ∨
      ((choice.getD f.names).Nodup ∧ FaultKind.evaluation ∈ e.kind.lineage) := by
  by_cases hnodup : (choice.getD f.names).Nodup
  · rw [(failsWith_build hdepth hmost h hnodup).eq_error_iff] at he
    obtain ⟨n, -, hn⟩ := List.exists_of_findSome?_eq_some he
    exact Or.inr ⟨hnodup, Formula.Node.evaluation_mem_lineage hn⟩
  · rw [outcome_build_of_le hmost h, if_neg hnodup] at he
    exact Or.inl ⟨hnodup, (Except.error.inj he).symm⟩

theorem most_lt_of_build (hdepth : f.depth ≤ nestingLimit) (hmost : limits.most ≤ 62) {e : Fault}
    (he : (build f choice limits).outcome = .error e)
    (hlimit : (∃ n most, e = .literalLimit n most) ∨ e = .numberTooLong) :
    limits.most < (choice.getD f.names).length := by
  by_contra hnot
  rcases fault_of_build_of_le hdepth hmost (Int.not_lt.1 hnot) he with ⟨-, rfl⟩ | ⟨-, hkind⟩
  · simp at hlimit
  · rcases hlimit with ⟨n, most, rfl⟩ | rfl <;> simp [Fault.kind, FaultKind.lineage] at hkind

/-- A refusal for the number of names comes exactly if there are too many of them. -/
theorem build_eq_limit_iff (hdepth : f.depth ≤ nestingLimit) (hmost : limits.most ≤ 62) {e : Fault}
    (hlimit : (∃ n most, e = .literalLimit n most) ∨ e = .numberTooLong) :
    (build f choice limits).outcome = .error e ↔
      limits.most < (choice.getD f.names).length ∧
        (if (choice.getD f.names).length < 14284 ∧ Text.isWritable limits.most = true then
          .literalLimit (choice.getD f.names).length limits.most
        else .numberTooLong) = e := by
  constructor
  · intro he
    have hmany := most_lt_of_build hdepth hmost he hlimit
    rw [outcome_build_of_lt hmany, Except.error.injEq] at he
    exact ⟨hmany, he⟩
  · rintro ⟨hmany, rfl⟩
    exact outcome_build_of_lt hmany

theorem build_eq_literalLimit_iff (hdepth : f.depth ≤ nestingLimit) (hmost : limits.most ≤ 62) :
    (build f choice limits).outcome
        = .error (.literalLimit (choice.getD f.names).length limits.most) ↔
      limits.most < (choice.getD f.names).length ∧ (choice.getD f.names).length < 14284 ∧
        Text.isWritable limits.most = true := by
  rw [build_eq_limit_iff hdepth hmost (Or.inl ⟨_, _, rfl⟩), ite_eq_left_iff]
  simp

theorem build_eq_numberTooLong_iff (hdepth : f.depth ≤ nestingLimit) (hmost : limits.most ≤ 62) :
    (build f choice limits).outcome = .error .numberTooLong ↔
      limits.most < (choice.getD f.names).length ∧
        ¬((choice.getD f.names).length < 14284 ∧ Text.isWritable limits.most = true) := by
  rw [build_eq_limit_iff hdepth hmost (Or.inr rfl), ite_eq_right_iff]
  simp

theorem build_eq_duplicateNames_iff (hdepth : f.depth ≤ nestingLimit) (hmost : limits.most ≤ 62)
    (h : ((choice.getD f.names).length : Int) ≤ limits.most) :
    (build f choice limits).outcome = .error (.duplicateNames (choice.getD f.names)) ↔
      ¬(choice.getD f.names).Nodup := by
  constructor
  · intro he
    rcases fault_of_build_of_le hdepth hmost h he with ⟨hnot, -⟩ | ⟨-, hkind⟩
    · exact hnot
    · simp [Fault.kind, FaultKind.lineage] at hkind
  · intro hnot
    rw [outcome_build_of_le hmost h, if_neg hnot]

theorem exists_build_iff (hdepth : f.depth ≤ nestingLimit) (hmost : limits.most ≤ 62)
    (h : ((choice.getD f.names).length : Int) ≤ limits.most) (hnodup : (choice.getD f.names).Nodup) :
    (∃ d, (build f choice limits).outcome = .ok d) ↔
      f.Legal ∧ ∀ x ∈ f.leaves, x ∈ choice.getD f.names := by
  rw [(failsWith_build hdepth hmost h hnodup).eq_ok_iff, Formula.firstFault_eq_none_iff]
  simp only [Valuation.isSome_binding]

/-- Over names that differ, building fails as evaluating fails, whatever the assignment. -/
theorem build_eq_error_iff (hdepth : f.depth ≤ nestingLimit) (hmost : limits.most ≤ 62)
    (h : ((choice.getD f.names).length : Int) ≤ limits.most) (hnodup : (choice.getD f.names).Nodup)
    (e : Fault) (i : Nat) :
    (build f choice limits).outcome = .error e ↔
      f.evaluate (Assignment.numbered (choice.getD f.names) i).valuation = .error e := by
  have hevaluate := f.failsWith_evaluate_zip hdepth hnodup
    (Assignment.length_branches (choice.getD f.names) i)
  rw [Assignment.zip_branches] at hevaluate
  rw [(failsWith_build hdepth hmost h hnodup).eq_error_iff, hevaluate.eq_error_iff]

theorem exists_build_of_legal (hdepth : f.depth ≤ nestingLimit) (hmost : limits.most ≤ 62)
    (hlegal : f.Legal) (h : (f.names.length : Int) ≤ limits.most) :
    ∃ d, (build f none limits).outcome = .ok d := by
  have hiff := @exists_build_iff _ f none limits hdepth hmost h (Formula.nodup_names f)
  refine hiff.2 ⟨hlegal, fun x hx => ?_⟩
  rwa [Option.getD_none, Formula.names_eq, List.mem_eraseDups]

/-- **When building fails, and how.** For every formula that nests within the limit, every order of
    names, in which names may recur, and a limit of at most 62 names. If there are more names than
    that, the fault says so, as long as its message can be written: for 14284 names or more the size
    of the tree is too long for it, and that is the fault. Otherwise, if a name occurs twice, this is
    the fault. Otherwise building succeeds exactly if every word is a connective with a number of
    operands that it accepts and every leaf is in the order; and if not, it fails as evaluating the
    formula does under any assignment to the names, all of which agree in this. Over its own names, a
    formula whose words are connectives with the right operands is built unless it has too many. -/
theorem build_refusals (hdepth : f.depth ≤ nestingLimit) (choice : Option (List String))
    (hmost : limits.most ≤ 62) :
    let order := choice.getD f.names
    let outcome := (build f choice limits).outcome
    (outcome = .error (.literalLimit order.length limits.most) ↔
      limits.most < order.length ∧ order.length < 14284 ∧ Text.isWritable limits.most = true) ∧
    (outcome = .error .numberTooLong ↔
      limits.most < order.length ∧
        ¬(order.length < 14284 ∧ Text.isWritable limits.most = true)) ∧
    (order.length ≤ limits.most →
      (outcome = .error (.duplicateNames order) ↔ ¬order.Nodup) ∧
      (order.Nodup →
        ((∃ d, outcome = .ok d) ↔ f.Legal ∧ ∀ x ∈ f.leaves, x ∈ order) ∧
        ∀ (e : Fault) (i : Nat), outcome = .error e ↔
          f.evaluate (Assignment.numbered order i).valuation = .error e)) ∧
    (f.Legal → f.names.length ≤ limits.most → ∃ d, (build f none limits).outcome = .ok d) := by
  refine ⟨build_eq_literalLimit_iff hdepth hmost, build_eq_numberTooLong_iff hdepth hmost,
    fun hle => ⟨build_eq_duplicateNames_iff hdepth hmost hle, fun hnodup => ⟨?_, ?_⟩⟩,
    exists_build_of_legal hdepth hmost⟩
  · exact exists_build_iff hdepth hmost hle hnodup
  · exact build_eq_error_iff hdepth hmost hle hnodup

end AnyLimits

/-- A word with too few operands comes before a name that is not in the order. The same formula over
    14284 names is refused for their number, which has no message. -/
theorem build_refusals_single :
    let f := Formula.apply "AND" [.apply "OR" [.literal "x"], .literal "y"]
    f.depth ≤ nestingLimit ∧ Limits.usual.most ≤ 62 ∧
      (build f (some ["x"]) .usual).outcome = .error (.wrongArity .disjunction) ∧
      (build f (some (List.replicate 14284 "x")) .usual).outcome = .error .numberTooLong := by
  intro f
  have hdepth : f.depth ≤ nestingLimit := by decide
  have hmost : Limits.usual.most ≤ 62 := by decide
  refine ⟨hdepth, hmost, ?_, ?_⟩
  · obtain ⟨-, -, hrest, -⟩ := build_refusals hdepth (some ["x"]) hmost
    exact (((hrest (by decide)).2 (by decide)).2 _ 0).2 (by decide +kernel)
  · obtain ⟨-, hlong, -, -⟩ := build_refusals hdepth (some (List.replicate 14284 "x")) hmost
    refine hlong.2 ?_
    rw [Option.getD_some, List.length_replicate]
    exact ⟨by decide, fun h => absurd h.1 (by decide)⟩

end Diagram

end PropDiagram

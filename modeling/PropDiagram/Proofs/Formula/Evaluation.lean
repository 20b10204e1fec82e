import PropDiagram.Formula.Evaluation
import PropDiagram.Proofs.FirstOccurrences

set_option autoImplicit false

/-! # What evaluation depends on

Evaluation looks at the literals from left to right and skips none. A formula that has a value under
some valuation therefore has no other faults than unbound names: under any valuation it fails at the
first name that is not bound, and has a value if all are (`Formula.needs_leaves`). A value does not
change when more names are bound (`Formula.evaluate_of_extends`). -/

namespace PropDiagram

theorem except_ok_bind {α β : Type} (a : α) (f : α → Except Fault β) :
    (Except.ok a >>= f) = f a := rfl

theorem except_bind_eq_ok_iff {α β : Type} {x : Except Fault α} {f : α → Except Fault β} {b : β} :
    x.bind f = .ok b ↔ ∃ a, x = .ok a ∧ f a = .ok b := by
  cases x with
  | error e => simp [Except.bind]
  | ok a => simp [Except.bind]

theorem except_bind_eq_error_iff {α β : Type} {x : Except Fault α} {f : α → Except Fault β}
    {e : Fault} : x.bind f = .error e ↔ x = .error e ∨ ∃ a, x = .ok a ∧ f a = .error e := by
  cases x with
  | error e' => simp [Except.bind]
  | ok a => simp [Except.bind]

/-! ## Computations that need names -/

namespace Valuation

variable {α β : Type} {values : Valuation}

/-- Whether the computation needs exactly these names: it fails at the first one that is not bound,
    and succeeds if all are bound. -/
def Needs (values : Valuation) (names : List String) (r : Except Fault β) : Prop :=
  match names.find? fun x => (values x).isNone with
  | some x => r = .error (.unbound (some x))
  | none => ∃ b, r = .ok b

theorem needs_lookup (values : Valuation) (x : String) : values.Needs [x] (values.lookup x) := by
  rw [Needs, List.find?_singleton, lookup]
  cases values x with
  | none => rfl
  | some b => exact ⟨b, rfl⟩

theorem needs_ok (b : β) : values.Needs [] (.ok b) := ⟨b, rfl⟩

/-- What follows a computation needs its names after those of the computation. -/
theorem Needs.bind {xs ys : List String} {r : Except Fault α} {f : α → Except Fault β}
    (hr : values.Needs xs r) (hf : ∀ a, r = .ok a → values.Needs ys (f a)) :
    values.Needs (xs ++ ys) (r.bind f) := by
  rw [Needs] at hr
  rw [Needs, List.find?_append]
  cases hfind : xs.find? fun x => (values x).isNone with
  | some x =>
      rw [hfind] at hr
      rw [hr]
      rfl
  | none =>
      rw [hfind] at hr
      obtain ⟨a, rfl⟩ := hr
      exact hf a rfl

/-- Whether `w` has the values that `v` has, and perhaps more. -/
def Extends (w v : Valuation) : Prop := ∀ x b, v x = some b → w x = some b

theorem Extends.lookup {v w : Valuation} (h : w.Extends v) {x : String} {b : Bool}
    (hb : v.lookup x = .ok b) : w.lookup x = .ok b := by
  rw [Valuation.lookup] at hb ⊢
  cases hv : v x with
  | none =>
      rw [hv] at hb
      cases hb
  | some c =>
      rw [hv] at hb
      rw [h x c hv]
      exact hb

end Valuation

/-! ## Operands -/

/-- Whether a connective can be applied depends on the number of operands only. -/
theorem Connective.applyNamed_of_length {op : String} {xs ys : List Bool} {b : Bool}
    (h : applyNamed op xs = .ok b) (hlength : ys.length = xs.length) :
    ∃ c, applyNamed op ys = .ok c := by
  rw [applyNamed] at h ⊢
  cases hop : ofKeyword? op with
  | none =>
      rw [hop] at h
      cases h
  | some c =>
      rw [hop] at h
      dsimp only at h ⊢
      rw [hlength]
      split at h
      · next haccepts =>
          rw [if_pos haccepts]
          exact ⟨_, rfl⟩
      · cases h

namespace Formula

variable {α β γ : Type}

theorem collect_cons (r : Except Fault β) (rs : List (Except Fault β)) :
    collect (r :: rs) = r.bind fun b => (collect rs).bind fun bs => .ok (b :: bs) := rfl

theorem length_collect {rs : List (Except Fault β)} {bs : List β} (h : collect rs = .ok bs) :
    bs.length = rs.length := by
  induction rs generalizing bs with
  | nil =>
      cases h
      rfl
  | cons r rs ih =>
      rw [collect_cons, except_bind_eq_ok_iff] at h
      obtain ⟨b, -, h⟩ := h
      rw [except_bind_eq_ok_iff] at h
      obtain ⟨cs, hcs, h⟩ := h
      cases h
      rw [List.length_cons, List.length_cons, ih hcs]

theorem collect_map_of_forall {f g : γ → Except Fault β} {xs : List γ}
    (h : ∀ x ∈ xs, ∀ b, f x = .ok b → g x = .ok b) {bs : List β}
    (hbs : collect (xs.map f) = .ok bs) : collect (xs.map g) = .ok bs := by
  induction xs generalizing bs with
  | nil => exact hbs
  | cons x xs ih =>
      rw [List.map_cons, collect_cons, except_bind_eq_ok_iff] at hbs
      obtain ⟨b, hb, hbs⟩ := hbs
      rw [except_bind_eq_ok_iff] at hbs
      obtain ⟨cs, hcs, hbs⟩ := hbs
      rw [List.map_cons, collect_cons, h x (by simp) b hb,
        ih (fun y hy => h y (List.mem_cons_of_mem x hy)) hcs]
      exact hbs

theorem ok_of_collect_map {f : γ → Except Fault β} {xs : List γ} {bs : List β}
    (h : collect (xs.map f) = .ok bs) : ∀ x ∈ xs, ∃ b, f x = .ok b := by
  induction xs generalizing bs with
  | nil =>
      intro x hx
      simp at hx
  | cons x xs ih =>
      rw [List.map_cons, collect_cons, except_bind_eq_ok_iff] at h
      obtain ⟨b, hb, h⟩ := h
      rw [except_bind_eq_ok_iff] at h
      obtain ⟨cs, hcs, -⟩ := h
      intro y hy
      rcases List.mem_cons.1 hy with rfl | hy
      · exact ⟨b, hb⟩
      · exact ih hcs y hy

theorem needs_collect {values : Valuation} {f : γ → Except Fault β} {names : γ → List String}
    {xs : List γ} (h : ∀ x ∈ xs, values.Needs (names x) (f x)) :
    values.Needs (xs.map names).flatten (collect (xs.map f)) := by
  induction xs with
  | nil => exact Valuation.needs_ok []
  | cons x xs ih =>
      have hrest := ih fun y hy => h y (List.mem_cons_of_mem x hy)
      rw [List.map_cons, List.map_cons, List.flatten_cons, collect_cons]
      refine (h x (by simp)).bind ?_
      intro b _
      rw [← List.append_nil (xs.map names).flatten]
      exact hrest.bind fun bs _ => Valuation.needs_ok _

theorem descend_succ (limit : Nat) (f : γ → Nat → Except Fault β) (xs : List γ) :
    descend (limit + 1) (xs.map f) = collect (xs.map fun x => f x limit) := by
  rw [descend, List.map_map]
  rfl

theorem descend_zero_eq_ok {f : γ → Nat → Except Fault β} {xs : List γ} {bs : List β}
    (h : descend 0 (xs.map f) = .ok bs) : xs = [] := by
  cases xs with
  | nil => rfl
  | cons x xs => simp [descend] at h

/-! ## Formulas -/

/-- A formula that has a value under some valuation needs the names at its leaves, and nothing
    else. -/
theorem needs_valueWithin {v : Valuation} (values : Valuation) (f : Formula String) :
    ∀ limit b, f.valueWithin v.lookup limit = .ok b →
      values.Needs f.leaves (f.valueWithin values.lookup limit) := by
  induction f using Formula.induct with
  | leaf x =>
      intro limit b _
      rw [leaves_literal, valueWithin_literal]
      exact Valuation.needs_lookup values x
  | node op xs ih =>
      intro limit b h
      rw [valueWithin_apply, except_bind_eq_ok_iff] at h
      obtain ⟨bs, hbs, hop⟩ := h
      rw [leaves_apply, valueWithin_apply, ← List.append_nil (xs.map leaves).flatten]
      cases limit with
      | zero =>
          cases descend_zero_eq_ok hbs
          cases hbs
          exact ⟨b, hop⟩
      | succ limit =>
          rw [descend_succ] at hbs ⊢
          refine Valuation.Needs.bind (needs_collect ?_) ?_
          · intro x hx
            obtain ⟨c, hc⟩ := ok_of_collect_map hbs x hx
            exact ih x hx limit c hc
          · intro cs hcs
            refine Connective.applyNamed_of_length hop ?_
            rw [length_collect hcs, length_collect hbs, List.length_map, List.length_map]

theorem valueWithin_of_extends {v w : Valuation} (hvw : w.Extends v) (f : Formula String) :
    ∀ limit b, f.valueWithin v.lookup limit = .ok b → f.valueWithin w.lookup limit = .ok b := by
  induction f using Formula.induct with
  | leaf x =>
      intro limit b h
      rw [valueWithin_literal] at h ⊢
      exact hvw.lookup h
  | node op xs ih =>
      intro limit b h
      rw [valueWithin_apply, except_bind_eq_ok_iff] at h ⊢
      obtain ⟨bs, hbs, hop⟩ := h
      refine ⟨bs, ?_, hop⟩
      cases limit with
      | zero =>
          cases descend_zero_eq_ok hbs
          exact hbs
      | succ limit =>
          rw [descend_succ] at hbs ⊢
          exact collect_map_of_forall (fun x hx c => ih x hx limit c) hbs

theorem needs_leaves [DepthLimits] {v : Valuation} {f : Formula String} {b : Bool}
    (h : f.evaluate v = .ok b) (values : Valuation) : values.Needs f.leaves (f.evaluate values) :=
  needs_valueWithin values f nestingLimit b h

theorem evaluate_of_extends [DepthLimits] {v w : Valuation} (hvw : w.Extends v)
    {f : Formula String} {b : Bool} (h : f.evaluate v = .ok b) : f.evaluate w = .ok b :=
  valueWithin_of_extends hvw f nestingLimit b h

/-! ## Faults -/

theorem error_mem_of_collect {rs : List (Except Fault β)} {e : Fault}
    (h : collect rs = .error e) : .error e ∈ rs := by
  induction rs with
  | nil => cases h
  | cons r rs ih =>
      rw [collect_cons, except_bind_eq_error_iff] at h
      rcases h with rfl | ⟨b, -, h⟩
      · exact List.mem_cons_self
      · rcases except_bind_eq_error_iff.1 h with hrest | ⟨bs, -, h⟩
        · exact List.mem_cons_of_mem _ (ih hrest)
        · cases h

theorem formula_mem_lineage_of_applyNamed {op : String} {bs : List Bool} {e : Fault}
    (h : Connective.applyNamed op bs = .error e) : FaultKind.formula ∈ e.kind.lineage := by
  unfold Connective.applyNamed at h
  split at h
  · cases h
    simp [Fault.kind, FaultKind.lineage]
  · split at h
    · cases h
    · cases h
      simp [Fault.kind, FaultKind.lineage]

/-- What can be wrong with the operands is that one of them is wrong, or nested too deeply. -/
theorem descend_eq_error {limit : Nat} {f : γ → Nat → Except Fault β} {xs : List γ} {e : Fault}
    (h : descend limit (xs.map f) = .error e) :
    e = .nestedTooDeeply ∨ ∃ x ∈ xs, ∃ limit', f x limit' = .error e := by
  cases limit with
  | zero =>
      rw [descend] at h
      by_cases hempty : (xs.map f).isEmpty = true
      · rw [if_pos hempty] at h
        cases h
      · rw [if_neg hempty] at h
        cases h
        exact Or.inl rfl
  | succ limit =>
      rw [descend_succ] at h
      obtain ⟨x, hx, he⟩ := List.mem_map.1 (error_mem_of_collect h)
      exact Or.inr ⟨x, hx, limit, he⟩

/-- Whatever evaluation finds wrong is a fault of formulas. -/
theorem formula_mem_lineage_of_valueWithin {values : Valuation} (f : Formula String) :
    ∀ limit e, f.valueWithin values.lookup limit = .error e →
      FaultKind.formula ∈ e.kind.lineage := by
  induction f using Formula.induct with
  | leaf x =>
      intro limit e h
      rw [valueWithin_literal, Valuation.lookup] at h
      split at h
      · cases h
      · cases h
        simp [Fault.kind, FaultKind.lineage]
  | node op xs ih =>
      intro limit e h
      rw [valueWithin_apply, except_bind_eq_error_iff] at h
      rcases h with hoperands | ⟨bs, -, hop⟩
      · rcases descend_eq_error hoperands with rfl | ⟨x, hx, limit', he⟩
        · decide
        · exact ih x hx limit' e he
      · exact formula_mem_lineage_of_applyNamed hop

/-! ## Names -/

/-- Going through a stack adds the first occurrences among the leaves of its formulas, which come in
    the order of the stack. -/
theorem gatherNames_eraseDups [DecidableEq α] (stack : List (Formula α)) (noted : List α) :
    gatherNames stack noted.eraseDups = (noted ++ stack.flatMap leaves).eraseDups := by
  induction stack, noted using gatherNames.induct with
  | case1 noted => simp [gatherNames]
  | case2 a stack noted ih =>
      rw [gatherNames, List.flatMap_cons, leaves_literal, ← List.append_assoc]
      by_cases ha : a ∈ noted
      · rw [dif_pos ha] at ih
        rw [if_pos (List.mem_eraseDups.2 ha), ih]
        exact (eraseDups_append_congr (eraseDups_concat_of_mem ha) _).symm
      · rw [dif_neg ha, eraseDups_concat_of_not_mem ha] at ih
        rw [if_neg (by rwa [List.mem_eraseDups]), ih]
  | case3 op xs stack noted ih =>
      rw [gatherNames, ih, List.flatMap_cons, leaves_apply, List.flatMap_append, List.flatMap_def]

/-- The names of a formula are the first occurrences among its leaves. -/
theorem names_eq [DecidableEq α] (f : Formula α) : f.names = f.leaves.eraseDups := by
  have h := gatherNames_eraseDups [f] []
  rwa [List.eraseDups_nil, List.nil_append, List.flatMap_singleton] at h

theorem nodup_names [DecidableEq α] (f : Formula α) : f.names.Nodup := by
  rw [names_eq]
  exact nodup_eraseDups _

end Formula

end PropDiagram

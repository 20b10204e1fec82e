import Mathlib.Logic.Relation
import PropDiagram.Formula.Drawing
import PropDiagram.Proofs.Drawing
import PropDiagram.Proofs.Formula.Layout

set_option autoImplicit false

/-! # What the drawing of a formula shows

Drawing a formula adds its rows in post-order, each as a node with its edges
(`Formula.exists_drawOnto`): the drawing tabulates the rows (`Drawing.Tabulates`). What is read back
from a node (`Drawing.read`) is the formula whose rows end there, so the drawing of a formula in which
every connective has an operand tells the formula (`Formula.draw_faithful`). A connective without
operands would look like a literal. -/

namespace PropDiagram

namespace Drawing

variable {d d' : Drawing} {rows : List Placed}

/-! ## Reading a drawing -/

/-- The formula below a node, no more levels deep than this: a node without successors is a literal,
    and one with successors applies the connective that it shows to them. -/
def formulaAt (d : Drawing) : (levels : Nat) → (u : Int) → Option (Formula String)
  | 0, _ => none
  | levels + 1, u =>
    match d.labels.get? u, d.successors u with
    | some (.text name), [] => some (.literal name)
    | some (.text op), v :: vs => ((v :: vs).mapM (d.formulaAt levels)).map (.apply op)
    | _, _ => none

/-- The formula below a node. If no path comes back to a node, no formula has more levels than the
    drawing has nodes. -/
def read (d : Drawing) (u : Int) : Option (Formula String) := d.formulaAt d.size u

/-- Whether edges lead from one node to the other. -/
def Reaches (d : Drawing) : Int → Int → Prop :=
  Relation.ReflTransGen fun u v => v ∈ d.successors u

theorem reaches_iff {u v : Int} :
    d.Reaches u v ↔ v = u ∨ ∃ w ∈ d.successors u, d.Reaches w v := by
  rw [Reaches, Relation.ReflTransGen.cases_head_iff]
  simp only [eq_comm]

/-! ## Rows in a drawing -/

/-- The drawing has these rows as its nodes, in their order, and no others. -/
structure Tabulates (d : Drawing) (rows : List Placed) : Prop where
  keys : d.labels.keys = numbers rows.length
  label : ∀ {i : Nat} {p : Placed}, rows[i]? = some p → d.labels.get? i = some (.text p.label)
  successors : ∀ {i : Nat} {p : Placed},
    rows[i]? = some p → d.successors i = p.successors.map Nat.cast
  linked : d.Linked

theorem tabulates_empty : empty.Tabulates [] where
  keys := rfl
  label h := by cases h
  successors h := by cases h
  linked := linked_empty

theorem Tabulates.size_eq (h : d.Tabulates rows) : d.size = rows.length := size_of_keys h.keys

theorem Tabulates.mem_keys_iff (h : d.Tabulates rows) {u : Int} :
    u ∈ d.labels.keys ↔ ∃ i : Nat, i < rows.length ∧ u = i := by
  rw [h.keys, mem_numbers_iff]

/-! ## Drawing a row -/

/-- Drawing edges appends to the successors of one node and leaves the nodes as they are. -/
theorem exists_drawEdges {u : Int} {vs : List Int} (hu : u ∈ d.labels.keys)
    (hvs : ∀ v ∈ vs, v ∈ d.labels.keys) (hlinked : d.Linked) :
    ∃ d', Formula.drawEdges u vs d = .ok d' ∧ d'.labels = d.labels ∧ d'.Linked ∧
      ∀ w, d'.successors w = if u = w then d.successors u ++ vs else d.successors w := by
  induction vs generalizing d with
  | nil => exact ⟨d, rfl, rfl, hlinked, fun w => by split <;> simp_all⟩
  | cons v vs ih =>
      rw [List.forall_mem_cons] at hvs
      obtain ⟨d', hd', hlabels, hlinked', hsuccessors⟩ :=
        ih (d := d.withPlainEdge u v) hu hvs.2 (hlinked.withPlainEdge hu hvs.1)
      refine ⟨d', ?_, hlabels, hlinked', fun w => ?_⟩
      · rw [Formula.drawEdges, addEdge_none_of_mem hu hvs.1]
        exact hd'
      · rw [hsuccessors, successors_withPlainEdge, successors_withPlainEdge, if_pos rfl,
          List.append_assoc]
        split <;> rfl

theorem row_of_concat {p q : Placed} {i : Nat} (h : (rows ++ [p])[i]? = some q) :
    i < rows.length ∧ rows[i]? = some q ∨ i = rows.length ∧ q = p := by
  rcases Nat.lt_trichotomy i rows.length with hi | hi | hi
  · rw [List.getElem?_append_left hi] at h
    exact Or.inl ⟨hi, h⟩
  · rw [hi, List.getElem?_concat_length, Option.some.injEq] at h
    exact Or.inr ⟨hi, h.symm⟩
  · have hlength : (rows ++ [p]).length ≤ i := by simpa [Nat.succ_le_iff] using hi
    rw [List.getElem?_eq_none hlength] at h
    cases h

theorem Tabulates.concat (h : d.Tabulates rows) {p : Placed}
    (hp : ∀ v ∈ p.successors, v < rows.length) :
    ∃ d', Formula.drawEdges d.size (p.successors.map Nat.cast)
        (d.addNode (.text p.label) none).1 = .ok d' ∧ d'.Tabulates (rows ++ [p]) := by
  have hnodes : ∀ v ∈ p.successors.map (Nat.cast : Nat → Int),
      v ∈ (d.addNode (.text p.label) none).1.labels.keys := by
    intro v hv
    obtain ⟨i, hi, rfl⟩ := List.mem_map.1 hv
    exact mem_keys_addNode d _ _ (h.mem_keys_iff.2 ⟨i, hp i hi, rfl⟩)
  obtain ⟨d', hd', hlabels, hlinked, hsuccessors⟩ :=
    exists_drawEdges (number_mem_keys_addNode d _ _) hnodes (h.linked.addNode _ _)
  rw [successors_addNode, h.linked.successors_eq_nil (size_not_mem_of_keys h.keys),
    List.nil_append] at hsuccessors
  refine ⟨d', hd', ⟨?_, ?_, ?_, hlinked⟩⟩
  · rw [hlabels, keys_addNode_of_keys h.keys, List.length_append, List.length_singleton]
  · intro i q hi
    rw [hlabels, get?_labels_addNode, h.size_eq]
    rcases row_of_concat hi with ⟨hlt, hi⟩ | ⟨rfl, rfl⟩
    · rw [if_neg (by omega)]
      exact h.label hi
    · rw [if_pos rfl]
  · intro i q hi
    rw [hsuccessors, h.size_eq]
    rcases row_of_concat hi with ⟨hlt, hi⟩ | ⟨rfl, rfl⟩
    · rw [if_neg (by omega), successors_addNode]
      exact h.successors hi
    · rw [if_pos rfl]

end Drawing

namespace Formula

variable {d : Drawing} {rows : List Placed} {limit : Nat}

/-! ## Drawing a formula -/

theorem drawOnto_literal (name : String) (limit : Nat) (d : Drawing) :
    (literal name).drawOnto limit d = .ok (d.addNode (.text name) none) := by
  simp [drawOnto]

theorem drawOnto_apply (op : String) (xs : List (Formula String)) (limit : Nat) (d : Drawing) :
    (apply op xs).drawOnto limit d = (drawOperands limit (xs.map drawOnto) d).bind fun r =>
      (drawEdges r.1.size r.2 (r.1.addNode (.text op) none).1).map fun d' =>
        (d', (r.1.size : Int)) := by
  rw [drawOnto, fold_apply]
  cases drawOperands limit _ d with
  | error e => rfl
  | ok r =>
      simp only [bind, Except.bind, Drawing.number_addNode]
      cases drawEdges r.1.size r.2 (r.1.addNode (.text op) none).1 <;> rfl

mutual

/-- Within the limit, a formula is drawn after rows as its own rows, the root last. -/
theorem exists_drawOnto : ∀ (f : Formula String) {limit : Nat} {d : Drawing} {rows : List Placed},
    f.depth ≤ limit → d.Tabulates rows →
      ∃ d', f.drawOnto limit d = .ok (d', (rows.length + f.size - 1 : Nat)) ∧
        d'.Tabulates (rows ++ f.layout rows.length)
  | literal name, limit, d, rows, _, h => by
      obtain ⟨d', hd', hrows⟩ := h.concat (p := ⟨name, []⟩) (by simp)
      cases hd'
      refine ⟨_, ?_, hrows⟩
      rw [drawOnto_literal, size_literal, Nat.add_sub_cancel, ← h.size_eq]
      rfl
  | apply op xs, limit, d, rows, hdepth, h => by
      rw [depth_apply_le_iff] at hdepth
      have hoperands : ∃ d₁, drawOperands limit (xs.map drawOnto) d
            = .ok (d₁, (roots xs rows.length).map Nat.cast) ∧
          d₁.Tabulates (rows ++ layoutAll xs rows.length) := by
        cases limit with
        | zero =>
            cases xs with
            | nil => exact ⟨d, rfl, by rwa [layoutAll, List.append_nil]⟩
            | cons x xs => exact absurd (hdepth x List.mem_cons_self) (by omega)
        | succ limit => exact exists_drawAll xs (fun x hx => Nat.le_of_succ_le_succ (hdepth x hx)) h
      obtain ⟨d₁, hd₁, hrows₁⟩ := hoperands
      have hlength : (rows ++ layoutAll xs rows.length).length
          = rows.length + sizeAll xs := by
        rw [List.length_append, length_layoutAll]
      obtain ⟨d₂, hd₂, hrows₂⟩ := hrows₁.concat (p := ⟨op, roots xs rows.length⟩) <| by
        rw [hlength]
        exact fun v hv => ((pairwise_roots xs rows.length).2 v hv).2
      refine ⟨d₂, ?_, by rwa [layout, ← List.append_assoc]⟩
      rw [drawOnto_apply, hd₁]
      simp only [Except.bind, hd₂, Except.map]
      rw [hrows₁.size_eq, hlength, size_apply_eq, ← Nat.add_assoc, Nat.add_sub_cancel]

theorem exists_drawAll : ∀ (xs : List (Formula String)) {limit : Nat} {d : Drawing}
    {rows : List Placed}, (∀ x ∈ xs, x.depth ≤ limit) → d.Tabulates rows →
      ∃ d', drawAll limit (xs.map drawOnto) d
          = .ok (d', (roots xs rows.length).map Nat.cast) ∧
        d'.Tabulates (rows ++ layoutAll xs rows.length)
  | [], limit, d, rows, _, h => ⟨d, rfl, by rwa [layoutAll, List.append_nil]⟩
  | x :: xs, limit, d, rows, hdepth, h => by
      rw [List.forall_mem_cons] at hdepth
      obtain ⟨d₁, hd₁, hrows₁⟩ := exists_drawOnto x hdepth.1 h
      obtain ⟨d₂, hd₂, hrows₂⟩ := exists_drawAll xs hdepth.2 hrows₁
      rw [List.length_append, length_layout] at hd₂ hrows₂
      refine ⟨d₂, ?_, by rwa [layoutAll, ← List.append_assoc]⟩
      rw [List.map_cons, drawAll, hd₁]
      simp only [bind, Except.bind, hd₂]
      rfl

end

theorem exists_draw [DepthLimits] {f : Formula String} (h : f.depth ≤ nestingLimit) :
    ∃ d, f.drawOnto nestingLimit .empty = .ok (d, (f.size - 1 : Nat)) ∧ f.draw = .ok d ∧
      d.Tabulates (f.layout 0) := by
  obtain ⟨d, hd, hrows⟩ := exists_drawOnto f h Drawing.tabulates_empty
  rw [List.length_nil, Nat.zero_add] at hd
  refine ⟨d, hd, ?_, hrows⟩
  rw [draw, hd]
  rfl

end Formula

/-! ## Reading rows back -/

namespace Drawing

open Formula

variable {d d' : Drawing} {rows : List Placed}

theorem Tabulates.formulaAt_literal (h : d.Tabulates rows) {i : Nat} {name : String}
    (hi : rows[i]? = some ⟨name, []⟩) (levels : Nat) :
    d.formulaAt (levels + 1) i = some (.literal name) := by
  rw [formulaAt, h.label hi, h.successors hi]
  rfl

theorem Tabulates.formulaAt_apply (h : d.Tabulates rows) {i : Nat} {op : String} {vs : List Nat}
    (hi : rows[i]? = some ⟨op, vs⟩) (hvs : vs ≠ []) (levels : Nat) :
    d.formulaAt (levels + 1) i
      = ((vs.map Nat.cast).mapM (d.formulaAt levels)).map (.apply op) := by
  rw [formulaAt, h.label hi, h.successors hi]
  cases vs with
  | nil => exact absurd rfl hvs
  | cons v vs => rfl

mutual

/-- Where a formula has its rows, it is read back from its root. -/
theorem Tabulates.formulaAt_root (h : d.Tabulates rows) : ∀ (g : Formula String)
    {first levels : Nat}, g.hasOperands = true → g.layout first <+: rows.drop first →
      g.depth < levels → d.formulaAt levels (first + g.size - 1 : Nat) = some g
  | .literal name, first, levels + 1, _, hrows, _ => by
      rw [size_literal, Nat.add_sub_cancel]
      exact h.formulaAt_literal (rows_literal_iff.1 hrows) levels
  | .apply op xs, first, levels + 1, hop, hrows, hdepth => by
      obtain ⟨hoperands, hroot⟩ := rows_apply_iff.1 hrows
      rw [hasOperands_apply, Bool.and_eq_true] at hop
      have hroots : roots xs first ≠ [] := by
        rw [ne_eq, roots_eq_nil_iff]
        simpa using hop.1
      rw [size_apply_eq, ← Nat.add_assoc, Nat.add_sub_cancel,
        h.formulaAt_apply hroot hroots, Tabulates.mapM_formulaAt_roots h xs hop.2 hoperands]
      · rfl
      · exact depth_apply_le_iff.1 (Nat.le_of_lt_succ hdepth)

theorem Tabulates.mapM_formulaAt_roots (h : d.Tabulates rows) : ∀ (xs : List (Formula String))
    {first levels : Nat}, xs.all hasOperands = true → layoutAll xs first <+: rows.drop first →
      (∀ x ∈ xs, x.depth < levels) →
        ((roots xs first).map Nat.cast).mapM (d.formulaAt levels) = some xs
  | [], first, levels, _, _, _ => rfl
  | x :: xs, first, levels, hop, hrows, hdepth => by
      rw [List.all_cons, Bool.and_eq_true] at hop
      rw [rowsAll_cons_iff] at hrows
      rw [List.forall_mem_cons] at hdepth
      rw [roots, List.map_cons, List.mapM_cons, h.formulaAt_root x hop.1 hrows.1 hdepth.1,
        h.mapM_formulaAt_roots xs hop.2 hrows.2 hdepth.2]
      rfl

end

/-- The root of some rows of a table is read back, and within the size of the drawing. -/
theorem Tabulates.read_root (h : d.Tabulates rows) {g : Formula String} {first : Nat}
    (hop : g.hasOperands = true) (hrows : g.layout first <+: rows.drop first) :
    d.read (first + g.size - 1 : Nat) = some g := by
  refine h.formulaAt_root g hop hrows ?_
  have hlength := hrows.length_le
  rw [length_layout, List.length_drop] at hlength
  have hdepth := g.depth_lt_size
  rw [h.size_eq]
  omega

/-! ## The nodes below a row -/

mutual

/-- From the root of a formula, edges lead to its own rows. -/
theorem Tabulates.reaches_root_iff (h : d.Tabulates rows) : ∀ (g : Formula String) {first : Nat},
    g.layout first <+: rows.drop first → ∀ v : Int,
      d.Reaches (first + g.size - 1 : Nat) v ↔ (first : Int) ≤ v ∧ v < first + g.size
  | .literal name, first, hrows, v => by
      have hsuccessors := h.successors (rows_literal_iff.1 hrows)
      rw [size_literal, Nat.add_sub_cancel, reaches_iff, hsuccessors]
      simp only [List.map_nil, List.not_mem_nil, false_and, exists_false, or_false]
      omega
  | .apply op xs, first, hrows, v => by
      obtain ⟨hoperands, hroot⟩ := rows_apply_iff.1 hrows
      rw [size_apply_eq, ← Nat.add_assoc, Nat.add_sub_cancel, reaches_iff,
        h.successors hroot, Tabulates.reaches_roots_iff h xs hoperands]
      omega

theorem Tabulates.reaches_roots_iff (h : d.Tabulates rows) : ∀ (xs : List (Formula String))
    {first : Nat}, layoutAll xs first <+: rows.drop first → ∀ v : Int,
      (∃ w ∈ (roots xs first).map Nat.cast, d.Reaches w v)
        ↔ (first : Int) ≤ v ∧ v < first + sizeAll xs
  | [], first, _, v => by
      simp only [roots, List.map_nil, List.not_mem_nil, false_and, exists_false, sizeAll_nil,
        false_iff]
      omega
  | x :: xs, first, hrows, v => by
      rw [rowsAll_cons_iff] at hrows
      rw [roots, List.map_cons, List.exists_mem_cons_iff, h.reaches_root_iff x hrows.1,
        h.reaches_roots_iff xs hrows.2, sizeAll_cons]
      omega

end

/-! ## What drawings that count as the same show -/

/-- Drawings that count as the same have the same rows. -/
theorem Tabulates.eq_of_same {rows' : List Placed} (h : d.Tabulates rows)
    (h' : d'.Tabulates rows') (hsame : d'.same d = true) : rows' = rows := by
  simp only [same, Bool.and_eq_true] at hsame
  obtain ⟨⟨⟨hlabels, hsuccessors⟩, -⟩, -⟩ := hsame
  have hlength : rows'.length = rows.length := by
    rw [OrderedMap.equivalent, Bool.and_eq_true, beq_iff_eq] at hlabels
    rw [← h'.size_eq, ← h.size_eq]
    exact hlabels.1
  refine List.ext_getElem hlength fun i hi' hi => ?_
  have hrow' := List.getElem?_eq_getElem hi'
  have hrow := List.getElem?_eq_getElem hi
  -- Labels that are texts count as the same if they are equal.
  have hlabel : rows'[i].label = rows[i].label := by
    obtain ⟨l, hl, htext⟩ := OrderedMap.related_of_equivalent hlabels (h'.label hrow')
    rw [h.label hrow, Option.some.injEq] at hl
    subst hl
    simpa [Label.same] using htext
  have hlist : rows'[i].successors = rows[i].successors := by
    have heq : d'.successors i = d.successors i := by
      rw [Drawing.successors, Drawing.successors,
        OrderedMap.get?_eq_of_equivalent hsuccessors]
    rw [h'.successors hrow', h.successors hrow] at heq
    exact (List.map_inj_right fun _ _ => Int.ofNat.inj).1 heq
  cases hp : rows'[i]
  cases hq : rows[i]
  simp_all

/-! ## What the drawing of a formula is -/

/-- The drawing shows the formula node by node. Its nodes are numbered from zero on, the root is the
    last, and every other node is a successor once. Successors come before their node and in order;
    what a node leads to is an interval that ends at it, as long as the formula read back from there
    is large. The whole formula is read back from the root. -/
structure Encodes (d : Drawing) (f : Formula String) : Prop where
  nodes : d.labels.keys = numbers f.size
  operands : (d.successorLists.toList.flatMap Prod.snd).Perm (numbers (f.size - 1))
  ordered : ∀ u, (d.successors u).Pairwise (· < ·) ∧ ∀ v ∈ d.successors u, v < u
  intervals : ∀ u ∈ d.labels.keys, ∃ g, d.read u = some g ∧
    ∀ v, d.Reaches u v ↔ u - g.size < v ∧ v ≤ u
  root : d.read ((f.size : Int) - 1) = some f

/-- The successors of all nodes in order are those of the rows. -/
theorem Tabulates.flatMap_successors (h : d.Tabulates rows) :
    d.labels.keys.flatMap d.successors = (rows.flatMap Placed.successors).map Nat.cast := by
  have hrows : (List.range rows.length).map (fun i : Nat => d.successors i)
      = rows.map fun p => p.successors.map Nat.cast := by
    refine List.ext_getElem (by simp) fun i hi hi' => ?_
    rw [List.length_map] at hi'
    rw [List.getElem_map, List.getElem_range, List.getElem_map,
      h.successors (List.getElem?_eq_getElem hi')]
  rw [h.keys, numbers, List.flatMap_map, List.flatMap_def, hrows, ← List.flatMap_def, List.map_flatMap]

variable {f : Formula String}

theorem Tabulates.ordered (h : d.Tabulates (f.layout 0)) (u : Int) :
    (d.successors u).Pairwise (· < ·) ∧ ∀ v ∈ d.successors u, v < u := by
  by_cases hu : u ∈ d.labels.keys
  · obtain ⟨i, hi, rfl⟩ := h.mem_keys_iff.1 hu
    have hrow := List.getElem?_eq_getElem hi
    obtain ⟨hpairwise, hbelow⟩ := successors_of_layout f 0 hrow
    rw [h.successors hrow]
    refine ⟨List.pairwise_map.2 (hpairwise.imp Int.ofNat_lt.2), ?_⟩
    intro v hv
    obtain ⟨j, hj, rfl⟩ := List.mem_map.1 hv
    have := hbelow j hj
    omega
  · simp [h.linked.successors_eq_nil hu]

theorem Tabulates.encodes (h : d.Tabulates (f.layout 0))
    (hop : f.hasOperands = true) : d.Encodes f where
  nodes := by rw [h.keys, length_layout]
  operands := by
    have hperm := (perm_successors_layout f 0).map (Nat.cast : Nat → Int)
    rw [← h.flatMap_successors, ← List.range_eq_range'] at hperm
    exact h.linked.perm_successors.trans hperm
  ordered := h.ordered
  intervals := by
    intro u hu
    obtain ⟨i, hi, rfl⟩ := h.mem_keys_iff.1 hu
    rw [length_layout] at hi
    have hall : f.layout 0 <+: (f.layout 0).drop 0 := List.prefix_refl _
    obtain ⟨g, first, hop, hrows, hroot⟩ := exists_rows f hop hall (Nat.zero_le i) (by omega)
    have hi : i = first + g.size - 1 := by omega
    refine ⟨g, hi ▸ h.read_root hop hrows, fun v => ?_⟩
    rw [hi, h.reaches_root_iff g hrows]
    omega
  root := by
    have hall : f.layout 0 <+: (f.layout 0).drop 0 := List.prefix_refl _
    have hread := h.read_root hop hall
    rwa [Nat.zero_add, Int.natCast_sub f.size_pos] at hread

end Drawing

namespace Formula

/-! ## The drawing tells the formula -/

theorem eq_of_draw_same {f f' : Formula String} {d d' : Drawing} (hop : f.hasOperands = true)
    (hop' : f'.hasOperands = true) (hrows : d.Tabulates (f.layout 0))
    (hrows' : d'.Tabulates (f'.layout 0)) (hsame : d'.same d = true) : f' = f := by
  have heq := hrows.eq_of_same hrows' hsame
  have hsize : f'.size = f.size := by
    rw [← length_layout f' 0, heq, length_layout]
  have hread := (hrows.encodes hop).root
  -- The drawing has the rows of either formula, so it encodes both.
  rw [← heq] at hrows
  rw [← hsize, (hrows.encodes hop').root, Option.some.injEq] at hread
  exact hread

/-- **The drawing of a formula shows it without loss.** A formula in which every connective has an
    operand, and which is not nested too deeply, is drawn with one node for each of its nodes, the
    root last. The drawing encodes the formula, and no other formula of this kind has a drawing that
    counts as the same. Its multigraph has all of its nodes and edges, so it is a tree. -/
theorem draw_faithful [DepthLimits] {f : Formula String} (hop : f.hasOperands = true)
    (hdepth : f.depth ≤ nestingLimit) :
    ∃ d, f.draw = .ok d ∧ f.drawOnto nestingLimit .empty = .ok (d, (f.size : Int) - 1) ∧
      d.Encodes f ∧
      (∀ (f' : Formula String) (d' : Drawing), f'.hasOperands = true → f'.depth ≤ nestingLimit →
        f'.draw = .ok d' → d'.same d = true → f' = f) ∧
      (Multigraph.ofDrawing d).nodes.keys = d.labels.keys ∧
      ((Multigraph.ofDrawing d).edges.map fun e => (e.source, e.target))
        = (d.labels.keys.flatMap fun u => (d.successors u).map fun v => (u, v)) ∧
      (Multigraph.ofDrawing d).nodes.size = f.size ∧
      (Multigraph.ofDrawing d).edges.length = f.size - 1 := by
  obtain ⟨d, honto, hdraw, hrows⟩ := exists_draw hdepth
  have hencodes := hrows.encodes hop
  have hnodes : (Multigraph.ofDrawing d).nodes.keys = d.labels.keys := by
    rw [Multigraph.nodes_ofDrawing hrows.linked, Multigraph.keys_drawnNodes]
  have hnodup : ∀ u, (d.successors u).Nodup := fun u => (hrows.ordered u).1.imp Int.ne_of_lt
  rw [Int.natCast_sub f.size_pos] at honto
  refine ⟨d, hdraw, honto, hencodes, ?_, hnodes,
    Multigraph.edges_ofDrawing hrows.linked hnodup, ?_, ?_⟩
  · intro f' d' hop' hdepth' hdraw' hsame
    obtain ⟨d₁, -, hdraw₁, hrows'⟩ := exists_draw hdepth'
    rw [hdraw', Except.ok.injEq] at hdraw₁
    subst hdraw₁
    exact eq_of_draw_same hop hop' hrows hrows' hsame
  · rw [← OrderedMap.length_keys, hnodes, hencodes.nodes, Drawing.length_numbers]
  · rw [Multigraph.length_edges_ofDrawing hrows.linked hnodup, hencodes.operands.length_eq,
      Drawing.length_numbers]

/-- Three occurrences of a literal are three nodes, and a connective of the same name is one more. The
    six nodes and five edges tell the formula. -/
theorem draw_faithful_repeatedLiteral :
    let f := apply "IFF" [literal "A", apply "A" [literal "A", literal "", literal "A"]]
    f.hasOperands = true ∧ f.depth ≤ nestingLimit ∧ ∃ d, f.draw = .ok d ∧
      d.labels.keys = [0, 1, 2, 3, 4, 5] ∧ d.successors 5 = [0, 4] ∧ d.successors 4 = [1, 2, 3] ∧
      d.read 5 = some f ∧ (Multigraph.ofDrawing d).nodes.size = 6 ∧
      (Multigraph.ofDrawing d).edges.length = 5 := by
  intro f
  have hop : f.hasOperands = true := by decide
  have hdepth : f.depth ≤ nestingLimit := by decide
  have hsize : f.size = 6 := by decide
  obtain ⟨d, hdraw, -, hencodes, -, -, -, hnodes, hedges⟩ := draw_faithful hop hdepth
  have hshown : f.draw.map (fun d => (d.successors 5, d.successors 4))
      = .ok ([0, 4], [1, 2, 3]) := by
    decide +kernel
  rw [hdraw, Except.map, Except.ok.injEq, Prod.mk.injEq] at hshown
  have hroot := hencodes.root
  have hkeys := hencodes.nodes
  rw [hsize] at hroot hkeys hnodes hedges
  exact ⟨hop, hdepth, d, hdraw, hkeys, hshown.1, hshown.2, hroot, hnodes, hedges⟩

-- A connective without operands is drawn as a literal.
example : (apply "A" []).draw = (literal "A").draw := by rfl

end Formula

end PropDiagram

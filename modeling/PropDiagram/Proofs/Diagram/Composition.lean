import PropDiagram.Proofs.Diagram.Restoring

set_option autoImplicit false

/-! # Reducing again

Reading a reduced diagram back and reducing it once more gives the diagram that one reduction with
both eliminations gives (`Diagram.reduce_toDiagram_reduce`), down to the identities and the literals
of the tests.

Eliminating after the shapes were taken gives the shapes that elimination gives at once
(`Tree.shape_or`). The tree that is read back has the shapes in the order in which the first
reduction met them (`Tree.eraseDups_map_shape`). And a tree of some shape that comes first in
post-order is one that is kept (`Tree.isKept_of_find?`), so the literal of a shape is that of its
first tree altogether, in the diagram as in what is read back. -/

namespace PropDiagram

/-! ## Eliminating in shapes -/

namespace Shape

/-- The shape after elimination, if asked for: a test whose branches become equal becomes its
    branch. -/
def eliminated (e : Bool) : Shape → Shape
  | terminal value => terminal value
  | test low high =>
    if e && low.eliminated e == high.eliminated e then low.eliminated e
    else test (low.eliminated e) (high.eliminated e)

/-- The shapes of the subtrees in post-order. -/
def postorder : Shape → List Shape
  | terminal value => [terminal value]
  | test low high => low.postorder ++ high.postorder ++ [test low high]

theorem self_mem_postorder (s : Shape) : s ∈ s.postorder := by
  cases s <;> simp [postorder]

end Shape

namespace Tree

theorem shape_eq_eliminated (e : Bool) (t : Tree) : t.shape e = t.erased.eliminated e := by
  induction t with
  | leaf value => rfl
  | node name low high ihl ihh => rw [shape, ihl, ihh, erased, Shape.eliminated]

theorem eliminated_shape_true (e : Bool) (t : Tree) :
    (t.shape true).eliminated e = t.shape true := by
  induction t with
  | leaf value => rfl
  | node name low high ihl ihh =>
      cases hkept : (node name low high).isKept true with
      | false => rw [shape_of_not_isKept hkept, ihl]
      | true =>
          rw [shape_of_isKept hkept, Shape.eliminated, ihl, ihh]
          rw [isKept, Bool.true_and, Bool.not_eq_true'] at hkept
          rw [hkept, Bool.and_false]
          rfl

/-- Elimination can be put off until the shapes are taken. -/
theorem shape_or (e e' : Bool) (t : Tree) : t.shape (e || e') = (t.shape e).eliminated e' := by
  cases e with
  | false => rw [Bool.false_or, shape_false, shape_eq_eliminated]
  | true => rw [Bool.true_or, eliminated_shape_true]

theorem eraseDups_map_shape (e : Bool) (t : Tree) :
    (t.postorder.map (shape e)).eraseDups = (t.shape e).postorder.eraseDups := by
  induction t with
  | leaf value => rfl
  | node name low high ihl ihh =>
      rw [postorder, List.map_append, List.map_append, List.map_singleton]
      cases hkept : (node name low high).isKept e with
      | true =>
          rw [shape_of_isKept hkept, Shape.postorder]
          refine eraseDups_append_congr ?_ _
          rw [eraseDups_append_congr ihl, eraseDups_append_congr_right _ ihh]
      | false =>
          -- Both branches have the shape of the node, so the low branch shows all of them.
          have hsame := hkept
          rw [isKept, Bool.not_eq_false', Bool.and_eq_true, beq_iff_eq] at hsame
          have hmem : ∀ s, s ∈ low.postorder.map (shape e) ↔ s ∈ (low.shape e).postorder := by
            intro s
            rw [← List.mem_eraseDups, ihl, List.mem_eraseDups]
          rw [shape_of_not_isKept hkept, List.append_assoc, ← ihl]
          refine eraseDups_append_of_subset ?_
          intro s hs
          rw [List.mem_append, List.mem_singleton] at hs
          rcases hs with hs | rfl
          · rw [← List.mem_eraseDups, ihh, ← hsame.2, List.mem_eraseDups] at hs
            exact (hmem s).2 hs
          · exact (hmem _).2 (Shape.self_mem_postorder _)

/-! ## First trees of a shape -/

/-- Of the subtrees whose shapes have some property, the first one is kept: if it were eliminated,
    its low branch would have the same shape and come earlier. -/
theorem isKept_of_find? {e : Bool} {q : Shape → Bool} {t r : Tree}
    (h : t.postorder.find? (fun s => q (s.shape e)) = some r) : r.isKept e = true := by
  induction t with
  | leaf value =>
      have hr := List.mem_of_find?_eq_some h
      rw [postorder, List.mem_singleton] at hr
      rw [hr]
      rfl
  | node name low high ihl ihh =>
      rw [postorder, List.find?_append, List.find?_append] at h
      cases hlow : low.postorder.find? (fun s => q (s.shape e)) with
      | some s =>
          rw [hlow] at h
          exact ihl (hlow.trans h)
      | none =>
          cases hhigh : high.postorder.find? (fun s => q (s.shape e)) with
          | some s =>
              rw [hlow, hhigh] at h
              exact ihh (hhigh.trans h)
          | none =>
              rw [hlow, hhigh] at h
              have hr := List.mem_of_find?_eq_some h
              have hq := List.find?_some h
              rw [List.mem_singleton] at hr
              subst hr
              by_contra hnot
              rw [Bool.not_eq_true] at hnot
              rw [shape_of_not_isKept hnot] at hq
              exact List.find?_eq_none.1 hlow low (self_mem_postorder low) hq

theorem representative?_postorder (e : Bool) (t : Tree) (s : Shape) :
    representative? e t.postorder s = t.postorder.find? fun r => r.shape e == s := by
  rw [representative?]
  cases hfind : t.postorder.find? fun r => r.shape e == s with
  | none =>
      rw [List.find?_eq_none] at hfind ⊢
      intro r hr
      simp [hfind r hr]
  | some r =>
      have hkept : r.isKept e = true := isKept_of_find? (q := (· == s)) hfind
      have hshape := List.find?_some hfind
      refine find?_eq_some_of_imp hfind (by rw [hkept, hshape]; rfl) ?_
      intro b hb
      exact (Bool.and_eq_true_iff.1 hb).2

/-! ## The tree that is read back -/

theorem postorder_restored (e : Bool) (ts : List Tree) (s : Shape) :
    (restored e ts s).postorder = s.postorder.map (restored e ts) := by
  induction s with
  | terminal value => rfl
  | test low high ihl ihh =>
      rw [restored, postorder, ihl, ihh, Shape.postorder, List.map_append, List.map_append,
        List.map_singleton, restored]

theorem shape_restored (e e' : Bool) (ts : List Tree) (s : Shape) :
    (restored e ts s).shape e' = s.eliminated e' := by
  rw [shape_eq_eliminated, erased_restored]

theorem Closed.proper_restored {ts : List Tree} (hts : Closed ts) (hproper : ∀ t ∈ ts, t.Proper)
    {e : Bool} {s : Shape} (hs : s ∈ shapes e ts) : (restored e ts s).Proper := by
  induction s with
  | terminal value =>
      obtain ⟨t, ht, -, hkept, hshape⟩ := hts.exists_representative hs
      cases t with
      | leaf value' =>
          rw [shape_leaf, Shape.terminal.injEq] at hshape
          rw [restored, ← hshape]
          exact hproper _ ht
      | node name low high =>
          rw [shape_of_isKept hkept] at hshape
          cases hshape
  | test low high ihl ihh =>
      obtain ⟨hlow, hhigh⟩ := hts.branch_mem_shapes hs
      obtain ⟨t, ht, hrep, -⟩ := hts.exists_representative hs
      obtain ⟨name, l, h, hnode, -⟩ := hts.exists_node hs
      rw [hnode, Option.some.injEq] at hrep
      subst hrep
      rw [restored, hnode]
      exact ⟨(hproper _ ht).1, ihl hlow, ihh hhigh⟩

/-- The trees that are read back for the subtrees of `t`, in the order of the subtrees, are first met
    in the post-order of what is read back for `t`. -/
theorem eraseDups_postorder_restored (e : Bool) (t : Tree) :
    (restored e t.postorder (t.shape e)).postorder.eraseDups
      = (t.postorder.map fun r => restored e t.postorder (r.shape e)).eraseDups := by
  have hmap : (t.postorder.map fun r => restored e t.postorder (r.shape e))
      = (t.postorder.map (shape e)).map (restored e t.postorder) := by
    rw [List.map_map]
    rfl
  rw [postorder_restored, hmap]
  exact map_congr_eraseDups (eraseDups_map_shape e t).symm _

theorem name?_restored {e : Bool} {t r : Tree}
    (h : t.postorder.find? (fun s => s.shape e == r.shape e) = some r) :
    (restored e t.postorder (r.shape e)).name? = r.name? := by
  have hkept : r.isKept e = true := isKept_of_find? (q := (· == r.shape e)) h
  cases r with
  | leaf value => rfl
  | node name low high =>
      rw [← representative?_postorder, shape_of_isKept hkept] at h
      rw [shape_of_isKept hkept, restored, h]
      rfl

variable (e e' : Bool) (t : Tree)

theorem shapes_restored :
    shapes e' (restored e t.postorder (t.shape e)).postorder
      = shapes (e || e') t.postorder := by
  have hmap : t.postorder.map (shape (e || e'))
      = (t.postorder.map fun r => restored e t.postorder (r.shape e)).map (shape e') := by
    rw [List.map_map]
    refine List.map_congr_left fun r _ => ?_
    rw [Function.comp_apply, shape_restored, shape_or]
  rw [shapes, shapes, hmap]
  exact map_congr_eraseDups (eraseDups_postorder_restored e t) _

theorem representative?_restored (s : Shape) :
    representative? e' (restored e t.postorder (t.shape e)).postorder s
      = (representative? (e || e') t.postorder s).map
          fun r => restored e t.postorder (r.shape e) := by
  rw [representative?_postorder, representative?_postorder,
    find?_congr_eraseDups (eraseDups_postorder_restored e t), List.find?_map]
  refine congrArg (fun p => (t.postorder.find? p).map _) ?_
  funext r
  rw [Function.comp_apply, shape_restored, shape_or]

theorem entries_restored :
    entries e' (restored e t.postorder (t.shape e)).postorder = entries (e || e') t.postorder := by
  rw [entries, entries, shapes_restored]
  refine List.map_congr_left fun s _ => ?_
  cases s with
  | terminal value => rfl
  | test low high =>
      rw [entry, entry, shapes_restored, representative?_restored]
      cases hrep : representative? (e || e') t.postorder (.test low high) with
      | none => rfl
      | some r =>
          have hfirst : t.postorder.find? (fun s => s.shape e == r.shape e) = some r := by
            rw [representative?_postorder] at hrep
            have hshape := List.find?_some hrep
            refine find?_eq_some_of_imp hrep (beq_self_eq_true _) ?_
            intro b hb
            rw [beq_iff_eq] at hb hshape ⊢
            rw [shape_or, hb, ← shape_or, hshape]
          rw [Option.map_some, Option.bind_some, Option.bind_some, name?_restored hfirst]

end Tree

/-! ## Reducing twice -/

namespace Diagram

/-- Reducing what a reduced diagram is read back to is the same as reducing once, with elimination if
    either reduction has it. In particular reduction is idempotent. -/
theorem reduce_toDiagram_reduce {d : Diagram} (h : d.tree.Proper) (e e' : Bool) :
    ∃ d', (d.reduce e).toDiagram = .ok d' ∧ d'.reduce e' = d.reduce (e || e') := by
  obtain ⟨d', hd', htree⟩ := exists_toDiagram h e
  have hproper : d'.tree.Proper := by
    rw [htree]
    exact (Tree.closed_postorder _).proper_restored (proper_of_mem_postorder h)
      (shape_mem_shapes_tree d e)
  refine ⟨d', hd', Reduced.eq_of_entries_eq ?_ ?_⟩
  · apply Array.toList_inj.1
    rw [entries_reduce hproper, entries_reduce h, htree, Tree.entries_restored]
  · rw [root_reduce hproper, root_reduce h, htree, Tree.shapes_restored, Tree.shape_restored,
      Tree.shape_or]

/-- A test of `b` whose branches test `a` and `c` to the same effect. -/
def twinTests : Tree :=
  .node (some "b") (.node (some "a") (.leaf (some false)) (.leaf (some true)))
    (.node (some "c") (.leaf (some false)) (.leaf (some true)))

theorem proper_twinTests : twinTests.Proper := by
  refine ⟨rfl, ⟨rfl, ?_, ?_⟩, ⟨rfl, ?_, ?_⟩⟩ <;> rfl

/-- The first reduction merges the twins under the name of the first, and the second eliminates the
    test above them. -/
theorem reduce_toDiagram_reduce_twinTests :
    (ofTree twinTests).tree.Proper ∧
    ∃ d', ((ofTree twinTests).reduce false).toDiagram = .ok d' ∧
      (d'.reduce true).table.entries.toList
        = [.terminal (some false), .terminal (some true), .test (some "a") 0 1] := by
  have htree : (ofTree twinTests).tree = twinTests := tree_ofTree proper_twinTests
  have h : (ofTree twinTests).tree.Proper := by
    rw [htree]
    exact proper_twinTests
  obtain ⟨d', hd', hreduce⟩ := reduce_toDiagram_reduce h false true
  refine ⟨h, d', hd', ?_⟩
  rw [hreduce, entries_reduce h, htree]
  decide

end Diagram

end PropDiagram

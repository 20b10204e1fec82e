import PropDiagram.Drawing.Multigraph
import PropDiagram.Proofs.FirstOccurrences
import PropDiagram.Proofs.OrderedMap

set_option autoImplicit false

/-! # Drawings and their multigraphs

What adding a node or an edge does to each part of a drawing. Edges join nodes that are there
(`Drawing.Linked`): a drawing that was added to step by step keeps to this, so its multigraph has the
nodes of the drawing and no others (`Multigraph.nodes_ofDrawing`), and the edges that leave a node
are those to its distinct successors (`Multigraph.leaving_ofDrawing`). No edge is lost where the
successors of each node are distinct (`Multigraph.edges_ofDrawing`). -/

namespace PropDiagram

namespace Drawing

variable {d : Drawing} {u v : Int}

/-! ## Nodes -/

section Nodes

variable (d) (label : Label) (color : Option String)

theorem number_addNode : (d.addNode label color).2 = d.size := rfl

theorem keys_addNode : (d.addNode label color).1.labels.keys
    = if (d.size : Int) ∈ d.labels.keys then d.labels.keys else d.labels.keys ++ [(d.size : Int)] :=
  OrderedMap.keys_insert ..

theorem get?_labels_addNode (w : Int) : (d.addNode label color).1.labels.get? w
    = if (d.size : Int) = w then some label else d.labels.get? w :=
  OrderedMap.get?_insert ..

theorem get?_colors_addNode (w : Int) : (d.addNode label color).1.colors.get? w
    = if (d.size : Int) = w ∧ color.isSome = true then some color else d.colors.get? w := by
  rw [addNode]
  dsimp only
  cases color with
  | none => simp
  | some c => simp [OrderedMap.get?_insert]

theorem mem_keys_colors_addNode {w : Int} (h : w ∈ (d.addNode label color).1.colors.keys) :
    w = d.size ∨ w ∈ d.colors.keys := by
  rw [addNode] at h
  cases color with
  | none => exact Or.inr h
  | some c =>
      dsimp only [Option.isSome_some] at h
      rw [if_pos rfl, OrderedMap.keys_insert] at h
      split at h
      · exact Or.inr h
      · simpa [or_comm] using h

@[simp] theorem successors_addNode (w : Int) :
    (d.addNode label color).1.successors w = d.successors w := rfl

@[simp] theorem edgeLabels_addNode : (d.addNode label color).1.edgeLabels = d.edgeLabels := rfl

theorem mem_keys_addNode {w : Int} (h : w ∈ d.labels.keys) :
    w ∈ (d.addNode label color).1.labels.keys := by
  rw [keys_addNode]
  split
  · exact h
  · exact List.mem_append_left _ h

theorem number_mem_keys_addNode : (d.size : Int) ∈ (d.addNode label color).1.labels.keys := by
  rw [keys_addNode]
  split
  · next h => exact h
  · simp

end Nodes

/-! ## Nodes numbered from zero on -/

/-- The numbers that so many nodes get, one after the other. -/
def numbers (count : Nat) : List Int := (List.range count).map fun u : Nat => (u : Int)

@[simp] theorem length_numbers (count : Nat) : (numbers count).length = count := by
  rw [numbers, List.length_map, List.length_range]

theorem mem_numbers_iff {count : Nat} : u ∈ numbers count ↔ ∃ v : Nat, v < count ∧ u = v := by
  simp [numbers, eq_comm]

section Numbered

variable {count : Nat}

theorem size_of_keys (h : d.labels.keys = numbers count) : d.size = count := by
  rw [size, ← OrderedMap.length_keys, h, length_numbers]

theorem size_not_mem_of_keys (h : d.labels.keys = numbers count) :
    (d.size : Int) ∉ d.labels.keys := by
  rw [size_of_keys h, h, mem_numbers_iff]
  rintro ⟨v, hv, heq⟩
  omega

theorem keys_addNode_of_keys (h : d.labels.keys = numbers count) (label : Label)
    (color : Option String) : (d.addNode label color).1.labels.keys = numbers (count + 1) := by
  rw [keys_addNode, if_neg (size_not_mem_of_keys h), size_of_keys h, h, numbers, numbers,
    List.range_succ, List.map_append, List.map_singleton]

end Numbered

/-! ## Edges -/

/-- The drawing with one more edge. -/
def withEdge (d : Drawing) (u v : Int) (label : String) : Drawing :=
  { d with
    successorLists := d.successorLists.insert u (d.successors u ++ [v])
    edgeLabels := d.edgeLabels.insert (u, v) (some label) }

theorem addEdge_of_mem (hu : u ∈ d.labels.keys) (hv : v ∈ d.labels.keys) (label : String) :
    d.addEdge u v (some label) = .ok (d.withEdge u v label) := by
  rw [← OrderedMap.contains_iff] at hu hv
  rw [addEdge_eq, hu, hv]
  rfl

@[simp] theorem labels_withEdge (label : String) : (d.withEdge u v label).labels = d.labels := rfl

@[simp] theorem colors_withEdge (label : String) : (d.withEdge u v label).colors = d.colors := rfl

theorem successors_withEdge (label : String) (w : Int) :
    (d.withEdge u v label).successors w
      = if u = w then d.successors u ++ [v] else d.successors w := by
  rw [successors, withEdge, OrderedMap.get?_insert]
  split <;> rfl

/-- The drawing with one more edge that has no label. -/
def withPlainEdge (d : Drawing) (u v : Int) : Drawing :=
  { d with successorLists := d.successorLists.insert u (d.successors u ++ [v]) }

theorem addEdge_none_of_mem (hu : u ∈ d.labels.keys) (hv : v ∈ d.labels.keys) :
    d.addEdge u v none = .ok (d.withPlainEdge u v) := by
  rw [← OrderedMap.contains_iff] at hu hv
  rw [addEdge_eq, hu, hv]
  rfl

@[simp] theorem labels_withPlainEdge : (d.withPlainEdge u v).labels = d.labels := rfl

theorem successors_withPlainEdge (w : Int) : (d.withPlainEdge u v).successors w
    = if u = w then d.successors u ++ [v] else d.successors w :=
  successors_withEdge "" w

theorem get?_edgeLabels_withEdge (label : String) (e : Int × Int) :
    (d.withEdge u v label).edgeLabels.get? e
      = if (u, v) = e then some (some label) else d.edgeLabels.get? e :=
  OrderedMap.get?_insert ..

/-! ## Edges between nodes -/

/-- Whether every edge joins nodes of the drawing. -/
def Linked (d : Drawing) : Prop :=
  ∀ u vs, d.successorLists.get? u = some vs →
    u ∈ d.labels.keys ∧ ∀ v ∈ vs, v ∈ d.labels.keys

theorem linked_empty : empty.Linked := by
  intro u vs h
  cases h

theorem Linked.addNode (h : d.Linked) (label : Label) (color : Option String) :
    (d.addNode label color).1.Linked := by
  intro u vs hu
  obtain ⟨hmem, hall⟩ := h u vs hu
  exact ⟨mem_keys_addNode d label color hmem,
    fun v hv => mem_keys_addNode d label color (hall v hv)⟩

theorem Linked.successors_subset (h : d.Linked) (u : Int) :
    ∀ v ∈ d.successors u, v ∈ d.labels.keys := by
  rw [successors]
  cases hu : d.successorLists.get? u with
  | none => simp
  | some vs => exact (h u vs hu).2

theorem Linked.withEdge (h : d.Linked) (hu : u ∈ d.labels.keys) (hv : v ∈ d.labels.keys)
    (label : String) : (d.withEdge u v label).Linked := by
  intro w vs hw
  rw [Drawing.withEdge] at hw
  dsimp only at hw
  rw [OrderedMap.get?_insert] at hw
  split at hw
  · next huw =>
      cases hw
      refine ⟨huw ▸ hu, ?_⟩
      intro x hx
      rw [List.mem_append, List.mem_singleton] at hx
      rcases hx with hx | rfl
      · exact h.successors_subset u x hx
      · exact hv
  · exact h w vs hw

theorem Linked.withPlainEdge (h : d.Linked) (hu : u ∈ d.labels.keys) (hv : v ∈ d.labels.keys) :
    (d.withPlainEdge u v).Linked :=
  h.withEdge hu hv ""

theorem Linked.successors_eq_nil (h : d.Linked) (hu : u ∉ d.labels.keys) :
    d.successors u = [] := by
  rw [successors]
  cases hvs : d.successorLists.get? u with
  | none => rfl
  | some vs => exact absurd (h u vs hvs).1 hu

/-! ## All successors together -/

theorem successors_of_not_mem (hu : u ∉ d.successorLists.keys) : d.successors u = [] := by
  rw [successors, (OrderedMap.get?_eq_none_iff _ u).2 hu]
  rfl

theorem flatMap_successorLists (d : Drawing) :
    d.successorLists.toList.flatMap Prod.snd = d.successorLists.keys.flatMap d.successors := by
  refine (OrderedMap.flatMap_toList d.successorLists id).trans ?_
  simp only [Option.map_id, id]
  rfl

theorem Linked.perm_keys (h : d.Linked) : d.successorLists.keys.Perm
    (d.labels.keys.filter fun u => u ∈ d.successorLists.keys) := by
  refine (List.perm_ext_iff_of_nodup d.successorLists.nodup_keys
    (d.labels.nodup_keys.filter _)).2 fun u => ?_
  rw [List.mem_filter, decide_eq_true_eq, iff_and_self]
  intro hu
  cases hvs : d.successorLists.get? u with
  | none => exact absurd hu ((OrderedMap.get?_eq_none_iff _ u).1 hvs)
  | some vs => exact (h u vs hvs).1

/-- All successor lists together are the successors of all nodes, though in another order. -/
theorem Linked.perm_successors (h : d.Linked) :
    (d.successorLists.toList.flatMap Prod.snd).Perm (d.labels.keys.flatMap d.successors) := by
  have hleaves : (d.labels.keys.filter fun u => !decide (u ∈ d.successorLists.keys)).flatMap
      d.successors = [] := by
    rw [List.flatMap_eq_nil_iff]
    intro u hu
    rw [List.mem_filter, Bool.not_eq_true', decide_eq_false_iff_not] at hu
    exact successors_of_not_mem hu.2
  have hall := (List.filter_append_perm (fun u => decide (u ∈ d.successorLists.keys))
    d.labels.keys).flatMap_right d.successors
  rw [List.flatMap_append, hleaves, List.append_nil] at hall
  rw [flatMap_successorLists]
  exact (h.perm_keys.flatMap_right d.successors).trans hall

end Drawing

/-! ## The multigraph of a drawing -/

namespace Multigraph

variable {d : Drawing} {u : Int}

theorem keys_drawnNodes (d : Drawing) : (drawnNodes d).keys = d.labels.keys := by
  rw [drawnNodes, OrderedMap.keys_foldl_insert]
  · rfl
  · exact d.labels.distinct

theorem get?_drawnNodes (d : Drawing) (u : Int) : (drawnNodes d).get? u
    = (d.labels.get? u).map fun label => ⟨some label.shown, (d.colors.get? u).join⟩ := by
  have hdistinct : (d.labels.toList.map Prod.fst).Nodup := d.labels.distinct
  rw [drawnNodes, OrderedMap.get?_foldl_insert _ _ _ _ hdistinct, OrderedMap.get?_empty,
    Option.or_none, d.labels.get?_eq_toList, Option.map_map]
  cases hfind : d.labels.toList.find? fun e => e.1 = u with
  | none => rfl
  | some e =>
      have he : e.1 = u := by simpa using List.find?_some hfind
      rw [Option.map_some, Option.map_some, Function.comp_apply, he]

theorem mention_of_mem {nodes : OrderedMap Int NodeStyle} (h : u ∈ nodes.keys) :
    mention nodes u = nodes := if_pos ((OrderedMap.contains_iff nodes u).2 h)

theorem foldl_mention_of_mem {nodes : OrderedMap Int NodeStyle} {vs : List Int}
    (hu : u ∈ nodes.keys) (hvs : ∀ v ∈ vs, v ∈ nodes.keys) :
    vs.foldl (fun nodes v => mention (mention nodes u) v) nodes = nodes := by
  induction vs with
  | nil => rfl
  | cons v vs ih =>
      rw [List.forall_mem_cons] at hvs
      rw [List.foldl_cons, mention_of_mem hu, mention_of_mem hvs.1]
      exact ih hvs.2

/-- If edges join nodes of the drawing, they mention no others. -/
theorem allNodes_of_linked (h : d.Linked) : allNodes d = drawnNodes d := by
  have hlists : ∀ e ∈ d.successorLists.toList,
      e.1 ∈ (drawnNodes d).keys ∧ ∀ v ∈ e.2, v ∈ (drawnNodes d).keys := by
    intro e he
    rw [keys_drawnNodes]
    exact h e.1 e.2 ((OrderedMap.mem_toList_iff _ _ _).1 he)
  rw [allNodes]
  generalize d.successorLists.toList = lists at hlists
  induction lists with
  | nil => rfl
  | cons e lists ih =>
      rw [List.forall_mem_cons] at hlists
      rw [List.foldl_cons, foldl_mention_of_mem hlists.1.1 hlists.1.2]
      exact ih hlists.2

theorem nodes_ofDrawing (h : d.Linked) : (ofDrawing d).nodes = drawnNodes d :=
  allNodes_of_linked h

def leaving (m : Multigraph) (u : Int) : List StyledEdge := m.edges.filter fun e => e.source = u

theorem source_of_mem_edgesFrom {e : StyledEdge} (h : e ∈ edgesFrom d u) : e.source = u := by
  obtain ⟨v, -, rfl⟩ := List.mem_map.1 h
  rfl

theorem filter_edgesFrom (d : Drawing) (u v : Int) :
    ((edgesFrom d v).filter fun e => e.source = u) = if v = u then edgesFrom d u else [] := by
  split
  · next hvu =>
      rw [hvu, List.filter_eq_self]
      exact fun e he => decide_eq_true (source_of_mem_edgesFrom he)
  · next hvu =>
      rw [List.filter_eq_nil_iff]
      intro e he hsource
      exact hvu ((source_of_mem_edgesFrom he).symm.trans (of_decide_eq_true hsource))

/-- Of lists by node, a node picks its own. -/
theorem flatMap_eq_of_mem {α : Type} {us : List Int} (hdistinct : us.Nodup) (hu : u ∈ us)
    (xs : List α) : (us.flatMap fun v => if v = u then xs else []) = xs := by
  induction us with
  | nil => simp at hu
  | cons v us ih =>
      rw [List.nodup_cons] at hdistinct
      rw [List.flatMap_cons]
      by_cases hvu : v = u
      · have hrest : (us.flatMap fun w => if w = u then xs else []) = [] := by
          rw [List.flatMap_eq_nil_iff]
          intro w hw
          refine if_neg ?_
          rintro rfl
          exact hdistinct.1 (hvu ▸ hw)
        rw [if_pos hvu, hrest, List.append_nil]
      · rw [if_neg hvu, List.nil_append]
        exact ih hdistinct.2 ((List.mem_cons.1 hu).resolve_left (Ne.symm hvu))

theorem leaving_ofDrawing (h : d.Linked) (hu : u ∈ d.labels.keys) :
    (ofDrawing d).leaving u = edgesFrom d u := by
  rw [leaving, ofDrawing]
  dsimp only
  rw [allNodes_of_linked h, keys_drawnNodes, List.filter_flatMap]
  simp only [filter_edgesFrom]
  exact flatMap_eq_of_mem d.labels.nodup_keys hu _

/-- The multigraph has one edge for every distinct successor of a node. -/
theorem pairs_ofDrawing (d : Drawing) : ((ofDrawing d).edges.map fun e => (e.source, e.target))
    = (allNodes d).keys.flatMap fun u => (d.successors u).eraseDups.map fun v => (u, v) := by
  rw [ofDrawing, List.map_flatMap]
  refine List.flatMap_congr fun u _ => ?_
  rw [edgesFrom, List.map_map]
  rfl

/-- No two edges of the multigraph join the same nodes in the same direction. -/
theorem nodup_pairs_ofDrawing (d : Drawing) :
    ((ofDrawing d).edges.map fun e => (e.source, e.target)).Nodup := by
  rw [pairs_ofDrawing, List.nodup_flatMap]
  constructor
  · intro u _
    exact (nodup_eraseDups _).map fun v w h => (Prod.mk.inj h).2
  · refine (allNodes d).nodup_keys.imp fun {u w} hne => ?_
    intro pair hu hw
    obtain ⟨v, -, rfl⟩ := List.mem_map.1 hu
    obtain ⟨v', -, heq⟩ := List.mem_map.1 hw
    exact hne (Prod.mk.inj heq).1.symm

theorem mem_edges_ofDrawing (h : d.Linked) {e : StyledEdge} : e ∈ (ofDrawing d).edges ↔
    e.target ∈ d.successors e.source ∧
      e.label = (d.edgeLabels.get? (e.source, e.target)).join := by
  have hnodes : (allNodes d).keys = d.labels.keys := by
    rw [allNodes_of_linked h, keys_drawnNodes]
  rw [ofDrawing, hnodes, List.mem_flatMap]
  constructor
  · rintro ⟨u, -, hu⟩
    obtain ⟨v, hv, rfl⟩ := List.mem_map.1 hu
    exact ⟨List.mem_eraseDups.1 hv, rfl⟩
  · rintro ⟨htarget, hlabel⟩
    have hsource : e.source ∈ d.labels.keys := by
      by_contra hnot
      simp [h.successors_eq_nil hnot] at htarget
    refine ⟨e.source, hsource, List.mem_map.2 ⟨e.target, List.mem_eraseDups.2 htarget, ?_⟩⟩
    rw [← hlabel]

/-- If no node has a successor twice, the multigraph has an edge for every successor. -/
theorem edges_ofDrawing (h : d.Linked) (hnodup : ∀ u, (d.successors u).Nodup) :
    ((ofDrawing d).edges.map fun e => (e.source, e.target))
      = d.labels.keys.flatMap fun u => (d.successors u).map fun v => (u, v) := by
  rw [pairs_ofDrawing, allNodes_of_linked h, keys_drawnNodes]
  refine List.flatMap_congr fun u _ => ?_
  rw [eraseDups_of_nodup (hnodup u)]

theorem length_edges_ofDrawing (h : d.Linked) (hnodup : ∀ u, (d.successors u).Nodup) :
    (ofDrawing d).edges.length = (d.successorLists.toList.flatMap Prod.snd).length := by
  have hlength := congrArg List.length (edges_ofDrawing h hnodup)
  simp only [List.length_map, List.length_flatMap] at hlength
  rw [hlength, h.perm_successors.length_eq, List.length_flatMap]

end Multigraph

end PropDiagram

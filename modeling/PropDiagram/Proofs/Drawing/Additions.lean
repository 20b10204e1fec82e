import PropDiagram.Proofs.Drawing

set_option autoImplicit false

/-! # Additions to a drawing, one after the other

A drawing grows by requests to add a node or an edge, some of which are refused. `Addition.perform`
carries out a request part by part, so that what it changed before a fault would stay changed; since
all is checked before anything is changed, a refused request changes nothing (`perform_edge`).

Of a drawing that was empty at first, the edges that were not refused tell all there is to know about
successors and labels. `Drawing.Records` states this together with what is known about the nodes. Each
addition keeps it (`Records.after`), so every run of additions leads to it (`records_afterAll`), and
the multigraph of the drawing follows from it (`Drawing.additions_recorded`). -/

namespace PropDiagram

/-! ## Requests -/

/-- A request to add a node or an edge. -/
inductive Addition where
  | node (label : Label) (color : Option String)
  | edge (source target : Int) (label : Option String)
deriving DecidableEq, Repr

/-- Carries out the request on the drawing at hand, and tells the number of a new node. What was
    changed before a fault stays changed. -/
def Addition.perform : Addition → EStateM Fault Drawing (Option Int)
  | node label color => do
    let (d, u) := (← get).addNode label color
    set d
    pure (some u)
  | edge u v label => do
    Drawing.connect u v label
    pure none

namespace Drawing

variable {d : Drawing} {u v : Int} {edges : List StyledEdge}

def after (d : Drawing) (a : Addition) : Drawing :=
  match a.perform.run d with
  | .ok _ d' => d'
  | .error _ d' => d'

/-- The edge that the request draws, unless it is refused. -/
def drawn? (d : Drawing) : Addition → Option StyledEdge
  | .node _ _ => none
  | .edge u v label =>
    match (Addition.edge u v label).perform.run d with
    | .ok _ _ => some ⟨u, v, label⟩
    | .error _ _ => none

/-- The drawing after requests one after the other, refused or not. -/
def afterAll (d : Drawing) (as : List Addition) : Drawing := as.foldl after d

/-- The edges that are drawn by requests one after the other, in the order of the requests. -/
def drawnAll : Drawing → List Addition → List StyledEdge
  | _, [] => []
  | d, a :: as => (d.drawn? a).toList ++ drawnAll (d.after a) as

/-! ## Single requests -/

theorem perform_node (d : Drawing) (label : Label) (color : Option String) :
    (Addition.node label color).perform.run d = .ok (some d.size) (d.addNode label color).1 := rfl

/-- A refused edge leaves the drawing as it is. -/
theorem perform_edge (d : Drawing) (u v : Int) (label : Option String) :
    (Addition.edge u v label).perform.run d = match d.addEdge u v label with
      | .ok d' => .ok none d'
      | .error e => .error e d := by
  rw [Addition.perform, EStateM.run_bind, run_connect, addEdge_eq]
  cases d.labels.contains u <;> cases d.labels.contains v <;> rfl

/-- The drawing with one more edge, labeled or not. -/
def withStyledEdge (d : Drawing) (e : StyledEdge) : Drawing :=
  match e.label with
  | some label => d.withEdge e.source e.target label
  | none => d.withPlainEdge e.source e.target

/-- An edge is drawn if both ends are there. Otherwise the fault names an end that is not, the source
    first. -/
theorem perform_edge_cases (d : Drawing) (u v : Int) (label : Option String) :
    (u ∈ d.labels.keys ∧ v ∈ d.labels.keys ∧
      (Addition.edge u v label).perform.run d = .ok none (d.withStyledEdge ⟨u, v, label⟩)) ∨
    ((u ∉ d.labels.keys ∨ v ∉ d.labels.keys) ∧
      (Addition.edge u v label).perform.run d
        = .error (.nodeNotDrawn (if u ∈ d.labels.keys then v else u)) d) := by
  rw [perform_edge]
  by_cases hu : u ∈ d.labels.keys
  · by_cases hv : v ∈ d.labels.keys
    · refine Or.inl ⟨hu, hv, ?_⟩
      cases label with
      | some label => rw [addEdge_of_mem hu hv, withStyledEdge]
      | none => rw [addEdge_none_of_mem hu hv, withStyledEdge]
    · have hcontains := (OrderedMap.contains_iff d.labels u).2 hu
      have hcontains' := mt (OrderedMap.contains_iff d.labels v).1 hv
      exact Or.inr ⟨Or.inr hv, by simp [addEdge_eq, hcontains, hcontains', hu]⟩
  · have hcontains := mt (OrderedMap.contains_iff d.labels u).1 hu
    exact Or.inr ⟨Or.inl hu, by simp [addEdge_eq, hcontains, hu]⟩

theorem after_node (label : Label) (color : Option String) :
    d.after (.node label color) = (d.addNode label color).1 := by
  rw [after, perform_node]

section Edge

variable (label : Option String)

theorem after_edge_of_mem (hu : u ∈ d.labels.keys) (hv : v ∈ d.labels.keys) :
    d.after (.edge u v label) = d.withStyledEdge ⟨u, v, label⟩ ∧
      d.drawn? (.edge u v label) = some ⟨u, v, label⟩ := by
  rcases perform_edge_cases d u v label with ⟨-, -, h⟩ | ⟨hnot, -⟩
  · simp [after, drawn?, h]
  · simp [hu, hv] at hnot

theorem after_edge_of_not_mem (h : u ∉ d.labels.keys ∨ v ∉ d.labels.keys) :
    d.after (.edge u v label) = d ∧ d.drawn? (.edge u v label) = none := by
  rcases perform_edge_cases d u v label with ⟨hu, hv, -⟩ | ⟨-, h⟩
  · simp [hu, hv] at h
  · simp [after, drawn?, h]

end Edge

section StyledEdge

variable (d) (e : StyledEdge)

@[simp] theorem labels_withStyledEdge : (d.withStyledEdge e).labels = d.labels := by
  rw [withStyledEdge]
  cases e.label <;> rfl

@[simp] theorem colors_withStyledEdge : (d.withStyledEdge e).colors = d.colors := by
  rw [withStyledEdge]
  cases e.label <;> rfl

theorem keys_successorLists_withStyledEdge : (d.withStyledEdge e).successorLists.keys
    = if e.source ∈ d.successorLists.keys then d.successorLists.keys
      else d.successorLists.keys ++ [e.source] := by
  rw [withStyledEdge]
  cases e.label <;> exact OrderedMap.keys_insert ..

theorem successors_withStyledEdge (w : Int) : (d.withStyledEdge e).successors w
    = if e.source = w then d.successors w ++ [e.target] else d.successors w := by
  rw [withStyledEdge]
  cases e.label with
  | some label =>
      rw [successors_withEdge]
      split
      · next h => rw [h]
      · rfl
  | none =>
      rw [successors_withPlainEdge]
      split
      · next h => rw [h]
      · rfl

theorem get?_edgeLabels_withStyledEdge (u v : Int) : (d.withStyledEdge e).edgeLabels.get? (u, v)
    = if e.source = u ∧ e.target = v then (e.label.map some).or (d.edgeLabels.get? (u, v))
      else d.edgeLabels.get? (u, v) := by
  rw [withStyledEdge]
  cases e.label with
  | some label => simp [get?_edgeLabels_withEdge]
  | none => simp [withPlainEdge]

end StyledEdge

/-! ## What a drawing records -/

/-- The label that was given last to an edge between the two nodes, if one was given. -/
def lastLabel? (edges : List StyledEdge) (u v : Int) : Option String :=
  ((edges.filter fun e => e.source = u ∧ e.target = v).filterMap StyledEdge.label).getLast?

theorem lastLabel?_concat (edges : List StyledEdge) (e : StyledEdge) (u v : Int) :
    lastLabel? (edges ++ [e]) u v
      = if e.source = u ∧ e.target = v then e.label.or (lastLabel? edges u v)
        else lastLabel? edges u v := by
  rw [lastLabel?, List.filter_append, List.filterMap_append]
  split
  · next h => cases hlabel : e.label <;> simp [h, hlabel, lastLabel?]
  · next h => simp [h, lastLabel?]

theorem lastLabel?_isSome_iff (edges : List StyledEdge) (u v : Int) :
    (lastLabel? edges u v).isSome = true ↔ ∃ label, ⟨u, v, some label⟩ ∈ edges := by
  rw [lastLabel?, Option.isSome_iff_ne_none, ne_eq, List.getLast?_eq_none_iff,
    List.eq_nil_iff_forall_not_mem, not_forall_not]
  refine exists_congr fun label => ?_
  constructor
  · intro h
    obtain ⟨e, he, hlabel⟩ := List.mem_filterMap.1 h
    rw [List.mem_filter, decide_eq_true_eq] at he
    obtain ⟨he, rfl, rfl⟩ := he
    rwa [← hlabel]
  · intro h
    exact List.mem_filterMap.2 ⟨_, List.mem_filter.2 ⟨h, by simp⟩, rfl⟩

/-- What is known about a drawing from the edges that were drawn one after the other. -/
structure Records (d : Drawing) (edges : List StyledEdge) : Prop where
  /-- The nodes have the numbers from zero on, in this order. -/
  numbered : d.labels.keys = numbers d.size
  /-- Edges join nodes. -/
  joins : ∀ e ∈ edges, e.source ∈ d.labels.keys ∧ e.target ∈ d.labels.keys
  /-- The nodes that have a list of successors are the sources of edges. -/
  sources : ∀ u, u ∈ d.successorLists.keys ↔ ∃ e ∈ edges, e.source = u
  /-- The successors of a node are the targets of its edges, in their order. -/
  successors : ∀ u, d.successors u
    = (edges.filter fun e => e.source = u).map StyledEdge.target
  /-- Only nodes have colors. -/
  colored : ∀ u ∈ d.colors.keys, u ∈ d.labels.keys
  /-- The label of two nodes is the last that was given to an edge between them. -/
  labeled : ∀ u v, d.edgeLabels.get? (u, v) = (lastLabel? edges u v).map some

theorem records_empty : Records empty [] where
  numbered := rfl
  joins := by simp
  sources := by simp [empty]
  successors _ := rfl
  colored := by simp [empty]
  labeled _ _ := rfl

theorem Records.addNode (h : Records d edges) (label : Label) (color : Option String) :
    Records (d.addNode label color).1 edges where
  numbered := by
    have hkeys := keys_addNode_of_keys h.numbered label color
    rw [hkeys, size_of_keys hkeys]
  joins e he :=
    ⟨mem_keys_addNode d label color (h.joins e he).1, mem_keys_addNode d label color (h.joins e he).2⟩
  sources := h.sources
  successors := h.successors
  colored u hu := by
    rcases mem_keys_colors_addNode d label color hu with rfl | hu
    · exact number_mem_keys_addNode d label color
    · exact mem_keys_addNode d label color (h.colored u hu)
  labeled := h.labeled

theorem Records.withStyledEdge (h : Records d edges) {e : StyledEdge}
    (hsource : e.source ∈ d.labels.keys) (htarget : e.target ∈ d.labels.keys) :
    Records (d.withStyledEdge e) (edges ++ [e]) where
  numbered := by
    rw [size, labels_withStyledEdge]
    exact h.numbered
  joins := by
    rw [labels_withStyledEdge]
    simpa [or_imp, forall_and, hsource, htarget] using h.joins
  sources u := by
    rw [keys_successorLists_withStyledEdge]
    have hu := h.sources u
    have he := h.sources e.source
    split <;> grind
  successors u := by
    rw [successors_withStyledEdge, h.successors]
    split <;> simp_all
  colored := by
    rw [labels_withStyledEdge, colors_withStyledEdge]
    exact h.colored
  labeled u v := by
    rw [get?_edgeLabels_withStyledEdge, lastLabel?_concat, h.labeled]
    split
    · cases e.label <;> rfl
    · rfl

theorem Records.after (h : Records d edges) (a : Addition) :
    Records (d.after a) (edges ++ (d.drawn? a).toList) := by
  cases a with
  | node label color =>
      rw [after_node, drawn?, Option.toList_none, List.append_nil]
      exact h.addNode label color
  | edge u v label =>
      by_cases hmem : u ∈ d.labels.keys ∧ v ∈ d.labels.keys
      · obtain ⟨hafter, hdrawn⟩ := after_edge_of_mem label hmem.1 hmem.2
        rw [hafter, hdrawn]
        exact h.withStyledEdge hmem.1 hmem.2
      · obtain ⟨hafter, hdrawn⟩ := after_edge_of_not_mem label (not_and_or.1 hmem)
        rw [hafter, hdrawn, Option.toList_none, List.append_nil]
        exact h

/-- Additions record the edges that they draw. -/
theorem Records.afterAll (h : Records d edges) (as : List Addition) :
    Records (d.afterAll as) (edges ++ d.drawnAll as) := by
  induction as generalizing d edges with
  | nil => simpa [Drawing.afterAll, drawnAll] using h
  | cons a as ih =>
      rw [drawnAll, ← List.append_assoc]
      exact ih (h.after a)

theorem records_afterAll (as : List Addition) : Records (empty.afterAll as) (empty.drawnAll as) := by
  simpa using records_empty.afterAll as

/-! ## What follows from the record -/

theorem Records.linked (h : Records d edges) : d.Linked := by
  intro u vs hvs
  have hu : u ∈ d.successorLists.keys := by
    by_contra hnot
    rw [(OrderedMap.get?_eq_none_iff _ u).2 hnot] at hvs
    cases hvs
  obtain ⟨e, he, rfl⟩ := (h.sources u).1 hu
  refine ⟨(h.joins e he).1, fun v hv => ?_⟩
  have hsuccessors : d.successors e.source = vs := by
    rw [Drawing.successors, hvs]
    rfl
  rw [← hsuccessors, h.successors] at hv
  obtain ⟨e', he', rfl⟩ := List.mem_map.1 hv
  exact (h.joins e' (List.mem_filter.1 he').1).2

theorem Records.mem_keys_edgeLabels_iff (h : Records d edges) (u v : Int) :
    (u, v) ∈ d.edgeLabels.keys ↔ ∃ label, ⟨u, v, some label⟩ ∈ edges := by
  rw [← lastLabel?_isSome_iff, ← not_iff_not, ← OrderedMap.get?_eq_none_iff, h.labeled]
  simp

/-- The edges of the multigraph are the pairs of nodes that were joined, with the last label. -/
theorem Records.mem_edges_iff (h : Records d edges) (e : StyledEdge) :
    e ∈ (Multigraph.ofDrawing d).edges ↔
      (∃ e' ∈ edges, e'.source = e.source ∧ e'.target = e.target) ∧
        e.label = lastLabel? edges e.source e.target := by
  rw [Multigraph.mem_edges_ofDrawing h.linked, h.successors, h.labeled]
  refine and_congr ?_ ?_
  · simp [and_assoc]
  · cases lastLabel? edges e.source e.target <;> rfl

/-- **Additions are recorded.** Let a drawing be empty at first, and carry out any requests, some of
    which may be refused. Let `edges` be those that were drawn, in the order of the requests.

    * The drawing has the nodes from zero on, in this order, and records the edges
      (`Drawing.Records`): they join nodes, the successors of a node are the targets of its edges in
      their order, and two nodes have a label exactly if some edge between them was given one, which
      is then the last. Only nodes have successors or colors.
    * A further node takes a number that was not in use, and changes nothing of any other node.
    * A further request that is refused is one for an edge that lacks an end, and changes nothing.
    * The multigraph has the same nodes and, for every two nodes that were joined, one edge with
      their label. -/
theorem additions_recorded (as : List Addition) :
    let d := empty.afterAll as
    let edges := empty.drawnAll as
    let m := Multigraph.ofDrawing d
    (Records d edges ∧ d.Linked ∧
      ∀ u v, (u, v) ∈ d.edgeLabels.keys ↔ ∃ label, ⟨u, v, some label⟩ ∈ edges) ∧
    (∀ label color, ∃ (u : Int) (d' : Drawing),
      (Addition.node label color).perform.run d = .ok (some u) d' ∧ u ∉ d.labels.keys ∧
      d'.labels.keys = d.labels.keys ++ [u] ∧ d'.labels.get? u = some label ∧
      (∀ w, w ≠ u → d'.labels.get? w = d.labels.get? w ∧ d'.colors.get? w = d.colors.get? w) ∧
      d'.successorLists = d.successorLists ∧ d'.edgeLabels = d.edgeLabels) ∧
    (∀ (a : Addition) (e : Fault) (d' : Drawing), a.perform.run d = .error e d' →
      d' = d ∧ ∃ u v label, a = .edge u v label ∧ (u ∉ d.labels.keys ∨ v ∉ d.labels.keys)) ∧
    (m.nodes.keys = d.labels.keys ∧ (m.edges.map fun e => (e.source, e.target)).Nodup ∧
      ∀ e, e ∈ m.edges ↔ (∃ e' ∈ edges, e'.source = e.source ∧ e'.target = e.target) ∧
        e.label = lastLabel? edges e.source e.target) := by
  intro d edges m
  have h : Records d edges := records_afterAll as
  have hfresh := size_not_mem_of_keys h.numbered
  refine ⟨⟨h, h.linked, h.mem_keys_edgeLabels_iff⟩, fun label color => ?_, fun a e d' hrun => ?_, ?_,
    Multigraph.nodup_pairs_ofDrawing d, h.mem_edges_iff⟩
  · refine ⟨d.size, _, perform_node d label color, hfresh, ?_, ?_, fun w hw => ⟨?_, ?_⟩, rfl, rfl⟩
    · rw [keys_addNode, if_neg hfresh]
    · rw [get?_labels_addNode, if_pos rfl]
    · rw [get?_labels_addNode, if_neg hw.symm]
    · rw [get?_colors_addNode, if_neg fun hand => hw hand.1.symm]
  · cases a with
    | node label color =>
        rw [perform_node] at hrun
        cases hrun
    | edge u v label =>
        rcases perform_edge_cases d u v label with ⟨-, -, hok⟩ | ⟨hnot, herror⟩
        · rw [hok] at hrun
          cases hrun
        · rw [herror] at hrun
          cases hrun
          exact ⟨rfl, u, v, label, rfl, hnot⟩
  · rw [Multigraph.nodes_ofDrawing h.linked, Multigraph.keys_drawnNodes]

/-- An edge that is drawn three times and labeled anew in between, and edges that lack an end. -/
theorem additions_recorded_relabeled :
    let as : List Addition := [.node (.text "q") none, .node (.truth true) (some "green"),
      .edge 0 1 (some "F"), .edge 0 2 (some "T"), .edge 0 1 (some "F/T"), .edge 0 1 none]
    let d := empty.afterAll as
    let e : Fault := .nodeNotDrawn 2
    (∃ d', (Addition.edge 2 1 none).perform.run d = .error e d' ∧ d' = d) ∧
    d.successors 0 = [1, 1, 1] ∧
    (⟨0, 1, some "F/T"⟩ : StyledEdge) ∈ (Multigraph.ofDrawing d).edges := by
  intro as d e
  have hdrawn : empty.drawnAll as = [⟨0, 1, some "F"⟩, ⟨0, 1, some "F/T"⟩, ⟨0, 1, none⟩] := by
    decide +kernel
  obtain ⟨⟨h, -, -⟩, -, hrefused, -, -, hedges⟩ := additions_recorded as
  rw [hdrawn] at h hedges
  have hlack : (2 : Int) ∉ d.labels.keys := by decide +kernel
  refine ⟨?_, h.successors 0, (hedges _).2 ⟨⟨_, List.mem_cons_self, rfl, rfl⟩, by decide +kernel⟩⟩
  rcases perform_edge_cases d 2 1 none with ⟨hmem, -⟩ | ⟨-, hrun⟩
  · exact absurd hmem hlack
  · rw [if_neg hlack] at hrun
    exact ⟨d, hrun, (hrefused _ _ _ hrun).1⟩

end Drawing

end PropDiagram

import PropDiagram.Diagram.Drawing
import PropDiagram.Proofs.Diagram.Postorder
import PropDiagram.Proofs.Drawing

set_option autoImplicit false

/-! # What the drawing of a diagram shows

Drawing entries one after the other gives every entry its place as its number
(`Drawing.Depicts`): the node has the label and color of the entry, its successors are the branches
of the entry, and the label of an edge tells which of the two branches lead there.

A reduced diagram is drawn this way, entry by entry. A diagram is drawn in post-order, and that is
the same as drawing a table that lists its nodes in post-order, with the successors renumbered
(`Diagram.draw_eq`). So one account of drawing entries serves both. -/

namespace PropDiagram

/-! ## What an entry shows -/

/-- The label of the edge to `v`, of a test with these branches. -/
def branchLabel (low high v : Int) : Option String :=
  if v = low ∧ v = high then some "F/T"
  else if v = low then some "F"
  else if v = high then some "T"
  else none

namespace Entry

/-- What the node of the entry shows. -/
def label : Entry → Label
  | terminal value => .ofTruth value
  | test name _ _ => .ofName name

/-- The color of the node. Tests have none. -/
def color (palette : Palette) : Entry → Option String
  | terminal value => palette value
  | test _ _ _ => none

def branches : Entry → List Int
  | terminal _ => []
  | test _ low high => [(low : Int), (high : Int)]

def edgeLabel : Entry → Int → Option String
  | terminal _, _ => none
  | test _ low high, v => branchLabel low high v

end Entry

/-! ## The two edges of a test -/

namespace Drawing

variable {d : Drawing} {u low high : Int}

/-- The drawing with the two edges of a test. -/
def withBranches (d : Drawing) (u low high : Int) : Drawing :=
  (d.withEdge u low (if low = high then "F/T" else "F")).withEdge u high
    (if low = high then "F/T" else "T")

theorem addBranches_of_mem (hu : u ∈ d.labels.keys) (hlow : low ∈ d.labels.keys)
    (hhigh : high ∈ d.labels.keys) :
    d.addBranches u low high = .ok (d.withBranches u low high) := by
  rw [addBranches, withBranches]
  split
  · next heq =>
      rw [addEdge_of_mem hu hlow]
      exact addEdge_of_mem (d := d.withEdge u low "F/T") hu hhigh "F/T"
  · next hne =>
      rw [addEdge_of_mem hu hlow]
      exact addEdge_of_mem (d := d.withEdge u low "F") hu hhigh "T"

@[simp] theorem labels_withBranches : (d.withBranches u low high).labels = d.labels := rfl

@[simp] theorem colors_withBranches : (d.withBranches u low high).colors = d.colors := rfl

theorem successors_withBranches (w : Int) : (d.withBranches u low high).successors w
    = if u = w then d.successors u ++ [low, high] else d.successors w := by
  simp only [withBranches, successors_withEdge]
  split
  · simp
  · rfl

theorem get?_edgeLabels_withBranches (w v : Int) :
    (d.withBranches u low high).edgeLabels.get? (w, v)
      = if u = w then ((branchLabel low high v).map some).or (d.edgeLabels.get? (w, v))
        else d.edgeLabels.get? (w, v) := by
  simp only [withBranches, get?_edgeLabels_withEdge, branchLabel, Prod.mk.injEq]
  by_cases huw : u = w
  · by_cases hlow : v = low <;> by_cases hhigh : v = high <;>
      simp_all [eq_comm]
  · simp [huw]

theorem Linked.withBranches (h : d.Linked) (hu : u ∈ d.labels.keys) (hlow : low ∈ d.labels.keys)
    (hhigh : high ∈ d.labels.keys) : (d.withBranches u low high).Linked :=
  (h.withEdge hu hlow _).withEdge hu hhigh _

/-! ## Drawing entries -/

/-- The drawing of entries, each of which has its place as its number. -/
def ofEntries (palette : Palette) (es : List Entry) : Except Fault Drawing :=
  es.zipIdx.foldlM (fun d e => Reduced.drawEntry palette d e.2 e.1) .empty

theorem ofEntries_concat (palette : Palette) (es : List Entry) (e : Entry) :
    ofEntries palette (es ++ [e])
      = (ofEntries palette es).bind fun d => Reduced.drawEntry palette d es.length e := by
  rw [ofEntries, List.zipIdx_append, List.foldlM_append, Nat.zero_add]
  show (ofEntries palette es).bind _ = _
  cases ofEntries palette es with
  | error e => rfl
  | ok d =>
      show (Reduced.drawEntry palette d es.length e).bind Except.ok = _
      cases hd : Reduced.drawEntry palette d es.length e <;> simp [Except.bind, hd]

/-- The drawing shows the entries, the one at place `u` as the node with the number `u`. -/
structure Depicts (palette : Palette) (es : List Entry) (d : Drawing) : Prop where
  keys : d.labels.keys = (List.range es.length).map fun u : Nat => (u : Int)
  label : ∀ u : Nat, d.labels.get? u = es[u]?.map Entry.label
  color : ∀ u : Nat, (d.colors.get? u).join = es[u]?.bind (Entry.color palette)
  successors : ∀ u : Nat, d.successors u = (es[u]?.map Entry.branches).getD []
  edgeLabel : ∀ (u : Nat) (v : Int),
    (d.edgeLabels.get? (u, v)).join = es[u]?.bind fun e => e.edgeLabel v
  linked : d.Linked

section Depicts

variable {palette : Palette} {es : List Entry}

theorem depicts_empty : empty.Depicts palette [] where
  keys := rfl
  label _ := rfl
  color _ := rfl
  successors _ := rfl
  edgeLabel _ _ := rfl
  linked := linked_empty

theorem Depicts.size (h : d.Depicts palette es) : d.size = es.length := size_of_keys h.keys

theorem Depicts.mem_keys_iff (h : d.Depicts palette es) (u : Int) :
    u ∈ d.labels.keys ↔ ∃ v : Nat, v < es.length ∧ u = v := by
  rw [h.keys]
  exact mem_numbers_iff

theorem Depicts.keys_addNode (h : d.Depicts palette es) (label : Label) (color : Option String) :
    (d.addNode label color).1.labels.keys
      = (List.range (es.length + 1)).map fun u : Nat => (u : Int) :=
  keys_addNode_of_keys h.keys label color

theorem getElem?_concat_of_ne {u : Nat} (hu : u ≠ es.length) (e : Entry) :
    (es ++ [e])[u]? = es[u]? := by
  rw [List.getElem?_append]
  split
  · rfl
  · next hge =>
      rw [List.getElem?_eq_none (by simp; omega), List.getElem?_eq_none (by omega)]

theorem Depicts.addTerminal (h : d.Depicts palette es) (value : Option Bool) :
    (d.addTerminal palette value).1.Depicts palette (es ++ [.terminal value]) where
  keys := by
    rw [List.length_append]
    exact h.keys_addNode _ _
  label := by
    intro u
    rw [Drawing.addTerminal, get?_labels_addNode, h.size, h.label]
    by_cases hu : u = es.length
    · simp [hu, Entry.label]
    · rw [if_neg (by omega), getElem?_concat_of_ne hu]
  color := by
    intro u
    rw [Drawing.addTerminal, get?_colors_addNode, h.size]
    by_cases hu : u = es.length
    · have hcolor := h.color es.length
      rw [List.getElem?_eq_none (Nat.le_refl _)] at hcolor
      cases hpalette : palette value <;> simp [hu, hpalette, hcolor, Entry.color]
    · rw [if_neg (by omega), getElem?_concat_of_ne hu, h.color]
  successors := by
    intro u
    rw [Drawing.addTerminal, successors_addNode, h.successors]
    by_cases hu : u = es.length
    · simp [hu, Entry.branches]
    · rw [getElem?_concat_of_ne hu]
  edgeLabel := by
    intro u v
    rw [Drawing.addTerminal, edgeLabels_addNode, h.edgeLabel]
    by_cases hu : u = es.length
    · simp [hu, Entry.edgeLabel]
    · rw [getElem?_concat_of_ne hu]
  linked := h.linked.addNode _ _

theorem Depicts.addTest (h : d.Depicts palette es) (name : Option String) {low high : Nat}
    (hlow : low < es.length) (hhigh : high < es.length) :
    ((d.addNode (.ofName name) none).1.withBranches es.length low high).Depicts palette
      (es ++ [.test name low high]) where
  keys := by
    rw [labels_withBranches, List.length_append]
    exact h.keys_addNode _ _
  label := by
    intro u
    rw [labels_withBranches, get?_labels_addNode, h.size, h.label]
    by_cases hu : u = es.length
    · simp [hu, Entry.label]
    · rw [if_neg (by omega), getElem?_concat_of_ne hu]
  color := by
    intro u
    rw [colors_withBranches, get?_colors_addNode, if_neg (by simp), h.color]
    by_cases hu : u = es.length
    · simp [hu, Entry.color]
    · rw [getElem?_concat_of_ne hu]
  successors := by
    intro u
    rw [successors_withBranches, successors_addNode, successors_addNode, h.successors, h.successors]
    by_cases hu : u = es.length
    · simp [hu, Entry.branches]
    · rw [if_neg (by omega), getElem?_concat_of_ne hu]
  edgeLabel := by
    intro u v
    rw [get?_edgeLabels_withBranches, edgeLabels_addNode]
    by_cases hu : u = es.length
    · have hlabel := h.edgeLabel es.length v
      rw [List.getElem?_eq_none (Nat.le_refl _)] at hlabel
      cases hbranch : branchLabel low high v <;> simp [hu, hbranch, hlabel, Entry.edgeLabel]
    · rw [if_neg (by omega), getElem?_concat_of_ne hu, h.edgeLabel]
  linked := by
    have hmem : ∀ v : Nat, v ≤ es.length →
        (v : Int) ∈ (d.addNode (.ofName name) none).1.labels.keys := by
      intro v hv
      rw [h.keys_addNode, List.mem_map]
      exact ⟨v, List.mem_range.2 (by omega), rfl⟩
    exact (h.linked.addNode _ _).withBranches (hmem _ (Nat.le_refl _)) (hmem low (by omega))
      (hmem high (by omega))

/-- Drawing one more entry, whose branches are drawn, succeeds and shows it. -/
theorem Depicts.drawEntry (h : d.Depicts palette es) {e : Entry} (he : e.Fits es.length) :
    ∃ d', Reduced.drawEntry palette d es.length e = .ok d' ∧ d'.Depicts palette (es ++ [e]) := by
  cases e with
  | terminal value => exact ⟨_, rfl, h.addTerminal value⟩
  | test name low high =>
      obtain ⟨hlow, hhigh⟩ := he
      have hmem : ∀ v : Nat, v < es.length →
          (v : Int) ∈ (d.addNode (.ofName name) none).1.labels.keys := by
        intro v hv
        exact mem_keys_addNode d _ _ ((h.mem_keys_iff v).2 ⟨v, hv, rfl⟩)
      have hself : (es.length : Int) ∈ (d.addNode (.ofName name) none).1.labels.keys := by
        have hnumber := number_mem_keys_addNode d (.ofName name) none
        rwa [h.size] at hnumber
      refine ⟨_, ?_, h.addTest name hlow hhigh⟩
      rw [Reduced.drawEntry]
      exact addBranches_of_mem hself (hmem low hlow) (hmem high hhigh)

theorem exists_depicts (palette : Palette) {es : List Entry}
    (h : ∀ (u : Nat) (e : Entry), es[u]? = some e → e.Fits u) :
    ∃ d, ofEntries palette es = .ok d ∧ d.Depicts palette es := by
  induction es using List.reverseRecOn with
  | nil => exact ⟨empty, rfl, depicts_empty⟩
  | append_singleton es e ih =>
      obtain ⟨d, hd, hdepicts⟩ := ih fun u x hu =>
        h u x (by rw [List.getElem?_append_left (List.getElem?_eq_some_iff.1 hu).1, hu])
      obtain ⟨d', hd', hdepicts'⟩ := hdepicts.drawEntry (h es.length e (by simp))
      refine ⟨d', ?_, hdepicts'⟩
      rw [ofEntries_concat, hd]
      exact hd'

end Depicts

end Drawing

/-! ## Reduced diagrams -/

theorem Reduced.exists_depicts (r : Reduced) (palette : Palette) :
    ∃ g, r.draw palette = .ok g ∧ g.Depicts palette r.table.entries.toList := by
  refine Drawing.exists_depicts palette fun u e hu => r.table.ordered u e ?_
  rwa [Array.getElem?_toList] at hu

/-! ## Nodes in the order of a list -/

namespace Table

variable {t : Table} {us : List Nat}

/-- The entry of a node, with its successors numbered by their places in a list. -/
def entryIn (t : Table) (us : List Nat) (u : Nat) : Entry :=
  match t.test? u with
  | some (name, low, high) => .test name (us.idxOf low.val) (us.idxOf high.val)
  | none => .terminal (t.value u)

/-- The entries of the nodes of a list, in its order. -/
def entriesOf (t : Table) (us : List Nat) : List Entry := us.map (t.entryIn us)

@[simp] theorem length_entriesOf (t : Table) (us : List Nat) :
    (t.entriesOf us).length = us.length := List.length_map _

theorem entryIn_append {u : Nat}
    (hbranches : ∀ (name : Option String) (low high : Fin u),
      t.test? u = some (name, low, high) → low.val ∈ us ∧ high.val ∈ us) (vs : List Nat) :
    t.entryIn (us ++ vs) u = t.entryIn us u := by
  rw [entryIn, entryIn]
  cases htest : t.test? u with
  | none => rfl
  | some test =>
      obtain ⟨name, low, high⟩ := test
      obtain ⟨hlow, hhigh⟩ := hbranches name low high htest
      dsimp only
      rw [List.idxOf_append_of_mem hlow, List.idxOf_append_of_mem hhigh]

theorem entriesOf_concat (h : t.BottomUp us) {u : Nat}
    (hbranches : ∀ (name : Option String) (low high : Fin u),
      t.test? u = some (name, low, high) → low.val ∈ us ∧ high.val ∈ us) :
    t.entriesOf (us ++ [u]) = t.entriesOf us ++ [t.entryIn us u] := by
  rw [entriesOf, List.map_append, List.map_singleton, entryIn_append hbranches, entriesOf]
  congr 1
  exact List.map_congr_left fun w hw =>
    entryIn_append (fun name low high htest => h.branches hw htest) [u]

theorem BottomUp.fits (h : t.BottomUp us) :
    ∀ (i : Nat) (e : Entry), (t.entriesOf us)[i]? = some e → e.Fits i := by
  induction h with
  | nil =>
      intro i e hi
      simp [entriesOf] at hi
  | @concat us u h hu hbranches ih =>
      intro i e hi
      rw [entriesOf_concat h hbranches, List.getElem?_append] at hi
      split at hi
      · exact ih i e hi
      · next hge =>
          rw [length_entriesOf] at hge hi
          rw [List.getElem?_singleton] at hi
          split at hi
          · next hzero =>
              cases hi
              rw [entryIn]
              cases htest : t.test? u with
              | none => trivial
              | some test =>
                  obtain ⟨name, low, high⟩ := test
                  obtain ⟨hlow, hhigh⟩ := hbranches name low high htest
                  have hl := List.idxOf_lt_length_iff.2 hlow
                  have hh := List.idxOf_lt_length_iff.2 hhigh
                  exact ⟨by omega, by omega⟩
          · cases hi

theorem unfold_entriesOf (h : t.BottomUp us) {t' : Table}
    (ht' : t'.entries.toList = t.entriesOf us) {u : Nat} (hu : u ∈ us) :
    t'.unfold (us.idxOf u) = t.unfold u := by
  induction u using Nat.strongRecOn with
  | ind u ih =>
      have hentry : t'.entries[us.idxOf u]? = some (t.entryIn us u) := by
        rw [← Array.getElem?_toList, ht', entriesOf, List.getElem?_map, List.getElem?_idxOf hu]
        rfl
      rw [unfold_eq t', hentry, entryIn]
      cases htest : t.test? u with
      | none => rw [unfold_of_not_test htest]
      | some test =>
          obtain ⟨name, low, high⟩ := test
          obtain ⟨hlow, hhigh⟩ := h.branches hu htest
          rw [unfold_of_test htest]
          dsimp only
          rw [ih low low.isLt hlow, ih high high.isLt hhigh]

end Table

/-! ## Diagrams -/

namespace Diagram

variable {d : Diagram} {t : Table} {palette : Palette} {us : List Nat} {s : Progress}

/-- What is drawn after the nodes `us`: their entries, and each node has its place in the list as its
    number. -/
structure Progress.Shows (t : Table) (palette : Palette) (us : List Nat) (s : Progress) : Prop where
  drawing : Drawing.ofEntries palette (t.entriesOf us) = .ok s.drawing
  size : s.numbers.size = t.size
  number : ∀ u ∈ us, s.numbers[u]? = some (some (us.idxOf u : Int))

theorem Progress.Shows.set (h : s.Shows t palette us) (hus : t.BottomUp us) {u : Nat}
    (hu : u < t.size) (hnew : u ∉ us)
    (hbranches : ∀ (name : Option String) (low high : Fin u),
      t.test? u = some (name, low, high) → low.val ∈ us ∧ high.val ∈ us) {g : Drawing}
    (hg : Reduced.drawEntry palette s.drawing us.length (t.entryIn us u) = .ok g) :
    Progress.Shows t palette (us ++ [u])
      ⟨g, s.numbers.setIfInBounds u (some (us.length : Int))⟩ where
  drawing := by
    rw [Table.entriesOf_concat hus hbranches, Drawing.ofEntries_concat, h.drawing,
      Table.length_entriesOf]
    exact hg
  size := by simp [h.size]
  number := by
    intro w hw
    rw [List.mem_append, List.mem_singleton] at hw
    rw [Array.getElem?_setIfInBounds, h.size]
    rcases hw with hw | rfl
    · have huw : u ≠ w := fun huw => hnew (huw ▸ hw)
      rw [if_neg huw, List.idxOf_append_of_mem hw]
      exact h.number w hw
    · rw [if_pos rfl, if_pos hu, List.idxOf_append_of_notMem hnew]
      simp

theorem Progress.Shows.drawNode (h : s.Shows t palette us) (hus : t.BottomUp us) {u : Nat}
    (hu : u < t.size) (hnew : u ∉ us) (hproper : (t.unfold u).Proper)
    (hbranches : ∀ (name : Option String) (low high : Fin u),
      t.test? u = some (name, low, high) → low.val ∈ us ∧ high.val ∈ us) :
    ∃ s', Diagram.drawNode t palette s u = .ok s' ∧ s'.Shows t palette (us ++ [u]) := by
  have hdepicts : s.drawing.Depicts palette (t.entriesOf us) := by
    obtain ⟨g, hg, hdepicts⟩ := Drawing.exists_depicts palette hus.fits
    rw [h.drawing] at hg
    cases hg
    exact hdepicts
  have hsize : s.drawing.size = us.length := by rw [hdepicts.size, Table.length_entriesOf]
  have hfits : (t.entryIn us u).Fits us.length := by
    have hall := (Table.BottomUp.concat hus hu hbranches).fits us.length
    rw [Table.entriesOf_concat hus hbranches] at hall
    exact hall _ (by simp)
  rw [← t.length_entriesOf us] at hfits
  obtain ⟨g, hg, -⟩ := hdepicts.drawEntry hfits
  rw [Table.length_entriesOf] at hg
  refine ⟨_, ?_, h.set hus hu hnew hbranches hg⟩
  rcases Table.cases_of_proper hproper with ⟨b, htest, hvalue, -⟩ | ⟨name, low, high, htest, -⟩
  · rw [Table.entryIn, htest, hvalue] at hg
    cases hg
    rw [Diagram.drawNode, Table.decision?_of_not_test htest, hvalue]
    dsimp only
    rw [Drawing.addTerminal, Drawing.number_addNode, hsize]
    rfl
  · obtain ⟨hlow, hhigh⟩ := hbranches _ low high htest
    rw [Table.entryIn, htest] at hg
    dsimp only at hg
    rw [Reduced.drawEntry] at hg
    rw [Diagram.drawNode, Table.decision?_of_test htest, Option.map_some]
    dsimp only
    rw [h.number low hlow, h.number high hhigh]
    dsimp only [Option.join]
    rw [Drawing.number_addNode, hsize]
    show (Drawing.addBranches _ _ _ _).bind _ = _
    rw [show Label.text name = Label.ofName (some name) from rfl, hg]
    rfl

/-- Drawing nodes bottom up, each once, is drawing their entries. -/
theorem shows_foldlM (palette : Palette) (hus : t.BottomUp us) (hdistinct : us.Nodup)
    (hproper : ∀ u ∈ us, (t.unfold u).Proper) :
    ∃ s, us.foldlM (Diagram.drawNode t palette) ⟨.empty, Array.replicate t.size none⟩ = .ok s ∧
      s.Shows t palette us := by
  induction hus with
  | nil =>
      refine ⟨_, rfl, rfl, by simp, ?_⟩
      intro u hu
      simp at hu
  | @concat us u hus hu hbranches ih =>
      rw [List.nodup_append] at hdistinct
      have hnew : u ∉ us := fun hmem => hdistinct.2.2 u hmem u (by simp) rfl
      obtain ⟨s, hs, hshows⟩ := ih hdistinct.1 fun v hv => hproper v (List.mem_append_left _ hv)
      obtain ⟨s', hs', hshows'⟩ := hshows.drawNode hus hu hnew (hproper u (by simp)) hbranches
      refine ⟨s', ?_, hshows'⟩
      rw [List.foldlM_append, hs]
      show (Diagram.drawNode t palette s u).bind Except.ok = _
      rw [hs']
      rfl

/-- Drawing a diagram is drawing its nodes in post-order, entry by entry. -/
theorem draw_eq (h : d.tree.Proper) (palette : Palette) :
    d.draw palette = Drawing.ofEntries palette (d.table.entriesOf d.nodes) := by
  obtain ⟨s, hs, hshows⟩ := shows_foldlM palette (bottomUp_nodes h)
    (nodes_covers h).sound.nodup fun u hu => ((mem_nodes_iff h u).1 hu).proper h
  rw [hshows.drawing, draw, hs]
  rfl

/-- A proper diagram can be drawn, and its drawing shows its nodes in post-order. -/
theorem exists_depicts (h : d.tree.Proper) (palette : Palette) :
    ∃ g, d.draw palette = .ok g ∧ g.Depicts palette (d.table.entriesOf d.nodes) := by
  rw [draw_eq h]
  exact Drawing.exists_depicts palette (bottomUp_nodes h).fits

end Diagram

end PropDiagram

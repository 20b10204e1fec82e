import PropDiagram.Diagram.Table
import PropDiagram.Proofs.FirstOccurrences

set_option autoImplicit false

/-! # Shapes of decision trees

The shape of a tree is the tree without its names. With elimination, a test whose branches have one
shape has that shape itself, and is called eliminated.

`Tree.entries` lists the shapes of a list of trees as the entries of a table: every shape once, in
the order of first occurrence, a test with the places of the shapes of its branches, and with the
literal of the first tree of this shape that is not eliminated. When the list contains the subtrees
of its members, one more tree adds one entry if its shape is new, and nothing otherwise
(`entries_concat_of_mem`, `entries_concat_of_not_mem`). -/

namespace PropDiagram

/-- A decision tree without names. -/
inductive Shape where
  | terminal (value : Option Bool)
  | test (low high : Shape)
deriving DecidableEq, Repr

namespace Tree

/-! ## Shapes -/

/-- The tree without its names. -/
def erased : Tree → Shape
  | leaf value => .terminal value
  | node _ low high => .test low.erased high.erased

/-- The shape of the tree: with elimination, that of the branches if both have the same. -/
def shape (eliminate : Bool) : Tree → Shape
  | leaf value => .terminal value
  | node _ low high =>
    if eliminate && low.shape eliminate == high.shape eliminate then low.shape eliminate
    else .test (low.shape eliminate) (high.shape eliminate)

/-- Whether the root of the tree stays: it is no test whose branches have the same shape, or there
    is no elimination. -/
def isKept (eliminate : Bool) : Tree → Bool
  | leaf _ => true
  | node _ low high => !(eliminate && low.shape eliminate == high.shape eliminate)

def name? : Tree → Option String
  | leaf _ => none
  | node name _ _ => name

@[simp] theorem shape_leaf (e : Bool) (value : Option Bool) :
    (leaf value).shape e = .terminal value := rfl

theorem shape_false (t : Tree) : t.shape false = t.erased := by
  induction t with
  | leaf value => rfl
  | node name low high ihl ihh => simp [shape, erased, ihl, ihh]

theorem shape_of_isKept {e : Bool} {name : Option String} {low high : Tree}
    (h : (node name low high).isKept e = true) :
    (node name low high).shape e = .test (low.shape e) (high.shape e) := by
  rw [isKept, Bool.not_eq_true'] at h
  rw [shape, h]
  rfl

theorem shape_of_not_isKept {e : Bool} {name : Option String} {low high : Tree}
    (h : (node name low high).isKept e = false) :
    (node name low high).shape e = low.shape e := by
  rw [isKept, Bool.not_eq_false'] at h
  rw [shape, h]
  rfl

theorem size_eq_of_erased_eq {s t : Tree} (h : s.erased = t.erased) : s.size = t.size := by
  induction s generalizing t with
  | leaf value =>
      cases t with
      | leaf value' => rfl
      | node name low high => simp [erased] at h
  | node name low high ihl ihh =>
      cases t with
      | leaf value' => simp [erased] at h
      | node name' low' high' =>
          rw [erased, erased, Shape.test.injEq] at h
          rw [size, size, ihl h.1, ihh h.2]

/-! ## Post-order -/

/-- The subtrees in post-order: those of the low branch, those of the high branch, then the tree
    itself. -/
def postorder : Tree → List Tree
  | leaf value => [leaf value]
  | node name low high => low.postorder ++ high.postorder ++ [node name low high]

/-- Whether every test of the tree names a literal and every leaf has a truth value. -/
def Proper : Tree → Prop
  | leaf value => value.isSome = true
  | node name low high => name.isSome = true ∧ low.Proper ∧ high.Proper

theorem self_mem_postorder (t : Tree) : t ∈ t.postorder := by
  cases t <;> simp [postorder]

theorem postorder_subset {s t : Tree} (h : s ∈ t.postorder) :
    ∀ r ∈ s.postorder, r ∈ t.postorder := by
  induction t with
  | leaf value =>
      rw [postorder, List.mem_singleton] at h
      rw [h]
      exact fun r hr => hr
  | node name low high ihl ihh =>
      intro r hr
      simp only [postorder, List.mem_append, List.mem_singleton] at h ⊢
      rcases h with (h | h) | rfl
      · exact Or.inl (Or.inl (ihl h r hr))
      · exact Or.inl (Or.inr (ihh h r hr))
      · simpa only [postorder, List.mem_append, List.mem_singleton] using hr

theorem Proper.of_mem_postorder {s t : Tree} (ht : t.Proper) (h : s ∈ t.postorder) : s.Proper := by
  induction t with
  | leaf value =>
      rw [postorder, List.mem_singleton] at h
      rwa [h]
  | node name low high ihl ihh =>
      simp only [postorder, List.mem_append, List.mem_singleton] at h
      rcases h with (h | h) | rfl
      · exact ihl ht.2.1 h
      · exact ihh ht.2.2 h
      · exact ht

/-- Every tree has the shape of a subtree that is kept. -/
theorem exists_isKept (e : Bool) (t : Tree) :
    ∃ s ∈ t.postorder, s.isKept e = true ∧ s.shape e = t.shape e := by
  induction t with
  | leaf value => exact ⟨leaf value, self_mem_postorder _, rfl, rfl⟩
  | node name low high ihl ihh =>
      cases hkept : (node name low high).isKept e with
      | true => exact ⟨_, self_mem_postorder _, hkept, rfl⟩
      | false =>
          obtain ⟨s, hs, hskept, hshape⟩ := ihl
          refine ⟨s, ?_, hskept, hshape.trans (shape_of_not_isKept hkept).symm⟩
          simp [postorder, hs]

/-! ## Lists of trees -/

/-- Whether the list contains the subtrees of its members. -/
def Closed (ts : List Tree) : Prop := ∀ t ∈ ts, ∀ s ∈ t.postorder, s ∈ ts

theorem closed_postorder (t : Tree) : Closed t.postorder := fun _ hs => postorder_subset hs

/-- Whether the branches of the tree are in the list. -/
def BranchesIn (ts : List Tree) : Tree → Prop
  | leaf _ => True
  | node _ low high => low ∈ ts ∧ high ∈ ts

theorem Closed.concat {ts : List Tree} (h : Closed ts) {t : Tree} (ht : BranchesIn ts t) :
    Closed (ts ++ [t]) := by
  have hsub : ∀ s ∈ t.postorder, s ∈ ts ∨ s = t := by
    intro s hs
    cases t with
    | leaf value => exact Or.inr (List.mem_singleton.1 hs)
    | node name low high =>
        simp only [postorder, List.mem_append, List.mem_singleton] at hs
        rcases hs with (hs | hs) | hs
        · exact Or.inl (h low ht.1 s hs)
        · exact Or.inl (h high ht.2 s hs)
        · exact Or.inr hs
  intro r hr s hs
  rw [List.mem_append, List.mem_singleton] at hr ⊢
  rcases hr with hr | rfl
  · exact Or.inl (h r hr s hs)
  · exact hsub s hs

theorem Closed.branches {ts : List Tree} (h : Closed ts) {name : Option String} {low high : Tree}
    (ht : node name low high ∈ ts) : low ∈ ts ∧ high ∈ ts := by
  constructor
  · exact h _ ht low (by simp [postorder, self_mem_postorder])
  · exact h _ ht high (by simp [postorder, self_mem_postorder])

/-- The shapes of the trees, each one once, in the order of first occurrence. -/
def shapes (e : Bool) (ts : List Tree) : List Shape := (ts.map (shape e)).eraseDups

/-- The first tree of a shape that is kept. -/
def representative? (e : Bool) (ts : List Tree) (s : Shape) : Option Tree :=
  ts.find? fun t => t.isKept e && t.shape e == s

/-- The entry of a shape: the literal of its first tree that is kept, and the places of the shapes
    of its branches. -/
def entry (e : Bool) (ts : List Tree) : Shape → Entry
  | .terminal value => .terminal value
  | .test low high =>
    .test ((representative? e ts (.test low high)).bind name?) ((shapes e ts).idxOf low)
      ((shapes e ts).idxOf high)

def entries (e : Bool) (ts : List Tree) : List Entry := (shapes e ts).map (entry e ts)

theorem mem_shapes_iff {e : Bool} {ts : List Tree} {s : Shape} :
    s ∈ shapes e ts ↔ ∃ t ∈ ts, t.shape e = s := by
  rw [shapes, List.mem_eraseDups, List.mem_map]

theorem shape_mem_shapes {e : Bool} {ts : List Tree} {t : Tree} (h : t ∈ ts) :
    t.shape e ∈ shapes e ts := mem_shapes_iff.2 ⟨t, h, rfl⟩

theorem erased_mem_shapes {ts : List Tree} {t : Tree} (h : t ∈ ts) :
    t.erased ∈ shapes false ts := by
  rw [← shape_false]
  exact shape_mem_shapes h

theorem nodup_shapes (e : Bool) (ts : List Tree) : (shapes e ts).Nodup := nodup_eraseDups _

/-- Only the first occurrences of trees matter. -/
theorem entries_congr {ts us : List Tree} (h : ts.eraseDups = us.eraseDups) (e : Bool) :
    shapes e ts = shapes e us ∧ entries e ts = entries e us := by
  have hshapes : shapes e ts = shapes e us := map_congr_eraseDups h (shape e)
  have hentry : entry e ts = entry e us := by
    funext s
    cases s with
    | terminal value => rfl
    | test low high => rw [entry, entry, hshapes, representative?, representative?,
        find?_congr_eraseDups h]
  exact ⟨hshapes, by rw [entries, entries, hshapes, hentry]⟩

/-! ## Closed lists -/

theorem Closed.exists_representative {ts : List Tree} (h : Closed ts) {e : Bool} {s : Shape}
    (hs : s ∈ shapes e ts) : ∃ t ∈ ts, representative? e ts s = some t ∧ t.isKept e = true ∧
      t.shape e = s := by
  obtain ⟨r, hr, rfl⟩ := mem_shapes_iff.1 hs
  obtain ⟨u, hu, hukept, hushape⟩ := exists_isKept e r
  have hfound : (representative? e ts (r.shape e)).isSome = true := by
    rw [representative?, List.find?_isSome]
    exact ⟨u, h r hr u hu, by simp [hukept, hushape]⟩
  obtain ⟨t, ht⟩ := Option.isSome_iff_exists.1 hfound
  have hprop := List.find?_some ht
  rw [Bool.and_eq_true, beq_iff_eq] at hprop
  exact ⟨t, List.mem_of_find?_eq_some ht, ht, hprop.1, hprop.2⟩

theorem Closed.exists_node {ts : List Tree} (h : Closed ts) {e : Bool} {p q : Shape}
    (hs : .test p q ∈ shapes e ts) :
    ∃ name low high, representative? e ts (.test p q) = some (node name low high) ∧
      low ∈ ts ∧ high ∈ ts ∧ low.shape e = p ∧ high.shape e = q := by
  obtain ⟨t, ht, hrep, hkept, hshape⟩ := h.exists_representative hs
  cases t with
  | leaf value => simp at hshape
  | node name low high =>
      rw [shape_of_isKept hkept, Shape.test.injEq] at hshape
      obtain ⟨hlow, hhigh⟩ := h.branches ht
      exact ⟨name, low, high, hrep, hlow, hhigh, hshape.1, hshape.2⟩

theorem Closed.branch_mem_shapes {ts : List Tree} (h : Closed ts) {e : Bool} {p q : Shape}
    (hs : .test p q ∈ shapes e ts) : p ∈ shapes e ts ∧ q ∈ shapes e ts := by
  obtain ⟨name, low, high, -, hlow, hhigh, rfl, rfl⟩ := h.exists_node hs
  exact ⟨shape_mem_shapes hlow, shape_mem_shapes hhigh⟩

theorem shapes_append (e : Bool) (ts us : List Tree) :
    shapes e (ts ++ us) = (ts.map (shape e) ++ us.map (shape e)).eraseDups := by
  rw [shapes, List.map_append]

theorem representative?_append (e : Bool) (ts us : List Tree) (s : Shape) :
    representative? e (ts ++ us) s = (representative? e ts s).or (representative? e us s) :=
  List.find?_append

theorem idxOf_shapes_append {e : Bool} {ts : List Tree} {s : Shape} (hs : s ∈ shapes e ts)
    (us : List Tree) : (shapes e (ts ++ us)).idxOf s = (shapes e ts).idxOf s := by
  rw [shapes, List.mem_eraseDups] at hs
  rw [shapes_append]
  exact idxOf_eraseDups_append hs _

/-- The entry of a listed shape does not change when trees are added. -/
theorem Closed.entry_append {ts : List Tree} (h : Closed ts) {e : Bool} {s : Shape}
    (hs : s ∈ shapes e ts) (us : List Tree) : entry e (ts ++ us) s = entry e ts s := by
  cases s with
  | terminal value => rfl
  | test p q =>
      obtain ⟨name, low, high, hrep, -⟩ := h.exists_node hs
      obtain ⟨hp, hq⟩ := h.branch_mem_shapes hs
      have hrep' : representative? e (ts ++ us) (.test p q) = some (node name low high) := by
        rw [representative?_append, hrep]
        rfl
      rw [entry, entry, hrep, hrep', idxOf_shapes_append hp, idxOf_shapes_append hq]

/-! ## One more tree -/

/-- The entry of a tree among shapes that contain those of its branches. -/
def entryAmong (e : Bool) (ss : List Shape) : Tree → Entry
  | leaf value => .terminal value
  | node name low high => .test name (ss.idxOf (low.shape e)) (ss.idxOf (high.shape e))

theorem entries_concat_of_mem {ts : List Tree} (h : Closed ts) {e : Bool} {t : Tree}
    (ht : t.shape e ∈ shapes e ts) :
    shapes e (ts ++ [t]) = shapes e ts ∧ entries e (ts ++ [t]) = entries e ts := by
  have hshapes : shapes e (ts ++ [t]) = shapes e ts := by
    rw [shapes_append]
    rw [shapes, List.mem_eraseDups] at ht
    exact eraseDups_concat_of_mem ht
  refine ⟨hshapes, ?_⟩
  rw [entries, hshapes]
  exact List.map_congr_left fun s hs => h.entry_append hs [t]

theorem entries_concat_of_not_mem {ts : List Tree} (h : Closed ts) {e : Bool} {t : Tree}
    (hbranches : BranchesIn ts t) (ht : t.shape e ∉ shapes e ts) :
    shapes e (ts ++ [t]) = shapes e ts ++ [t.shape e] ∧
      entries e (ts ++ [t]) = entries e ts ++ [entryAmong e (shapes e ts) t] := by
  have hshapes : shapes e (ts ++ [t]) = shapes e ts ++ [t.shape e] := by
    rw [shapes_append]
    rw [shapes, List.mem_eraseDups] at ht
    exact eraseDups_concat_of_not_mem ht
  have hentry : entry e (ts ++ [t]) (t.shape e) = entryAmong e (shapes e ts) t := by
    cases t with
    | leaf value => rfl
    | node name low high =>
        have hlow := shape_mem_shapes (e := e) hbranches.1
        have hhigh := shape_mem_shapes (e := e) hbranches.2
        have hkept : (node name low high).isKept e = true := by
          by_contra hnot
          rw [Bool.not_eq_true] at hnot
          rw [shape_of_not_isKept hnot] at ht
          exact ht hlow
        have hnone : representative? e ts ((node name low high).shape e) = none := by
          rw [representative?, List.find?_eq_none]
          intro s hs hfound
          rw [Bool.and_eq_true, beq_iff_eq] at hfound
          exact ht (hfound.2 ▸ shape_mem_shapes hs)
        have hrep : representative? e (ts ++ [node name low high]) ((node name low high).shape e)
            = some (node name low high) := by
          rw [representative?] at hnone
          rw [representative?, List.find?_append, hnone]
          simp [hkept]
        rw [shape_of_isKept hkept] at hrep ⊢
        rw [entry, hrep, idxOf_shapes_append hlow, idxOf_shapes_append hhigh]
        rfl
  refine ⟨hshapes, ?_⟩
  rw [entries, hshapes, List.map_append, List.map_singleton, hentry]
  congr 1
  exact List.map_congr_left fun s hs => h.entry_append hs [t]

end Tree

end PropDiagram

import PropDiagram.Proofs.Drawing

set_option autoImplicit false

/-! # Numbers of new nodes

A new node takes the number of nodes as its own number. In a drawing that was empty at first no other
node has that number, but a drawing may also start from given nodes with any numbers. Then adding
nodes gives new ones as long as the count does not meet a given number. Where it does, the given node
is overwritten; the count stays, so every further addition overwrites the same node
(`Drawing.exists_freshUpTo`). Which additions are fresh can therefore be told in advance
(`Drawing.addsFresh_iff`). -/

namespace PropDiagram

namespace Drawing

variable {d : Drawing}

/-! ## Adding nodes -/

structure NewNode where
  label : Label
  color : Option String
deriving DecidableEq, Repr

/-- Adds nodes one after the other, and lists the numbers that they take. -/
def addNodes (d : Drawing) : List NewNode → Drawing × List Int
  | [] => (d, [])
  | s :: ss =>
    let (d, u) := d.addNode s.label s.color
    let (d, us) := d.addNodes ss
    (d, u :: us)

@[simp] theorem addNodes_nil (d : Drawing) : d.addNodes [] = (d, []) := rfl

@[simp] theorem addNodes_cons (d : Drawing) (s : NewNode) (ss : List NewNode) :
    d.addNodes (s :: ss) = (((d.addNode s.label s.color).1.addNodes ss).1,
      (d.size : Int) :: ((d.addNode s.label s.color).1.addNodes ss).2) := rfl

/-- The numbers of so many nodes that are added after those of the drawing. -/
def upcoming (d : Drawing) (count : Nat) : List Int :=
  (List.range' d.size count).map fun u : Nat => (u : Int)

theorem mem_upcoming_iff {count : Nat} {u : Int} :
    u ∈ d.upcoming count ↔ ∃ i, i < count ∧ u = (d.size + i : Nat) := by
  rw [upcoming, List.mem_map]
  constructor
  · rintro ⟨v, hv, rfl⟩
    rw [List.mem_range'_1] at hv
    exact ⟨v - d.size, by omega, by omega⟩
  · rintro ⟨i, hi, rfl⟩
    exact ⟨d.size + i, List.mem_range'_1.2 (by omega), rfl⟩

theorem upcoming_succ {d' : Drawing} (h : d'.size = d.size + 1) (count : Nat) :
    d.upcoming (count + 1) = (d.size : Int) :: d'.upcoming count := by
  rw [upcoming, upcoming, h, List.range'_succ, List.map_cons]

section Sizes

variable (label : Label) (color : Option String)

theorem size_eq (d : Drawing) : d.size = d.labels.keys.length := (OrderedMap.length_keys _).symm

theorem size_addNode_of_mem (h : (d.size : Int) ∈ d.labels.keys) :
    (d.addNode label color).1.size = d.size := by
  rw [size_eq, keys_addNode, if_pos h, ← size_eq]

theorem size_addNode_of_not_mem (h : (d.size : Int) ∉ d.labels.keys) :
    (d.addNode label color).1.size = d.size + 1 := by
  rw [size_eq, keys_addNode, if_neg h, List.length_append, ← size_eq, List.length_singleton]

end Sizes

/-! ## What additions do -/

/-- If the next number is taken, all additions overwrite the node that has it. -/
theorem addNodes_of_taken (h : (d.size : Int) ∈ d.labels.keys) (ss : List NewNode) :
    (d.addNodes ss).2 = List.replicate ss.length (d.size : Int) ∧
    (d.addNodes ss).1.labels.keys = d.labels.keys ∧
    (d.addNodes ss).1.labels.get? d.size
      = (ss.getLast?.map NewNode.label).or (d.labels.get? d.size) ∧
    ∀ w, w ≠ (d.size : Int) → (d.addNodes ss).1.labels.get? w = d.labels.get? w ∧
      (d.addNodes ss).1.colors.get? w = d.colors.get? w := by
  induction ss generalizing d with
  | nil => simp
  | cons s ss ih =>
      have hsize := size_addNode_of_mem s.label s.color h
      have hkeys : (d.addNode s.label s.color).1.labels.keys = d.labels.keys := by
        rw [keys_addNode, if_pos h]
      obtain ⟨hnumbers, hkeys', hlabel, hothers⟩ := ih (hkeys ▸ hsize ▸ h)
      rw [hsize] at hnumbers hlabel hothers
      rw [addNodes_cons]
      refine ⟨?_, hkeys'.trans hkeys, ?_, fun w hw => ?_⟩
      · rw [hnumbers, List.length_cons, List.replicate_succ]
      · rw [hlabel, get?_labels_addNode, if_pos rfl]
        rw [List.getLast?_cons]
        cases ss.getLast? <;> rfl
      · obtain ⟨hlabels, hcolors⟩ := hothers w hw
        rw [hlabels, hcolors, get?_labels_addNode, get?_colors_addNode, if_neg hw.symm,
          if_neg fun hand => hw hand.1.symm]
        exact ⟨rfl, rfl⟩

/-- Of the additions, the first `count` give new nodes, and all others overwrite the node that has the
    number that comes next. -/
structure FreshUpTo (d : Drawing) (ss : List NewNode) (count : Nat) : Prop where
  le_length : count ≤ ss.length
  free : ∀ i, i < count → ((d.size + i : Nat) : Int) ∉ d.labels.keys
  taken : count < ss.length → ((d.size + count : Nat) : Int) ∈ d.labels.keys
  /-- The numbers that are taken, one after the other. -/
  numbers : (d.addNodes ss).2
    = d.upcoming count ++ List.replicate (ss.length - count) ((d.size + count : Nat) : Int)
  keys : (d.addNodes ss).1.labels.keys = d.labels.keys ++ d.upcoming count
  /-- No other node changes. -/
  keeps : ∀ w ∈ d.labels.keys, (count < ss.length → w ≠ (d.size + count : Nat)) →
    (d.addNodes ss).1.labels.get? w = d.labels.get? w ∧
    (d.addNodes ss).1.colors.get? w = d.colors.get? w
  /-- The node that is overwritten has the last label. -/
  overwritten : count < ss.length →
    (d.addNodes ss).1.labels.get? (d.size + count : Nat) = ss.getLast?.map NewNode.label

theorem FreshUpTo.of_taken {s : NewNode} {ss : List NewNode} (h : (d.size : Int) ∈ d.labels.keys) :
    FreshUpTo d (s :: ss) 0 := by
  obtain ⟨hnumbers, hkeys, hlabel, hothers⟩ := addNodes_of_taken h (s :: ss)
  exact {
    le_length := Nat.zero_le _
    free := by simp
    taken := fun _ => h
    numbers := by simpa [upcoming] using hnumbers
    keys := by simpa [upcoming] using hkeys
    keeps := fun w _ hw => hothers w (hw (Nat.succ_pos _))
    overwritten := fun _ => by
      rw [Nat.add_zero, hlabel, List.getLast?_cons]
      rfl }

/-- If the next number is free, the additions after the first one go on from there. -/
theorem FreshUpTo.of_free {s : NewNode} {ss : List NewNode} {count : Nat}
    (hfree : (d.size : Int) ∉ d.labels.keys)
    (h : FreshUpTo (d.addNode s.label s.color).1 ss count) : FreshUpTo d (s :: ss) (count + 1) := by
  have hsize := size_addNode_of_not_mem s.label s.color hfree
  have hkeys : (d.addNode s.label s.color).1.labels.keys = d.labels.keys ++ [(d.size : Int)] := by
    rw [keys_addNode, if_neg hfree]
  have hnext (i : Nat) : (d.addNode s.label s.color).1.size + i = d.size + (i + 1) := by omega
  constructor
  case le_length => exact Nat.succ_le_succ h.le_length
  case free =>
    intro i hi
    cases i with
    | zero => exact hfree
    | succ i =>
        have hmem := h.free i (Nat.lt_of_succ_lt_succ hi)
        rw [hkeys, hnext] at hmem
        exact fun hnot => hmem (List.mem_append_left _ hnot)
  case taken =>
    intro hlt
    have hmem := h.taken (Nat.lt_of_succ_lt_succ hlt)
    rw [hkeys, hnext, List.mem_append, List.mem_singleton] at hmem
    exact hmem.resolve_right (by omega)
  case numbers =>
    rw [addNodes_cons, h.numbers, upcoming_succ hsize, hnext, List.length_cons,
      Nat.add_sub_add_right, List.cons_append]
  case keys => rw [addNodes_cons, h.keys, hkeys, upcoming_succ hsize, List.append_assoc,
    List.singleton_append]
  case keeps =>
    intro w hw hne
    have hw' : (d.size : Int) ≠ w := by
      rintro rfl
      exact hfree hw
    obtain ⟨hlabel, hcolor⟩ := h.keeps w (mem_keys_addNode d _ _ hw) fun hlt =>
      hnext count ▸ hne (Nat.succ_lt_succ hlt)
    rw [addNodes_cons, hlabel, hcolor, get?_labels_addNode, get?_colors_addNode, if_neg hw',
      if_neg fun hand => hw' hand.1]
    exact ⟨rfl, rfl⟩
  case overwritten =>
    intro hlt
    have hlabel := h.overwritten (Nat.lt_of_succ_lt_succ hlt)
    rw [hnext] at hlabel
    rw [addNodes_cons, hlabel]
    cases ss with
    | nil => simp at hlt
    | cons s' ss => rw [List.getLast?_cons_cons]

/-- Additions are fresh up to the first number that is in use. -/
theorem exists_freshUpTo (d : Drawing) (ss : List NewNode) : ∃ count, FreshUpTo d ss count := by
  induction ss generalizing d with
  | nil => exact ⟨0, by constructor <;> simp [upcoming]⟩
  | cons s ss ih =>
      by_cases h : (d.size : Int) ∈ d.labels.keys
      · exact ⟨0, .of_taken h⟩
      · obtain ⟨count, hcount⟩ := ih (d.addNode s.label s.color).1
        exact ⟨count + 1, hcount.of_free h⟩

namespace FreshUpTo

variable {ss : List NewNode} {count : Nat}

/-- How many additions are fresh is decided by the numbers in use. -/
theorem eq_length_iff (h : FreshUpTo d ss count) :
    count = ss.length ↔ ∀ i, i < ss.length → ((d.size + i : Nat) : Int) ∉ d.labels.keys := by
  constructor
  · rintro rfl
    exact h.free
  · intro hfree
    by_contra hne
    have hlt : count < ss.length := Nat.lt_of_le_of_ne h.le_length hne
    exact hfree count hlt (h.taken hlt)

theorem size (h : FreshUpTo d ss count) : (d.addNodes ss).1.size = d.size + count := by
  rw [size_eq, h.keys, List.length_append, ← size_eq, upcoming, List.length_map, List.length_range']

/-- After additions that are all fresh, the next one is fresh if its number is not among those that
    were given. -/
theorem next_mem_iff (h : FreshUpTo d ss ss.length) :
    ((d.addNodes ss).1.size : Int) ∈ (d.addNodes ss).1.labels.keys
      ↔ ((d.size + ss.length : Nat) : Int) ∈ d.labels.keys := by
  rw [h.keys, h.size, List.mem_append, or_iff_left]
  rw [mem_upcoming_iff]
  rintro ⟨i, hi, heq⟩
  omega

end FreshUpTo

/-! ## When additions overwrite -/

/-- No addition overwrites a node: each takes a number that is not in use, and there is one more node
    for each, and those that were there have their labels and colors. -/
structure AddsFresh (d : Drawing) (ss : List NewNode) : Prop where
  fresh : ∀ before s after, ss = before ++ s :: after →
    ((d.addNodes before).1.addNode s.label s.color).2 ∉ (d.addNodes before).1.labels.keys
  grows : (d.addNodes ss).1.size = d.size + ss.length
  keeps : ∀ w ∈ d.labels.keys, (d.addNodes ss).1.labels.get? w = d.labels.get? w ∧
    (d.addNodes ss).1.colors.get? w = d.colors.get? w

theorem addsFresh_iff (d : Drawing) (ss : List NewNode) :
    AddsFresh d ss ↔ ∀ i, i < ss.length → ((d.size + i : Nat) : Int) ∉ d.labels.keys := by
  obtain ⟨count, h⟩ := exists_freshUpTo d ss
  constructor
  · intro hfresh
    have hsize := h.size
    rw [hfresh.grows] at hsize
    exact h.eq_length_iff.1 (by omega)
  · intro hfree
    obtain rfl := h.eq_length_iff.2 hfree
    refine ⟨fun before s after hsplit => ?_, h.size, fun w hw => h.keeps w hw (by simp)⟩
    have hlength : ss.length = before.length + (after.length + 1) := by simp [hsplit]
    obtain ⟨count', h'⟩ := exists_freshUpTo d before
    obtain rfl := h'.eq_length_iff.2 fun i hi => hfree i (by omega)
    rw [number_addNode, h'.next_mem_iff]
    exact hfree _ (by omega)

/-- No number of additions overwrites a node if and only if all numbers in use are less than how many
    there are. -/
theorem forall_addsFresh_iff (d : Drawing) :
    (∀ ss, AddsFresh d ss) ↔ ∀ u ∈ d.labels.keys, u < (d.size : Int) := by
  constructor
  · intro hfresh u hu
    by_contra hle
    obtain ⟨i, rfl⟩ : ∃ i : Nat, u = (d.size + i : Nat) := ⟨(u - d.size).toNat, by omega⟩
    have hfree := (addsFresh_iff d (List.replicate (i + 1) ⟨.none, none⟩)).1 (hfresh _) i
    exact hfree (by simp) hu
  · intro hless ss
    rw [addsFresh_iff]
    intro i _ hu
    have := hless _ hu
    omega

/-- **Adding nodes overwrites from the first number in use on.** Take any drawing, also one that was
    given with its nodes, and any nodes to be added one after the other.

    * Each addition takes a number that is not in use, adds one to the number of nodes and keeps the
      labels and colors of the others (`Drawing.AddsFresh`), if and only if none of the numbers that
      come next, from the count of the nodes on, is in use.
    * In any case this holds of the first additions, as many as find such a number. All others take
      one and the same number, that of a node that was given, and replace its label
      (`Drawing.FreshUpTo`).
    * So additions never overwrite, however many there are, if and only if all numbers in use are less
      than how many there are. -/
theorem addNodes_overwrites (d : Drawing) (ss : List NewNode) :
    (AddsFresh d ss ↔ ∀ i, i < ss.length → ((d.size + i : Nat) : Int) ∉ d.labels.keys) ∧
    (∃ count, FreshUpTo d ss count) ∧
    ((∀ ss, AddsFresh d ss) ↔ ∀ u ∈ d.labels.keys, u < (d.size : Int)) :=
  ⟨addsFresh_iff d ss, exists_freshUpTo d ss, forall_addsFresh_iff d⟩

/-- The number 3 is met by the third of four additions, and again by the fourth. -/
theorem addNodes_overwrites_third :
    let d : Drawing := { empty with labels := .ofList [(3, .text "A")] }
    let ss : List NewNode := ["B", "C", "D", "E"].map fun s => ⟨.text s, none⟩
    ¬ AddsFresh d ss ∧ AddsFresh d (ss.take 2) ∧ (d.addNodes ss).2 = [1, 2, 3, 3] ∧
      (d.addNodes ss).1.labels.get? 3 = some (.text "E") := by
  intro d ss
  refine ⟨fun h => ?_, ?_, by decide +kernel, by decide +kernel⟩
  · exact (addNodes_overwrites d ss).1.1 h 2 (by decide) (by decide +kernel)
  · refine (addNodes_overwrites d (ss.take 2)).1.2 fun i hi => ?_
    have hcases : i = 0 ∨ i = 1 := by
      have : i < 2 := hi
      omega
    rcases hcases with rfl | rfl <;> decide +kernel

end Drawing

end PropDiagram

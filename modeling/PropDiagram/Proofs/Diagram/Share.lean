import Mathlib.Algebra.Order.Field.Rat
import Mathlib.Tactic.NormNum
import Mathlib.Tactic.Ring
import PropDiagram.Diagram.Count
import PropDiagram.Proofs.Diagram.Unfolding
import PropDiagram.Proofs.Formula.Evaluation

set_option autoImplicit false

/-! # Counting by shares

Counting goes from the terminals up and weighs every branch by the levels that it skips. In exact
numbers the weights cancel: the count of a node, scaled by its level, is the share of the paths
below it that lead to true, where each of the two branches of a test has half of the paths
(`Reduced.countWith_of_leveled`). The share belongs to the shape. Neither the literals of the tests
nor the levels of the branches matter to it, not even a branch that leads back to an earlier level,
and elimination does not change it (`Tree.share_shape`). -/

namespace PropDiagram

/-! ## Exact numbers -/

namespace Arithmetic

open Powers

/-- Whether computing with the numbers of `A` is exact: where `value` relates a number to the
    rational number that it stands for, sums, products and the powers of two with an allowed exponent
    stand for those of the rational numbers. -/
structure Exact {α : Type} (A : Arithmetic α) (value : α → ℚ → Prop) (allowed : Int → Prop) :
    Prop where
  ofBool : ∀ b : Bool, value (A.ofBool b) (if b then 1 else 0)
  natural : ∀ n : Nat, allowed n
  powTwo : ∀ k, allowed k → value (A.powTwo k) (2 ^ k)
  add : ∀ a b p q, value a p → value b q → ∃ c, A.add a b = .ok c ∧ value c (p + q)
  mul : ∀ a b p q, value a p → value b q → ∃ c, A.mul a b = .ok c ∧ value c (p * q)

/-- Computing with rational numbers, where a negative power of two is a fraction. -/
def rational : Arithmetic ℚ where
  ofBool b := if b then 1 else 0
  powTwo k := 2 ^ k
  add a b := .ok (a + b)
  mul a b := .ok (a * b)

theorem exact_rational : rational.Exact (fun a q => a = q) fun _ => True where
  ofBool _ := rfl
  natural _ := trivial
  powTwo _ _ := rfl
  add := by
    rintro a b p q rfl rfl
    exact ⟨a + b, rfl, rfl⟩
  mul := by
    rintro a b p q rfl rfl
    exact ⟨a * b, rfl, rfl⟩

/-- Quantities are exact as long as no exponent is negative. -/
theorem exact_quantity :
    Quantity.arithmetic.Exact (fun a q => ∃ n : Nat, a = .exact n ∧ (n : ℚ) = q) fun k => 0 ≤ k where
  ofBool b := by
    refine ⟨b.toNat, rfl, ?_⟩
    cases b <;> simp
  natural := Int.natCast_nonneg
  powTwo := by
    intro k hk
    refine ⟨2 ^ k.toNat, if_pos hk, ?_⟩
    have hpow : ((2 ^ k.toNat : Nat) : ℚ) = 2 ^ k.toNat := Nat.cast_pow 2 _
    rw [hpow, ← zpow_natCast, Int.toNat_of_nonneg hk]
  add := by
    rintro _ _ _ _ ⟨m, rfl, rfl⟩ ⟨n, rfl, rfl⟩
    exact ⟨.exact (m + n), rfl, m + n, rfl, Nat.cast_add m n⟩
  mul := by
    rintro _ _ _ _ ⟨m, rfl, rfl⟩ ⟨n, rfl, rfl⟩
    exact ⟨.exact (m * n), rfl, m * n, rfl, Nat.cast_mul m n⟩

end Arithmetic

/-! ## Shares -/

/-- The share of the paths that lead to true, if the two branches of a test have half of the paths
    each. -/
def Shape.share : Shape → ℚ
  | .terminal value => if value = some true then 1 else 0
  | .test low high => (low.share + high.share) / 2

/-- Elimination does not change the share: equal branches have equal shares. -/
theorem Tree.share_shape (e : Bool) (t : Tree) : (t.shape e).share = t.erased.share := by
  induction t with
  | leaf value => rfl
  | node name low high ihl ihh =>
      cases hkept : (node name low high).isKept e with
      | true => rw [shape_of_isKept hkept, erased, Shape.share, Shape.share, ihl, ihh]
      | false =>
          have hsame := hkept
          rw [isKept, Bool.not_eq_false', Bool.and_eq_true, beq_iff_eq] at hsame
          have hshare : low.erased.share = high.erased.share := by rw [← ihl, ← ihh, hsame.2]
          rw [shape_of_not_isKept hkept, ihl, erased, Shape.share, ← hshare]
          ring

namespace Reduced

/-! ## Counting a table -/

section Counting

variable {α : Type} {A : Arithmetic α} {value : α → ℚ → Prop} {allowed : Int → Prop} {t : Table}
  {order : List String} {levels : Nat → Nat}

/-- Whether the table can be counted over these names: its terminals have truth values, its nodes
    have these levels, and the exponents that its branches call for are allowed. -/
structure Leveled (allowed : Int → Prop) (t : Table) (order : List String) (levels : Nat → Nat) :
    Prop where
  terminal : ∀ (u : Nat) (v : Option Bool), t.entries[u]? = some (.terminal v) → v.isSome = true
  level : ∀ (u : Nat) (e : Entry), t.entries[u]? = some e → level order e = .ok (levels u)
  branches : ∀ (u : Nat) (name : Option String) (low high : Nat),
    t.entries[u]? = some (.test name low high) →
      allowed ((levels low : Int) - levels u - 1) ∧ allowed ((levels high : Int) - levels u - 1)

/-- The exact count of a node: the assignments to the names from its level on that have its share. -/
def exactCount (t : Table) (order : List String) (levels : Nat → Nat) (u : Nat) : ℚ :=
  2 ^ ((order.eraseDups.length : Int) - levels u) * (t.unfold u).erased.share

/-- Whether these are the counts of the first nodes of the table. -/
def Counted (value : α → ℚ → Prop) (t : Table) (order : List String) (levels : Nat → Nat)
    (counts : Array α) : Prop :=
  ∀ u, u < counts.size → ∃ a, counts[u]? = some a ∧ value a (exactCount t order levels u)

theorem exactCount_of_test {u : Nat} {name : Option String} {low high : Nat}
    (h : t.entries[u]? = some (.test name low high)) :
    exactCount t order levels u
      = exactCount t order levels low * 2 ^ ((levels low : Int) - levels u - 1)
        + exactCount t order levels high * 2 ^ ((levels high : Int) - levels u - 1) := by
  have htwo : (2 : ℚ) ≠ 0 := by norm_num
  have hunfold := t.unfold_eq u
  rw [h] at hunfold
  have hbranch : ∀ v, exactCount t order levels v * 2 ^ ((levels v : Int) - levels u - 1)
      = 2 ^ ((order.eraseDups.length : Int) - levels u - 1) * (t.unfold v).erased.share := by
    intro v
    have hexponent : (order.eraseDups.length : Int) - levels u - 1
        = ((order.eraseDups.length : Int) - levels v) + ((levels v : Int) - levels u - 1) := by ring
    rw [exactCount, hexponent, zpow_add₀ htwo]
    ring
  rw [hbranch, hbranch, exactCount, hunfold, Tree.erased, Shape.share, zpow_sub_one₀ htwo]
  ring

theorem Leveled.branchCount (ht : Leveled allowed t order levels) (hA : A.Exact value allowed)
    {counts : Array α} (hcounts : Counted value t order levels counts) {u v : Nat}
    (hv : v < counts.size) (hsize : counts.size ≤ t.size)
    (hallowed : allowed ((levels v : Int) - levels u - 1)) :
    ∃ c, branchCount A t order counts (levels u) v = .ok c ∧
      value c (exactCount t order levels v * 2 ^ ((levels v : Int) - levels u - 1)) := by
  obtain ⟨a, ha, hvalue⟩ := hcounts v hv
  have hlt : v < t.entries.size := Nat.lt_of_lt_of_le hv hsize
  have hentry := Array.getElem?_eq_getElem hlt
  rw [Reduced.branchCount, ha, hentry]
  dsimp only
  rw [ht.level v _ hentry]
  exact hA.mul a _ _ _ hvalue (hA.powTwo _ hallowed)

theorem Leveled.entryCount (ht : Leveled allowed t order levels) (hA : A.Exact value allowed)
    {counts : Array α} (hcounts : Counted value t order levels counts) {e : Entry}
    (he : t.entries[counts.size]? = some e) :
    ∃ c, entryCount A t order counts e = .ok c ∧
      value c (exactCount t order levels counts.size) := by
  cases e with
  | terminal v =>
      obtain ⟨b, rfl⟩ := Option.isSome_iff_exists.1 (ht.terminal _ v he)
      refine ⟨A.ofBool b, rfl, ?_⟩
      have hlevel : order.eraseDups.length = levels counts.size :=
        Except.ok.inj (ht.level _ _ he)
      have hunfold := t.unfold_eq counts.size
      rw [he] at hunfold
      rw [exactCount, ← hlevel, sub_self, zpow_zero, one_mul, hunfold, Tree.erased, Shape.share]
      simpa using hA.ofBool b
  | test name low high =>
      obtain ⟨hlow, hhigh⟩ := t.ordered _ _ he
      obtain ⟨hallowedlow, hallowedhigh⟩ := ht.branches _ name low high he
      have hsize : counts.size ≤ t.size := Nat.le_of_lt (Array.getElem?_eq_some_iff.1 he).1
      obtain ⟨a, ha, hvaluea⟩ := ht.branchCount hA hcounts hlow hsize hallowedlow
      obtain ⟨b, hb, hvalueb⟩ := ht.branchCount hA hcounts hhigh hsize hallowedhigh
      obtain ⟨c, hc, hvaluec⟩ := hA.add a b _ _ hvaluea hvalueb
      refine ⟨c, ?_, exactCount_of_test he ▸ hvaluec⟩
      rw [Reduced.entryCount, ht.level _ _ he, except_ok_bind, ha, except_ok_bind, hb]
      exact hc

/-- The counts of the first nodes, one after the other. -/
theorem Leveled.exists_counted (ht : Leveled allowed t order levels) (hA : A.Exact value allowed)
    {entries : List Entry} (hentries : entries <+: t.entries.toList) :
    ∃ counts : Array α, counts.size = entries.length ∧ Counted value t order levels counts ∧
      entries.foldlM
        (fun counts e => do
          let n ← Reduced.entryCount A t order counts e
          pure (counts.push n))
        #[] = Except.ok counts := by
  induction entries using List.reverseRecOn with
  | nil => exact ⟨#[], rfl, fun u hu => absurd hu (Nat.not_lt_zero u), rfl⟩
  | append_singleton entries e ih =>
      obtain ⟨counts, hsize, hcounts, hfold⟩ := ih ((List.prefix_append _ _).trans hentries)
      have he : t.entries[counts.size]? = some e := by
        obtain ⟨rest, hrest⟩ := hentries
        rw [← Array.getElem?_toList, ← hrest, hsize]
        simp
      obtain ⟨c, hc, hvalue⟩ := ht.entryCount hA hcounts he
      refine ⟨counts.push c, by simp [hsize], ?_, ?_⟩
      · intro u hu
        rw [Array.size_push] at hu
        rw [Array.getElem?_push]
        split
        · next hlast => exact ⟨c, rfl, hlast ▸ hvalue⟩
        · next hnot => exact hcounts u (by omega)
      · rw [List.foldlM_append, hfold, except_ok_bind, List.foldlM_cons, hc, except_ok_bind]
        rfl

/-- The count of a diagram is the share of its root among the assignments to the names. -/
theorem countWith_of_leveled {r : Reduced} (ht : Leveled allowed r.table order levels)
    (hA : A.Exact value allowed) {p : Fin r.size} (hp : r.place? r.root = some p) :
    ∃ c, r.countWith A order = .ok c ∧
      value c (2 ^ (order.eraseDups.length : Int) * (r.table.unfold p).erased.share) := by
  obtain ⟨counts, hsize, hcounts, hfold⟩ := ht.exists_counted hA (List.prefix_refl _)
  have hlt : p.val < r.table.entries.size := p.isLt
  obtain ⟨a, ha, hvalue⟩ := hcounts p (by rw [hsize, Array.length_toList]; exact hlt)
  have hlevel : level order (r.table.get p) = .ok (levels p) :=
    ht.level p _ (Array.getElem?_eq_getElem hlt)
  obtain ⟨c, hc, hvaluec⟩ := hA.mul a _ _ _ hvalue (hA.powTwo _ (hA.natural (levels p)))
  refine ⟨c, ?_, ?_⟩
  · rw [countWith, hfold, except_ok_bind, hp]
    dsimp only
    rw [ha]
    dsimp only
    rw [hlevel]
    exact hc
  · have hexponent : (order.eraseDups.length : Int)
        = ((order.eraseDups.length : Int) - levels p) + levels p := by ring
    rw [hexponent, zpow_add₀ (by norm_num : (2 : ℚ) ≠ 0)]
    rw [exactCount] at hvaluec
    convert hvaluec using 1
    ring

end Counting

end Reduced

end PropDiagram

import PropDiagram.Number.Binary64

set_option autoImplicit false

/-! # Loosely typed values

Truth values, indices and assignments may be given by values of any type. This module says what such
a value counts for: whether it counts as true, which number it is if it is one, and which truth
value it equals. A number is either whole and exact or of the floating-point format, which has a
whole number of its own for every small whole number. -/

namespace PropDiagram

/-- A value of any of the usual types. -/
inductive Datum where
  | none
  | truth (value : Bool)
  | integer (value : Int)
  /-- A floating-point number, with its sign. -/
  | approximate (negative : Bool) (magnitude : Binary64)
  | text (value : String)
  | list (items : List Datum)
  | mapping (entries : List (String × Datum))
deriving Repr, Inhabited

namespace Datum

/-- Whether the value counts as true: everything does but `none`, false, zero and what is empty. -/
def isTrue : Datum → Bool
  | none => false
  | truth b => b
  | integer i => i != 0
  | approximate _ x => !x.isZero
  | text s => !s.isEmpty
  | list items => !items.isEmpty
  | mapping entries => !entries.isEmpty

def typeName : Datum → String
  | none => "NoneType"
  | truth _ => "bool"
  | integer _ => "int"
  | approximate _ _ => "float"
  | text _ => "str"
  | list _ => "list"
  | mapping _ => "dict"

/-- The integer that the value is. A truth value is one or zero; a floating-point number is no
    integer, even if it is whole. -/
def index? : Datum → Option Int
  | truth b => some (if b then 1 else 0)
  | integer i => some i
  | _ => Option.none

/-- The truth value that the value equals: as a number, true is one and false is zero. -/
def equalTruth? : Datum → Option Bool
  | truth b => some b
  | integer i => if i = 0 then some false else if i = 1 then some true else Option.none
  | approximate negative x =>
    if x.isZero then some false
    else if !negative && x == .one then some true
    else Option.none
  | _ => Option.none

/-- A value that equals true counts as true, and one that equals false as false. -/
theorem isTrue_of_equalTruth? {d : Datum} {b : Bool} (h : d.equalTruth? = some b) :
    d.isTrue = b := by
  cases d with
  | none => simp [equalTruth?] at h
  | truth c => simpa [equalTruth?, isTrue] using h
  | integer i =>
    simp only [equalTruth?] at h
    split at h
    · rename_i hi
      simp_all [isTrue]
    · split at h
      · simp_all [isTrue]
      · simp at h
  | approximate negative x =>
    simp only [equalTruth?] at h
    split at h
    · simp_all [isTrue]
    · split at h
      · simp_all [isTrue]
      · simp at h
  | text s => simp [equalTruth?] at h
  | list items => simp [equalTruth?] at h
  | mapping entries => simp [equalTruth?] at h

end Datum

end PropDiagram

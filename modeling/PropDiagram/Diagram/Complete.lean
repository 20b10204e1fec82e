set_option autoImplicit false

/-! # The size of complete decision trees

A complete decision tree tests every literal on every path. Its size is known before it is built, so
it can be told when it is too large to build. -/

namespace PropDiagram

/-- The number of nodes of a complete decision tree over this many literals. One literal more puts a
    test above two trees of the size before. -/
def completeSize : (literals : Nat) → Nat
  | 0 => 1
  | n + 1 => 2 * completeSize n + 1

example : (List.range 5).map completeSize = [1, 3, 7, 15, 31] := by decide

end PropDiagram

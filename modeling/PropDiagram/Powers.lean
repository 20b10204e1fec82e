set_option autoImplicit false

/-! # Powers of numbers

The algebra of the mathematical library brings a power of its own, which agrees with the one of the
core library but is found first. What runs has the latter. Modules that compute powers, or prove
something about such computations, open this namespace, so that all of them mean the same one. -/

namespace PropDiagram.Powers

scoped instance (priority := 2000) natPow : Pow Nat Nat := instPowNat

end PropDiagram.Powers

set_option autoImplicit false

/-! # Version -/

namespace PropDiagram

/-- The version of the library. -/
def version : String := "0.1.0"

end PropDiagram

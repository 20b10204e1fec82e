import PropDiagram.Connective
import PropDiagram.Diagram.Complete
import PropDiagram.Text.Quoted

set_option autoImplicit false

/-! # Faults

Everything that can go wrong, one constructor per cause, with what the message needs to name. The
wording is in `Fault.message` alone. `Fault.kind` sorts the causes into kinds, and `FaultKind.lineage`
orders the kinds from special to general, so that a caller may handle, say, every fault of reading
alike. -/

namespace PropDiagram

/-! ## Causes -/

/-- Why an operation gave no result. -/
inductive Fault where
  | emptyInput
  | endOfInput
  | trailingInput
  | openingExpected
  | closingExpected
  | operandExpected (found : Option String)
  | connectiveExpected (found : Option String)
  | nestedTooDeeply
  /-- The stack does not suffice to write a formula for a record. -/
  | recordTooDeep
  | unbound (name : Option String)
  | unknownConnective (word : String)
  | wrongArity (connective : Connective)
  | foreignLeaf
  | duplicateNames (order : List String)
  /-- There are more assignments than a length can tell. -/
  | countlessAssignments
  | assignmentsExhausted
  /-- A decision tree is complete although assignments are left. -/
  | assignmentsLeft
  | noSuchAssignment (index : Int)
  | assignmentNotFound
  | notAnIndex (typeName : String)
  | notASliceBound
  | zeroStep
  | literalLimit (count : Nat) (limit : Int)
  /-- A message would have to name a number with too many digits. -/
  | numberTooLong
  | nameNotInOrder (name : String)
  | nodeNotFound (node : Option Int)
  | notATerminal (node : Option Int)
  | successorNotFound (node : Option Int)
  | valueNotCountable
  | numberTooLarge
  | nodeNotDrawn (id : Int)
  /-- Under these values a diagram does not answer as its formula does. -/
  | disagreement (values : String) (expected : Bool) (result : Option Bool)
deriving DecidableEq, Repr

/-- The fault of more literals than the limit allows. The message names the limit and the size that
    the tree would have; if it cannot, because one of them is too long, then that is the fault. -/
def Fault.tooManyLiterals (count : Nat) (limit : Int) : Fault :=
  if Text.isWritable limit && Text.isWritable (completeSize count) then literalLimit count limit
  else numberTooLong

theorem Fault.tooManyLiterals_eq_or (count : Nat) (limit : Int) :
    tooManyLiterals count limit = literalLimit count limit ∨
      tooManyLiterals count limit = numberTooLong := by
  rw [tooManyLiterals]
  split
  · exact Or.inl rfl
  · exact Or.inr rfl

/-! ## Wording -/

/-- A token as it stands in a message: as it is, without escapes. -/
def Fault.tokenText : Option String → String
  | some s => s
  | none => "None"

/-- What the fault tells a reader. -/
def Fault.message : Fault → String
  | emptyInput => "No boolean expression provided."
  | endOfInput => "Unexpected end of input."
  | trailingInput =>
    "You have extra tokens at the end of your input " ++
      "(or you forgot to enclose the whole input in brackets)."
  | openingExpected => "Expected an opening bracket."
  | closingExpected => "Expected a closing bracket."
  | operandExpected found =>
    "Expected a literal or a formula, got '" ++ tokenText found ++ "'."
  | connectiveExpected found => "'" ++ tokenText found ++ "' is not a valid operator."
  | nestedTooDeeply => "The formula is nested too deeply."
  | recordTooDeep => "maximum recursion depth exceeded"
  | unbound name =>
    "The literal " ++ Text.quotedOption name ++ " has no truth value in the assignment."
  | unknownConnective word => Text.quoted word ++ " is not a valid operator."
  | wrongArity c =>
    "Incorrect number of arguments to " ++ c.keyword ++ ". " ++ c.keyword ++ " takes " ++
      c.arityText ++ "."
  | foreignLeaf => "unknown node type: 'terminal'"
  | duplicateNames order =>
    "duplicate literal names in: " ++ Text.list (order.map Text.quoted)
  | countlessAssignments => "cannot fit 'int' into an index-sized integer"
  | assignmentsExhausted => ""
  | assignmentsLeft => "unused assignments after building"
  | noSuchAssignment index => toString index
  | assignmentNotFound => ""
  | notAnIndex typeName => "'" ++ typeName ++ "' object cannot be interpreted as an integer"
  | notASliceBound => "slice indices must be integers or None or have an __index__ method"
  | zeroStep => "slice step cannot be zero"
  | literalLimit count limit =>
    "The formula has " ++ toString count ++ " literals, which is more than the limit of " ++
      toString limit ++ ". Its decision tree would have " ++ toString (completeSize count) ++
      " nodes."
  | numberTooLong =>
    "Exceeds the limit (" ++ toString Text.digitLimit ++ " digits) for integer string conversion; " ++
      "use sys.set_int_max_str_digits() to increase the limit"
  | nameNotInOrder name => Text.quoted name
  | nodeNotFound node => Text.ofIntOption node
  | notATerminal node => Text.ofIntOption node ++ " is not a terminal node"
  | successorNotFound node => Text.ofIntOption node
  | valueNotCountable =>
    "int() argument must be a string, a bytes-like object or a real number, not 'NoneType'"
  | numberTooLarge => "int too large to convert to float"
  | nodeNotDrawn id => "no node with id " ++ toString id
  | disagreement values expected result =>
    "\nExpected the diagram and the formula to agree,\nbut under values = " ++ values ++
      ":\nexpected = " ++ Text.ofBool expected ++ "\nand:\nresult = " ++ Text.ofBoolOption result ++
      "\n"

/-! ## Kinds -/

/-- A kind of fault. Some kinds include others. -/
inductive FaultKind where
  | anything
  | failure
  | formula
  | emptyInput
  | reading
  | malformed
  | endOfInput
  | trailingInput
  | evaluation
  | arity
  | unbound
  | literalLimit
  | nesting
  | badValue
  | badType
  | lookup
  | badKey
  | badIndex
  | arithmetic
  | overflow
  | assertion
deriving DecidableEq, Repr

namespace FaultKind

/-- The kind itself and all that include it, from special to general. -/
def lineage : FaultKind → List FaultKind
  | anything => [anything]
  | failure => [failure, anything]
  | badValue => [badValue, failure, anything]
  | formula => [formula, badValue, failure, anything]
  | emptyInput => [emptyInput, formula, badValue, failure, anything]
  | reading => [reading, formula, badValue, failure, anything]
  | malformed => [malformed, reading, formula, badValue, failure, anything]
  | endOfInput => [endOfInput, reading, formula, badValue, failure, anything]
  | trailingInput => [trailingInput, reading, formula, badValue, failure, anything]
  | evaluation => [evaluation, formula, badValue, failure, anything]
  | arity => [arity, evaluation, formula, badValue, failure, anything]
  | unbound => [unbound, evaluation, formula, badValue, failure, anything]
  | literalLimit => [literalLimit, formula, badValue, failure, anything]
  | nesting => [nesting, formula, badValue, failure, anything]
  | badType => [badType, failure, anything]
  | lookup => [lookup, failure, anything]
  | badKey => [badKey, lookup, failure, anything]
  | badIndex => [badIndex, lookup, failure, anything]
  | arithmetic => [arithmetic, failure, anything]
  | overflow => [overflow, arithmetic, failure, anything]
  | assertion => [assertion, failure, anything]

/-- A lineage starts with the kind itself. -/
theorem head_lineage (k : FaultKind) : k.lineage.head? = some k := by cases k <;> rfl

/-- What includes a kind's includer includes the kind: lineages are closed upwards. -/
theorem lineage_closed (k : FaultKind) : ∀ j ∈ k.lineage, ∀ i ∈ j.lineage, i ∈ k.lineage := by
  cases k <;> decide

end FaultKind

/-- The most special kind of the fault. -/
def Fault.kind : Fault → FaultKind
  | emptyInput => .emptyInput
  | endOfInput => .endOfInput
  | trailingInput => .trailingInput
  | openingExpected | closingExpected | operandExpected _ | connectiveExpected _ => .malformed
  | nestedTooDeeply => .nesting
  | unbound _ => .unbound
  | unknownConnective _ => .evaluation
  | wrongArity _ => .arity
  | literalLimit _ _ => .literalLimit
  | foreignLeaf | duplicateNames _ | assignmentNotFound | zeroStep | numberTooLong | notATerminal _
  | nodeNotDrawn _ => .badValue
  | countlessAssignments | numberTooLarge => .overflow
  | noSuchAssignment _ => .badIndex
  | notAnIndex _ | notASliceBound | valueNotCountable => .badType
  | nameNotInOrder _ | nodeNotFound _ => .badKey
  | successorNotFound _ | assignmentsLeft | disagreement _ _ _ => .assertion
  | recordTooDeep | assignmentsExhausted => .failure

end PropDiagram

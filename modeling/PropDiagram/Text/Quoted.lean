import PropDiagram.Text.Printable

set_option autoImplicit false

/-! # Quoted text

Messages and printed values show a text between quotes. The quotes are single ones, unless the text
holds a single quote and no double quote. Inside, a backslash and the delimiter are escaped with a
backslash, tab, line feed and carriage return have letters, and every other character without a
visible form is written by its code point in two, four or eight hexadecimal digits.

Collections of shown values follow one layout: the items are joined by a comma and a space. -/

namespace PropDiagram.Text

/-! ## Characters -/

/-- The last `width` hexadecimal digits of `n`, in lower case. -/
def hexDigits : (width n : Nat) → List Char
  | 0, _ => []
  | width + 1, n => hexDigits width (n / 16) ++ [Nat.digitChar (n % 16)]

/-- The escape of a character by its code point, in the shortest of the three forms. -/
def codePointEscape (c : Char) : List Char :=
  if c.toNat < 0x100 then '\\' :: 'x' :: hexDigits 2 c.toNat
  else if c.toNat < 0x10000 then '\\' :: 'u' :: hexDigits 4 c.toNat
  else '\\' :: 'U' :: hexDigits 8 c.toNat

/-- One character of a text quoted with the given delimiter. -/
def quotedChar (delimiter c : Char) : List Char :=
  if c = '\\' ∨ c = delimiter then ['\\', c]
  else if c = '\t' then ['\\', 't']
  else if c = '\n' then ['\\', 'n']
  else if c = '\r' then ['\\', 'r']
  else if isVisible c then [c]
  else codePointEscape c

/-! ## Texts -/

/-- A double quote delimits only a text that holds a single quote and no double quote. -/
def delimiterOf (cs : List Char) : Char :=
  if '\'' ∈ cs ∧ '"' ∉ cs then '"' else '\''

/-- The text between quotes, with escapes. -/
def quoted (s : String) : String :=
  let delimiter := delimiterOf s.toList
  String.ofList (delimiter :: s.toList.flatMap (quotedChar delimiter) ++ [delimiter])

/-- A text that may be missing; a missing one shows as `None`. -/
def quotedOption : Option String → String
  | some s => quoted s
  | none => "None"

def ofBool : Bool → String
  | true => "True"
  | false => "False"

def ofBoolOption : Option Bool → String
  | some b => ofBool b
  | none => "None"

def ofIntOption : Option Int → String
  | some i => toString i
  | none => "None"

/-- The number of decimal digits that a number in a message may have. It stays folded, so that nobody
    spells out a power of ten of this size. -/
@[irreducible] def digitLimit : Nat := 4300

/-- Whether the number has no more digits than a message may contain. -/
def isWritable (i : Int) : Bool := i.natAbs < Nat.pow 10 digitLimit

/-! ## Collections -/

/-- Shown items joined by a comma and a space. -/
def joined (items : List String) : String := ", ".intercalate items

def list (items : List String) : String := "[" ++ joined items ++ "]"

/-- A tuple of two or more shown items. -/
def tuple (items : List String) : String := "(" ++ joined items ++ ")"

/-- A mapping of shown keys and values. -/
def mapping (entries : List (String × String)) : String :=
  "\x7b" ++ joined (entries.map fun e => e.1 ++ ": " ++ e.2) ++ "\x7d"

/-! ## Samples of the layout -/

example : quoted "A" = "'A'" := by decide +kernel
example : quoted "it's" = "\"it's\"" := by decide +kernel
example : quoted "'\"\t\u00ad\u2028" = "'\\'\"\\t\\xad\\u2028'" := by decide +kernel
example : list ["'a'", "'b'"] = "['a', 'b']" := by decide +kernel

end PropDiagram.Text

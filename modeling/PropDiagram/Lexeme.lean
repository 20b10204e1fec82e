import PropDiagram.Token

set_option autoImplicit false

/-! # Lexemes

A text is cut into lexemes from left to right. The plain space separates and belongs to none. Each
bracket is a lexeme of its own, and so is every longest run of other characters, whatever they are.
A lexeme knows where in the text it starts, and of what kind it is: the rule that cuts it says so. A
bracket has a kind of its own, and a word is looked up among the keywords. Cutting never fails: every
character that is no space lies in exactly one lexeme. -/

namespace PropDiagram

/-- What a lexeme is: a bracket, a connective's keyword, or any other word. -/
inductive LexemeKind where
  | opening
  | closing
  | keyword (connective : Connective)
  | name
deriving DecidableEq, Repr

namespace LexemeKind

/-- The kind of a word: a keyword has its own, every other word is a name. -/
def ofWord (s : String) : LexemeKind :=
  match Connective.ofKeyword? s with
  | some c => .keyword c
  | none => .name

/-- The kind of the bracket that is this character. -/
def ofBracket (c : Char) : LexemeKind := if c = '(' then .opening else .closing

def label : LexemeKind → String
  | opening => "LPAREN"
  | closing => "RPAREN"
  | keyword c => c.keyword
  | name => "NAME"

end LexemeKind

/-- A piece of a text: its kind, its characters, and how many characters of the text stand before
    it. -/
structure Lexeme where
  kind : LexemeKind
  text : String
  position : Nat
deriving DecidableEq, Repr

namespace Lexeme

/-- The lexeme of a word that starts at `position`. -/
def ofWord (position : Nat) (s : String) : Lexeme := ⟨LexemeKind.ofWord s, s, position⟩

/-! ## Cutting -/

/-- Whether the character belongs to words: it is neither a space nor a bracket. -/
def isWordChar (c : Char) : Bool := c != ' ' && c != '(' && c != ')'

/-- The word that ends before `position`, given by its characters in reverse; no lexeme if it is
    empty. -/
def flush (position : Nat) (word : List Char) : List Lexeme :=
  if word.isEmpty then [] else [ofWord (position - word.length) (String.ofList word.reverse)]

/-- The lexeme of a single character that is no word character; none if it is a space. -/
def ofSeparator (position : Nat) (c : Char) : List Lexeme :=
  if c = ' ' then [] else [⟨LexemeKind.ofBracket c, String.singleton c, position⟩]

/-- The lexemes of the characters from `position` on, where `word` holds, in reverse, the word
    characters read just before. -/
def scan : (position : Nat) → (word : List Char) → List Char → List Lexeme
  | position, word, [] => flush position word
  | position, word, c :: cs =>
    if isWordChar c then scan (position + 1) (c :: word) cs
    else flush position word ++ ofSeparator position c ++ scan (position + 1) [] cs

/-- The lexemes of a text, from left to right. -/
def ofText (s : String) : List Lexeme := scan 0 [] s.toList

end Lexeme

/-- The texts of the lexemes of a text. -/
def tokenize (s : String) : List String := (Lexeme.ofText s).map Lexeme.text

/-! ## Samples -/

example : tokenize " (A AND(NOT b\t)) " = ["(", "A", "AND", "(", "NOT", "b\t", ")", ")"] := by
  decide +kernel

end PropDiagram

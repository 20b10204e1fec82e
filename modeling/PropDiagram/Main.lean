import PropDiagram.Demo.Walkthrough

set_option autoImplicit false

/-! # The demonstrations as a program

Runs the demonstrations named on the command line, or all of them. -/

namespace PropDiagram.Demo

def all : List (String × Printed Unit) :=
  [("truth-table", classifyFormulas), ("formula-to-diagram", formulaToDiagram)]

/-- Prints the lines of a demonstration, and its fault if it has one. -/
def run (demo : Printed Unit) : IO UInt32 := do
  for line in demo.trace.filterMap Output.line? do
    IO.println line
  match demo.outcome with
  | .ok () => pure 0
  | .error e => do
    IO.eprintln e.message
    pure 1

end PropDiagram.Demo

/-- Runs the demonstrations named by the arguments; without arguments, all of them. -/
def main (args : List String) : IO UInt32 := do
  let demos := PropDiagram.Demo.all
  let chosen := demos.filter fun d => args.isEmpty || args.contains d.1
  let mut code : UInt32 := 0
  for name in args do
    if (demos.lookup name).isNone then
      IO.eprintln ("no demonstration is called " ++ name)
      code := 2
  for d in chosen do
    let result ← PropDiagram.Demo.run d.2
    if result != 0 then code := result
  pure code

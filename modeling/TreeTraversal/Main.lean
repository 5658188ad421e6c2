import TreeTraversal.Demo

/-!
# The command line of the tour

`--ascii` draws trees with ASCII characters, `-v` or `--verbose` writes the journal to standard error.
-/

def knownOptions : List String := ["--ascii", "-v", "--verbose"]

/-- Shows the tour, unless an option is unknown. -/
def main (args : List String) : IO UInt32 := do
  match args.find? fun arg => !knownOptions.contains arg with
  | some arg =>
    IO.eprintln ("error: unrecognized arguments: " ++ arg)
    return 2
  | none =>
    let page := TreeTraversal.Demo.tour (args.contains "--ascii")
    if args.contains "-v" || args.contains "--verbose" then
      for record in page.records do
        IO.eprintln record.line
    IO.print page.text
    return 0

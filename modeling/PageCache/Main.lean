-- The command line: prints the tour.
import PageCache.Demo

/-- Prints the lines of the tour; a failure goes to the error output. -/
def main : IO UInt32 := do
  match PageCache.Demo.lines with
  | .ok lines =>
    for line in lines do
      IO.println line
    return 0
  | .error problem =>
    IO.eprintln problem
    return 101

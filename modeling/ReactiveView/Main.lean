import ReactiveView.Demo
/-!
# The demonstration program

Prints the session of the sample page.
-/

/-- Prints the session of the sample page; the exit code tells whether it came to its end. -/
def main : IO UInt32 := do
  match ReactiveView.Demo.output with
  | .done text _ =>
    IO.print text
    pure 0
  | .failed e _ =>
    IO.eprintln e.message
    pure 1
  | .exhausted =>
    IO.eprintln "The session does not end."
    pure 1

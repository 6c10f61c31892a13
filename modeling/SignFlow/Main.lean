import SignFlow.Command.Run

/-! The program. It has no reader for dumps of its own, so it lists its checkers and checks its
arguments. -/

def main (args : List String) : IO UInt32 := do
  match SignFlow.Command.run args .noReader (fun _ => "0.0") with
  | .ok response =>
    IO.print response.stdout
    IO.eprint response.stderr
    pure response.code.toUInt32
  | .error fault =>
    IO.eprintln fault.message
    pure 1

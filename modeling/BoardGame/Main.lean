import BoardGame.CommandLine

/-! # The program -/

open BoardGame

/-- Whether an event is to be shown: warnings always, moves when they are traced. -/
def shownEvent (trace : Bool) (e : Event) : Bool := e.level = "warn" || trace

def main (args : List String) : IO UInt32 := do
  match Invocation.ofArgs? args with
  | none =>
    IO.eprint Invocation.usage.stderr
    return Invocation.usage.code.toUInt32
  | some i =>
    let source ←
      if i.file = "-" then (← IO.getStdin).readToEnd else IO.FS.readFile i.file
    let out := i.run source
    for e in out.log.filter (shownEvent i.options.trace) do
      IO.eprintln (e.level ++ " " ++ e.message)
    IO.print out.stdout
    IO.eprint out.stderr
    return out.code.toUInt32

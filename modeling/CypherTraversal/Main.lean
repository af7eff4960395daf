import CypherTraversal.Client.CommandLine

/-! # The program -/

open CypherTraversal

def readFile? (path : String) : IO (Option String) := do
  try
    return some (← IO.FS.readFile path)
  catch _ => return none

def main (args : List String) : IO UInt32 := do
  let path := (Command.read? args).bind Command.settings
  let file ← match path with
    | some path => readFile? path
    | none => pure none
  let outcome := runCommand (fun _ => file) args
  IO.print outcome.output
  if let some text := outcome.complaint then IO.eprintln text
  return outcome.code.toUInt32

import PocketAlgebra.Calculator.CommandLine

/-!
# The calculator

The program: it reads its arguments, the environment, the file with the preferences and lines of
input, and writes what is shown for them.
-/

namespace PocketAlgebra

namespace Program

/-- The content of a file, if it can be read. -/
def readFileIfAny (path : String) : IO (Option String) := do
  try
    return some (← IO.FS.readFile path)
  catch _ =>
    return none

/-- What the environment tells. -/
def readEnvironment : IO Environment := do
  return {
    preferencesFile := ← IO.getEnv "HYCAS_CONFIG"
    configurationDirectory := ← IO.getEnv "XDG_CONFIG_HOME"
    homeDirectory := ← IO.getEnv "HOME" }

/-- Whether the terminal shows colors. -/
def showsColors : IO Bool := do
  let terminal ← IO.getEnv "TERM"
  let refused ← IO.getEnv "NO_COLOR"
  return terminal.any (· ≠ "dumb") && refused.isNone

/-- Writes what is shown for a line, and reports a failure. -/
def report (display : Display) (p : Preferences) (result : LineResult) : IO Unit := do
  let output ← IO.getStdout
  output.putStr (display.output p result)
  output.flush
  match result with
  | .failed (.parsing e) => IO.eprintln e.cause.message
  | .failed (.reduction _) => IO.eprintln "error: reduction failed"
  | .failed (.storing e) => IO.eprintln ("error: " ++ e.message)
  | _ => return ()

/-- Reports that the approximation of a line breaks off, and tells the number to end with. -/
def breakOff : IO UInt32 := do
  IO.eprintln "error: an integer has more than 64 bits"
  return UInt32.ofNat CommandLine.breakExitCode

/-- Evaluates expressions up to the first one that fails or breaks off. -/
def evaluateAll (display : Display) (s : Session) : List String → IO UInt32
  | [] => return 0
  | text :: texts => do
    if s.breaksOff text then
      return ← breakOff
    let (s, result) := s.evaluate text
    report display s.preferences result
    if CommandLine.fails result then
      return UInt32.ofNat CommandLine.failureExitCode
    else
      evaluateAll display s texts

/-- Evaluates lines of the input until it ends, or until one breaks off. -/
partial def evaluateInput (display : Display) (s : Session) (input : IO.FS.Stream) :
    IO UInt32 := do
  let line ← input.getLine
  if line.isEmpty then
    return 0
  else if s.breaksOff line then
    breakOff
  else
    let (s, result) := s.evaluate line
    report display s.preferences result
    evaluateInput display s input

/-- Runs the calculator, and tells the number that it ends with. -/
def run (arguments : List String) : IO UInt32 := do
  match CommandLine.read arguments with
  | .error e =>
    IO.eprintln ("error: " ++ e.message)
    return UInt32.ofNat CommandLine.usageExitCode
  | .ok .help | .ok .version => return 0
  | .ok (.evaluate a) =>
    let usualPath := (← readEnvironment).preferencesPath
    let named ← match a.configuration with
      | some path => readFileIfAny path
      | none => pure none
    match a.preferences named (← readFileIfAny usualPath) with
    | .error e =>
      IO.eprintln ("error: " ++ e.message)
      return UInt32.ofNat CommandLine.failureExitCode
    | .ok p =>
      let display := a.display (← showsColors)
      if a.expressions.isEmpty then
        evaluateInput display { preferences := p } (← IO.getStdin)
      else
        evaluateAll display { preferences := p } a.expressions

end Program

end PocketAlgebra

/-- Starts the calculator. -/
def main (arguments : List String) : IO UInt32 :=
  PocketAlgebra.Program.run arguments

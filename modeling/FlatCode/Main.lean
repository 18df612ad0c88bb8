import FlatCode.CommandLine

/-!
# Running the program

The outer layer: it reads the one source that a command names, and passes the
outcome on to the output channels.
-/

open FlatCode

def readAll (stream : IO.FS.Stream) : IO ByteArray := do
  let mut content := ByteArray.empty
  repeat
    let chunk ← stream.read 65536
    if chunk.isEmpty then
      break
    content := content ++ chunk
  return content

def readInput (input : CommandLine.Input) : IO (Option ByteArray) := do
  try
    match input with
    | .standardInput => return some (← readAll (← IO.getStdin))
    | .file path => return some (← IO.FS.readBinFile path)
  catch _ =>
    return none

def runCommand (program : String) (args : List String) :
    IO CommandLine.Outcome := do
  match CommandLine.Request.ofWords? program args with
  | none => return CommandLine.usage program
  | some request => return request.run (← readInput request.input)

def main (args : List String) : IO UInt32 := do
  let outcome ← runCommand (toString (← IO.appPath)) args
  (← IO.getStdout).putStr outcome.stdout
  (← IO.getStderr).putStr outcome.stderr
  return outcome.exit.toUInt32

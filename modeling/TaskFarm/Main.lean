import TaskFarm.Shell.Program

/-!
# The command line program

Gathers the arguments, the settings in the environment and the input, and writes out what the
program leaves behind.
-/

namespace TaskFarm.Shell

/-- Everything up to the end of the input, added to what was read already. -/
partial def readInput (input : IO.FS.Stream) (sofar : String) : IO String := do
  let line ← input.getLine
  if line.isEmpty then return sofar else readInput input (sofar ++ line)

/-- The settings that the environment holds. -/
def readEnvironment : IO (List (String × String)) :=
  Settings.names.filterMapM fun name => do
    return (← IO.getEnv name).map fun value => (name, value)

end TaskFarm.Shell

open TaskFarm in
/-- Run the program on the arguments, the environment and the input of the process. -/
def main (args : List String) : IO UInt32 := do
  let env ← Shell.readEnvironment
  let input ← if Shell.readsInput args then Shell.readInput (← IO.getStdin) "" else pure ""
  let transcript := Shell.run args (fun name => env.lookup name) input
  IO.print transcript.output
  IO.eprint transcript.errorOutput
  return transcript.code.toUInt32

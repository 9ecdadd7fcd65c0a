import Codebook.Command.Arguments
import Codebook.Command.Report

namespace Codebook.Command

def faultOfSystem : IO.Error → FileFault
  | .noFileOrDirectory .. => .missing
  | .inappropriateType _ 21 _ => .isDirectory
  | .inappropriateType .. => .notDirectory
  | e => .refused (toString e)

def readFile (path : String) : IO (Except FileFault String) := do
  try return decodeText (← IO.FS.readBinFile path)
  catch e => return .error (faultOfSystem e)

def Report.print (r : Report) : IO UInt32 := do
  (← IO.getStdout).putStr r.output
  (← IO.getStderr).putStr r.messages
  return r.status

/-- Runs the program. Warnings are shown unless the environment asks for something else. Who asks
nothing gets the help in place of a message. -/
def runProgram (arguments : List String) : IO UInt32 := do
  match Request.ofArguments arguments with
  | .error (.usage .nothingAsked) =>
    IO.eprint (Scope.help .top)
    return 2
  | .error stop =>
    let status ← stop.report.print
    if status = 2 then IO.eprintln ""
    return status
  | .ok request =>
    let wish ← IO.getEnv "RUST_LOG"
    let verbosity := (wish.map Verbosity.read).getD (some .warn)
    ((request.run (← readFile request.path)).report verbosity).print

end Codebook.Command

def main (arguments : List String) : IO UInt32 :=
  Codebook.Command.runProgram arguments

import HeapScript.CommandLine.Run

/-!
The command line: reads the files of a command, runs it and writes its output.
-/

namespace HeapScript

namespace CommandLine

def openFile? (path : String) : IO (Option IO.FS.Handle) := do
  try
    return some (← IO.FS.Handle.mk path .read)
  catch _ => return none

def readFile (path : String) : IO FileContent := do
  match ← openFile? path with
  | none => return .missing
  | some handle =>
    try
      return .text (← handle.readToEnd)
    catch _ => return .unreadable

def writeFile? (path text : String) : IO Bool := do
  try
    IO.FS.writeFile path text
    return true
  catch _ => return false

def execute (command : Command) : IO UInt32 := do
  let contents ← command.inputs.mapM fun path => return (path, ← readFile path)
  let files : Files := fun path => (contents.lookup path).getD .missing
  match run files command with
  | .error error =>
    IO.eprint error.text
    return 1
  | .ok output =>
    IO.eprint output.diagnostics
    match output.file with
    | none =>
      IO.print output.text
      return 0
    | some path =>
      if ← writeFile? path output.text then
        IO.eprint (savedLine path)
        return 0
      else
        IO.eprint (CommandError.notWritten path).text
        return 1

end CommandLine

end HeapScript

def main (arguments : List String) : IO UInt32 := do
  match HeapScript.CommandLine.parse arguments with
  | .ok command => HeapScript.CommandLine.execute command
  | .error usage =>
    let text := "usage: heapscript print-heap FILE | heapscript emit FILE [OPTIONS]\n"
    if usage = .help then
      IO.print text
      return 0
    else
      IO.eprint text
      return 2

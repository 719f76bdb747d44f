import HeapScript.CommandLine.Arguments
import HeapScript.Heap.Dump
import HeapScript.Heap.Reader
import HeapScript.Json.Parser
import HeapScript.Script

/-!
Running a command on the contents of files.
-/

namespace HeapScript

namespace CommandLine

/-- Why a command fails after its arguments have been accepted. -/
inductive CommandError where
  | graphNotOpened (path : String)
  | graphNotParsed (path : String)
  | settingsNotOpened (path : String)
  | settingsNotParsed (path : String)
  | notMaterialized (path : String) (failure : Failure)
  | notWritten (path : String)
deriving Repr

namespace CommandError

def summary : CommandError → String
  | graphNotOpened path => s!"failed to open heap graph: {path}"
  | graphNotParsed path => s!"failed to parse heap graph: {path}"
  | settingsNotOpened path => s!"failed to open config: {path}"
  | settingsNotParsed path => s!"failed to parse config: {path}"
  | notMaterialized path _ => s!"failed to materialize {path}"
  | notWritten path => s!"failed to write {path}"

def cause : CommandError → String
  | graphNotOpened _ | settingsNotOpened _ => "the file cannot be opened"
  | graphNotParsed _ => "the text is not a heap graph"
  | settingsNotParsed _ => "the text is not a configuration"
  | notMaterialized _ failure => failure.message
  | notWritten _ => "the file cannot be written"

/-- The whole report of an error; every line of the cause is indented. -/
def text (error : CommandError) : String :=
  "Error: " ++ error.summary ++ "\n\nCaused by:\n    " ++
    "\n    ".intercalate (error.cause.splitOn "\n") ++ "\n"

end CommandError

/-- What a command has to do when it has succeeded: print a text or save it in a file, after lines
for the error stream. -/
structure Output where
  diagnostics : String := ""
  text : String
  file : Option String := none
deriving Repr

inductive FileContent where
  | missing
  /-- Something that can be opened but holds no text, such as a directory. -/
  | unreadable
  | text (content : String)
deriving Repr

abbrev Files := String → FileContent

def loadGraph (files : Files) (path : String) : Except CommandError HeapGraph :=
  match files path with
  | .missing => .error (.graphNotOpened path)
  | .unreadable => .error (.graphNotParsed path)
  | .text content =>
    match (Json.parse? content).bind HeapGraph.ofJson? with
    | some graph => .ok graph
    | none => .error (.graphNotParsed path)

def loadSettings (files : Files) : Option String → Except CommandError Settings
  | none => .ok {}
  | some path =>
    match files path with
    | .missing => .error (.settingsNotOpened path)
    | .unreadable => .error (.settingsNotParsed path)
    | .text content =>
      match (Json.parse? content).bind Settings.ofJson? with
      | some settings => .ok settings
      | none => .error (.settingsNotParsed path)

def overrideLazy (settings : Option LazySettings) (options : EmitOptions) : Option LazySettings :=
  if options.lazyObjects || options.lazyAll || options.lazyRuntime.isSome then
    let known := settings.getD {}
    some {
      runtime := options.lazyRuntime.getD known.runtime
      selectAll := known.selectAll || options.lazyAll }
  else settings

def override (settings : Settings) (options : EmitOptions) : Settings :=
  let changed := { settings with
    lazyObjects := overrideLazy settings.lazyObjects options
    simpleClosures := settings.simpleClosures || options.simpleClosures
    strict := settings.strict || options.strict
    inlineThreshold := options.inlineThreshold.getD settings.inlineThreshold
    wrap := settings.wrap && !options.noWrap }
  changed.disableAll options.disable

def emit (files : Files) (file : String) (options : EmitOptions) : Except CommandError Output := do
  let graph ← loadGraph files file
  let settings := override (← loadSettings files options.config) options
  match materialize graph settings with
  | .error failure => throw (.notMaterialized file failure)
  | .ok script =>
    return {
      diagnostics := s!"[emit] {script.report.text}\n"
      text := script.text
      file := options.output }

/-- Runs a command; the heap graph is read before the settings. -/
def run (files : Files) : Command → Except CommandError Output
  | .printHeap file => do return { text := (← loadGraph files file).dump }
  | .emit file options => emit files file options

def savedLine (path : String) : String := s!"[emit] wrote {path}\n"

def Command.inputs : Command → List String
  | .printHeap file => [file]
  | .emit file options => file :: options.config.toList

end CommandLine

end HeapScript

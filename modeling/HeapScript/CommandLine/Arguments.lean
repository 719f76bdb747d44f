/-!
The arguments of the command line.

An option is written `--name`, or `--name value` and `--name=value` if it takes a value; the output
option also as `-o value` and `-ovalue`. After `--` all arguments are plain. Each option may be
given once, apart from those that collect their values.

Arguments are read from left to right, and each one is checked when it is reached. So help is
given only if everything before the request for it was in order, whatever follows it.
-/

namespace HeapScript

namespace CommandLine

inductive Usage where
  | help
  | invalid
deriving DecidableEq, Repr

/-! ## Options -/

structure OptionSpec where
  name : String
  letter : Option Char := none
  takesValue : Bool := false
  accepts : String → Bool := fun _ => true
  repeatable : Bool := false

inductive Argument where
  | plain
  | flag (name : String)
  | option (spec : OptionSpec) (value : Option String)
  | help
  | unknown

/-- Whether an argument is written like an option, so that it cannot be the value of one. -/
def looksLikeOption (argument : String) : Bool :=
  argument.startsWith "-" && argument ≠ "-"

def splitValue (text : String) : String × Option String :=
  match text.toList.span (· ≠ '=') with
  | (name, _ :: value) => (String.ofList name, some (String.ofList value))
  | (name, []) => (String.ofList name, none)

def classifyLong (specs : List OptionSpec) (text : String) : Argument :=
  let (name, value) := splitValue text
  match specs.find? (·.name = name), value with
  | some spec, value =>
    if spec.takesValue then .option spec value
    else if value.isSome then .unknown
    else .flag name
  | none, none => if name = "help" then .help else .unknown
  | none, some _ => .unknown

/-- The argument `-text`. A value may follow the letter directly or after an equals sign. -/
def classifyShort (specs : List OptionSpec) (text : List Char) : Argument :=
  match text with
  | [] => .plain
  | letter :: rest =>
    match specs.find? (·.letter = some letter) with
    | some spec =>
      match rest with
      | [] => .option spec none
      | '=' :: value => .option spec (some (String.ofList value))
      | value => .option spec (some (String.ofList value))
    | none => if letter = 'h' then .help else .unknown

def classify (specs : List OptionSpec) (argument : String) : Argument :=
  match argument.toList with
  | '-' :: '-' :: text => classifyLong specs (String.ofList text)
  | '-' :: text => classifyShort specs text
  | _ => .plain

/-! ## What was given -/

structure Given where
  flags : List String := []
  values : List (String × String) := []
  file : Option String := none
deriving Repr

namespace Given

def hasFlag (given : Given) (name : String) : Bool := name ∈ given.flags

def valuesOf (given : Given) (name : String) : List String :=
  (given.values.filter (·.1 = name)).map (·.2)

def value? (given : Given) (name : String) : Option String := (given.valuesOf name).head?

def addFlag (given : Given) (name : String) : Except Usage Given :=
  if given.hasFlag name then throw .invalid
  else return { given with flags := given.flags ++ [name] }

def addValue (given : Given) (spec : OptionSpec) (value : String) : Except Usage Given :=
  if spec.accepts value && (spec.repeatable || (given.valuesOf spec.name).isEmpty) then
    return { given with values := given.values ++ [(spec.name, value)] }
  else throw .invalid

def addFile (given : Given) (file : String) : Except Usage Given :=
  if given.file.isSome || file.isEmpty then throw .invalid
  else return { given with file := some file }

end Given

def scan (specs : List OptionSpec) : (given : Given) → List String → Except Usage Given
  | given, [] => return given
  | given, argument :: rest =>
    if argument = "--" then rest.foldlM Given.addFile given
    else
      match classify specs argument with
      | .help => throw .help
      | .unknown => throw .invalid
      | .plain => do scan specs (← given.addFile argument) rest
      | .flag name => do scan specs (← given.addFlag name) rest
      | .option spec (some value) => do scan specs (← given.addValue spec value) rest
      | .option spec none =>
        match rest with
        | [] => throw .invalid
        | value :: rest => do
          if looksLikeOption value then throw .invalid
          scan specs (← given.addValue spec value) rest

/-! ## Values -/

def isPath (text : String) : Bool := !text.isEmpty

/-- A natural number of thirty-two bits, with an optional sign. -/
def word? (text : String) : Option Nat :=
  let (negative, digits) := match text.toList with
    | '+' :: digits => (false, digits)
    | '-' :: digits => (true, digits)
    | digits => (false, digits)
  if digits.isEmpty || !digits.all Char.isDigit then none
  else
    let value := digits.foldl (fun value digit => value * 10 + (digit.toNat - 48)) 0
    if value < UInt32.size ∧ (negative → value = 0) then some value else none

/-! ## Commands -/

structure EmitOptions where
  /-- The file for the script, which goes to the standard output otherwise. -/
  output : Option String := none
  config : Option String := none
  lazyObjects : Bool := false
  lazyAll : Bool := false
  lazyRuntime : Option String := none
  simpleClosures : Bool := false
  inlineThreshold : Option Nat := none
  disable : List String := []
  noWrap : Bool := false
  strict : Bool := false
deriving Repr

inductive Command where
  | printHeap (file : String)
  /-- Writes the script that rebuilds a heap. -/
  | emit (file : String) (options : EmitOptions)
deriving Repr

def emitSpecs : List OptionSpec := [
  { name := "output", letter := some 'o', takesValue := true, accepts := isPath },
  { name := "config", takesValue := true, accepts := isPath },
  { name := "lazy-objects" },
  { name := "lazy-all" },
  { name := "lazy-runtime", takesValue := true },
  { name := "simple-closures" },
  { name := "inline-threshold", takesValue := true, accepts := fun text => (word? text).isSome },
  { name := "disable", takesValue := true, repeatable := true },
  { name := "no-iife" },
  { name := "strict" }]

def scanCommand (specs : List OptionSpec) (arguments : List String) :
    Except Usage (String × Given) := do
  let given ← scan specs {} arguments
  match given.file with
  | some file => return (file, given)
  | none => throw .invalid

def emitOptions (given : Given) : EmitOptions :=
  { output := given.value? "output"
    config := given.value? "config"
    lazyObjects := given.hasFlag "lazy-objects"
    lazyAll := given.hasFlag "lazy-all"
    lazyRuntime := given.value? "lazy-runtime"
    simpleClosures := given.hasFlag "simple-closures"
    inlineThreshold := (given.value? "inline-threshold").bind word?
    disable := given.valuesOf "disable"
    noWrap := given.hasFlag "no-iife"
    strict := given.hasFlag "strict" }

def isHelpTopic : List String → Bool
  | [] => true
  | [command] => ["print-heap", "emit", "help"].contains command
  | _ => false

def parse : List String → Except Usage Command
  | "print-heap" :: rest => do
    let (file, _) ← scanCommand [] rest
    return .printHeap file
  | "emit" :: rest => do
    let (file, given) ← scanCommand emitSpecs rest
    return .emit file (emitOptions given)
  | "help" :: topic => throw (if isHelpTopic topic then .help else .invalid)
  | first :: _ =>
    match classify [] first with
    | .help => throw .help
    | _ => throw .invalid
  | [] => throw .invalid

end CommandLine

end HeapScript

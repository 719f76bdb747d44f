import HeapScript.Json.Reader

/-!
The settings of a run.
-/

namespace HeapScript

structure LazySettings where
  /-- The path of the library that creates the placeholders. -/
  runtime : String := "__lazyObjectsRuntime"
  selectAll : Bool := false
deriving DecidableEq, Repr

structure Settings where
  inlineThreshold : Nat := 30
  /-- Whether closures of one code block may share a factory. -/
  factories : Bool := true
  /-- Whether objects may be constructed on the first call of a function. -/
  delayInitializations : Bool := true
  /-- Whether modified captured names become plain shared variables. -/
  simpleClosures : Bool := false
  /-- Whether the script is wrapped in a function that is called at once. -/
  wrap : Bool := true
  strict : Bool := false
  lazyObjects : Option LazySettings := none
deriving DecidableEq, Repr

namespace Settings

def objectStrategy (settings : Settings) : String :=
  if settings.lazyObjects.isSome then "lazy-objects" else "default"

/-- Turns a feature off by its name; other names change nothing. -/
def disable (settings : Settings) (feature : String) : Settings :=
  match feature with
  | "factories" => { settings with factories := false }
  | "delay-initializations" => { settings with delayInitializations := false }
  | "iife" => { settings with wrap := false }
  | "lazy-objects" => { settings with lazyObjects := none }
  | _ => settings

def disableAll (settings : Settings) (features : List String) : Settings :=
  features.foldl disable settings

end Settings

/-! ## Reading -/

open Json

def LazySettings.ofJson? (json : Json) : Option LazySettings := do
  let fields ← json.fields? ["runtime", "select_all"]
  return {
    runtime := ← fields.withDefault "runtime" string? ({} : LazySettings).runtime
    selectAll := ← fields.withDefault "select_all" bool? false }

def Settings.ofJson? (json : Json) : Option Settings := do
  let fields ← json.fields? ["inline_threshold", "factories", "delay_initializations",
    "simple_closures", "wrap_iife", "strict", "lazy_objects"]
  return {
    inlineThreshold := ← fields.withDefault "inline_threshold" word? 30
    factories := ← fields.withDefault "factories" bool? true
    delayInitializations := ← fields.withDefault "delay_initializations" bool? true
    simpleClosures := ← fields.withDefault "simple_closures" bool? false
    wrap := ← fields.withDefault "wrap_iife" bool? true
    strict := ← fields.withDefault "strict" bool? false
    lazyObjects := ← fields.optional "lazy_objects" LazySettings.ofJson? }

end HeapScript

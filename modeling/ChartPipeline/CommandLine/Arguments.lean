/-!
# Arguments of the command line

The first argument names the command.  Then follow the path of a chart and options, in any order;
after `--` everything is a path.  Each may be given once.
-/

namespace ChartPipeline

/-- What a command does with a chart. -/
inductive Action where
  /-- Prints its datasets. -/
  | compile
  /-- Prints its flow. -/
  | graph
deriving DecidableEq, Repr

/-- The name of an action. -/
def Action.name : Action → String
  | compile => "compile"
  | graph => "graph"

/-- The action of a name. -/
def Action.ofName? (name : String) : Option Action := [compile, graph].find? (·.name = name)

/-- A command. -/
structure Command where
  action : Action
  /-- The path of the chart. -/
  chart : String
  /-- The path of the file with settings. -/
  settings : Option String := none
  /-- Whether the flow is optimized. -/
  optimize : Bool := true
  /-- Whether datasets are printed on one line. -/
  compact : Bool := false
deriving DecidableEq, Repr

/-- What is asked for. -/
inductive Request where
  | run (command : Command)
  | version
  /-- Help for an action, or for the program. -/
  | help (topic : Option Action)
  /-- The arguments are wrong. -/
  | misuse
deriving DecidableEq, Repr

namespace Arguments

/-- What was found of a command so far. -/
structure Found where
  chart : Option String := none
  settings : Option String := none
  noOptimize : Bool := false
  compact : Bool := false

/-- Whether an argument looks like an option; a single hyphen does not. -/
def isOption (arg : String) : Bool := arg.startsWith "-" && arg ≠ "-"

/-- Takes over a path; there may be one only, and it must not be empty. -/
def Found.withChart? (found : Found) (path : String) : Option Found :=
  if path.isEmpty || found.chart.isSome then none else some { found with chart := some path }

/-- Takes over the path of a file with settings. -/
def Found.withSettings? (found : Found) (path : String) : Option Found :=
  if path.isEmpty || found.settings.isSome then none
  else some { found with settings := some path }

/-- What is asked for in the end. -/
def Found.finish (action : Action) (found : Found) : Request :=
  match found.chart with
  | none => .misuse
  | some chart => .run {
      action, chart
      settings := found.settings
      optimize := !found.noOptimize
      compact := found.compact }

/-- Goes through arguments that are all paths. -/
def readPaths (action : Action) : Found → List String → Request
  | found, [] => found.finish action
  | found, path :: rest =>
    match found.withChart? path with
    | some found => readPaths action found rest
    | none => .misuse

/-- What the option for settings begins with if its value stands in the same argument. -/
def settingsPrefix : String := "--config="

/-- Takes over an option without a value, or a path. -/
def readSingle (action : Action) (found : Found) (arg : String) : Except Request Found :=
  let orMisuse (found : Option Found) : Except Request Found :=
    match found with
    | some found => .ok found
    | none => .error .misuse
  if arg = "--no-optimize" then
    orMisuse (if found.noOptimize then none else some { found with noOptimize := true })
  else if arg = "--compact" && action = .compile then
    orMisuse (if found.compact then none else some { found with compact := true })
  else if arg = "--help" || arg.startsWith "-h" then .error (.help (some action))
  else if arg.startsWith settingsPrefix then
    orMisuse (found.withSettings? (arg.drop settingsPrefix.length).toString)
  else if isOption arg then .error .misuse
  else orMisuse (found.withChart? arg)

/-- Goes through the arguments of an action. -/
def readAction (action : Action) : Found → List String → Request
  | found, [] => found.finish action
  | found, "--" :: rest => readPaths action found rest
  | found, "--config" :: value :: rest =>
    if isOption value then .misuse
    else match found.withSettings? value with
      | some found => readAction action found rest
      | none => .misuse
  | found, arg :: rest =>
    match readSingle action found arg with
    | .ok found => readAction action found rest
    | .error request => request

/-- What is asked for after the word `help`. -/
def readHelp : List String → Request
  | [] => .help none
  | [name] =>
    match Action.ofName? name with
    | some action => .help (some action)
    | none => if name = "help" then .help none else .misuse
  | _ => .misuse

end Arguments

/-- Reads the arguments of the command line. -/
def readArguments : List String → Request
  | [] => .misuse
  | first :: rest =>
    match Action.ofName? first with
    | some action => Arguments.readAction action {} rest
    | none =>
      if first = "help" then Arguments.readHelp rest
      else if first = "--version" || first.startsWith "-V" then .version
      else if first = "--help" || first.startsWith "-h" then .help none
      else .misuse

end ChartPipeline

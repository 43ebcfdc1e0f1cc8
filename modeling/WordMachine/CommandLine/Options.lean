/-!
# Command-line options

The arguments name one memory image and may give options in any order around it. The value of an
option is the argument after it, or follows an equals sign. After an argument of two dashes
nothing is an option any more, and a single dash never is. An option may be given once.

Reading the arguments is the outermost layer of the program: it follows the conventions of command
lines, and nothing behind it depends on how it is done. What a run does begins with the `Options` that
it results in, and what is proved of a run is proved for all of them.
-/

namespace WordMachine.CommandLine

/-- What the arguments asked for. -/
structure Options where
  /-- the path of the memory image -/
  image : String
  /-- the text of the address to start at -/
  start : Option String
  /-- the text of the number of instructions to give up after -/
  maxSteps : Option String
  /-- whether the screen is mapped -/
  screen : Bool
  /-- whether the registers are printed when the run ends -/
  dump : Bool
deriving DecidableEq, Repr

/-- What the arguments read so far have said. -/
structure PartialOptions where
  image : Option String
  start : Option String
  maxSteps : Option String
  screen : Bool
  dump : Bool
deriving DecidableEq, Repr

/-- An argument by its form. -/
inductive Argument where
  /-- the end of the options -/
  | separator
  /-- an option with what follows the equals sign, if it has one -/
  | option (name : String) (value : Option String)
  /-- dashes that begin no option there is -/
  | malformed
  /-- anything else -/
  | operand (text : String)
deriving DecidableEq, Repr

/-- Splits an option into its name and its value, which may begin with further equals signs. -/
def splitOption (text : List Char) : String × Option String :=
  (String.ofList (text.takeWhile (· != '=')),
    match text.dropWhile (· != '=') with
    | [] => none
    | value => some (String.ofList (value.dropWhile (· == '='))))

/-- The form of an argument. -/
def Argument.ofString (text : String) : Argument :=
  match text.toList with
  | ['-', '-'] => separator
  | '-' :: '-' :: rest =>
    match splitOption (rest.dropWhile (· == '-')) with
    | (name, value) => option name value
  | '-' :: _ :: _ => malformed
  | _ => operand text

namespace PartialOptions

/-- Before any argument. -/
def initial : PartialOptions := ⟨none, none, none, false, false⟩

/-- Takes in an operand, which can only be the image. -/
def operand (options : PartialOptions) (text : String) : Option PartialOptions :=
  if options.image.isNone then some { options with image := text } else none

/-- Takes in an option without a value. -/
def flag (options : PartialOptions) (name : String) : Option PartialOptions :=
  match name with
  | "screen" => if options.screen then none else some { options with screen := true }
  | "dump" => if options.dump then none else some { options with dump := true }
  | _ => none

/-- Takes in an option with a value. -/
def valued (options : PartialOptions) (name value : String) : Option PartialOptions :=
  match name with
  | "start" => if options.start.isNone then some { options with start := value } else none
  | "max-steps" =>
    if options.maxSteps.isNone then some { options with maxSteps := value } else none
  | _ => none

/-- Whether the option of this name has a value. -/
def hasValue (name : String) : Bool := name == "start" || name == "max-steps"

/-- Takes in arguments. An option without a value ignores one that is given. -/
def read (options : PartialOptions) : List String → Option PartialOptions
  | [] => some options
  | argument :: rest =>
    match Argument.ofString argument with
    | .separator => rest.foldlM operand options
    | .malformed => none
    | .operand text => do read (← options.operand text) rest
    | .option name value =>
      if hasValue name then
        match value, rest with
        | some value, rest => do read (← options.valued name value) rest
        | none, argument :: rest =>
          match Argument.ofString argument with
          | .operand value => do read (← options.valued name value) rest
          | _ => none
        | none, [] => none
      else do read (← options.flag name) rest

/-- The options, if the arguments named an image. -/
def complete (options : PartialOptions) : Option Options :=
  options.image.map fun image =>
    ⟨image, options.start, options.maxSteps, options.screen, options.dump⟩

end PartialOptions

/-- The options that arguments stand for, unless they are malformed. Only the program itself calls
    this; runs are about any options. -/
def Options.ofArguments (arguments : List String) : Option Options := do
  (← PartialOptions.initial.read arguments).complete

end WordMachine.CommandLine

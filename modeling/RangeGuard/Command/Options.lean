import RangeGuard.Settings
import RangeGuard.Text.Numeral
import RangeGuard.Text.Split

/-!
# Command-line options

The arguments of the command: the name of a class, and options. An option with a value takes it from
the next argument or after an equals sign; it may be given once. The argument `--` ends the options.

`Options.parse` reads the arguments from left to right and stops at the first that is wrong
(`UsageError`); `Options.settings` gives what they ask of a verification, with defaults for the
rest.
-/

namespace RangeGuard

/-- What is wrong with the arguments of the command. -/
inductive UsageError where
  /-- There is no such option. -/
  | unknownOption (argument : String)
  /-- An option that takes none has a value. -/
  | unexpectedValue (option : String)
  /-- An option that takes a value has none. -/
  | missingValue (option : String)
  /-- An option has a value that it cannot take. -/
  | invalidValue (option value : String)
  /-- An option is given twice. -/
  | repeated (option : String)
  /-- There is a second class. -/
  | unexpectedArgument (argument : String)
  /-- There is no class. -/
  | missingClass
deriving DecidableEq

/-- The wording of an error. -/
def UsageError.message : UsageError → String
  | unknownOption argument => "unexpected argument '" ++ argument ++ "' found"
  | unexpectedValue option => "no value is expected for '--" ++ option ++ "'"
  | missingValue option => "a value is required for '--" ++ option ++ "'"
  | invalidValue option value => "invalid value '" ++ value ++ "' for '--" ++ option ++ "'"
  | repeated option => "'--" ++ option ++ "' cannot be used multiple times"
  | unexpectedArgument argument => "unexpected argument '" ++ argument ++ "' found"
  | missingClass => "the name of a class is required"

/-- What the arguments say. An option that is not given has no value. -/
structure Options where
  /-- The class to verify. -/
  className : Option String := none
  /-- The directory of the class files. -/
  classpath : Option String := none
  /-- The merge into a loop header from which on widening replaces the join. -/
  wideningThreshold : Option Nat := none
  /-- The class of the collection. -/
  collectionType : Option String := none
  /-- The indexing method of the collection. -/
  indexMethod : Option String := none
  /-- The directory for drawings. -/
  dot : Option String := none
  /-- A failure of the domain leaves a procedure unproven. -/
  strict : Bool := false
  /-- How often more diagnostics were asked for. -/
  verbosity : Nat := 0
deriving DecidableEq

namespace Options

/-! ## Values -/

/-- Numbers are below this limit. -/
def numberLimit : Nat := 18446744073709551616

/-- Reads a number: digits, with a plus sign before them if one is wanted. -/
def number? (s : String) : Option Nat :=
  (Text.natural? ((Text.dropStart? ['+'] s.toList).getD s.toList)).filter fun n =>
    decide (n < numberLimit)

/-- Gives an option its value unless it has one. -/
def setOnce {α : Type} (option : String) (old : Option α) (new : α) :
    Except UsageError (Option α) :=
  match old with
  | none => .ok (some new)
  | some _ => .error (.repeated option)

/-- Reads a path; the empty text is none. -/
def pathValue (option value : String) : Except UsageError String :=
  if value = "" then .error (.invalidValue option value) else .ok value

/-- The names of the options that take a value. -/
def valued : List String :=
  ["classpath", "widening-threshold", "collection-type", "index-method", "dot"]

/-- Gives a value to an option that takes one. -/
def setValue (o : Options) (option value : String) : Except UsageError Options :=
  match option with
  | "classpath" => do
    let path ← pathValue option value
    return { o with classpath := ← setOnce option o.classpath path }
  | "widening-threshold" =>
    match number? value with
    | none => .error (.invalidValue option value)
    | some n => return { o with wideningThreshold := ← setOnce option o.wideningThreshold n }
  | "collection-type" => return { o with collectionType := ← setOnce option o.collectionType value }
  | "index-method" => return { o with indexMethod := ← setOnce option o.indexMethod value }
  | "dot" => do
    let path ← pathValue option value
    return { o with dot := ← setOnce option o.dot path }
  | _ => .error (.unknownOption ("--" ++ option))

/-! ## Arguments -/

/-- Sets an option that takes no value. -/
def setFlag (o : Options) (option : String) : Except UsageError Options :=
  match option with
  | "strict" => if o.strict then .error (.repeated option) else .ok { o with strict := true }
  | "verbose" => .ok { o with verbosity := o.verbosity + 1 }
  | _ => .error (.unknownOption ("--" ++ option))

/-- Takes an argument as the class. -/
def setClass (o : Options) (argument : String) : Except UsageError Options :=
  match o.className with
  | none => .ok { o with className := some argument }
  | some _ => .error (.unexpectedArgument argument)

/-- The argument has the form of options: a minus sign with something after it. -/
def looksLikeOption (argument : String) : Bool :=
  match argument.toList with
  | '-' :: _ :: _ => true
  | _ => false

/-- Reads short options. The only one is `v`, and it may be repeated. -/
def setShort (o : Options) (argument : String) : Except UsageError Options :=
  let letters := argument.toList.drop 1
  if letters.all (· = 'v') then .ok { o with verbosity := o.verbosity + letters.length }
  else .error (.unknownOption argument)

/-- The name of a long option and the value after its equals sign, if there is one. -/
def splitLong (argument : String) : String × Option String :=
  let body := String.ofList (argument.toList.drop 2)
  match Text.splitOnce '=' body with
  | some (option, value) => (option, some value)
  | none => (body, none)

/-- What the next argument is. -/
inductive Expecting where
  /-- An option or the class. -/
  | anything
  /-- The value of an option. -/
  | valueOf (option : String)
  /-- The class, whatever it looks like. -/
  | operand
deriving DecidableEq

/-- Reads a long option. -/
def readLong (o : Options) (argument : String) : Except UsageError (Expecting × Options) :=
  match splitLong argument with
  | (option, some value) =>
    if option ∈ valued then return (.anything, ← o.setValue option value)
    else do
      -- an option that is unknown or repeated is reported as that
      let _ ← o.setFlag option
      .error (.unexpectedValue option)
  | (option, none) =>
    if option ∈ valued then .ok (.valueOf option, o)
    else return (.anything, ← o.setFlag option)

/-- Reads one argument. -/
def readArgument (state : Expecting × Options) (argument : String) :
    Except UsageError (Expecting × Options) :=
  let o := state.2
  match state.1 with
  | .operand => return (.operand, ← o.setClass argument)
  | .valueOf option =>
    -- a single minus sign does not look like an option, so it can be a value
    if looksLikeOption argument then .error (.missingValue option)
    else return (.anything, ← o.setValue option argument)
  | .anything =>
    if argument = "--" then .ok (.operand, o)
    else if (Text.after? "--" argument).isSome then o.readLong argument
    else if looksLikeOption argument then return (.anything, ← o.setShort argument)
    else return (.anything, ← o.setClass argument)

/-- Reads the arguments of the command: the class and the options. -/
def parse (arguments : List String) : Except UsageError (String × Options) := do
  match ← arguments.foldlM readArgument (Expecting.anything, ({} : Options)) with
  -- the last argument was an option that waits for its value
  | (.valueOf option, _) => .error (.missingValue option)
  | (_, o) =>
    match o.className with
    | none => .error .missingClass
    | some className => return (className, o)

/-! ## What is asked for -/

/-- The directory of the class files; the working directory unless another one is given. -/
def directory (o : Options) : String := o.classpath.getD "."

/-- The settings that the options ask for. -/
def settings (o : Options) : Settings :=
  let defaults : Settings := {}
  { defaults with
    wideningThreshold := o.wideningThreshold.getD defaults.wideningThreshold
    collection :=
      { className := o.collectionType.getD defaults.collection.className
        indexMethod := o.indexMethod.getD defaults.collection.indexMethod }
    strict := o.strict }

end Options

end RangeGuard

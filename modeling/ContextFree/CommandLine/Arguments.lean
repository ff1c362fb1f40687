import ContextFree.Document.Place
import ContextFree.Text.Numeral

/-!
# Command line arguments

The arguments name at most one file and set options.  They are read from left to right, and the
first one that is not allowed, or that asks for the version or for help, settles what is done.

An option that takes a value has it in the same argument, after an equals sign or right after the
letter, or in the next argument.  No option may be given twice.  After `--` every argument is a
file name.
-/

namespace ContextFree

/-- What the arguments set. -/
structure Settings where
  file : Option FileName := none
  fromOpening : Bool := false
  derivations : Option Nat := none
  maxSteps : Option Nat := none

/-- What the arguments ask for. -/
inductive Request where
  | show (settings : Settings)
  | version
  | help
  | refused

namespace Settings

/-- The number of derivations when none is given. -/
def defaultDerivations : Nat := 0

/-- The limit of steps when none is given. -/
def defaultMaxSteps : Nat := 64

/-- The greatest number of derivations: what 32 bits hold. -/
def greatestDerivations : Nat := 4294967295

/-- The greatest limit of steps: what 64 bits hold. -/
def greatestMaxSteps : Nat := 18446744073709551615

/-- The number of derivations that a value gives.  It is read as an integer, so a minus sign is
allowed before zero. -/
def amount? (value : Text) : Option Nat := do
  let n ← value.integer?
  if 0 ≤ n ∧ n.toNat ≤ greatestDerivations then some n.toNat else none

/-- The limit of steps that a value gives.  It is read as a natural number, without a minus
sign. -/
def limit? (value : Text) : Option Nat := do
  let n ← value.natural?
  if n ≤ greatestMaxSteps then some n else none

/-- Takes an argument as the name of the file. -/
def setFile? (s : Settings) (name : Text) : Option Settings :=
  if s.file.isSome ∨ name = [] then none else some { s with file := some ⟨name⟩ }

/-- Sets that runs start in the opening state. -/
def setFromOpening? (s : Settings) : Option Settings :=
  if s.fromOpening then none else some { s with fromOpening := true }

/-- Sets the number of derivations. -/
def setDerivations? (s : Settings) (value : Text) : Option Settings := do
  let n ← amount? value
  if s.derivations.isSome then none else some { s with derivations := some n }

/-- Sets the limit of steps. -/
def setMaxSteps? (s : Settings) (value : Text) : Option Settings := do
  let n ← limit? value
  if s.maxSteps.isSome then none else some { s with maxSteps := some n }

end Settings

namespace Request

/-- What an argument is on its own. -/
inductive Argument where
  | endOfOptions
  | switch (set? : Settings → Option Settings)
  | option (set? : Settings → Text → Option Settings) (value : Option Text)
  | request (r : Request)
  | file (name : Text)

/-- The parts of a long option before and after its first equals sign. -/
def splitValue (option : Text) : Text × Option Text :=
  match option.cut? ['='] with
  | some (name, value) => (name, some value)
  | none => (option, none)

/-- What an argument with two dashes is, without the dashes. -/
def longArgument (option : Text) : Argument :=
  match splitValue option with
  | (name, value) =>
    if name = "derivations".toList then .option Settings.setDerivations? value
    else if name = "max-steps".toList then .option Settings.setMaxSteps? value
    else if value.isSome then .request .refused
    else if name = "start-at-initializer".toList then .switch Settings.setFromOpening?
    else if name = "version".toList then .request .version
    else if name = "help".toList then .request .help
    else .request .refused

/-- What an argument with one dash is, given its letter and what follows the letter. -/
def shortArgument (letter : Char) (rest : Text) : Argument :=
  if letter = 'n' then
    .option Settings.setDerivations?
      (match rest with
        | [] => none
        | '=' :: value => some value
        | value => some value)
  else if letter = 'V' then .request .version
  else if letter = 'h' then .request .help
  else .request .refused

/-- What an argument is.  A dash alone is a file name. -/
def argument : Text → Argument
  | ['-', '-'] => .endOfOptions
  | '-' :: '-' :: option => longArgument option
  | '-' :: letter :: rest => shortArgument letter rest
  | name => .file name

/-- Whether an argument can be the value of the option before it. -/
def isValue : Text → Bool
  | '-' :: _ :: _ => false
  | _ => true

/-- Takes all arguments as file names. -/
def ofFiles (s : Settings) : List Text → Request
  | [] => .show s
  | name :: rest =>
    match s.setFile? name with
    | some s => ofFiles s rest
    | none => .refused

/-- What the arguments ask for, given what the arguments before them set. -/
def ofArgumentsFrom (s : Settings) : List Text → Request
  | [] => .show s
  | first :: rest =>
    match argument first with
    | .endOfOptions => ofFiles s rest
    | .request r => r
    | .file name =>
      match s.setFile? name with
      | some s => ofArgumentsFrom s rest
      | none => .refused
    | .switch set? =>
      match set? s with
      | some s => ofArgumentsFrom s rest
      | none => .refused
    | .option set? (some value) =>
      match set? s value with
      | some s => ofArgumentsFrom s rest
      | none => .refused
    | .option set? none =>
      match rest with
      | [] => .refused
      | value :: rest =>
        if isValue value then
          match set? s value with
          | some s => ofArgumentsFrom s rest
          | none => .refused
        else .refused

/-- What the arguments ask for. -/
def ofArguments (arguments : List Text) : Request := ofArgumentsFrom {} arguments

end Request

end ContextFree

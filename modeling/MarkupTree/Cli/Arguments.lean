import MarkupTree.Text.Split
import MarkupTree.Text.Break

/-!
# Arguments of a command

Arguments are options and one positional value, in any order. A long option has its value after an
equals sign or in the next argument; a short one also right after its letter. A value that is an
argument of its own does not start with a dash, unless it is nothing but a dash. After two dashes
an argument is positional whatever it looks like.

Arguments are taken from left to right, and the first that cannot be taken decides: it may be one
that the command does not know, one with a value that is not accepted, one in a role that has been
given before, or one that asks for help.

## Main definitions

* `Cli.OptionRule`, `Cli.Rules` : what a command takes.
* `Cli.Argument` : an argument in its role.
* `Cli.Stop` : why arguments are not taken.
* `Cli.Rules.take`, `Cli.scan` : one argument more, and all arguments, in their roles.
* `Cli.positional?`, `Cli.value?` : access to them.
-/

namespace MarkupTree.Cli

/-- An option that a command takes. -/
structure OptionRule where
  long : String
  short : Option Char := none
  /-- The values that it accepts; without them it is a flag, which has no value. -/
  accepts : Option (String → Bool) := none

/-- What a command takes. -/
structure Rules where
  options : List OptionRule
  /-- The positional values that it accepts. -/
  acceptsPositional : String → Bool

/-- An argument in its role. -/
inductive Argument
  | positional (value : String)
  | flag (long : String)
  | option (long value : String)
deriving DecidableEq

/-- Why arguments are not taken: they are wrong, or they ask for help. -/
inductive Stop
  | wrongUsage
  | help
deriving DecidableEq

/-! ### The look of an argument -/

/-- What one argument is by its look. -/
inductive Shape
  | endOfOptions
  | complete (argument : Argument)
  | needsValue (long : String)
  | help
  | unknown

/-- Whether an argument looks like an option. -/
def looksLikeOption (s : String) : Bool := s.startsWith "-" && s != "-"

/-- A long option, without its dashes. -/
def longShape (rules : List OptionRule) (s : List Char) : Shape :=
  let parts := match Text.splitFirst? '=' s with
    | some (name, value) => (String.ofList name, some (String.ofList value))
    | none => (String.ofList s, none)
  match rules.find? fun rule => rule.long == parts.1, parts.2 with
  | some rule, some value =>
    if rule.accepts.isSome then .complete (.option rule.long value) else .unknown
  | some rule, none =>
    if rule.accepts.isSome then .needsValue rule.long else .complete (.flag rule.long)
  | none, value => if parts.1 = "help" ∧ value = none then .help else .unknown

/-- A short option, by its letter and what follows that. -/
def shortShape (rules : List OptionRule) (letter : Char) (more : List Char) : Shape :=
  match rules.find? fun rule => rule.short == some letter with
  | some rule =>
    match more with
    | [] => .needsValue rule.long
    | '=' :: value => .complete (.option rule.long (String.ofList value))
    | value => .complete (.option rule.long (String.ofList value))
  | none => if letter = 'h' then .help else .unknown

/-- What an argument is by its look. -/
def shapeOf (rules : List OptionRule) (argument : String) : Shape :=
  match argument.toList with
  | ['-', '-'] => .endOfOptions
  | '-' :: '-' :: s => longShape rules s
  | '-' :: letter :: more => shortShape rules letter more
  | _ => .complete (.positional argument)

/-! ### Taking arguments -/

/-- Whether two arguments have the same role. -/
def Argument.sameRole : Argument → Argument → Bool
  | .positional _, .positional _ => true
  | .flag long, .flag other => long == other
  | .option long _, .option other _ => long == other
  | _, _ => false

/-- Whether the value of an argument is one that is accepted in its role. -/
def Rules.accepts (rules : Rules) : Argument → Bool
  | .positional value => rules.acceptsPositional value
  | .flag _ => true
  | .option long value =>
    (rules.options.find? fun rule => rule.long == long).any fun rule =>
      rule.accepts.any fun accepts => accepts value

/-- Takes one argument more. Its role is given once at most. -/
def Rules.take (rules : Rules) (taken : List Argument) (argument : Argument) :
    Except Stop (List Argument) :=
  if taken.any argument.sameRole || !rules.accepts argument then .error .wrongUsage
  else .ok (argument :: taken)

/-- Arguments in their roles, after those that were taken already. -/
def scan (rules : Rules) (taken : List Argument) : List String → Except Stop (List Argument)
  | [] => .ok taken
  | argument :: arguments =>
    match shapeOf rules.options argument with
    | .endOfOptions => (arguments.map .positional).foldlM rules.take taken
    | .complete known => do scan rules (← rules.take taken known) arguments
    | .needsValue long =>
      match arguments with
      | [] => .error .wrongUsage
      | value :: others =>
        if looksLikeOption value then .error .wrongUsage
        else do scan rules (← rules.take taken (.option long value)) others
    | .help => .error .help
    | .unknown => .error .wrongUsage

/-! ### Access -/

/-- The positional value. -/
def positional? (taken : List Argument) : Option String :=
  taken.findSome? fun
    | .positional value => some value
    | _ => none

/-- The value of an option. -/
def value? (long : String) (taken : List Argument) : Option String :=
  taken.findSome? fun
    | .option name value => if name = long then some value else none
    | _ => none

/-- A value that has to be there. -/
def required : Option String → Except Stop String
  | some value => .ok value
  | none => .error .wrongUsage

/-- Whether a text is a path, which is never empty. -/
def isPath (value : String) : Bool := !value.isEmpty

end MarkupTree.Cli

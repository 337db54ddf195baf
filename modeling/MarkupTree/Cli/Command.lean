import MarkupTree.Cli.Arguments
import MarkupTree.Json.Pretty
import MarkupTree.Json.Reader
import MarkupTree.Page.Writer
import MarkupTree.Tree.Codec
import MarkupTree.Tree.Outline
import MarkupTree.Tree.Pass

/-!
# Commands

The program has two commands: one writes the page of a template, the other gives structure to a
tree that is kept as JSON, and prints it.

## Main definitions

* `Cli.Command`, `Cli.Request` : what the program can be asked for.
* `Cli.Request.parse` : the request that arguments make.
* `Cli.Result` : what a run leaves behind.
* `Cli.answer` : carries out what arguments ask for.
-/

namespace MarkupTree.Cli

/-- Writing a page. The references and the resources are listed in files. -/
structure PageCommand where
  template : String
  main : String
  references : String
  resources : Option String
  linker : Bool
  entryPoint : Option String
  output : String

/-- Giving structure to a tree. -/
structure TreeCommand where
  input : String
  json : Bool
  policy : Policy

/-- The commands. -/
inductive Command
  | page (command : PageCommand)
  | tree (command : TreeCommand)

/-- What the program can be asked for. -/
inductive Request
  | run (command : Command)
  | version

/-! ### Arguments -/

/-- What the page command takes. -/
def pageRules : Rules where
  options :=
    [{ long := "main", accepts := some isPath }, { long := "references", accepts := some isPath },
      { long := "resources", accepts := some isPath }, { long := "linker" },
      { long := "entry-point", accepts := some fun _ => true },
      { long := "output", short := some 'o', accepts := some isPath }]
  acceptsPositional := isPath

/-- What becomes of white space at the root, by its name. -/
def whitespaceNamed? : String → Option RootWhitespace
  | "elide" => some .elide
  | "method-scope-only" => some .methodScopeOnly
  | "preserve" => some .preserve
  | _ => none

/-- What the tree command takes. -/
def treeRules : Rules where
  options :=
    [{ long := "json" },
      { long := "root-whitespace", accepts := some fun name => (whitespaceNamed? name).isSome },
      { long := "coalesce-text" }]
  acceptsPositional := isPath

/-- The page command that arguments give. -/
def parsePage (arguments : List String) : Except Stop PageCommand := do
  let given ← scan pageRules [] arguments
  let template ← required (positional? given)
  let main ← required (value? "main" given)
  let references ← required (value? "references" given)
  let output ← required (value? "output" given)
  return {
    template, main, references, output
    resources := value? "resources" given
    linker := given.contains (.flag "linker")
    entryPoint := value? "entry-point" given }

/-- The tree command that arguments give. -/
def parseTree (arguments : List String) : Except Stop TreeCommand := do
  let given ← scan treeRules [] arguments
  let input ← required (positional? given)
  return {
    input
    json := given.contains (.flag "json")
    policy :=
      { rootWhitespace := ((value? "root-whitespace" given).bind whitespaceNamed?).getD .elide
        coalesceText := given.contains (.flag "coalesce-text") } }

/-- What comes of asking for help on topics: there is one at most, and it is a command. -/
def helpOn : List String → Stop
  | [] => .help
  | [topic] => if topic = "shell" ∨ topic = "rewrite" ∨ topic = "help" then .help else .wrongUsage
  | _ => .wrongUsage

/-- The request that arguments make. -/
def Request.parse : List String → Except Stop Request
  | [] => .error .wrongUsage
  | argument :: arguments =>
    if argument = "shell" then (parsePage arguments).map (.run ∘ .page)
    else if argument = "rewrite" then (parseTree arguments).map (.run ∘ .tree)
    else if argument = "--version" ∨ argument.startsWith "-V" then .ok .version
    else if argument = "--help" ∨ argument.startsWith "-h" then .error .help
    else if argument = "help" then .error (helpOn arguments)
    else .error .wrongUsage

/-! ### Carrying out -/

/-- What a run leaves behind. -/
structure Result where
  exitCode : Nat := 0
  out : String := ""
  err : String := ""
deriving DecidableEq

/-- How the program is used. -/
def usage : String :=
  "Usage: markup-rewrite shell --main <FILE> --references <LIST> --output <FILE> <TEMPLATE>\n" ++
    "       markup-rewrite rewrite [--json] [--root-whitespace <RULE>] [--coalesce-text] <FILE>\n"

/-- The name and the version of the program. -/
def version : String := "markup-rewrite 0.1.0\n"

/-- The result of a run that failed: what was being done, and what went wrong. -/
def failed (context : String) (chain : List String) : Result :=
  { exitCode := 1, err := "error: " ++ ": ".intercalate (context :: chain) ++ "\n" }

variable {m : Type → Type} [Monad m] [Store m]

/-- Carries out work on a page; where that fails, `context` says what was being done. -/
def within {α : Type} (context : String) (work : ExceptT Page.Failure m α) :
    ExceptT Result m α :=
  ExceptT.mk ((Except.mapError (fun failure => failed context failure.chain) ·) <$> work.run)

/-- Writes a page. -/
def runPage (command : PageCommand) : ExceptT Result m Result := do
  let references ← within ("reading reference list " ++ command.references)
    (Page.readList command.references)
  let resources ← match command.resources with
    | some list => within ("reading resource list " ++ list) (Page.readList list)
    | none => pure []
  let config : Page.Config :=
    { mainAssembly := command.main
      entryPoint := command.entryPoint
      references
      resources
      linkerEnabled := command.linker }
  let _ ← within ("writing host page from " ++ command.template)
    (Page.writePage command.template config command.output)
  return {}

/-- The text of a tree, in the form that was asked for. -/
def showTree (json : Bool) (tree : Node) : String :=
  (if json then tree.toJson.pretty else tree.outlineText) ++ "\n"

/-- The result of giving structure to the tree that a text holds. -/
def treeResult (command : TreeCommand) (text : String) : Result :=
  match (Json.parse? text).bind Node.ofJson? with
  | none => { exitCode := 1, err := "error: parsing IR from " ++ command.input }
  | some tree =>
    let done := restructure command.policy tree
    match done.failure with
    | some failure => failed ("rewriting " ++ command.input) [failure.message]
    | none => { out := showTree command.json done.result }

/-- Gives structure to a tree. -/
def runTree (command : TreeCommand) : ExceptT Result m Result := do
  match ← ExceptT.lift (readText command.input) with
  | .error cause => return failed ("reading " ++ command.input) [cause.message]
  | .ok text => return treeResult command text

/-- Carries out a command. -/
def Command.run : Command → m Result
  | .page command => (fun | .ok r => r | .error r => r) <$> (runPage command).run
  | .tree command => (fun | .ok r => r | .error r => r) <$> (runTree command).run

/-- Carries out what arguments ask for. -/
def answer (arguments : List String) : m Result :=
  match Request.parse arguments with
  | .ok (.run command) => command.run
  | .ok .version => pure { out := version }
  | .error .help => pure { out := usage }
  | .error .wrongUsage => pure { exitCode := 2, err := usage }

end MarkupTree.Cli

namespace FieldMask.CommandLine

/-!
# What can be asked on the command line

* `Command` — the commands with what they work on.
* `Invocation` — a command and what goes for all of them.
* `UsageError` — why some arguments ask for no command; `UsageError.message` — the wording.
-/

/-- A command.  Every command has a word of its own on the command line. -/
inductive CommandName where
  | check
  | merge
  | flatten
  | project
  deriving DecidableEq

/-- The word for a command. -/
def CommandName.word : CommandName → String
  | check => "check"
  | merge => "merge"
  | flatten => "export"
  | project => "project"

/-- The command that a word stands for. -/
def CommandName.ofWord? (word : String) : Option CommandName :=
  [check, merge, flatten, project].find? (·.word == word)

/-- A command with what it works on.  Expressions are kept as they are written: they are
read only when the command is carried out, and then fail as masks, not as arguments. -/
inductive Command where
  /-- Checks an expression and prints it, as an expression again or as a JSON object. -/
  | check (expression : String) (asObject : Bool)
  /-- Layers masks and prints the result; earlier ones win. -/
  | merge (expressions : List String)
  /-- Prints the flat projection of a mask. -/
  | flatten (expression : String)
  /-- Projects a document, or every line of an input, through layered masks.  Without a file,
  standard input is read. -/
  | project (masks : List String) (byLine : Bool) (file : Option String)
  deriving DecidableEq

/-- A command, and how many subtrees a mask may nest inside each other. -/
structure Invocation where
  maxDepth : Option Nat
  command : Command
  deriving DecidableEq

/-- Why some arguments ask for no command.  Requests for help and for the version are among
them, as they too end the reading of the arguments and print a text in the stead of a
result. -/
inductive UsageError where
  /-- They are a request for help. -/
  | help
  /-- They are a request for the version. -/
  | version
  /-- There are none. -/
  | nothingAsked
  /-- There are options alone. -/
  | missingCommand
  /-- A word stands where a command's word should. -/
  | unknownCommand (word : String)
  /-- An option is given twice. -/
  | repeated (option : String)
  /-- A depth is no number. -/
  | invalidDepth (value : String)
  /-- A value is missing or must not be empty. -/
  | missingValue (place : String)
  /-- An option that takes no value has one. -/
  | unneededValue (option : String)
  /-- An expression is missing. -/
  | missingExpression
  /-- An argument has no meaning where it stands. -/
  | unknownArgument (argument : String)
  deriving DecidableEq

/-- The name and version of the program. -/
def versionLine : String := "sieve 0.3.0\n"

/-- How the program is called.  It lists the commands with what they take, and is printed
for help and where nothing is asked. -/
def usageText : String :=
  "Parse, merge and apply field-projection masks.\n\n" ++
  "Usage: sieve [-v] [--max-depth N] COMMAND\n\n" ++
  "Commands:\n" ++
  "  check EXPR [--json]                       print a mask in canonical form\n" ++
  "  merge EXPR...                             overlay masks, earlier ones win\n" ++
  "  export EXPR                               print the flat projection of a mask\n" ++
  "  project [-m EXPR]... [--lines] [FILE]     filter a JSON document\n"

/-- The wording of a usage error.  Every one of them is a whole line, except for the text of
the usage, which has several. -/
def UsageError.message : UsageError → String
  | help => usageText
  | version => versionLine
  | nothingAsked => usageText
  | missingCommand => "error: a command is required\n"
  | unknownCommand word => "error: unknown command '" ++ word ++ "'\n"
  | repeated option => "error: '" ++ option ++ "' cannot be used multiple times\n"
  | invalidDepth value => "error: invalid value '" ++ value ++ "' for '--max-depth'\n"
  | missingValue place => "error: a value is required for '" ++ place ++ "'\n"
  | unneededValue option => "error: '" ++ option ++ "' takes no value\n"
  | missingExpression => "error: a mask expression is required\n"
  | unknownArgument argument => "error: unexpected argument '" ++ argument ++ "'\n"

end FieldMask.CommandLine

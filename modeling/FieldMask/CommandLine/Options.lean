import FieldMask.CommandLine.Invocation

namespace FieldMask.CommandLine

/-!
# Options

Some options are known everywhere and some at one level only: in front of the command's word, or
behind the word of a certain command.

* `Flag`, `Setting` — options without and with a value; `OptionName` — either.
* `Level` — where an argument stands; `Level.options` — the options known there.
* `Shape` — how an argument is spelled.
-/

/-- An option without a value.  A flag is given or not; that it is given twice is an
error. -/
inductive Flag where
  | help
  | version
  | verbose
  | json
  | lines
  deriving DecidableEq

/-- An option with a value. -/
inductive Setting where
  | maxDepth
  | mask
  deriving DecidableEq

/-- An option. -/
inductive OptionName where
  | flag (flag : Flag)
  | setting (setting : Setting)
  deriving DecidableEq

/-- The long name of a flag.  It is also the name by which the flag is called in
messages. -/
def Flag.long : Flag → String
  | help => "--help"
  | version => "--version"
  | verbose => "--verbose"
  | json => "--json"
  | lines => "--lines"

/-- The long name of a setting. -/
def Setting.long : Setting → String
  | maxDepth => "--max-depth"
  | mask => "--mask"

/-- The long name of an option. -/
def OptionName.long : OptionName → String
  | flag name => name.long
  | setting name => name.long

/-- The letter of an option, if it has one.  It does not depend on the level. -/
def OptionName.letter? : OptionName → Option Char
  | flag .help => some 'h'
  | flag .version => some 'V'
  | flag .verbose => some 'v'
  | setting .mask => some 'm'
  | _ => none

/-- Where an argument stands.  Which options are known, and how many operands there may be,
depends on it. -/
inductive Level where
  /-- In front of the command's word. -/
  | top
  /-- Behind the word of a command. -/
  | command (name : CommandName)
  deriving DecidableEq

namespace Level

/-- The options known everywhere. -/
def shared : List OptionName := [.flag .help, .flag .verbose, .setting .maxDepth]

/-- The options known at a level.  Some are known at every level, the others only where they
mean something. -/
def options : Level → List OptionName
  | top => .flag .version :: shared
  | command .check => .flag .json :: shared
  | command .merge => shared
  | command .flatten => shared
  | command .project => .setting .mask :: .flag .lines :: shared

/-- The option with a long name. -/
def ofLong? (level : Level) (name : String) : Option OptionName :=
  level.options.find? (·.long == name)

/-- The option with a letter. -/
def ofLetter? (level : Level) (letter : Char) : Option OptionName :=
  level.options.find? (·.letter? == some letter)

/-- Whether an operand at this level may begin with a hyphen: mask expressions do, file names do
not. -/
def takesHyphens : Level → Bool
  | top => false
  | command .project => false
  | command _ => true

/-- Whether the operand may be repeated. -/
def takesMany : Level → Bool
  | command .merge => true
  | _ => false

end Level

/-- How an argument is spelled.  Which options exist plays no part in it.  Only later is the
option looked up, so that an unknown one can be told from a value. -/
inductive Shape where
  /-- Two hyphens, a name, and a value behind an equals sign. -/
  | long (name : String) (value : Option String)
  /-- One hyphen and letters. -/
  | letters (letters : List Char)
  /-- Anything else, a hyphen alone too. -/
  | plain
  deriving DecidableEq

/-- The value behind an equals sign, which is the first of the given characters if there are
any. -/
def valueBehind : List Char → Option String
  | [] => none
  | _ :: value => some (String.ofList value)

/-- The spelling of an argument.  The first equals sign ends the name, and all that stands
behind it is the value, further equals signs too. -/
def Shape.of (argument : String) : Shape :=
  match argument.toList with
  | '-' :: '-' :: rest =>
    let name := '-' :: '-' :: rest.takeWhile (· != '=')
    .long (String.ofList name) (valueBehind (rest.dropWhile (· != '=')))
  | '-' :: c :: rest => .letters (c :: rest)
  | _ => .plain

end FieldMask.CommandLine

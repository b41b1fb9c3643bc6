import FieldMask.CommandLine.Options
import FieldMask.Text.Digits

namespace FieldMask.CommandLine

/-!
# Reading arguments

Arguments are read from the left.  An option's value is looked at only when the next option or
operand begins, or at the end, so of two mistakes the one that is noticed first counts.

* `Given` — what the arguments of a level have given; `Given.takeFlag`, `Given.takeSetting`,
  `Given.takeOperands` — one thing more.
* `Scan` — the state in between; `Scan.option?` — an argument that is an option;
  `Scan.operand` — one that is not.
* `readCommand` — the arguments behind the word of a command.
* `Invocation.ofArguments` — the whole command line.
-/

/-- The number that a text denotes, if it is one of 64 bits.  A plus sign may stand in
front.  Nothing else may stand there, not even a blank. -/
def readCount? (text : String) : Option Nat :=
  let digits : List Char :=
    match text.toList with
    | '+' :: rest => rest
    | cs => cs
  let value := digitsValue digits
  -- A number of any length is read before it is found too large; leading zeros do no harm.
  if digits ≠ [] ∧ digits.all Char.isDigit ∧ value < Nat.pow 2 64 then some value else none

/-! ### What has been given -/

/-- What the arguments of a level have given.  A level fills in what it knows and leaves the
rest as it was at the start. -/
structure Given where
  flags : List Flag
  maxDepth : Option Nat
  masks : List String
  /-- Mask expressions or the name of a file. -/
  operands : List String

namespace Given

/-- Nothing given. -/
def empty : Given := ⟨[], none, [], []⟩

/-- Whether anything is given. -/
def isEmpty (given : Given) : Bool := given.flags.isEmpty && given.maxDepth.isNone

/-- Takes a flag.  A request for help or for the version ends the reading.  Any other flag
may be given once. -/
def takeFlag (flag : Flag) (given : Given) : Except UsageError Given :=
  match flag with
  | .help => .error .help
  | .version => .error .version
  | flag =>
    if flag ∈ given.flags then .error (.repeated flag.long)
    else .ok { given with flags := flag :: given.flags }

/-- Takes a setting.  Masks may be given again and again, the depth once.  A depth that is
given twice is refused before its value is looked at. -/
def takeSetting (setting : Setting) (value : Option String) (given : Given) :
    Except UsageError Given :=
  match setting, value with
  | setting, none => .error (.missingValue setting.long)
  | .mask, some value => .ok { given with masks := given.masks ++ [value] }
  | .maxDepth, some value =>
    if given.maxDepth.isSome then .error (.repeated Setting.maxDepth.long)
    else
      match readCount? value with
      | none => .error (.invalidDepth value)
      | some depth => .ok { given with maxDepth := some depth }

/-- Takes operands: an expression may be empty, the name of a file may not. -/
def takeOperands (level : Level) (values : List String) (given : Given) : Except UsageError Given :=
  if level = .command .project ∧ "" ∈ values then .error (.missingValue "FILE")
  else .ok { given with operands := given.operands ++ values }

end Given

/-! ### One argument -/

/-- What has been begun and not been taken yet. -/
inductive Pending where
  | nothing
  /-- A setting, with its value if that has come. -/
  | setting (setting : Setting) (value : Option String)
  | operands (values : List String)

/-- The state of reading at one level. -/
structure Scan where
  given : Given
  pending : Pending

namespace Scan

/-- Nothing read. -/
def start : Scan := ⟨.empty, .nothing⟩

/-- Takes what is pending.  A fault in a value shows here and not where the value was
read. -/
def settle (level : Level) (scan : Scan) : Except UsageError Given :=
  match scan.pending with
  | .nothing => .ok scan.given
  | .setting setting value => scan.given.takeSetting setting value
  | .operands values => scan.given.takeOperands level values

/-- Whether the next argument is a value however it is spelled: it is behind a mask option, and
behind the first of many expressions. -/
def takesAnything (level : Level) (scan : Scan) : Bool :=
  match scan.pending with
  | .setting .mask none => true
  | .operands _ => level.takesMany
  | _ => false

/-- Whether an operand has been read. -/
def hasOperand (scan : Scan) : Bool :=
  match scan.pending with
  | .operands _ => true
  | _ => !scan.given.operands.isEmpty

/-- Whether the next argument is an operand if it is no option: there is room for one that may
begin with a hyphen. -/
def expectsHyphens (level : Level) (scan : Scan) : Bool := level.takesHyphens && !scan.hasOperand

/-- Reads a flag. -/
def flag (level : Level) (flag : Flag) (scan : Scan) : Except UsageError Scan := do
  let given ← scan.settle level
  return ⟨← given.takeFlag flag, .nothing⟩

/-- Reads a setting; without a value, it waits for one.  What is pending is settled
first. -/
def setting (level : Level) (setting : Setting) (value : Option String) (scan : Scan) :
    Except UsageError Scan := do
  let given ← scan.settle level
  match value with
  | none => return ⟨given, .setting setting none⟩
  | some value => return ⟨← given.takeSetting setting (some value), .nothing⟩

/-- Reads an option that is spelled by its name.  A value behind an equals sign belongs to a
setting; a flag that has one is refused. -/
def long (level : Level) (option : OptionName) (value : Option String) (scan : Scan) :
    Except UsageError Scan :=
  match option, value with
  | .flag flag, some _ => .error (.unneededValue flag.long)
  | .flag flag, none => scan.flag level flag
  | .setting setting, value => scan.setting level setting value

/-- The value attached to a letter, without an equals sign in front. -/
def attached : List Char → Option String
  | [] => none
  | '=' :: value => some (String.ofList value)
  | value => some (String.ofList value)

/-- Reads letters, each of them an option; what follows the letter of a setting is its
value.  They are taken in order, so a request for help is answered before a letter behind it
is found to be unknown. -/
def letters (level : Level) : List Char → Scan → Except UsageError Scan
  | [], scan => .ok scan
  | c :: rest, scan =>
    match level.ofLetter? c with
    | none => .error (.unknownArgument (String.ofList ['-', c]))
    -- Whatever is left of the argument belongs to the setting, letters too.
    | some (.setting setting) => scan.setting level setting (attached rest)
    | some (.flag flag) =>
      match scan.flag level flag with
      | .error e => .error e
      | .ok scan => letters level rest scan

/-- Reads an argument as an option; the result is absent if the argument is a value.  Where
a value is taken however it is spelled, the spelling is not looked at. -/
def option? (level : Level) (argument : String) (scan : Scan) : Except UsageError (Option Scan) :=
  if scan.takesAnything level then .ok none
  else
    -- From here on the spelling decides.
    match Shape.of argument with
    | .plain => .ok none
    | .long name value =>
      match level.ofLong? name with
      | some option => (scan.long level option value).map some
      -- An operand may look like an option that does not exist, where such operands are taken.
      | none =>
        if scan.expectsHyphens level then .ok none else .error (.unknownArgument argument)
    | .letters cs =>
      if scan.expectsHyphens level && cs.any (fun c => (level.ofLetter? c).isNone) then .ok none
      else (scan.letters level cs).map some

/-- Reads an operand of a command.  A command that takes many collects them in the order in
which they are given. -/
def operand (level : Level) (argument : String) (scan : Scan) : Except UsageError Scan :=
  match scan.pending with
  | .operands values =>
    if level.takesMany then .ok { scan with pending := .operands (values ++ [argument]) }
    else .error (.unknownArgument argument)
  | _ =>
    -- One operand too many is refused whatever value is pending.
    if scan.hasOperand then .error (.unknownArgument argument)
    else (scan.settle level).map fun given => ⟨given, .operands [argument]⟩

/-- Reads an argument that is no option: the value of a setting that waits for it, or an operand. -/
def value (level : Level) (argument : String) (scan : Scan) : Except UsageError Scan :=
  match scan.pending with
  | .setting setting none => .ok { scan with pending := .setting setting (some argument) }
  | _ => scan.operand level argument

/-- Reads arguments that are operands however they are spelled. -/
def operandsOnly (level : Level) (arguments : List String) (scan : Scan) : Except UsageError Scan :=
  arguments.foldlM (fun scan argument => scan.operand level argument) scan

end Scan

/-! ### All arguments -/

/-- The argument behind which all arguments are operands. -/
def separator : String := "--"

/-- Reads the arguments behind the word of a command.  Behind the separator all of them are
operands; it separates nothing where a value of any spelling is taken. -/
def readCommand (level : Level) (scan : Scan) : List String → Except UsageError Given
  | [] => scan.settle level
  | argument :: rest =>
    if argument = separator ∧ ¬ scan.takesAnything level then do
      (← scan.operandsOnly level rest).settle level
    else
      match scan.option? level argument with
      | .error e => .error e
      | .ok (some scan) => readCommand level scan rest
      | .ok none =>
        match scan.value level argument with
        | .error e => .error e
        | .ok scan => readCommand level scan rest

/-- The command that the arguments of its level have given.  Without a mask option, the mask of the
environment is used. -/
def Command.ofGiven (name : CommandName) (maskVariable : Option String) (given : Given) :
    Except UsageError Command :=
  match name, given.operands with
  | .project, files =>
    let masks := if given.masks = [] then maskVariable.toList else given.masks
    .ok (.project masks (.lines ∈ given.flags) files.head?)
  | _, [] => .error .missingExpression
  | .check, expression :: _ => .ok (.check expression (.json ∈ given.flags))
  | .merge, expressions => .ok (.merge expressions)
  | .flatten, expression :: _ => .ok (.flatten expression)

/-- The word that asks for help on the commands named behind it. -/
def helpWord : String := "help"

/-- Whether a word may stand where a command's word should. -/
def isCommandWord (word : String) : Bool :=
  word == helpWord || (CommandName.ofWord? word).isSome

/-- Answers a request for help on some commands; commands have no commands below them. -/
def helpOn : List String → UsageError
  | [] => .help
  | [word] => if isCommandWord word then .help else .unknownCommand word
  | word :: next :: _ => .unknownCommand (if isCommandWord word then next else word)

/-- What a command line without a command lacks. -/
def lacking (scan : Scan) : UsageError :=
  match scan.settle .top with
  | .error e => e
  | .ok given => if given.isEmpty then .nothingAsked else .missingCommand

/-- Answers a word behind the separator, where no command can stand. -/
def misplaced (word : String) : UsageError :=
  if isCommandWord word then .unknownArgument word else .unknownCommand word

/-- Reads the arguments behind the word of a command, and then takes what is pending in front of
it.  A depth behind the word wins. -/
def readInvocation (name : CommandName) (maskVariable : Option String) (scan : Scan)
    (arguments : List String) : Except UsageError Invocation := do
  let given ← readCommand (.command name) .start arguments
  let command ← Command.ofGiven name maskVariable given
  -- A value in front of the word is looked at last.
  let before ← scan.settle .top
  return ⟨given.maxDepth.or before.maxDepth, command⟩

/-- Reads the arguments in front of the command's word.  Options come first, then a word,
which must be that of a command; the arguments behind it belong to the command. -/
def readTop (maskVariable : Option String) (scan : Scan) :
    List String → Except UsageError Invocation
  | [] => .error (lacking scan)
  | argument :: rest =>
    if argument = separator then
      .error (rest.head?.elim (lacking scan) misplaced)
    else
      match scan.option? .top argument with
      | .error e => .error e
      | .ok (some scan) => readTop maskVariable scan rest
      | .ok none =>
        match scan.pending with
        -- The value of a setting comes before any word is looked for.
        | .setting setting none =>
          readTop maskVariable { scan with pending := .setting setting (some argument) } rest
        | _ =>
          if argument = helpWord then .error (helpOn rest)
          else
            match CommandName.ofWord? argument with
            | none => .error (.unknownCommand argument)
            | some name => readInvocation name maskVariable scan rest

/-- What a command line asks for; `maskVariable` is the mask of the environment. -/
def Invocation.ofArguments (maskVariable : Option String) (arguments : List String) :
    Except UsageError Invocation :=
  readTop maskVariable .start arguments

end FieldMask.CommandLine

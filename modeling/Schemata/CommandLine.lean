import Schemata.Number.Numeral
import Schemata.Text.Position

namespace Schemata

inductive LogLevel
  | error
  | warn
  | info
  | debug
  | trace
deriving DecidableEq

namespace LogLevel

def all : List LogLevel := [.error, .warn, .info, .debug, .trace]

def name : LogLevel → String
  | error => "error"
  | warn => "warn"
  | info => "info"
  | debug => "debug"
  | trace => "trace"

def number? (text : List Char) : Option Nat :=
  let digits := match text with
    | '+' :: cs => cs
    | cs => cs
  if digits.isEmpty || !digits.all Char.isDigit then none else some (digitsValue digits)

def ofText? (text : String) : Option LogLevel :=
  match number? text.toList with
  | some 0 => none
  | some (n + 1) => all[n]?
  | none => all.find? fun level => level.name.toList = text.toList.map Char.toLower

theorem ofText?_name (level : LogLevel) : ofText? level.name = some level := by cases level <;> rfl

end LogLevel

namespace CommandLine

inductive Word
  | plain (text : String)
  | separator
  | switches (letters : List Char)
  | option (name : String) (value : Option String)
deriving DecidableEq

namespace Word

def ofText (text : String) : Word :=
  match text.toList with
  | ['-', '-'] => separator
  | '-' :: '-' :: cs =>
    option (String.ofList (cs.takeWhile (· != '='))) <|
      match cs.dropWhile (· != '=') with
      | [] => none
      | _ :: value => some (String.ofList value)
  | '-' :: c :: cs => switches (c :: cs)
  | _ => plain text

def plain? : Word → Option String
  | plain text => some text
  | _ => none

end Word

inductive Argument
  | plain (text : String)
  | literal (text : String)
  | verbose
  | logLevel (level : LogLevel)
  | extensions (listed : List String)
deriving DecidableEq

namespace Argument

def verboseName : String := "verbose"

def logLevelName : String := "log-level"

def extensionsName : String := "sdl-file-exts"

def ofLetter? (letter : Char) : Option Argument := if letter = 'v' then some verbose else none

def ofValue? (name value : String) : Option Argument :=
  if name = logLevelName then (LogLevel.ofText? value).map logLevel
  else if name = extensionsName then
    some (extensions ((Text.pieces ',' value.toList).map String.ofList))
  else none

/-- Reads the words of a command line. The value of an option follows an equals sign, or is the next
word if that is plain. None if an option is unknown, or has a value that it does not take. -/
def ofWords? : List String → Option (List Argument)
  | [] => some []
  | word :: rest =>
    match Word.ofText word with
    | .plain text => do return plain text :: (← ofWords? rest)
    | .separator => some (rest.map literal)
    | .switches letters => do return (← letters.mapM ofLetter?) ++ (← ofWords? rest)
    | .option name (some value) => do return (← ofValue? name value) :: (← ofWords? rest)
    | .option name none =>
      if name = verboseName then do return verbose :: (← ofWords? rest)
      else match rest with
        | [] => none
        | value :: rest => do
          return (← ofValue? name (← (Word.ofText value).plain?)) :: (← ofWords? rest)

theorem ofWords?_separator (rest : List String) : ofWords? ("--" :: rest) = some (rest.map literal) := rfl

def path? : Argument → Option String
  | plain text => some text
  | literal text => some text
  | _ => none

def logLevel? : Argument → Option LogLevel
  | logLevel level => some level
  | _ => none

def extensions? : Argument → Option (List String)
  | extensions listed => some listed
  | _ => none

def isCommon : Argument → Bool
  | verbose => true
  | logLevel _ => true
  | _ => false

def unrepeated (arguments : List Argument) : Bool :=
  arguments.count verbose ≤ 1 && (arguments.filterMap logLevel?).length ≤ 1

end Argument

end CommandLine

end Schemata

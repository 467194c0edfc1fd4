/-! The command line: flags, a pattern and files. Arguments are read from left to right, and
the first one that is refused or that asks for the version or for help decides. -/

namespace PatternSearch

inductive Flag where
  | extended
  | recursive
  | colour
  | explain
deriving DecidableEq

inductive OptionMeaning where
  | flag (flag : Flag)
  | version
  | help

def longOption? : String → Option OptionMeaning
  | "--extended-regexp" => some (.flag .extended)
  | "--recursive" => some (.flag .recursive)
  | "--color" => some (.flag .colour)
  | "--explain" => some (.flag .explain)
  | "--version" => some .version
  | "--help" => some .help
  | _ => none

def shortOption? : Char → Option OptionMeaning
  | 'E' => some (.flag .extended)
  | 'r' => some (.flag .recursive)
  | 'V' => some .version
  | 'h' => some .help
  | _ => none

structure Arguments where
  flags : List Flag
  pattern : Option String
  files : List String
  optionsEnded : Bool
deriving DecidableEq

inductive Interruption where
  | version
  | help
  | usage
deriving DecidableEq

namespace Arguments

def initial : Arguments := ⟨[], none, [], false⟩

def addOption (arguments : Arguments) :
    Option OptionMeaning → Except Interruption Arguments
  | none => .error .usage
  | some .version => .error .version
  | some .help => .error .help
  | some (.flag flag) =>
      if flag ∈ arguments.flags then .error .usage
      else .ok { arguments with flags := arguments.flags ++ [flag] }

def addPositional (arguments : Arguments) (text : String) : Except Interruption Arguments :=
  match arguments.pattern with
  | none => .ok { arguments with pattern := some text }
  | some _ =>
      if text = "" then .error .usage
      else .ok { arguments with files := arguments.files ++ [text] }

/-- A lone dash is a positional argument. -/
def add (arguments : Arguments) (text : String) : Except Interruption Arguments :=
  if arguments.optionsEnded then arguments.addPositional text
  else match text.toList with
    | ['-', '-'] => .ok { arguments with optionsEnded := true }
    | '-' :: '-' :: _ => arguments.addOption (longOption? text)
    | '-' :: c :: letters =>
        (c :: letters).foldlM (fun known letter => known.addOption (shortOption? letter))
          arguments
    | _ => arguments.addPositional text

end Arguments

structure Options where
  pattern : String
  files : List String
  recursive : Bool
  colour : Bool
  explain : Bool
deriving DecidableEq

/-- Patterns are always read as extended ones, so that flag changes nothing. -/
def parseArguments (texts : List String) : Except Interruption Options := do
  let arguments ← texts.foldlM Arguments.add .initial
  match arguments.pattern with
  | none => throw .usage
  | some pattern =>
      return {
        pattern
        files := arguments.files
        recursive := .recursive ∈ arguments.flags
        colour := .colour ∈ arguments.flags
        explain := .explain ∈ arguments.flags }

end PatternSearch

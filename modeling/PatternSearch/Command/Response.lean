import PatternSearch.Command.Options
import PatternSearch.FileTree.Expansion
import PatternSearch.Graph.Printer
import PatternSearch.LineSearch
import PatternSearch.Text.Quoted

/-! What the command answers: an exit status and what it writes. Faulty patterns and files
that cannot be searched are reported, and the files that can be searched are searched all the
same. -/

namespace PatternSearch

structure Response where
  status : Nat
  out : List Char
  err : List Char
deriving DecidableEq

structure Surroundings where
  input : List UInt8
  lookup : String → Except PathError FileTree
  styles : Bool

namespace Response

def matchStatus (matched : Bool) : Nat := if matched then 0 else 1

def errorStatus : Nat := 2

def report (styles : Bool) (message : List Char) : List Char :=
  Style.boldRed.paint styles "error:".toList ++ ' ' :: message ++ ['\n']

def reportPath (styles : Bool) (path reason : String) : List Char :=
  report styles (path.toList ++ ": ".toList ++ reason.toList)

def reportPattern (styles : Bool) (source : String) (error : ParseError) : List Char :=
  report styles (quote source.toList ++ ": ".toList ++ error.message.toList)

end Response

def versionText : String := "retrace 0.1.0\n"

def usageText : String :=
  "usage: retrace [-E] [-r] [--color] [--explain] [--] PATTERN [FILE]...\n" ++
    "       retrace --version | --help\n"

def Interruption.respond : Interruption → Response
  | version => ⟨0, versionText.toList, []⟩
  | help => ⟨0, usageText.toList, []⟩
  | usage => ⟨Response.errorStatus, [], usageText.toList⟩

def Pattern.describe (pattern : Pattern) (styles : Bool) : List Char :=
  Style.bold.paint styles "Pattern".toList ++
    "\n  source:  ".toList ++ Style.cyan.paint styles pattern.source.toList ++
    "\n  parsed:  ".toList ++ Style.green.paint styles pattern.expr.print ++
    "\n  groups:  ".toList ++ (toString pattern.groups).toList ++
    "\n\n".toList ++ Style.bold.paint styles "Graph".toList ++
    '\n' :: pattern.graph.render.toList

structure FileReport where
  path : String
  result : Except PathError LineReport

def FoundFile.search (pattern : Pattern) (format : LineFormat) (found : FoundFile) : FileReport :=
  ⟨found.path, found.content.map (searchLines pattern format found.path.toList)⟩

def FileReport.printed (report : FileReport) : List Char :=
  match report.result with
  | .ok lines => lines.printed
  | .error _ => []

structure Tally where
  matched : Bool
  failed : Bool
  out : Array Char
  err : Array Char

namespace Tally

def blank : Tally := ⟨false, false, #[], #[]⟩

def report (styles : Bool) (tally : Tally) : String × String → Tally
  | (path, reason) =>
      { tally with failed := true, err := tally.err ++ Response.reportPath styles path reason }

def search (styles : Bool) (pattern : Pattern) (format : LineFormat) (tally : Tally)
    (found : FoundFile) : Tally :=
  let report := found.search pattern format
  match report.result with
  | .ok lines =>
      { tally with
        matched := tally.matched || lines.matched
        out := tally.out ++ lines.printed }
  | .error error => tally.report styles (report.path, error.message)

def respond (tally : Tally) : Response :=
  let status := if tally.failed then Response.errorStatus else Response.matchStatus tally.matched
  ⟨status, tally.out.toList, tally.err.toList⟩

end Tally

namespace Options

def format (options : Options) (styles : Bool) : LineFormat :=
  ⟨decide (1 < options.files.length) || options.recursive, options.colour && styles⟩

def searchInput (options : Options) (surroundings : Surroundings) (pattern : Pattern) :
    Response :=
  let format : LineFormat := ⟨false, options.colour && surroundings.styles⟩
  let lines := searchLines pattern format [] surroundings.input
  ⟨Response.matchStatus lines.matched, lines.printed, []⟩

/-- What is in the way of finding files is reported before the files that cannot be opened. -/
def searchFiles (options : Options) (surroundings : Surroundings) (pattern : Pattern) :
    Response :=
  let styles := surroundings.styles
  let expansion := expandPaths surroundings.lookup options.recursive options.files
  let reported := expansion.errors.foldl (Tally.report styles) .blank
  let searched := expansion.files.foldl
    (Tally.search styles pattern (options.format styles)) reported
  searched.respond

def searches (options : Options) : Bool :=
  !options.explain && (compile options.pattern).isOk

def readsInput (options : Options) : Bool := options.searches && options.files.isEmpty

def sources (options : Options) : List String :=
  if options.searches then options.files else []

def respond (options : Options) (surroundings : Surroundings) : Response :=
  match compile options.pattern with
  | .error error =>
      ⟨Response.errorStatus, [],
        Response.reportPattern surroundings.styles options.pattern error⟩
  | .ok pattern =>
      if options.explain then ⟨0, pattern.describe surroundings.styles, []⟩
      else if options.files.isEmpty then options.searchInput surroundings pattern
      else options.searchFiles surroundings pattern

end Options

end PatternSearch

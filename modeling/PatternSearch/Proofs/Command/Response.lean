import Mathlib
import PatternSearch.Command.Response
import PatternSearch.Proofs.Search.Lines

/-! What a run over many files adds up to. Whatever mix of files, directories and paths that lead
nowhere a run is given, every file that opens is searched, every path that is in the way is
reported once, and the status tells of both. The tally is what carries this: it records the files
that were searched and the reports that were made, and each turn adds to one of the two. -/

namespace PatternSearch

namespace FoundFile

def opened? (found : FoundFile) : Option (String × List UInt8) :=
  match found.content with
  | .ok input => some (found.path, input)
  | .error _ => none

def unopened? (found : FoundFile) : Option (String × String) :=
  match found.content with
  | .ok _ => none
  | .error error => some (found.path, error.message)

end FoundFile

namespace Expansion

def opened (expansion : Expansion) : List (String × List UInt8) :=
  expansion.files.filterMap FoundFile.opened?

def reports (expansion : Expansion) : List (String × String) :=
  expansion.errors ++ expansion.files.filterMap FoundFile.unopened?

end Expansion

/-- The tally tells of the files that were searched and of the reports that were made, and of
nothing else. -/
structure Tally.Records (styles : Bool) (pattern : Pattern) (format : LineFormat)
    (opened : List (String × List UInt8)) (reports : List (String × String)) (tally : Tally) :
    Prop where
  matched : tally.matched = true ↔ ∃ file ∈ opened, pattern.FoundIn file.2
  failed : tally.failed = true ↔ reports ≠ []
  out : tally.out.toList = opened.flatMap fun (path, input) =>
    (searchLines pattern format path.toList input).printed
  err : tally.err.toList = reports.flatMap fun (path, reason) =>
    Response.reportPath styles path reason

namespace Tally.Records

variable {styles : Bool} {pattern : Pattern} {format : LineFormat}
  {opened : List (String × List UInt8)} {reports : List (String × String)} {tally : Tally}

theorem blank : Records styles pattern format [] [] .blank where
  matched := by simp [Tally.blank]
  failed := by simp [Tally.blank]
  out := rfl
  err := rfl

theorem report (records : Records styles pattern format opened reports tally)
    (error : String × String) :
    Records styles pattern format opened (reports ++ [error]) (tally.report styles error) where
  matched := records.matched
  failed := by simp [Tally.report]
  out := records.out
  err := by
    rw [List.flatMap_append, ← records.err, List.flatMap_singleton]
    exact Array.toList_appendList ..

theorem search_opened (records : Records styles pattern format opened reports tally)
    (path : String) (input : List UInt8) :
    Records styles pattern format (opened ++ [(path, input)]) reports
      (tally.search styles pattern format ⟨path, .ok input⟩) where
  matched := by
    change (tally.matched || (searchLines pattern format path.toList input).matched) = true ↔ _
    rw [Bool.or_eq_true, records.matched, matched_searchLines]
    simp [or_and_right, exists_or]
  failed := records.failed
  out := by
    rw [List.flatMap_append, ← records.out, List.flatMap_singleton]
    exact Array.toList_appendList ..
  err := records.err

theorem search_unopened (records : Records styles pattern format opened reports tally)
    (path : String) (error : PathError) :
    Records styles pattern format opened (reports ++ [(path, error.message)])
      (tally.search styles pattern format ⟨path, .error error⟩) :=
  records.report (path, error.message)

theorem reportAll (errors : List (String × String))
    (records : Records styles pattern format opened reports tally) :
    Records styles pattern format opened (reports ++ errors)
      (errors.foldl (Tally.report styles) tally) := by
  induction errors generalizing reports tally with
  | nil => simpa using records
  | cons error errors ih => simpa using ih (records.report error)

theorem searchAll (files : List FoundFile)
    (records : Records styles pattern format opened reports tally) :
    Records styles pattern format (opened ++ files.filterMap FoundFile.opened?)
      (reports ++ files.filterMap FoundFile.unopened?)
      (files.foldl (Tally.search styles pattern format) tally) := by
  induction files generalizing opened reports tally with
  | nil => simpa using records
  | cons found files ih =>
    obtain ⟨path, content⟩ := found
    cases content with
    | ok input =>
      have further := ih (records.search_opened path input)
      rw [List.append_assoc] at further
      exact further
    | error error =>
      have further := ih (records.search_unopened path error)
      rw [List.append_assoc] at further
      exact further

theorem status_respond (records : Records styles pattern format opened reports tally) :
    (tally.respond.status = 2 ↔ reports ≠ []) ∧
      (tally.respond.status = 0 ↔ reports = [] ∧ ∃ file ∈ opened, pattern.FoundIn file.2) ∧
      (tally.respond.status = 1 ↔ reports = [] ∧ ¬∃ file ∈ opened, pattern.FoundIn file.2) := by
  have quiet : reports = [] ↔ ¬tally.failed = true := by rw [records.failed, Classical.not_not]
  rw [quiet, ← records.matched, ← records.failed]
  simp only [Tally.respond, Response.errorStatus, Response.matchStatus]
  cases tally.failed <;> cases tally.matched <;> decide

end Tally.Records

/-- What a report says, letter by letter. -/
theorem Response.reportPath_eq (styles : Bool) (path reason : String) :
    reportPath styles path reason =
      (if styles then "\x1b[1;31merror:\x1b[0m".toList else "error:".toList) ++ " ".toList ++
        path.toList ++ ": ".toList ++ reason.toList ++ "\n".toList := by
  cases styles <;>
    simp [reportPath, Response.report, Style.paint, Style.codes, Style.escape]

theorem Options.format_eq (options : Options) (styles : Bool) :
    options.format styles =
      ⟨decide (1 < options.files.length ∨ options.recursive = true), options.colour && styles⟩ := by
  rw [Options.format, Bool.decide_or, Bool.decide_eq_true]

theorem Options.records_searchFiles (options : Options) (surroundings : Surroundings)
    (pattern : Pattern) :
    let expansion := expandPaths surroundings.lookup options.recursive options.files
    ∃ tally : Tally,
      tally.Records surroundings.styles pattern (options.format surroundings.styles)
        expansion.opened expansion.reports ∧
      options.searchFiles surroundings pattern = tally.respond :=
  ⟨_, (Tally.Records.blank.reportAll _).searchAll _, rfl⟩

/-- A pattern that does not compile is answered with status 2 and without output, whatever else is
given. With a pattern that does, and with paths, the output is what searching each file that opens
prints, in the order in which the files are found; there is one report, on a line of its own, for
everything that was in the way of finding files, and then one for every file that does not open.
The status is 2 if there is any report, and otherwise tells whether a line of some file matches. -/
theorem respond_files (options : Options) (surroundings : Surroundings) :
    let response := options.respond surroundings
    (∀ error, compile options.pattern = .error error →
        response.out = [] ∧ response.status = 2) ∧
      ∀ pattern, compile options.pattern = .ok pattern → options.explain = false →
        options.files ≠ [] →
          let expansion := expandPaths surroundings.lookup options.recursive options.files
          let format : LineFormat := ⟨decide (1 < options.files.length ∨ options.recursive = true),
            options.colour && surroundings.styles⟩
          let found := ∃ file ∈ expansion.opened, pattern.FoundIn file.2
          response.out = expansion.opened.flatMap (fun (path, input) =>
              (searchLines pattern format path.toList input).printed) ∧
            response.err = expansion.reports.flatMap (fun (path, reason) =>
              (if surroundings.styles then "\x1b[1;31merror:\x1b[0m".toList
                else "error:".toList) ++ " ".toList ++ path.toList ++ ": ".toList ++
                reason.toList ++ "\n".toList) ∧
            (response.status = 2 ↔ expansion.reports ≠ []) ∧
            (response.status = 0 ↔ expansion.reports = [] ∧ found) ∧
            (response.status = 1 ↔ expansion.reports = [] ∧ ¬found) := by
  intro response
  constructor
  · intro error refused
    simp [response, Options.respond, refused, Response.errorStatus]
  · intro pattern compiled searching named expansion format found
    obtain ⟨tally, records, answered⟩ := options.records_searchFiles surroundings pattern
    rw [Options.format_eq] at records
    have answer : response = tally.respond := by
      simp only [response, Options.respond, compiled, searching, ← answered,
        List.isEmpty_eq_false_iff.mpr named, Bool.false_eq_true, if_false]
    have reported := records.err
    simp only [Response.reportPath_eq] at reported
    rw [answer]
    exact ⟨records.out, reported, records.status_respond⟩

theorem printed_cat (label : List Char) :
    (searchLines catPattern ⟨true, false⟩ label [99, 97, 116, 10]).printed =
      label ++ [':', 'c', 'a', 't', '\n'] := by
  have lines : splitLines [99, 97, 116, 10] = [[99, 97, 116, 10]] := by decide
  have text : lineText [99, 97, 116, 10] = ['c', 'a', 't'] := by decide +kernel
  have occurs : (catPattern.matcher ['c', 'a', 't']).search.1 = true := by cbv
  have span : (catPattern.matcher ['c', 'a', 't']).search.2.charSpan 0 = some (0, 3) := by cbv
  simp [searchLines, lines, searchLine, text, occurs, span, LineFormat.printLabel,
    LineFormat.highlight, Style.paint]

def halfListed : FileTree :=
  .directory [] [("d", .directory [.unreadable "denied"] [("b", .file (.ok [99, 97, 116, 10]))])]

theorem findings_halfListed :
    expandPaths halfListed.lookup true ["x", "d"] = ⟨[.file ⟨"x", .error .notFound⟩,
      .unlisted "d" (.unreadable "denied"), .file ⟨"d/b", .ok [99, 97, 116, 10]⟩]⟩ := by
  simp [expandPaths, expandPath, halfListed, FileTree.lookup, FileTree.follow, splitPath,
    FileTree.findingsBelow, FileTree.findingsOfEntries, childPath, List.lookup_cons]

/-- The file is searched although the directory and the other path are reported. -/
theorem respond_halfListed :
    let response := (Options.mk "cat" ["x", "d"] true false false).respond
      ⟨[], halfListed.lookup, false⟩
    response.status = 2 ∧ response.out = "d/b:cat\n".toList ∧
      response.err =
        "error: d: denied\nerror: x: No such file or directory (os error 2)\n".toList := by
  have opened : (expandPaths halfListed.lookup true ["x", "d"]).opened =
      [("d/b", [99, 97, 116, 10])] := by
    rw [findings_halfListed]
    rfl
  have reports : (expandPaths halfListed.lookup true ["x", "d"]).reports =
      [("d", "denied"), ("x", "No such file or directory (os error 2)")] := by
    rw [findings_halfListed]
    rfl
  obtain ⟨out, err, refused, _⟩ := (respond_files (Options.mk "cat" ["x", "d"] true false false)
    ⟨[], halfListed.lookup, false⟩).2 catPattern (compile_source catPattern) rfl (by decide)
  simp only [opened, reports] at out err refused
  exact ⟨refused.mpr (by decide), out.trans (by simp [printed_cat]), err.trans (by decide)⟩

end PatternSearch

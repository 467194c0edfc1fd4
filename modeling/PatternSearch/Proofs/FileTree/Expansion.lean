import Mathlib
import PatternSearch.Proofs.FileTree.Walk

/-! What a list of paths stands for. Without walking, a path is a file to open or a directory that is
skipped; with it, a directory stands for the files below it. No path is lost and none is added. -/

namespace PatternSearch

open FileTree (Place)

def FileTree.isDirectoryAt (root : FileTree) (path : String) : Bool :=
  match root.lookup path with
  | .ok (.directory _ _) => true
  | _ => false

/-- The files below a directory: every one of them, in the order of their paths' components and so
each once. The walk that comes upon them ends. -/
structure Walked (path : String) (tree : FileTree) (files : List FoundFile) : Prop where
  complete : ∃ places : List Place, files = places.map (Place.found path) ∧
    ∀ names content, (names, content) ∈ places ↔ tree.Holds names content
  sorted : files.Pairwise fun first second => pathKey first.path < pathKey second.path
  ends : ∃ enough, ∀ depth, enough ≤ depth →
    tree.findingsWithin depth path = some (files.map Finding.file)

/-- The files that a path stands for: itself unless it leads to a directory. -/
inductive StandsFor (root : FileTree) (path : String) : List FoundFile → Prop
  | missing {error : PathError} : root.lookup path = .error error →
      StandsFor root path [⟨path, .error error⟩]
  | file {content : Except PathError (List UInt8)} : root.lookup path = .ok (.file content) →
      StandsFor root path [⟨path, content⟩]
  | directory {failures : List PathError} {entries : List (String × FileTree)}
      {files : List FoundFile} : root.lookup path = .ok (.directory failures entries) →
      Walked path (.directory failures entries) files → StandsFor root path files

namespace FileTree

theorem mem_of_lookup {entries : List (String × FileTree)} {name : String} {entry : FileTree}
    (found : entries.lookup name = some entry) : (name, entry) ∈ entries := by
  obtain ⟨before, behind, rfl, _⟩ := List.lookup_eq_some_iff.mp found
  exact List.mem_append_right _ (List.mem_cons_self ..)

theorem Readable.of_follow {here tree : FileTree} {above : List FileTree}
    {components : List String} (readable : here.Readable)
    (trail : ∀ outer ∈ above, outer.Readable)
    (reached : here.follow above components = .ok tree) : tree.Readable := by
  induction components generalizing here above with
  | nil =>
    obtain rfl : here = tree := Except.ok.inj reached
    exact readable
  | cons component components ih =>
    cases readable with
    | file content => cases reached
    | @directory entries distinct known below =>
      have again : (FileTree.directory [] entries).Readable := .directory distinct known below
      simp only [follow] at reached
      split at reached
      · exact ih again trail reached
      · split at reached
        · cases above with
          | nil => exact ih again trail reached
          | cons parent above =>
            rw [List.forall_mem_cons] at trail
            exact ih trail.1 trail.2 reached
        · split at reached
          · cases reached
          · next entry found =>
            exact ih (below _ (mem_of_lookup found)) (List.forall_mem_cons.mpr ⟨again, trail⟩)
              reached

theorem Readable.of_lookup {root tree : FileTree} {path : String} (readable : root.Readable)
    (found : root.lookup path = .ok tree) : tree.Readable := by
  rw [FileTree.lookup] at found
  split at found
  · cases found
  · exact readable.of_follow (by simp) found

/-- The walk of a directory finds the files below it, and nothing is in its way. -/
theorem exists_walked {path : String} {failures : List PathError}
    {entries : List (String × FileTree)} (readable : (directory failures entries).Readable) :
    ∃ files, (directory failures entries).findingsBelow path = files.map Finding.file ∧
      Walked path (directory failures entries) files := by
  obtain ⟨places, found, complete, sorted⟩ := exists_places readable
  obtain ⟨enough, settled⟩ := exists_enough (directory failures entries)
  have findings : (directory failures entries).findingsBelow path =
      (places.map (Place.found path)).map Finding.file := by
    rw [found, List.map_map]
    rfl
  refine ⟨places.map (Place.found path), findings, ⟨places, rfl, complete⟩, ?_,
    enough, fun depth deep => by rw [settled depth deep, findings]⟩
  have below : ∀ place ∈ places, place.1 ≠ [] ∧ ∀ name ∈ place.1, IsName name := by
    intro place member
    have holds := (complete place.1 place.2).mp member
    obtain ⟨_, _, below, same, _⟩ := holds_directory.mp holds
    exact ⟨by rw [same]; exact List.cons_ne_nil _ _, holds.names_known readable⟩
  rw [List.pairwise_map]
  refine sorted.imp_of_mem fun one two less => ?_
  obtain ⟨nonempty, known⟩ := below _ one
  obtain ⟨others, knownOther⟩ := below _ two
  exact pathKey_lt nonempty others known knownOther less

end FileTree

section Paths

variable {root : FileTree}

theorem files_expandPath_false (path : String) :
    ((expandPath false path (root.lookup path)).filterMap Finding.file?).map FoundFile.path =
      if root.isDirectoryAt path then [] else [path] := by
  unfold FileTree.isDirectoryAt expandPath
  rcases root.lookup path with error | content | ⟨failures, entries⟩ <;> rfl

theorem errors_expandPath_false (path : String) :
    (expandPath false path (root.lookup path)).filterMap Finding.error? =
      if root.isDirectoryAt path then [(path, skippedReason)] else [] := by
  unfold FileTree.isDirectoryAt expandPath
  rcases root.lookup path with error | content | ⟨failures, entries⟩ <;> rfl

theorem expandPath_true (readable : root.Readable) (path : String) :
    ∃ files, expandPath true path (root.lookup path) = files.map Finding.file ∧
      StandsFor root path files := by
  cases found : root.lookup path with
  | error error => exact ⟨[⟨path, .error error⟩], rfl, .missing found⟩
  | ok tree =>
    cases tree with
    | file content => exact ⟨[⟨path, content⟩], rfl, .file found⟩
    | directory failures entries =>
      obtain ⟨files, findings, walked⟩ := FileTree.exists_walked (readable.of_lookup found)
      exact ⟨files, findings, .directory found walked⟩

end Paths

section Findings

theorem filterMap_file (files : List FoundFile) :
    (files.map Finding.file).filterMap Finding.file? = files := by
  rw [List.filterMap_map]
  exact List.filterMap_some

theorem filterMap_file_error (files : List FoundFile) :
    (files.map Finding.file).filterMap Finding.error? = [] := by
  rw [List.filterMap_map]
  exact List.filterMap_eq_nil_iff.mpr fun _ _ => rfl

theorem flatMap_findings {expand : String → List Finding} {stands : String → List FoundFile → Prop}
    {paths : List String}
    (every : ∀ path ∈ paths, ∃ files, expand path = files.map Finding.file ∧ stands path files) :
    ∃ groups, paths.flatMap expand = groups.flatten.map Finding.file ∧
      List.Forall₂ stands paths groups := by
  induction paths with
  | nil => exact ⟨[], rfl, .nil⟩
  | cons path paths ih =>
    obtain ⟨⟨files, found, first⟩, others⟩ := List.forall_mem_cons.mp every
    obtain ⟨groups, rest, second⟩ := ih others
    refine ⟨files :: groups, ?_, .cons first second⟩
    rw [List.flatMap_cons, found, rest, List.flatten_cons, List.map_append]

theorem flatMap_ite (keep : String → Bool) {α : Type} (value : String → α)
    (paths : List String) :
    (paths.flatMap fun path => if keep path then [value path] else []) =
      (paths.filter keep).map value := by
  induction paths with
  | nil => rfl
  | cons path paths ih =>
    rw [List.flatMap_cons, ih, List.filter_cons]
    cases keep path <;> rfl

end Findings

/-- For every tree whose directories can all be listed, and all paths: without walking, the paths
that lead to no directory are the files and the others the errors, in their order, and together
they are the paths that were given. With walking there are no errors, and the files are those for
which the paths stand, one path after the other. -/
theorem expandPaths_accounts (root : FileTree) (readable : root.Readable) (paths : List String) :
    let plain := expandPaths root.lookup false paths
    let walked := expandPaths root.lookup true paths
    (plain.files.map FoundFile.path = paths.filter (fun path => !root.isDirectoryAt path) ∧
      plain.errors = (paths.filter root.isDirectoryAt).map (·, skippedReason) ∧
      (plain.files.map FoundFile.path ++ plain.errors.map Prod.fst).Perm paths) ∧
    walked.errors = [] ∧
      ∃ groups, walked.files = groups.flatten ∧ List.Forall₂ (StandsFor root) paths groups := by
  intro plain walked
  have files : plain.files.map FoundFile.path =
      paths.filter (fun path => !root.isDirectoryAt path) := by
    have one := flatMap_ite (fun path => !root.isDirectoryAt path) id paths
    rw [List.map_id] at one
    rw [← one]
    simp only [plain, expandPaths, Expansion.files, List.filterMap_flatMap, List.map_flatMap,
      files_expandPath_false, Bool.not_eq_true', id]
    refine List.flatMap_congr fun path _ => ?_
    cases root.isDirectoryAt path <;> rfl
  have errors : plain.errors = (paths.filter root.isDirectoryAt).map (·, skippedReason) := by
    rw [← flatMap_ite]
    simp only [plain, expandPaths, Expansion.errors, List.filterMap_flatMap,
      errors_expandPath_false]
  obtain ⟨groups, found, stands⟩ := flatMap_findings fun path (_ : path ∈ paths) =>
    expandPath_true readable path
  refine ⟨⟨files, errors, ?_⟩, ?_, groups, ?_, stands⟩
  · have reported : plain.errors.map Prod.fst = paths.filter root.isDirectoryAt := by
      rw [errors, List.map_map]
      exact List.map_id _
    rw [files, reported]
    exact List.perm_append_comm.trans (List.filter_append_perm _ _)
  · simp only [walked, expandPaths, Expansion.errors, found, filterMap_file_error]
  · simp only [walked, expandPaths, Expansion.files, found, filterMap_file]

def mixed : FileTree :=
  .directory [] [("a-c", .file (.ok [])), ("e", .emptyDirectory),
    ("a", .directory [] [("x", .file (.ok []))])]

theorem readable_mixed : (FileTree.directory [] [("d", mixed)]).Readable := by
  have plain (content : Except PathError (List UInt8)) : (FileTree.file content).Readable :=
    .file content
  have empty : FileTree.emptyDirectory.Readable := .directory (by simp) (by simp) (by simp)
  have inner : (FileTree.directory [] [("x", .file (.ok []))]).Readable :=
    .directory (by simp) (by simp [FileTree.IsName]) (by simp [plain])
  have outer : mixed.Readable :=
    .directory (by simp) (by simp [FileTree.IsName]) (by simp [plain, empty, inner])
  exact .directory (by simp) (by simp [FileTree.IsName]) (by simp [outer])

/-- The second path leads nowhere. -/
theorem expandPaths_accounts_mixed :
    let root := FileTree.directory [] [("d", mixed)]
    let walked := expandPaths root.lookup true ["d", "m"]
    root.Readable ∧
      (expandPaths root.lookup false ["d", "m"]).files.map FoundFile.path = ["m"] ∧
      walked.errors = [] ∧
      ∃ files, walked.files = files ++ [⟨"m", .error .notFound⟩] ∧ Walked "d" mixed files := by
  intro root walked
  obtain ⟨⟨files, _, _⟩, errors, groups, found, stands⟩ :=
    expandPaths_accounts root readable_mixed ["d", "m"]
  have there : root.lookup "d" = .ok mixed := by
    simp [root, FileTree.lookup, FileTree.follow, splitPath]
  have missing : root.lookup "m" = .error .notFound := by
    simp [root, FileTree.lookup, FileTree.follow, splitPath, List.lookup_cons]
  refine ⟨readable_mixed, ?_, errors, ?_⟩
  · rw [files]
    simp [FileTree.isDirectoryAt, there, missing, mixed]
  · obtain ⟨first, rest, below, others, rfl⟩ := List.forall₂_cons_left_iff.mp stands
    obtain ⟨second, rest, behind, nothing, rfl⟩ := List.forall₂_cons_left_iff.mp others
    obtain rfl := List.forall₂_nil_left_iff.mp nothing
    cases below with
    | missing other => cases there.symm.trans other
    | file other => cases there.symm.trans other
    | directory other walk =>
      cases behind with
      | missing error =>
        rw [Except.ok.inj (other.symm.trans there)] at walk
        obtain rfl := Except.error.inj (missing.symm.trans error)
        exact ⟨first, found, walk⟩
      | file other => cases missing.symm.trans other
      | directory other => cases missing.symm.trans other

/-- Below `d` the components decide: as a text, `d/a-c` would come before `d/a/x`. -/
example : ((mixed.findingsBelow "d").filterMap Finding.file?).map FoundFile.path =
    ["d/a/x", "d/a-c"] := by
  cbv

end PatternSearch

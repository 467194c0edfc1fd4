import PatternSearch.Command.Response

/-! The command. It reads what its arguments name, asks `Options.respond` for the answer and
writes it. -/

namespace PatternSearch

def pathError : IO.Error → PathError
  | .noFileOrDirectory .. => .notFound
  | .inappropriateType .. => .notDirectory
  | error => .unreadable (toString error)

partial def loadTree (path : String) : IO FileTree := do
  let place := (← IO.currentDir) / path
  if ← place.isDir then
    match ← (place.readDir).toBaseIO with
    | .error error => return .directory [pathError error] []
    | .ok listed =>
        return .directory [] (← listed.toList.mapM fun entry => do
          return (entry.fileName, ← loadTree (childPath path entry.fileName)))
  else
    match ← (IO.FS.readBinFile place).toBaseIO with
    | .error error => return .file (.error (pathError error))
    | .ok content => return .file (.ok content.toList)

def loadPath (path : String) : IO (Except PathError FileTree) := do
  if path = "" then return .error .notFound else return .ok (← loadTree path)

partial def readInput (stream : IO.FS.Stream) (known : ByteArray) : IO ByteArray := do
  let more ← stream.read 65536
  if more.isEmpty then return known else readInput stream (known ++ more)

/-- Styles are active on a terminal, and elsewhere if the environment forces them. -/
def stylesActive : IO Bool := do
  match ← IO.getEnv "CLICOLOR_FORCE" with
  | some value => if value ≠ "0" then return true else (← IO.getStdout).isTty
  | none => (← IO.getStdout).isTty

def surroundingsOf (options : Options) : IO Surroundings := do
  let loaded ← options.sources.mapM fun path => do return (path, ← loadPath path)
  let input ← if options.readsInput then readInput (← IO.getStdin) .empty else pure .empty
  return {
    input := input.toList
    lookup := fun path => (loaded.lookup path).getD (.error .notFound)
    styles := ← stylesActive }

def respondTo (arguments : List String) : IO Response := do
  match parseArguments arguments with
  | .error interruption => return interruption.respond
  | .ok options => return options.respond (← surroundingsOf options)

end PatternSearch

def main (arguments : List String) : IO UInt32 := do
  let response ← PatternSearch.respondTo arguments
  IO.print (String.ofList response.out)
  IO.eprint (String.ofList response.err)
  return response.status.toUInt32

import PatternSearch.Matcher

/-! Sessions with a matcher. Searches and resets change the matcher; all other operations only ask
what the last search found. The exchanges of a session tell every operation with its reply. -/

namespace PatternSearch

inductive Operation where
  | search
  | searchFrom (start : Nat)
  | reset
  | groupText (group : Nat)
  | byteSpan (group : Nat)
  | start
  | stop
deriving DecidableEq

namespace Operation

def searches : Operation → Bool
  | search | searchFrom _ => true
  | _ => false

def onlyAsks : Operation → Bool
  | groupText _ | byteSpan _ | start | stop => true
  | _ => false

end Operation

inductive Reply where
  | done
  | found (succeeded : Bool)
  | text (characters : Option (List Char))
  | span (bytes : Option (Nat × Nat))
  | offset (bytes : Option Nat)
deriving DecidableEq

structure Exchange where
  operation : Operation
  reply : Reply
deriving DecidableEq

namespace Matcher

def perform (matcher : Matcher) : Operation → Reply × Matcher
  | .search =>
      let (succeeded, searched) := matcher.search
      (.found succeeded, searched)
  | .searchFrom start =>
      let (succeeded, searched) := matcher.searchFrom start
      (.found succeeded, searched)
  | .reset => (.done, matcher.reset)
  | .groupText group => (.text (matcher.groupText group), matcher)
  | .byteSpan group => (.span (matcher.byteSpan group), matcher)
  | .start => (.offset matcher.start, matcher)
  | .stop => (.offset matcher.stop, matcher)

def session (matcher : Matcher) : List Operation → List Exchange × Matcher
  | [] => ([], matcher)
  | operation :: operations =>
      let (reply, changed) := matcher.perform operation
      let (exchanges, last) := changed.session operations
      (⟨operation, reply⟩ :: exchanges, last)

end Matcher

def EndsWith (kind quiet : Exchange → Prop) (exchanges : List Exchange) : Prop :=
  ∃ before last behind, exchanges = before ++ last :: behind ∧ kind last ∧
    ∀ exchange ∈ behind, quiet exchange

/-- Of all searches and resets the last one was a search that succeeded. -/
def MatchStands : List Exchange → Prop :=
  EndsWith (fun last => last.operation.searches ∧ last.reply = .found true)
    fun exchange => exchange.operation.onlyAsks

def LastSearchFailed : List Exchange → Prop :=
  EndsWith (fun last => last.operation.searches ∧ last.reply = .found false)
    fun exchange => ¬exchange.operation.searches

end PatternSearch

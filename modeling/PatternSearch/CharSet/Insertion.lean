import PatternSearch.CharSet

/-! Insertions into a set, each of them answered. A refused insertion leaves the set as it is. The
same insertions can be made in a table with a slot for each character below U+0100; a range is then
filled slot by slot. -/

namespace PatternSearch

inductive Insertion where
  | char (c : Char)
  | range (low high : Char)
deriving DecidableEq

namespace Insertion

def Covers : Insertion → Char → Prop
  | char c, d => d = c
  | range low high, d => low ≤ d ∧ d ≤ high

def InOrder : Insertion → Prop
  | char _ => True
  | range low high => low ≤ high

/-- A range is not reversed, and no character lies beyond U+00FF. -/
def Fits (insertion : Insertion) : Prop :=
  insertion.InOrder ∧ ∀ c, insertion.Covers c → c.toNat < 256

def performAll {State : Type} (perform : State → Insertion → Bool × State) (state : State) :
    List Insertion → List (Insertion × Bool) × State
  | [] => ([], state)
  | insertion :: insertions =>
      let (accepted, changed) := perform state insertion
      let (answers, last) := performAll perform changed insertions
      ((insertion, accepted) :: answers, last)

end Insertion

namespace CharSet

def enlarge? (set : CharSet) : Insertion → Option CharSet
  | .char c => set.insert? c
  | .range low high => set.insertRange? low high

def perform (set : CharSet) (insertion : Insertion) : Bool × CharSet :=
  match set.enlarge? insertion with
  | some larger => (true, larger)
  | none => (false, set)

def insertAll : CharSet → List Insertion → List (Insertion × Bool) × CharSet :=
  Insertion.performAll perform

end CharSet

/-- A slot for each character below U+0100, marked if the character is a member. -/
structure CharTable where
  slots : Vector Bool 256
deriving DecidableEq

namespace CharTable

def blank : CharTable := ⟨.replicate 256 false⟩

def slot? (c : Char) : Option (Fin 256) :=
  if fits : c.toNat < 256 then some ⟨c.toNat, fits⟩ else none

def contains (table : CharTable) (c : Char) : Bool :=
  (slot? c).any fun slot => table.slots[slot]

def mark (table : CharTable) (slot : Nat) : CharTable := ⟨table.slots.setIfInBounds slot true⟩

def fill (table : CharTable) (first last : Fin 256) : CharTable :=
  (List.range' first (last + 1 - first)).foldl mark table

def perform (table : CharTable) : Insertion → Bool × CharTable
  | .char c =>
      match slot? c with
      | some slot => (true, table.mark slot)
      | none => (false, table)
  | .range low high =>
      match slot? low, slot? high with
      | some first, some last =>
          if first ≤ last then (true, table.fill first last) else (false, table)
      | _, _ => (false, table)

def insertAll : CharTable → List Insertion → List (Insertion × Bool) × CharTable :=
  Insertion.performAll perform

def char? (slot : Nat) : Option Char :=
  if slot.isValidChar then some (Char.ofNat slot) else none

def toList (table : CharTable) : List Char :=
  (table.slots.toList.zipIdx.filter (·.1)).filterMap fun (_, slot) => char? slot

end CharTable

def CharSet.table (set : CharSet) : CharTable :=
  ⟨.ofFn fun slot => set.bits.getLsbD slot⟩

end PatternSearch

import PatternSearch.Search.Slots

/-! What a search writes while it runs: the capture slots, where the match lies, and whether
the end of the window was reached. -/

namespace PatternSearch

structure Registers where
  slots : Slots
  /-- Where the match starts, `unset` when there is none. -/
  matchStart : Int
  matchStop : Int
  reachedEnd : Bool
deriving DecidableEq

namespace Registers

def blank (groups : Nat) : Registers := ⟨.blank groups, unset, 0, false⟩

def setStart (registers : Registers) (group : Nat) (value : Int) : Registers :=
  { registers with slots := registers.slots.setStart group value }

def setStop (registers : Registers) (group : Nat) (value : Int) : Registers :=
  { registers with slots := registers.slots.setStop group value }

def reachEnd (registers : Registers) : Registers := { registers with reachedEnd := true }

def stopAt (registers : Registers) (index : Nat) : Registers :=
  { registers with matchStop := index }

def succeed (registers : Registers) (start : Nat) : Registers :=
  { registers with
    slots := (registers.slots.setStart 0 start).setStop 0 registers.matchStop
    matchStart := start }

def cleared (registers : Registers) : Registers :=
  { registers with slots := registers.slots.clear }

/-- Forgets the match but not the slots. -/
def rewind (registers : Registers) : Registers :=
  { registers with matchStart := unset, matchStop := 0 }

end Registers

structure Window where
  start : Nat
  stop : Nat
deriving DecidableEq

structure SearchState where
  window : Window
  registers : Registers
deriving DecidableEq

namespace SearchState

def blank (groups length : Nat) : SearchState := ⟨⟨0, length⟩, .blank groups⟩

def reset (state : SearchState) (length : Nat) : SearchState :=
  ⟨⟨0, length⟩, state.registers.rewind⟩

def clearSlots (state : SearchState) : SearchState :=
  { state with registers := state.registers.cleared }

end SearchState

end PatternSearch

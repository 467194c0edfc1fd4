/-! Capture slots. Each group has a slot for its start and a slot for its end, and group 0 is
the whole match. Slots hold character positions, or `unset`. The lemmas say what writing a
slot does to reading one, and that a slot can be set back. -/

namespace PatternSearch

def unset : Int := -1

structure Slots where
  starts : Array Int
  stops : Array Int
deriving DecidableEq

namespace Slots

def blank (groups : Nat) : Slots :=
  ⟨.replicate (groups + 1) unset, .replicate (groups + 1) unset⟩

def start (slots : Slots) (group : Nat) : Int := slots.starts[group]?.getD unset

def stop (slots : Slots) (group : Nat) : Int := slots.stops[group]?.getD unset

/-- The span that a group holds, if both of its slots are set and in order. -/
def span (slots : Slots) (group : Nat) : Option (Nat × Nat) :=
  let start := slots.start group
  let stop := slots.stop group
  if 0 ≤ start ∧ start ≤ stop then some (start.toNat, stop.toNat) else none

def setStart (slots : Slots) (group : Nat) (value : Int) : Slots :=
  { slots with starts := slots.starts.setIfInBounds group value }

def setStop (slots : Slots) (group : Nat) (value : Int) : Slots :=
  { slots with stops := slots.stops.setIfInBounds group value }

def clear (slots : Slots) : Slots :=
  ⟨.replicate slots.starts.size unset, .replicate slots.stops.size unset⟩

theorem start_setStart {slots : Slots} {group : Nat} (bounded : group < slots.starts.size)
    (value : Int) (other : Nat) :
    (slots.setStart group value).start other =
      if other = group then value else slots.start other := by
  unfold setStart start
  by_cases same : other = group
  · subst same
    simp [bounded]
  · have apart : group ≠ other := fun equal => same equal.symm
    simp [same, apart]

theorem stop_setStop {slots : Slots} {group : Nat} (bounded : group < slots.stops.size)
    (value : Int) (other : Nat) :
    (slots.setStop group value).stop other =
      if other = group then value else slots.stop other := by
  unfold setStop stop
  by_cases same : other = group
  · subst same
    simp [bounded]
  · have apart : group ≠ other := fun equal => same equal.symm
    simp [same, apart]

theorem start_setStart_of_ne (slots : Slots) {group other : Nat} (apart : group ≠ other)
    (value : Int) : (slots.setStart group value).start other = slots.start other := by
  unfold setStart start
  rw [Array.getElem?_setIfInBounds_ne apart]

theorem stop_setStop_of_ne (slots : Slots) {group other : Nat} (apart : group ≠ other)
    (value : Int) : (slots.setStop group value).stop other = slots.stop other := by
  unfold setStop stop
  rw [Array.getElem?_setIfInBounds_ne apart]

theorem stop_setStart (slots : Slots) (group : Nat) (value : Int) (other : Nat) :
    (slots.setStart group value).stop other = slots.stop other := rfl

theorem start_setStop (slots : Slots) (group : Nat) (value : Int) (other : Nat) :
    (slots.setStop group value).start other = slots.start other := rfl

theorem setIfInBounds_setBack (values : Array Int) (group : Nat) (value : Int) :
    (values.setIfInBounds group value).setIfInBounds group (values[group]?.getD unset) =
      values := by
  apply Array.ext
  · simp
  · intro i inside outside
    by_cases same : group = i
    · subst same
      simp [outside]
    · have written : i < (values.setIfInBounds group value).size := by simpa using outside
      rw [Array.getElem_setIfInBounds written, if_neg same,
        Array.getElem_setIfInBounds outside, if_neg same]

/-- Setting a slot back to what it held undoes a write. -/
theorem setStart_setBack (slots : Slots) (group : Nat) (value : Int) :
    (slots.setStart group value).setStart group (slots.start group) = slots := by
  unfold setStart start
  rw [setIfInBounds_setBack]

theorem setStop_setBack (slots : Slots) (group : Nat) (value : Int) :
    (slots.setStop group value).setStop group (slots.stop group) = slots := by
  unfold setStop stop
  rw [setIfInBounds_setBack]

end Slots

end PatternSearch

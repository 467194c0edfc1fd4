import PatternSearch.Graph.Weight
import PatternSearch.Search.Registers

/-! Search by backtracking. A run works on one goal at one position of the text and then goes
on with its continuation; it answers whether the whole succeeds, together with the registers.
Alternatives are tried in their order, a greedy loop tries one more iteration before it stops
and a lazy loop stops first. Slots that a failed attempt has set are set back.

The run ends because every call without progress in the text goes down in weight. A loop
iteration beyond the minimum weighs nothing as long as it has not moved: it is refused then. -/

namespace PatternSearch

/-- What happens when a walk reaches the node `last`. -/
inductive Continuation where
  | done
  /-- An alternative has matched: go on at `next`. -/
  | resume (next : Nat) (parent : Continuation)
  /-- Iteration number `count` of a loop, which began at `start`, has matched. -/
  | loop (repeated : Loop) (count start : Nat) (parent : Continuation)

inductive Goal where
  | visit (id : Nat)
  | choose (ids : List Nat)
  /-- Goes on with a loop after `count` iterations. -/
  | iterate (repeated : Loop) (count : Nat)
  | scan (next : Nat)

def Goal.weight (graph : Graph) : Goal → Nat
  | visit id => graph.weight id
  | choose ids => graph.choiceWeight ids
  | iterate repeated count => graph.loopWeight repeated count
  | scan next => graph.weight next + 1

def Continuation.weight (graph : Graph) (index : Nat) : Continuation → Nat
  | done => 0
  | resume next parent => graph.weight next + parent.weight graph index + 1
  | loop repeated count start parent =>
      if repeated.quantifier.min < count ∧ index = start then 0
      else graph.loopWeight repeated count + parent.weight graph index + 1

namespace Graph

/-- The registers afterwards hold the match if there is one and are as before otherwise,
except that they may note that the end of the window was reached. -/
def run (graph : Graph) (text : Array Char) (window : Window) (goal : Goal) (index : Nat)
    (cont : Continuation) (registers : Registers) : Bool × Registers :=
  match goal with
  | .visit id =>
      match _found : graph.node id with
      | .last =>
          match cont with
          | .done => (true, registers.stopAt index)
          | .resume next parent => graph.run text window (.visit next) index parent registers
          | .loop repeated count start parent =>
              if repeated.quantifier.min < count ∧ index = start then (false, registers)
              else graph.run text window (.iterate repeated count) index parent registers
      | .start next => graph.run text window (.scan next) index cont registers
      | .char test next =>
          if index < window.stop then
            if text[index]?.any test.accepts then
              graph.run text window (.visit next) (index + 1) cont registers
            else (false, registers)
          else (false, registers.reachEnd)
      | .atStart next =>
          if index = window.start then
            graph.run text window (.visit next) index cont registers
          else (false, registers)
      | .atEnd next =>
          if index = window.stop then
            graph.run text window (.visit next) index cont registers
          else (false, registers)
      | .loop repeated => graph.run text window (.iterate repeated 0) index cont registers
      | .groupHead group next =>
          let saved := registers.slots.start group
          match graph.run text window (.visit next) index cont
              (registers.setStart group index) with
          | (true, after) => (true, after)
          | (false, after) => (false, after.setStart group saved)
      | .groupTail group next =>
          let saved := registers.slots.stop group
          match graph.run text window (.visit next) index cont
              (registers.setStop group index) with
          | (true, after) => (true, after)
          | (false, after) => (false, after.setStop group saved)
      | .branch alternatives next =>
          graph.run text window (.choose alternatives) index (.resume next cont) registers
      | .backreference group next =>
          match registers.slots.span group with
          | none => (false, registers)
          | some (start, stop) =>
              let beyond := index + (stop - start)
              if window.stop < beyond then (false, registers.reachEnd)
              else if text.extract start stop = text.extract index beyond then
                graph.run text window (.visit next) beyond cont registers
              else (false, registers)
  | .choose [] => (false, registers)
  | .choose (id :: ids) =>
      match graph.run text window (.visit id) index cont registers with
      | (true, after) => (true, after)
      | (false, after) => graph.run text window (.choose ids) index cont after
  | .iterate repeated count =>
      let again := Continuation.loop repeated (count + 1) index cont
      if count < repeated.quantifier.min then
        graph.run text window (.visit repeated.body) index again registers
      else if repeated.quantifier.greedy then
        if repeated.quantifier.allowsMore count then
          match graph.run text window (.visit repeated.body) index again registers with
          | (true, after) => (true, after)
          | (false, after) => graph.run text window (.visit repeated.next) index cont after
        else graph.run text window (.visit repeated.next) index cont registers
      else
        match graph.run text window (.visit repeated.next) index cont registers with
        | (true, after) => (true, after)
        | (false, after) =>
            if repeated.quantifier.allowsMore count then
              graph.run text window (.visit repeated.body) index again after
            else (false, after)
  | .scan next =>
      if index ≤ window.stop then
        match graph.run text window (.visit next) index cont registers with
        | (true, after) => (true, after.succeed index)
        | (false, after) => graph.run text window (.scan next) (index + 1) cont after
      else (false, registers.reachEnd)
termination_by (window.stop + 1 - index, goal.weight graph + cont.weight graph index)
decreasing_by
  all_goals simp only [Goal.weight, Continuation.weight]
  · exact .right _ (by omega)
  · next fresh => exact .right _ (by rw [if_neg fresh]; omega)
  · exact .right _ (by rw [weight_start _found]; omega)
  · exact .left _ _ (by omega)
  · exact .right _ (by rw [weight_atStart _found]; omega)
  · exact .right _ (by rw [weight_atEnd _found]; omega)
  · exact .right _ (by rw [weight_loop _found]; omega)
  · exact .right _ (by rw [weight_groupHead _found]; omega)
  · exact .right _ (by rw [weight_groupTail _found]; omega)
  · exact .right _ (by rw [weight_branch _found]; omega)
  · next inside _ =>
    rcases Nat.eq_zero_or_pos (stop - start) with still | moves
    · simp only [still, Nat.add_zero]
      exact .right _ (by rw [weight_backreference _found]; omega)
    · exact .left _ _ (by omega)
  · exact .right _ (by simp only [choiceWeight, List.foldr_cons]; omega)
  · exact .right _ (by simp only [choiceWeight, List.foldr_cons]; omega)
  · next forced =>
    have lighter := graph.loopWeight_forced forced
    exact .right _ (by split <;> omega)
  · have lighter := graph.weight_body_lt_loopWeight repeated count
    exact .right _ (by rw [if_pos ⟨by omega, trivial⟩]; omega)
  · have lighter := graph.weight_next_lt_loopWeight repeated count
    exact .right _ (by omega)
  · have lighter := graph.weight_next_lt_loopWeight repeated count
    exact .right _ (by omega)
  · have lighter := graph.weight_next_lt_loopWeight repeated count
    exact .right _ (by omega)
  · have lighter := graph.weight_body_lt_loopWeight repeated count
    exact .right _ (by rw [if_pos ⟨by omega, trivial⟩]; omega)
  · exact .right _ (by omega)
  · exact .left _ _ (by omega)

def search (graph : Graph) (text : Array Char) (start : Nat) (state : SearchState) :
    Bool × SearchState :=
  let (found, registers) :=
    graph.run text state.window (.visit graph.root) start .done state.registers
  (found, { state with registers })

end Graph

end PatternSearch

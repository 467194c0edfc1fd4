import PatternSearch.Proofs.Search.Balance
import PatternSearch.Proofs.Search.Captures

/-! What a backreference reads. The calls that are open at a moment of a search lie on one path,
and the slots hold what the marks along this path write. When a group is entered again, its end is
still that of an earlier passage, but this end does not lie behind the new start. So a span that
holds text was marked by one passage through its group, and a group that is open holds no text. -/

namespace PatternSearch

namespace Graph

/-- The calls from the first one on, each asked by the one before it while that one waits, and the
marks that they make. The marks are those of all calls but the last. -/
inductive Path (graph : Graph) (text : Array Char) (window : Window) (first : Call) :
    List Mark → Call → Prop where
  | first : Path graph text window first [] first
  | asked {marks : List Mark} {call next : Call} (path : Path graph text window first marks call)
      (asked : next ∈ (graph.step text window call).asked (graph.answer text window)) :
      Path graph text window first (marks ++ graph.marks call) next

variable {graph : Graph} {text : Array Char} {window : Window} {first call : Call}
  {marks : List Mark}

theorem reached_iff : Reached graph text window first call ↔
    ∃ marks, Path graph text window first marks call := by
  constructor
  · intro reached
    induction reached with
    | first => exact ⟨[], .first⟩
    | asked _ asked ih =>
      obtain ⟨marks, path⟩ := ih
      exact ⟨_, path.asked asked⟩
  · rintro ⟨marks, path⟩
    induction path with
    | first => exact .first
    | asked _ asked ih => exact ih.asked asked

theorem Path.slots_eq (path : Path graph text window first marks call) :
    call.registers.slots = first.registers.slots.replay marks := by
  induction path with
  | first => rfl
  | asked _ asked ih => rw [slots_of_asks (asks_of_asked asked), ih, Slots.replay_append]

end Graph

/-- The head of the group was passed, and its tail was not passed afterwards. -/
def OpenAlong (group : Nat) (marks : List Mark) : Prop :=
  ∃ before index after, marks = before ++ .head group index :: after ∧
    ∀ stop, .tail group stop ∉ after

/-- How a group stands after the marks. It was never entered and has no start; or it was left after
its last entrance, and its slots hold the two ends of this passage; or it was not left since, and
then the end that its slots hold, if they hold one, does not lie behind the start. The flag tells
whether it is open. -/
inductive Stands (group : Nat) (slots : Slots) (marks : List Mark) : Bool → Prop where
  | untouched (others : ∀ mark ∈ marks, mark.group ≠ group) (vacant : slots.start group = unset) :
      Stands group slots marks false
  | passed {first last : Nat} {before inside after : List Mark}
      (passage : LastPassage group first last marks before inside after)
      (begun : slots.start group = first) (ended : slots.stop group = last) :
      Stands group slots marks false
  | entered {index : Nat} {before after : List Mark}
      (marked : marks = before ++ .head group index :: after)
      (others : ∀ mark ∈ after, mark.group ≠ group) (begun : slots.start group = index)
      (ended : slots.stop group ≤ index) : Stands group slots marks true

theorem LastPassage.tail_mem {group first last index : Nat}
    {marks before inside after earlier later : List Mark}
    (passage : LastPassage group first last marks before inside after)
    (marked : marks = earlier ++ .head group index :: later) : .tail group last ∈ later := by
  have same : (before ++ .head group first :: inside) ++ .tail group last :: after =
      earlier ++ .head group index :: later := by
    rw [← marked, passage.marked, List.append_assoc, List.cons_append]
  rcases List.append_eq_append_iff.mp same with ⟨between, _, rest⟩ | ⟨between, _, rest⟩
  · have member : .head group index ∈ .tail group last :: after := by
      rw [rest]
      exact List.mem_append_right _ (List.mem_cons_self ..)
    rcases List.mem_cons.mp member with clash | behind
    · cases clash
    · exact absurd rfl (passage.after _ behind)
  · cases between with
    | nil => cases rest
    | cons mark between =>
      rw [List.cons_append, List.cons.injEq] at rest
      rw [rest.2]
      exact List.mem_append_right _ (List.mem_cons_self ..)

namespace Stands

variable {group index first last : Nat} {slots : Slots} {marks later : List Mark}
  {opened after : Bool}

theorem silent (stands : Stands group slots marks opened)
    (others : ∀ mark ∈ later, mark.group ≠ group) :
    Stands group (slots.replay later) (marks ++ later) opened := by
  obtain ⟨starts, stops⟩ := slots.replay_untouched others
  cases stands with
  | untouched before vacant =>
    exact .untouched (List.forall_mem_append.mpr ⟨before, others⟩) (starts.trans vacant)
  | @passed first last before inside after passage begun ended =>
    obtain ⟨rfl, inner, settled⟩ := passage
    have marked : before ++ .head group first :: (inside ++ .tail group last :: after) ++ later =
        before ++ .head group first :: (inside ++ .tail group last :: (after ++ later)) := by
      simp only [List.append_assoc, List.cons_append]
    exact .passed ⟨marked, inner, List.forall_mem_append.mpr ⟨settled, others⟩⟩
      (starts.trans begun) (stops.trans ended)
  | @entered index before after marked settled begun ended =>
    subst marked
    have marked : before ++ .head group index :: after ++ later =
        before ++ .head group index :: (after ++ later) := List.append_assoc ..
    exact .entered marked (List.forall_mem_append.mpr ⟨settled, others⟩) (starts.trans begun)
      (stops.symm ▸ ended)

theorem enter (bounded : group < slots.starts.size) (ended : slots.stop group ≤ index) :
    Stands group (slots.replay [.head group index]) (marks ++ [.head group index]) true := by
  refine .entered rfl nofun ?_ ended
  change (slots.setStart group index).start group = index
  rw [Slots.start_setStart bounded, if_pos rfl]

theorem leave (stands : Stands group slots marks true) (bounded : group < slots.stops.size) :
    Stands group (slots.replay [.tail group index]) (marks ++ [.tail group index]) false := by
  cases stands with
  | @entered first before after marked others begun ended =>
    subst marked
    have marked : before ++ .head group first :: after ++ [.tail group index] =
        before ++ .head group first :: (after ++ .tail group index :: []) := List.append_assoc ..
    have stopped : (slots.replay [.tail group index]).stop group = index := by
      change (slots.setStop group index).stop group = index
      rw [Slots.stop_setStop bounded, if_pos rfl]
    exact .passed ⟨marked, others, nofun⟩ begun stopped

theorem opened_of_along (stands : Stands group slots marks opened)
    (along : OpenAlong group marks) : opened = true := by
  obtain ⟨before, index, after, marked, unfinished⟩ := along
  cases stands with
  | untouched others vacant =>
    have member : .head group index ∈ marks := by
      rw [marked]
      exact List.mem_append_right _ (List.mem_cons_self ..)
    exact absurd rfl (others _ member)
  | passed passage begun ended => exact absurd (passage.tail_mem marked) (unfinished _)
  | entered marked others begun ended => rfl

/-- A span that holds text was marked by the last passage. -/
theorem exists_passage (stands : Stands group slots marks opened)
    (held : slots.span group = some (first, last)) (filled : first < last) :
    ∃ before inside after, LastPassage group first last marks before inside after := by
  obtain ⟨start, stop, _⟩ := Slots.ends_of_span held
  cases stands with
  | untouched others vacant =>
    rw [vacant, unset] at start
    omega
  | @passed _ _ before inside after passage begun ended =>
    rw [begun, Int.ofNat_inj] at start
    rw [ended, Int.ofNat_inj] at stop
    subst start stop
    exact ⟨before, inside, after, passage⟩
  | entered marked others begun ended =>
    -- The end that is left over from before does not lie behind the new start.
    omega

/-- An open group holds no text. -/
theorem eq_of_span (stands : Stands group slots marks true)
    (held : slots.span group = some (first, last)) : first = last := by
  obtain ⟨start, stop, _⟩ := Slots.ends_of_span held
  cases stands with
  | entered marked others begun ended => omega

end Stands

namespace Graph

variable {graph : Graph} {text : Array Char} {window : Window} {call next : Call}
  {marks : List Mark} {group index : Nat} {opened : Bool}

theorem index_of_marks (marked : graph.marks call = [.head group index]) : index = call.index := by
  unfold Graph.marks at marked
  split at marked
  · split at marked
    · cases marked
      rfl
    · cases marked
    · cases marked
  · cases marked

theorem asked_of_empty {id : Nat} (asks : call.Asks graph text window next)
    (visits : call.goal = .visit id) {following : Nat}
    (found : graph.node id = .backreference group following)
    (empty : ∀ start stop, call.registers.slots.span group = some (start, stop) → start = stop) :
    next = { call with goal := .visit following } := by
  cases asks with
  | visit asks =>
    cases visits
    rw [found] at asks
    cases asks with
    | backreference held fits repeats =>
      have same := empty _ _ held
      subst same
      simp only [Nat.sub_self, Nat.add_zero]
  | _ => cases visits

/-- A call keeps account of every group that has slots. -/
theorem stands_asked {groups : Nat} (asks : call.Asks graph text window next)
    (within : call.Within groups) (bounded : group ≤ groups)
    (balanced : call.Balanced graph group opened)
    (stands : Stands group call.registers.slots marks opened) :
    ∃ after, next.Balanced graph group after ∧
      Stands group next.registers.slots (marks ++ graph.marks call) after := by
  have starts : group < call.registers.slots.starts.size := by
    rw [within.starts]
    omega
  have stops : group < call.registers.slots.stops.size := by
    rw [within.stops]
    omega
  obtain ⟨after, turn, ahead⟩ := asks.turns balanced
  refine ⟨after, ahead, ?_⟩
  rw [slots_of_asks asks]
  generalize made : graph.marks call = later at turn
  cases turn with
  | silent others => exact stands.silent others
  | enter =>
    rw [index_of_marks made]
    exact .enter starts (within.stopped group)
  | leave => exact stands.leave stops

end Graph

theorem Graph.Path.stands {pattern : Pattern} {text : List Char} {start group : Nat} {call : Call}
    {marks : List Mark} (bounded : group ≤ pattern.groups)
    (path : Path pattern.graph text.toArray (pattern.matcher text).prepared.window
      ((pattern.matcher text).firstCall start) marks call) :
    call.Within pattern.groups ∧ ∃ opened, call.Balanced pattern.graph group opened ∧
      Stands group call.registers.slots marks opened := by
  induction path with
  | first =>
    refine ⟨Matcher.within_firstCall pattern text start, false,
      Matcher.balanced_firstCall pattern text start group, .untouched nofun ?_⟩
    rw [Matcher.firstCall_matcher]
    exact Slots.start_blank ..
  | asked path asked ih =>
    obtain ⟨within, opened, balanced, stands⟩ := ih
    have asks := asks_of_asked asked
    exact ⟨asks.within within, stands_asked asks within bounded balanced stands⟩

/-- For every pattern, text and start, every call of the search has a path of calls to it, and its
slots hold what the marks along such a path write. A group that holds text was marked by one
completed passage, and no head of the group follows on the path. A group that is open on the path
holds nothing or an empty span, so there a backreference to it asks to go on where it is. -/
theorem span_of_path (pattern : Pattern) (text : List Char) (start : Nat) :
    let matcher := pattern.matcher text
    let window := matcher.prepared.window
    let first := matcher.firstCall start
    (∀ call, pattern.graph.Reached matcher.text window first call ↔
        ∃ marks, pattern.graph.Path matcher.text window first marks call) ∧
      ∀ marks call, pattern.graph.Path matcher.text window first marks call →
        call.registers.slots = (Slots.blank pattern.groups).replay marks ∧
        ∀ group,
          (∀ begun ended, call.registers.slots.span group = some (begun, ended) → begun < ended →
            ∃ before inside after, LastPassage group begun ended marks before inside after) ∧
          (OpenAlong group marks →
            (call.registers.slots.span group = none ∨
              ∃ index, call.registers.slots.span group = some (index, index)) ∧
            ∀ id next asked, call.goal = .visit id →
              pattern.graph.node id = .backreference group next →
              call.Asks pattern.graph matcher.text window asked →
                asked = { call with goal := .visit next }) := by
  intro matcher window initial
  refine ⟨fun call => Graph.reached_iff, ?_⟩
  intro marks call path
  refine ⟨?_, fun group => ?_⟩
  · rw [path.slots_eq]
    change (matcher.firstCall start).registers.slots.replay marks = _
    rw [Matcher.firstCall_matcher]
    rfl
  · by_cases bounded : group ≤ pattern.groups
    · obtain ⟨_, opened, _, stands⟩ := path.stands bounded
      refine ⟨fun begun ended held filled => stands.exists_passage held filled, fun along => ?_⟩
      rw [stands.opened_of_along along] at stands
      refine ⟨?_, fun id next asked visits found asks => ?_⟩
      · cases held : call.registers.slots.span group with
        | none => exact .inl rfl
        | some span =>
          have same := stands.eq_of_span held
          exact .inr ⟨span.1, congrArg some (Prod.ext rfl same.symm)⟩
      · exact Graph.asked_of_empty asks visits found fun first last => stands.eq_of_span
    · have beyond := (path.stands (Nat.zero_le _)).1.span_beyond (Nat.not_le.mp bounded)
      rw [beyond]
      refine ⟨nofun, fun _ => ⟨.inl rfl, fun id next asked visits found asks => ?_⟩⟩
      refine Graph.asked_of_empty asks visits found fun first last held => ?_
      rw [beyond] at held
      cases held

/-- The pattern `(a|\1b)*c`, whose group is entered anew while its slots hold an earlier passage. -/
def reentered : Pattern :=
  let inner : Expr := .sequence [.backreference 1, .literal 'b']
  let body : Expr := .group 1 (.alternation [.literal 'a', inner])
  let expr : Expr := .sequence [.repetition body ⟨0, none, true⟩, .literal 'c']
  ⟨"(a|\\1b)*c", expr, 1, .ofExpr expr, by cbv, rfl⟩

-- The second passage starts where the first one ended, so its backreference reads nothing.
example : (reentered.matcher ['a', 'b', 'c']).search.2.charSpan 1 = some (1, 2) := by
  cbv

end PatternSearch

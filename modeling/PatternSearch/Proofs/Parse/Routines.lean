import PatternSearch.Parse.Descent

/-! What a routine does, told piece by piece: the primitive routines run in front of any others,
and `Ends` says that a routine comes to an end, what holds when it succeeds and how it may refuse
the pattern. -/

namespace PatternSearch

/-- The routine has ended within its limits, and not by a character from behind the end of the
pattern. -/
def Ends {α : Type} (outcome : Except Stop (α × Cursor)) (post : α → Cursor → Prop)
    (refusal : ParseError → Prop) : Prop :=
  match outcome with
  | .ok (value, after) => post value after
  | .error (.refused error) => refusal error
  | .error _ => False

namespace Ends

variable {α β : Type} {first : Routine α} {next : α → Routine β} {start : Cursor}
  {outcome : Except Stop (α × Cursor)} {post stronger : α → Cursor → Prop}
  {refusal narrower : ParseError → Prop}

theorem mono (ended : Ends outcome stronger narrower)
    (results : ∀ value after, stronger value after → post value after)
    (refusals : ∀ error, narrower error → refusal error) : Ends outcome post refusal := by
  rcases outcome with (error | _ | _) | ⟨value, after⟩
  · exact refusals error ended
  · exact ended
  · exact ended
  · exact results value after ended

theorem imp (ended : Ends outcome stronger refusal)
    (results : ∀ value after, stronger value after → post value after) :
    Ends outcome post refusal :=
  ended.mono results fun _ refused => refused

theorem bind {last : β → Cursor → Prop} (ended : Ends (first start) post refusal)
    (further : ∀ value after, post value after → Ends (next value after) last refusal) :
    Ends ((first >>= next) start) last refusal := by
  change Ends (first start >>= fun found => next found.1 found.2) last refusal
  revert ended
  rcases first start with (error | _ | _) | ⟨value, after⟩
  · exact fun refused => refused
  · exact fun overrun => overrun
  · exact fun exhausted => exhausted
  · exact further value after

end Ends

namespace Descent

section Primitives

variable {α : Type} {pattern : List Char} {start : Cursor}

theorem bind_get (next : Cursor → Routine α) : (get >>= next) start = next start start := rfl

theorem bind_position (next : Nat → Routine α) :
    (position >>= next) start = next start.position start := rfl

theorem bind_current (next : Option Char → Routine α) :
    (current pattern >>= next) start = next pattern[start.position]? start := rfl

theorem bind_advance (next : Unit → Routine α) :
    (advance >>= next) start = next () (start.moveTo (start.position + 1)) := rfl

theorem bind_openGroup (next : Nat → Routine α) :
    (openGroup >>= next) start = next (start.groups + 1) start.openGroup := rfl

theorem bind_eat (expected : Char) (next : Bool → Routine α) :
    (eat pattern expected >>= next) start =
      if pattern[start.position]? = some expected then
        next true (start.moveTo (start.position + 1))
      else next false start := by
  change (StateT.bind (eat pattern expected) next) start = _
  unfold eat StateT.bind
  rw [bind_current]
  split <;> rfl

theorem bind_charAt {place : Nat} {c : Char} (there : pattern[place]? = some c)
    (next : Char → Routine α) : (charAt pattern place >>= next) start = next c start := by
  unfold charAt
  rw [there]
  rfl

theorem bind_startsRange (next : Bool → Routine α) :
    (startsRange pattern >>= next) start =
      next (pattern[start.position]? == some '-' && pattern[start.position + 1]? != none &&
        pattern[start.position + 1]? != some ']') start := rfl

end Primitives

section Outcomes

variable {α β : Type} {first : Routine α} {start after : Cursor} {value : α} {stop : Stop}

theorem bind_found (found : first start = .ok (value, after)) (next : α → Routine β) :
    (first >>= next) start = next value after := by
  change (first start >>= fun found => next found.1 found.2) = _
  rw [found]
  rfl

theorem bind_stopped (stopped : first start = .error stop) (next : α → Routine β) :
    (first >>= next) start = .error stop := by
  change (first start >>= fun found => next found.1 found.2) = _
  rw [stopped]
  rfl

end Outcomes

section Turns

variable {α σ : Type} {turn : σ → Routine (Turn σ α)} {state next : σ} {result : α}
  {start after : Cursor} {stop : Stop} (limit : Nat)

theorem loop_again (turned : turn state start = .ok (.again next, after)) :
    loop turn (limit + 1) state start = loop turn limit next after := by
  rw [loop, bind_found turned]

theorem loop_leave (turned : turn state start = .ok (.leave result, after)) :
    loop turn (limit + 1) state start = .ok (result, after) := by
  rw [loop, bind_found turned]
  rfl

theorem loop_stopped (turned : turn state start = .error stop) :
    loop turn (limit + 1) state start = .error stop := by
  rw [loop, bind_stopped turned]

end Turns

section Variant

variable {α σ : Type}

def Turn.Holds (again : σ → Cursor → Prop) (leave : α → Cursor → Prop) :
    Turn σ α → Cursor → Prop
  | .again state => again state
  | .leave result => leave result

/-- A loop ends within its limit when less than that is left at first and each turn that asks for
another one leaves less. -/
theorem loop_ends {turn : σ → Routine (Turn σ α)} (ready : Nat → σ → Cursor → Prop)
    {done : α → Cursor → Prop} {refusal : ParseError → Prop}
    (turns : ∀ left state start, ready left state start → Ends (turn state start)
      (Turn.Holds (fun next after => ∃ fewer < left, ready fewer next after) done) refusal)
    {left limit : Nat} {state : σ} {start : Cursor} (first : ready left state start)
    (enough : left < limit) : Ends (loop turn limit state start) done refusal := by
  induction limit generalizing left state start with
  | zero => exact absurd enough (Nat.not_lt_zero _)
  | succ limit ih =>
    rw [loop]
    refine (turns left state start first).bind ?_
    rintro (next | result) after reached
    · obtain ⟨fewer, less, further⟩ := reached
      exact ih further (by omega)
    · exact reached

end Variant

end Descent

end PatternSearch

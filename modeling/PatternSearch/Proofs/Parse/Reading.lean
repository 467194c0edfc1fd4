import PatternSearch.Parse
import PatternSearch.Proofs.Expr.Canonical

/-! Reading produces canonical trees. What is read so far is in shape, numbered and noted, on the
innermost level and on those around it, and every step of a reading keeps it so. -/

namespace PatternSearch

open PatternSearch.Expr (Shaped GoodItem GoodBranch Additive)

theorem readNumber_lt {input rest : List Char} {value : Nat}
    (read : readNumber input = .ok (value, rest)) : value < boundLimit := by
  simp only [readNumber] at read
  split at read
  · cases read
  · split at read
    · next fits =>
      cases read
      exact fits
    · cases read

theorem readUpperBound_lt {low : Nat} {high : Option Nat} {input rest : List Char}
    (lower : low < boundLimit) (read : readUpperBound low input = .ok (high, rest)) :
    ∀ max ∈ high, max < boundLimit := by
  unfold readUpperBound at read
  split at read
  · cases read
    simp
  · obtain ⟨⟨value, behind⟩, number, read⟩ := bind_eq_ok.mp read
    cases read
    simpa using readNumber_lt number
  · cases read
    simpa using lower

theorem readBounds_bounded {low : Nat} {high : Option Nat} {input rest : List Char}
    (read : readBounds input = .ok ((low, high), rest)) (greedy : Bool) :
    (Quantifier.mk low high greedy).Bounded := by
  obtain ⟨⟨value, after⟩, lower, read⟩ := bind_eq_ok.mp read
  obtain ⟨⟨upper, behind⟩, found, read⟩ := bind_eq_ok.mp read
  have lowFits := readNumber_lt lower
  have highFits := readUpperBound_lt lowFits found
  simp only at read
  split at read
  · cases read
    exact ⟨lowFits, by simp⟩
  · split at read
    · next ordered =>
      cases read
      refine ⟨lowFits, ?_⟩
      intro max given
      cases given
      exact ⟨ordered, highFits _ rfl⟩
    · cases read
  · cases read

theorem readQuantifierBounds_bounded {c : Char} {low : Nat} {high : Option Nat}
    {rest beyond : List Char} (read : readQuantifierBounds c rest = .ok ((low, high), beyond))
    (greedy : Bool) : (Quantifier.mk low high greedy).Bounded := by
  unfold readQuantifierBounds at read
  split at read
  · cases read
    exact ⟨by simp [boundLimit], by simp⟩
  · split at read
    · cases read
      exact ⟨by simp [boundLimit], by simp⟩
    · split at read
      · cases read
        exact ⟨by simp [boundLimit], by simp [boundLimit]⟩
      · split at read
        · next found =>
          cases read
          exact readBounds_bounded found greedy
        · cases read

theorem quantify_result {item result : Expr} {input rest : List Char}
    (read : quantify item input = .ok (result, rest)) :
    result = item ∨ ∃ quantifier : Quantifier,
      result = .repetition item quantifier ∧ item.repeatable ∧ quantifier.Bounded := by
  unfold quantify at read
  split at read
  · cases read
    exact .inl rfl
  · split at read
    · obtain ⟨⟨⟨low, high⟩, beyond⟩, bounds, read⟩ := bind_eq_ok.mp read
      have bounded := readQuantifierBounds_bounded bounds
      simp only at read
      split at read
      · cases read
      · next repeatable =>
        have able : item.repeatable := by simpa using repeatable
        split at read
        · split at read
          · cases read
          · cases read
            exact .inr ⟨_, rfl, able, bounded _⟩
        · cases read
          exact .inr ⟨_, rfl, able, bounded _⟩
    · cases read
      exact .inl rfl

theorem quantify_good {item result : Expr} {input rest : List Char} (good : item.GoodItem)
    (read : quantify item input = .ok (result, rest)) : result.GoodItem := by
  rcases quantify_result read with rfl | ⟨quantifier, rfl, able, bounded⟩
  · exact good
  · exact ⟨rfl, Expr.Throughout.repetition_iff.mpr ⟨⟨able, bounded⟩, good.shaped⟩⟩

theorem quantify_collect {item result : Expr} {input rest : List Char}
    {collect : Expr → List Nat} (additive : Additive collect)
    (read : quantify item input = .ok (result, rest)) : collect result = collect item := by
  rcases quantify_result read with rfl | ⟨quantifier, rfl, _⟩
  · rfl
  · exact additive.repetition _ _

theorem Bracket.listed_predicate (bracket : Bracket) : bracket.predicate.Listed := by
  unfold predicate
  match bracket.classes with
  | [] => exact .set _
  | kind :: kinds => exact .union _ (kind :: kinds) (List.cons_ne_nil _ _)

theorem readBracket_canonical {opening input rest : List Char} {test : Predicate}
    (read : readBracket opening input = .ok (test, rest)) : test.Canonical := by
  unfold readBracket at read
  split at read
  · obtain ⟨⟨bracket, behind⟩, _, read⟩ := bind_eq_ok.mp read
    cases read
    exact .complement bracket.listed_predicate
  · obtain ⟨⟨bracket, behind⟩, _, read⟩ := bind_eq_ok.mp read
    cases read
    exact .bracket bracket.listed_predicate

inductive Expr.Simple : Expr → Prop where
  | predicate {test : Predicate} (canonical : test.Canonical) : Simple (predicate test)
  | atStart : Simple atStart
  | atEnd : Simple atEnd
  | backreference {index : Nat} (positive : 1 ≤ index) (digit : index ≤ 9) :
      Simple (backreference index)

theorem Expr.Simple.good {expr : Expr} (simple : expr.Simple) : expr.GoodItem := by
  cases simple with
  | predicate canonical =>
    exact ⟨rfl, fun part member => List.mem_singleton.mp member ▸ canonical⟩
  | atStart => exact ⟨rfl, fun part member => List.mem_singleton.mp member ▸ trivial⟩
  | atEnd => exact ⟨rfl, fun part member => List.mem_singleton.mp member ▸ trivial⟩
  | backreference => exact ⟨rfl, fun part member => List.mem_singleton.mp member ▸ trivial⟩

theorem Expr.Simple.groups_eq {expr : Expr} (simple : expr.Simple) : expr.groups = [] := by
  cases simple <;> rfl

theorem digitValue_digit {c : Char} (low : '1' ≤ c) (high : c ≤ '9') :
    1 ≤ digitValue c ∧ digitValue c ≤ 9 := by
  have above : '1'.toNat ≤ c.toNat := low
  have below : c.toNat ≤ '9'.toNat := high
  have one : '1'.toNat = 49 := rfl
  have nine : '9'.toNat = 57 := rfl
  have zero : '0'.toNat = 48 := rfl
  unfold digitValue
  omega

theorem readEscape_simple {c : Char} {item : Expr} (read : readEscape c = some item) :
    item.Simple := by
  unfold readEscape at read
  split at read
  · next digit =>
    cases read
    have ⟨positive, small⟩ := digitValue_digit digit.1 digit.2
    exact .backreference positive small
  · split at read <;> cases read
    · exact .predicate (.charClass _)
    · exact .predicate (.char _)

theorem readAtom_simple {c : Char} {rest beyond : List Char} {item : Expr}
    (read : readAtom c rest = .ok (item, beyond)) : item.Simple := by
  unfold readAtom at read
  split at read
  · split at read
    · cases read
    · split at read
      · next escaped =>
        cases read
        exact readEscape_simple escaped
      · cases read
  · split at read
    · obtain ⟨⟨test, behind⟩, bracket, read⟩ := bind_eq_ok.mp read
      cases read
      exact .predicate (readBracket_canonical bracket)
    · split at read
      · cases read
      · split at read
        · cases read
          exact .atStart
        · split at read
          · cases read
            exact .atEnd
          · split at read <;> cases read
            · exact .predicate .any
            · exact .predicate (.char c)

namespace Level

def exprs (level : Level) : List Expr := level.branches.toList ++ level.items.toList

def collect (level : Level) (collect : Expr → List Nat) : List Nat :=
  level.exprs.flatMap collect

structure Good (level : Level) : Prop where
  branches : ∀ branch ∈ level.branches.toList, branch.GoodBranch
  items : ∀ item ∈ level.items.toList, item.GoodItem

variable {level : Level} {item : Expr} {collect : Expr → List Nat}

theorem good_empty : empty.Good := ⟨nofun, nofun⟩

theorem Good.addItem (good : level.Good) (fits : item.GoodItem) : (level.addItem item).Good where
  branches := good.branches
  items := by
    intro other member
    simp only [Level.addItem, Array.toList_push, List.mem_append, List.mem_singleton] at member
    rcases member with earlier | rfl
    · exact good.items other earlier
    · exact fits

theorem Good.endBranch (good : level.Good) : level.endBranch.Good where
  branches := by
    intro other member
    simp only [Level.endBranch, Array.toList_push, List.mem_append, List.mem_singleton] at member
    rcases member with earlier | rfl
    · exact good.branches other earlier
    · exact Expr.goodBranch_sequenceOf good.items
  items := nofun

theorem Good.close (good : level.Good) : level.close.Throughout Shaped :=
  Expr.shaped_alternationOf good.endBranch.branches

theorem collect_addItem :
    (level.addItem item).collect collect = level.collect collect ++ collect item := by
  simp [Level.collect, exprs, Level.addItem]

variable (additive : Additive collect)
include additive

theorem collect_endBranch : level.endBranch.collect collect = level.collect collect := by
  simp [Level.collect, exprs, endBranch, additive.sequenceOf]

theorem collect_close : collect level.close = level.collect collect := by
  rw [close, additive.alternationOf]
  simp [Level.collect, exprs, endBranch, additive.sequenceOf]

end Level

namespace Progress

def enclosing : List OpenGroup → List Nat
  | [] => []
  | group :: outer => enclosing outer ++ group.outer.collect Expr.groups ++ [group.index]

def Noted (references : Array Reference) (level : Level) : Prop :=
  ∀ index ∈ level.collect Expr.references,
    1 ≤ index ∧ index ≤ 9 ∧ ∃ reference ∈ references, reference.group = index

/-- What holds after every step of a reading. -/
structure Sound (progress : Progress) : Prop where
  level : progress.level.Good
  noted : Noted progress.references progress.level
  around : ∀ group ∈ progress.pending,
    group.outer.Good ∧ Noted progress.references group.outer
  numbered : enclosing progress.pending ++ progress.level.collect Expr.groups =
    List.range' 1 progress.groups

variable {progress next : Progress} {item : Expr}

theorem sound_start : start.Sound := ⟨Level.good_empty, nofun, nofun, rfl⟩

theorem Sound.endBranch (sound : progress.Sound) : progress.endBranch.Sound where
  level := sound.level.endBranch
  noted := by
    unfold Noted
    rw [show progress.endBranch.level = progress.level.endBranch from rfl,
      Level.collect_endBranch Expr.additive_references]
    exact sound.noted
  around := sound.around
  numbered := by
    rw [show progress.endBranch.level = progress.level.endBranch from rfl,
      Level.collect_endBranch Expr.additive_groups]
    exact sound.numbered

theorem Sound.openGroup (sound : progress.Sound) (site : List Char) :
    (progress.openGroup site).Sound where
  level := Level.good_empty
  noted := nofun
  around := by
    intro group member
    rcases List.mem_cons.mp member with rfl | outer
    · exact ⟨sound.level, sound.noted⟩
    · exact sound.around group outer
  numbered := by
    simp only [Progress.openGroup, enclosing, sound.numbered]
    rw [List.range'_1_concat, Nat.add_comm 1]
    simp [Level.collect, Level.exprs, Level.empty]

theorem Sound.closeGroup {group : OpenGroup} {pending : List OpenGroup} {rest beyond : List Char}
    (sound : progress.Sound) (innermost : progress.pending = group :: pending)
    (closed : quantify (.group group.index progress.level.close) rest = .ok (item, beyond)) :
    Sound { progress with level := group.outer.addItem item, pending } := by
  have good : (Expr.group group.index progress.level.close).GoodItem :=
    ⟨rfl, Expr.Throughout.group_iff.mpr ⟨trivial, sound.level.close⟩⟩
  have outer := sound.around group (by simp [innermost])
  have numbered := sound.numbered
  rw [innermost, enclosing] at numbered
  refine ⟨outer.1.addItem (quantify_good good closed), ?_, ?_, ?_⟩
  · intro index member
    rw [Level.collect_addItem, List.mem_append, quantify_collect Expr.additive_references closed,
      Expr.references_group, Level.collect_close Expr.additive_references] at member
    rcases member with before | inner
    · exact outer.2 index before
    · exact sound.noted index inner
  · intro other member
    exact sound.around other (by simp [innermost, member])
  · dsimp only
    rw [Level.collect_addItem, quantify_collect Expr.additive_groups closed, Expr.groups_group,
      Level.collect_close Expr.additive_groups, ← numbered]
    simp

section NoteReference

variable {atom : Expr} {site : List Char}

theorem level_noteReference : (progress.noteReference atom site).level = progress.level := by
  cases atom <;> rfl

theorem pending_noteReference :
    (progress.noteReference atom site).pending = progress.pending := by
  cases atom <;> rfl

theorem groups_noteReference : (progress.noteReference atom site).groups = progress.groups := by
  cases atom <;> rfl

theorem mem_noteReference {reference : Reference} (member : reference ∈ progress.references) :
    reference ∈ (progress.noteReference atom site).references := by
  cases atom with
  | backreference index => exact Array.mem_push_of_mem _ member
  | _ => exact member

theorem Noted.noteReference {level : Level} (noted : Noted progress.references level) :
    Noted (progress.noteReference atom site).references level := by
  intro index member
  obtain ⟨positive, digit, reference, met, names⟩ := noted index member
  exact ⟨positive, digit, reference, mem_noteReference met, names⟩

theorem noted_of_simple (simple : atom.Simple) {index : Nat} (member : index ∈ atom.references) :
    1 ≤ index ∧ index ≤ 9 ∧
      ∃ reference ∈ (progress.noteReference atom site).references, reference.group = index := by
  cases simple with
  | predicate => cases member
  | atStart => cases member
  | atEnd => cases member
  | backreference positive digit =>
    rw [Expr.references_backreference, List.mem_singleton] at member
    subst member
    exact ⟨positive, digit, ⟨index, site⟩, Array.mem_push_self, rfl⟩

end NoteReference

theorem Sound.addItem {atom : Expr} {site rest beyond : List Char} (sound : progress.Sound)
    (simple : atom.Simple) (quantified : quantify atom rest = .ok (item, beyond)) :
    ((progress.noteReference atom site).addItem item).Sound := by
  refine ⟨?_, ?_, ?_, ?_⟩
  · rw [Progress.addItem, level_noteReference]
    exact sound.level.addItem (quantify_good simple.good quantified)
  · intro index member
    rw [Progress.addItem, level_noteReference, Level.collect_addItem, List.mem_append,
      quantify_collect Expr.additive_references quantified] at member
    rcases member with before | new
    · exact sound.noted.noteReference index before
    · exact noted_of_simple simple new
  · intro group member
    rw [Progress.addItem, pending_noteReference] at member
    have outer := sound.around group member
    exact ⟨outer.1, outer.2.noteReference⟩
  · rw [Progress.addItem, pending_noteReference, level_noteReference, groups_noteReference,
      Level.collect_addItem, quantify_collect Expr.additive_groups quantified, simple.groups_eq,
      List.append_nil]
    exact sound.numbered

/-- What a step can be: a bar, an opening parenthesis, a closing one with what quantifies its
group, or an atom with what quantifies it. -/
inductive StepsTo (progress : Progress) : Char → List Char → Progress → List Char → Prop where
  | bar {rest : List Char} : StepsTo progress '|' rest progress.endBranch rest
  | opening {rest : List Char} :
      StepsTo progress '(' rest (progress.openGroup ('(' :: rest)) rest
  | closing {group : OpenGroup} {pending : List OpenGroup} {item : Expr} {rest beyond : List Char}
      (innermost : progress.pending = group :: pending)
      (closed : quantify (.group group.index progress.level.close) rest = .ok (item, beyond)) :
      StepsTo progress ')' rest { progress with level := group.outer.addItem item, pending } beyond
  | atom {c : Char} {atom item : Expr} {rest after beyond : List Char}
      (outside : c ∉ ['|', '(', ')']) (first : readAtom c rest = .ok (atom, after))
      (quantified : quantify atom after = .ok (item, beyond)) :
      StepsTo progress c rest ((progress.noteReference atom (c :: rest)).addItem item) beyond

theorem stepsTo {c : Char} {rest beyond : List Char}
    (read : progress.step c rest = .ok (next, beyond)) : progress.StepsTo c rest next beyond := by
  unfold Progress.step at read
  split at read
  · next bar =>
    cases read
    exact bar ▸ .bar
  · next noBar =>
    split at read
    · next opens =>
      cases read
      exact opens ▸ .opening
    · next noOpening =>
      split at read
      · next closes =>
        split at read
        · cases read
        · next group pending innermost =>
          obtain ⟨⟨item, behind⟩, closed, ended⟩ := bind_eq_ok.mp read
          cases ended
          exact closes ▸ .closing innermost closed
      · next noClosing =>
        obtain ⟨⟨atom, after⟩, first, further⟩ := bind_eq_ok.mp read
        obtain ⟨⟨item, behind⟩, quantified, ended⟩ := bind_eq_ok.mp further
        cases ended
        exact .atom (by simp [noBar, noOpening, noClosing]) first quantified

theorem Sound.step {c : Char} {rest beyond : List Char} (sound : progress.Sound)
    (read : progress.step c rest = .ok (next, beyond)) : next.Sound := by
  cases stepsTo read with
  | bar => exact sound.endBranch
  | opening => exact sound.openGroup _
  | closing innermost closed => exact sound.closeGroup innermost closed
  | atom outside first quantified => exact sound.addItem (readAtom_simple first) quantified

theorem Sound.readAll {input : List Char} (sound : progress.Sound)
    (read : progress.readAll input = .ok next) : next.Sound := by
  fun_induction Progress.readAll progress input with
  | case1 progress =>
    cases read
    exact sound
  | case2 => cases read
  | case3 progress c rest after beyond stepped ih => exact ih (sound.step stepped) read

theorem Sound.finish {parsed : Parsed} (sound : progress.Sound)
    (finished : progress.finish = .ok parsed) : parsed.expr.Canonical parsed.groups := by
  unfold Progress.finish at finished
  split at finished
  · cases finished
  · next closed =>
    split at finished
    · cases finished
    · next defined =>
      cases finished
      refine ⟨sound.level.close, ?_, ?_⟩
      · have numbered := sound.numbered
        rw [closed, enclosing, List.nil_append] at numbered
        rw [Level.collect_close Expr.additive_groups, numbered]
      · intro index member
        rw [Level.collect_close Expr.additive_references] at member
        obtain ⟨positive, digit, reference, met, names⟩ := sound.noted index member
        have bound := Array.find?_eq_none.mp defined reference met
        simp only [decide_eq_true_eq] at bound
        dsimp only
        omega

end Progress

theorem parse_eq_ok {source : String} {parsed : Parsed} :
    parse source = .ok parsed ↔ parseChars source.toList = .ok parsed := by
  unfold parse
  cases parseChars source.toList with
  | error fault => exact ⟨nofun, nofun⟩
  | ok result => simp only [Except.mapError, Except.ok.injEq]

/-- Whatever reads as a pattern reads as a canonical tree. -/
theorem canonical_of_parse {source : String} {parsed : Parsed}
    (read : parse source = .ok parsed) : parsed.expr.Canonical parsed.groups := by
  obtain ⟨progress, all, finished⟩ := bind_eq_ok.mp (parse_eq_ok.mp read)
  exact (Progress.sound_start.readAll all).finish finished

end PatternSearch

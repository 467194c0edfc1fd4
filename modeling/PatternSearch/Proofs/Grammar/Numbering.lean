import PatternSearch.Proofs.Grammar.Composition
import PatternSearch.Proofs.Grammar.Lexis

/-! Groups are numbered by their opening parentheses. What is derived pairs up its parentheses, so
each that opens a group has one that closes it, and the text between the two is the body of the
group with the number that the parenthesis has among all that open groups. -/

namespace PatternSearch

namespace Expr

theorem mem_parts_sequenceOf {items : List Expr} {item part : Expr} (member : item ∈ items)
    (within : part ∈ item.parts) : part ∈ (sequenceOf items).parts := by
  match items with
  | [single] =>
    rw [List.mem_singleton.mp member] at within
    exact within
  | first :: second :: others =>
    change part ∈ _ :: allParts _
    rw [allParts_eq_flatMap]
    exact List.mem_cons_of_mem _ (List.mem_flatMap.mpr ⟨item, member, within⟩)

theorem mem_parts_alternationOf {branches : List Expr} {branch part : Expr}
    (member : branch ∈ branches) (within : part ∈ branch.parts) :
    part ∈ (alternationOf branches).parts := by
  match branches with
  | [single] =>
    rw [List.mem_singleton.mp member] at within
    exact within
  | first :: second :: others =>
    change part ∈ _ :: allParts _
    rw [allParts_eq_flatMap]
    exact List.mem_cons_of_mem _ (List.mem_flatMap.mpr ⟨branch, member, within⟩)

def groupNodes (expr : Expr) : List Expr := expr.parts.filter (·.groupIndex?.isSome)

theorem map_groupNodes (expr : Expr) :
    expr.groupNodes.map groupIndex? = expr.groups.map some := by
  rw [groups, List.map_filterMap_some_eq_filter_map_isSome, List.filter_map]
  rfl

/-- In a tree whose groups are numbered in order a number tells the place in the walk. -/
theorem getElem?_groupNodes {expr body : Expr} {count place : Nat}
    (numbered : expr.groups = List.range' 1 count) (member : group (place + 1) body ∈ expr.parts) :
    expr.groupNodes[place]? = some (group (place + 1) body) := by
  have listed : group (place + 1) body ∈ expr.groupNodes := List.mem_filter.mpr ⟨member, rfl⟩
  obtain ⟨found, held⟩ := List.mem_iff_getElem?.mp listed
  have index : expr.groups[found]? = some (place + 1) := by
    have walked := congrArg (·[found]?) expr.map_groupNodes
    simpa [held, groupIndex?] using walked.symm
  rw [numbered] at index
  obtain ⟨_, equal⟩ := List.getElem?_eq_some_iff.mp index
  rw [List.getElem_range'] at equal
  have same : found = place := by omega
  rw [← same] at held ⊢
  exact held

end Expr

/-- Behind `groups` other groups the text reads to its end with all of its groups closed, and makes
the tree. -/
def ReadsAs (groups : Nat) (text : List Char) (tree : Expr) : Prop :=
  ∃ last : Progress, Progress.readAll { Progress.start with groups } text = .ok last ∧
    last.pending = [] ∧ last.level.close = tree

namespace Grammar

theorem Body.readsAs (body : Body) (before : Nat) :
    ReadsAs before body.write (body.tree before) := by
  obtain ⟨level, branches, met, _, read⟩ :=
    body.leads { Progress.start with groups := before } [] rfl nofun
  rw [List.append_nil] at read
  refine ⟨_, read.trans (by rw [Progress.readAll]), rfl, ?_⟩
  change level.close = _
  rw [Level.close, branches, body.tree_eq]
  simp [Progress.start, Level.empty]

theorem Body.mem_parts_tree {body : Body} {before : Nat} {branch part : Expr}
    (member : branch ∈ body.branches before) (within : part ∈ branch.parts) :
    part ∈ (body.tree before).parts := by
  rw [body.tree_eq]
  exact Expr.mem_parts_alternationOf member within

/-- The text goes on behind an opening parenthesis. Another one closes the group, and what stands
between the two is read as the body of the group with the number, which is among the parts. -/
def OpensGroup (number : Nat) (text : List Char) (parts : List Expr) : Prop :=
  ∃ inside behind body, text = inside ++ ')' :: behind ∧ Balanced inside ∧
    .group number body ∈ parts ∧ ReadsAs number inside body

/-- Every exposed opening parenthesis opens the group with the next number behind those opened
before. -/
def Opens (before : Nat) (text : List Char) (parts : List Expr) : Prop :=
  ∀ front rest, text = front ++ '(' :: rest → Exposes front →
    OpensGroup (before + opened front + 1) rest parts

section Openings

variable {before number : Nat} {text rest inside : List Char} {parts : List Expr} {body : Expr}

theorem OpensGroup.append (opens : OpensGroup number text parts) (rest : List Char) :
    OpensGroup number (text ++ rest) parts := by
  obtain ⟨inside, behind, body, rfl, found⟩ := opens
  exact ⟨inside, behind ++ rest, body, by simp, found⟩

theorem opens_silent (silent : '(' ∉ exposed .bare text) : Opens before text parts := by
  rintro front rest rfl exposes
  rw [exposes.exposed_append] at silent
  exact absurd (List.mem_append_right _ (List.mem_cons_self ..)) silent

theorem Opens.append (exposes : Exposes text) (first : Opens before text parts)
    (second : Opens (before + opened text) rest parts) : Opens before (text ++ rest) parts := by
  intro front tail split shown
  have further : ∀ later, rest = later ++ '(' :: tail → front = text ++ later →
      OpensGroup (before + opened front + 1) tail parts := by
    rintro later spelled rfl
    have found := second later tail spelled (exposes_of_append exposes shown)
    rw [Nat.add_assoc before, ← exposes.opened_append] at found
    exact found
  rcases List.append_eq_append_iff.mp split with ⟨later, spelled, ended⟩ | ⟨between, spelled, ended⟩
  · exact further later ended spelled
  · cases between with
    | nil => exact further [] ended.symm (by simpa using spelled.symm)
    | cons c between =>
      cases ended
      exact (first front between spelled shown).append rest

theorem Opens.group (balanced : Balanced inside) (member : .group (before + 1) body ∈ parts)
    (reads : ReadsAs (before + 1) inside body)
    (inner : Opens (before + 1) (inside ++ ')' :: rest) parts) :
    Opens before ('(' :: (inside ++ ')' :: rest)) parts := by
  intro front tail split shown
  cases front with
  | nil =>
    cases split
    exact ⟨inside, rest, body, rfl, balanced, member, reads⟩
  | cons c front =>
    obtain ⟨rfl, spelled⟩ := List.cons.inj split
    have count : before + opened ('(' :: front) = before + 1 + opened front := by
      change before + List.count '(' ('(' :: exposed .bare front) = _
      rw [List.count_cons_self, opened]
      omega
    rw [count]
    exact inner front tail spelled shown

end Openings

structure Numbers (before groups : Nat) (text : List Char) (parts : List Expr) : Prop where
  balanced : Balanced text
  count : opened text = groups
  opens : Opens before text parts

section Numbers

variable {before groups more : Nat} {text rest : List Char} {parts : List Expr}

theorem numbers_flat (flat : Flat text) : Numbers before 0 text parts :=
  ⟨flat.balanced, flat.opened_eq, opens_silent flat.noOpening⟩

theorem Numbers.append (first : Numbers before groups text parts)
    (second : Numbers (before + groups) more rest parts) :
    Numbers before (groups + more) (text ++ rest) parts where
  balanced := first.balanced.append second.balanced
  count := by
    rw [first.balanced.exposes.opened_append, first.count, second.count]
  opens := by
    have further := second.opens
    rw [← first.count] at further
    exact first.opens.append first.balanced.exposes further

theorem Numbers.bar (others : Numbers before groups text parts) :
    Numbers before groups ('|' :: text) parts := by
  have bar : Flat ['|'] := ⟨rfl, by decide, by decide⟩
  have joined := (numbers_flat bar).append others
  rwa [Nat.zero_add] at joined

theorem Numbers.group {body : Body} {suffix : Option Suffix}
    (inside : Numbers (before + 1) body.groups body.write parts)
    (member : .group (before + 1) (body.tree (before + 1)) ∈ parts) :
    Numbers before (body.groups + 1) ('(' :: (body.write ++ ')' :: writeSuffix suffix)) parts := by
  have flat := flat_writeSuffix suffix
  have closing : '(' ∉ exposed .bare (')' :: writeSuffix suffix) := by
    change '(' ∉ ')' :: exposed .bare (writeSuffix suffix)
    simpa using flat.noOpening
  refine ⟨inside.balanced.enclose flat.balanced, ?_, ?_⟩
  · have behind : opened (')' :: writeSuffix suffix) = 0 := List.count_eq_zero.mpr closing
    change List.count '(' ('(' :: exposed .bare (body.write ++ ')' :: writeSuffix suffix)) = _
    rw [List.count_cons_self]
    change opened (body.write ++ ')' :: writeSuffix suffix) + 1 = _
    rw [inside.balanced.exposes.opened_append, inside.count, behind, Nat.add_zero]
  · exact (inside.opens.append inside.balanced.exposes (opens_silent closing)).group
      inside.balanced member (body.readsAs _)

end Numbers

mutual

theorem Body.numbers : ∀ (body : Body) (before : Nat) {parts : List Expr},
    (∀ branch ∈ body.branches before, branch.parts ⊆ parts) →
      Numbers before body.groups body.write parts
  | .single branch, before, parts, contained => by
    rw [Body.branches, List.forall_mem_singleton, branch.tree_eq] at contained
    exact branch.numbers before fun item member part within =>
      contained (Expr.mem_parts_sequenceOf member within)
  | .bar branch others, before, parts, contained => by
    rw [Body.branches, List.forall_mem_cons, branch.tree_eq] at contained
    have first := branch.numbers before fun item member part within =>
      contained.1 (Expr.mem_parts_sequenceOf member within)
    exact first.append (others.numbers _ contained.2).bar

theorem Branch.numbers : ∀ (branch : Branch) (before : Nat) {parts : List Expr},
    (∀ item ∈ branch.items before, item.parts ⊆ parts) →
      Numbers before branch.groups branch.write parts
  | .nil, before, parts, contained => numbers_flat ⟨rfl, nofun, nofun⟩
  | .cons item items, before, parts, contained => by
    rw [Branch.items, List.forall_mem_cons] at contained
    exact (item.numbers before contained.1).append (items.numbers _ contained.2)

theorem Item.numbers : ∀ (item : Item) (before : Nat) {parts : List Expr},
    (item.tree before).parts ⊆ parts → Numbers before item.groups item.write parts
  | .atStart, before, parts, contained => numbers_flat ⟨rfl, by decide, by decide⟩
  | .atEnd, before, parts, contained => numbers_flat ⟨rfl, by decide, by decide⟩
  | .leaf leaf suffix, before, parts, contained =>
    numbers_flat (leaf.flat.append (flat_writeSuffix suffix))
  | .group body suffix, before, parts, contained => by
    let tree : Expr := .group (before + 1) (body.tree (before + 1))
    have own : tree.parts ⊆ parts := by
      refine List.Subset.trans ?_ contained
      cases suffix with
      | none => exact List.Subset.refl _
      | some suffix => exact List.subset_cons_self _ _
    refine (body.numbers (before + 1) ?_).group (own tree.self_mem_parts)
    exact fun branch member part within =>
      own (List.mem_cons_of_mem _ (Body.mem_parts_tree member within))

end

end Grammar

/-- A pattern that reads has as many groups as it has exposed opening parentheses, and a walk of its
tree meets them in the order of their numbers, each number once. Every such parenthesis is matched,
and what stands up to the matching one, read by itself behind the groups opened so far, is the body
of the group with its number. -/
theorem groups_follow_parentheses {source : String} {parsed : Parsed}
    (read : parse source = .ok parsed) :
    parsed.groups = opened source.toList ∧
      parsed.expr.groups = List.range' 1 parsed.groups ∧
      ∀ before rest, source.toList = before ++ '(' :: rest → Exposes before →
        (∃ inside behind, rest = inside ++ ')' :: behind ∧ Balanced inside) ∧
        ∀ inside behind, rest = inside ++ ')' :: behind → Balanced inside →
          ∃ body, parsed.expr.groupNodes[opened before]? =
              some (.group (opened before + 1) body) ∧
            ReadsAs (opened before + 1) inside body := by
  obtain ⟨body, written, groups, tree, _⟩ := body_of_parse read
  have numbered := (canonical_of_parse read).numbered
  have numbers : Grammar.Numbers 0 body.groups body.write parsed.expr.parts := by
    rw [tree]
    exact body.numbers 0 fun branch member part => Grammar.Body.mem_parts_tree member
  refine ⟨by rw [groups, written, numbers.count], numbered, ?_⟩
  intro before rest split shown
  obtain ⟨between, beyond, found, paired, balanced, member, reads⟩ :=
    numbers.opens before rest (written ▸ split) shown
  rw [Nat.zero_add] at member reads
  refine ⟨⟨between, beyond, paired, balanced⟩, ?_⟩
  intro inside behind spelled matched
  obtain ⟨rfl, _⟩ := matched.unique balanced (spelled.symm.trans paired)
  exact ⟨found, Expr.getElem?_groupNodes numbered member, reads⟩

/-- Neither the parenthesis in brackets nor the one behind a backslash counts, so that the group
around `b|c` is the second one. -/
theorem groups_follow_hidden :
    let source := "[(](a\\(|(b|c)+)(d)"
    ∃ parsed, parse source = .ok parsed ∧ parsed.groups = 3 ∧
      ∃ body, parsed.expr.groupNodes[1]? = some (.group 2 body) ∧ ReadsAs 2 ['b', '|', 'c'] body := by
  intro source
  have reads : (parse source).toOption.isSome = true := by decide +kernel
  cases read : parse source with
  | error error =>
    rw [read] at reads
    cases reads
  | ok parsed =>
    obtain ⟨count, _, each⟩ := groups_follow_parentheses read
    have second := each "[(](a\\(|".toList "b|c)+)(d)".toList (by decide) (by decide)
    have body := second.2 ['b', '|', 'c'] "+)(d)".toList (by decide) (by decide)
    exact ⟨parsed, rfl, count.trans (by decide), body⟩

end PatternSearch

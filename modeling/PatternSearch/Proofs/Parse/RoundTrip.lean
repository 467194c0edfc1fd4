import PatternSearch.Proofs.Parse.Brackets
import PatternSearch.Proofs.Parse.Quantifiers
import PatternSearch.Proofs.Parse.Reading

/-! Written trees read back. A canonical tree is read part by part: from any progress, what is
written for an item adds the item to the current level, what is written for a branch fills an
empty branch, and what stands between parentheses closes to the body that was written. -/

namespace PatternSearch

open PatternSearch.Expr (Shaped)

section Atoms

theorem readEscape_special {c : Char} (special : isSpecial c) :
    readEscape c = some (.literal c) := by
  simp only [isSpecial, List.mem_cons, List.not_mem_nil, or_false, decide_eq_true_eq] at special
  rcases special with rfl | rfl | rfl | rfl | rfl | rfl | rfl | rfl | rfl | rfl | rfl | rfl |
    rfl | rfl <;> rfl

def ReadsBack (atom : Expr) (written : List Char) : Prop :=
  ∃ c tail, written = c :: tail ∧ c ∉ ['|', '(', ')'] ∧ startsQuantifier c = false ∧
    ∀ rest, readAtom c (tail ++ rest) = .ok (atom, rest)

theorem readsBack_char (c : Char) : ReadsBack (.literal c) (printLiteral c) := by
  unfold printLiteral
  split
  · next special =>
    refine ⟨'\\', [c], rfl, by decide, rfl, ?_⟩
    intro rest
    simp [readAtom, readEscape_special special]
  · next plain =>
    simp only [isSpecial, List.mem_cons, List.not_mem_nil, or_false, decide_eq_true_eq,
      not_or] at plain
    have free : startsQuantifier c = false := by simp [startsQuantifier, plain]
    refine ⟨c, [], rfl, by simp [plain], free, ?_⟩
    intro rest
    simp [readAtom, plain, free]

theorem readsBack_listed {test : Predicate} (listed : test.Listed) :
    ReadsBack (.predicate test) test.print := by
  have written : test.print = '[' :: (test.printInside ++ [']']) := by
    cases listed <;> rfl
  refine ⟨'[', test.printInside ++ [']'], written, by decide, rfl, ?_⟩
  intro rest
  rw [List.append_assoc]
  change (readBracket _ (test.printInside ++ ']' :: rest) >>= _) = _
  rw [readBracket_print listed]
  rfl

theorem readsBack_predicate {test : Predicate} (canonical : test.Canonical) :
    ReadsBack (.predicate test) test.print := by
  cases canonical with
  | char c => exact readsBack_char c
  | any => exact ⟨'.', [], rfl, by decide, rfl, fun rest => rfl⟩
  | charClass kind =>
    refine ⟨'\\', [kind.letter], rfl, by decide, rfl, ?_⟩
    intro rest
    cases kind <;> rfl
  | bracket listed => exact readsBack_listed listed
  | @complement test listed =>
    refine ⟨'[', '^' :: (test.printInside ++ [']']), rfl, by decide, rfl, ?_⟩
    intro rest
    rw [List.cons_append, List.append_assoc]
    change (readBracket _ ('^' :: (test.printInside ++ ']' :: rest)) >>= _) = _
    rw [readBracket_print_complement listed]
    rfl

theorem readsBack_backreference {index : Nat} (positive : 1 ≤ index) (digit : index ≤ 9) :
    ReadsBack (.backreference index) (Expr.backreference index).print := by
  refine ⟨'\\', printNumber index, rfl, by decide, rfl, ?_⟩
  intro rest
  have values : index = 1 ∨ index = 2 ∨ index = 3 ∨ index = 4 ∨ index = 5 ∨ index = 6 ∨
    index = 7 ∨ index = 8 ∨ index = 9 := by omega
  rcases values with rfl | rfl | rfl | rfl | rfl | rfl | rfl | rfl | rfl <;> rfl

theorem Expr.Simple.readsBack {atom : Expr} (simple : atom.Simple) :
    ReadsBack atom atom.print := by
  cases simple with
  | predicate canonical => exact readsBack_predicate canonical
  | atStart => exact ⟨'^', [], rfl, by decide, rfl, fun rest => rfl⟩
  | atEnd => exact ⟨'$', [], rfl, by decide, rfl, fun rest => rfl⟩
  | backreference positive digit => exact readsBack_backreference positive digit

end Atoms

def Numbered (groups : List Nat) (before : Nat) : Prop :=
  groups = List.range' (before + 1) groups.length

theorem numbered_append {first second : List Nat} {before : Nat} :
    Numbered (first ++ second) before ↔
      Numbered first before ∧ Numbered second (before + first.length) := by
  unfold Numbered
  rw [List.length_append, ← List.range'_append_1, Nat.add_right_comm]
  constructor
  · intro same
    exact List.append_inj same (by simp)
  · rintro ⟨one, two⟩
    rw [← one, ← two]

theorem numbered_cons {index : Nat} {groups : List Nat} {before : Nat} :
    Numbered (index :: groups) before ↔ index = before + 1 ∧ Numbered groups (before + 1) := by
  unfold Numbered
  rw [List.length_cons, List.range'_succ, List.cons.injEq]

namespace Progress

def advance (progress : Progress) (level : Level) (opened : Nat) (met : Array Reference) :
    Progress :=
  { progress with
    level
    groups := progress.groups + opened
    references := progress.references ++ met }

/-- Reading the input comes to `rest`, with the level filled as given, `opened` more groups and
backreferences to `named`. -/
def Leads (progress : Progress) (input : List Char) (level : Level) (opened : Nat)
    (named : List Nat) (rest : List Char) : Prop :=
  ∃ met : Array Reference, met.toList.map Reference.group = named ∧
    progress.readAll input = (progress.advance level opened met).readAll rest

variable {progress next : Progress} {input middle rest beyond : List Char}
  {level filled : Level} {opened more : Nat} {named further : List Nat}

theorem readAll_step {c : Char} (stepped : progress.step c rest = .ok (next, beyond)) :
    progress.readAll (c :: rest) = next.readAll beyond := by
  rw [readAll]
  split
  · next failed =>
    rw [stepped] at failed
    cases failed
  · next found =>
    rw [stepped] at found
    cases found
    rfl

theorem leads_refl (progress : Progress) (input : List Char) :
    progress.Leads input progress.level 0 [] input :=
  ⟨#[], rfl, by simp [advance]⟩

theorem Leads.extend {met : Array Reference} (notes : met.toList.map Reference.group = named)
    (read : progress.readAll input = (progress.advance level opened met).readAll middle)
    (leads : (progress.advance level opened met).Leads middle filled more further rest) :
    progress.Leads input filled (opened + more) (named ++ further) rest := by
  obtain ⟨later, notesLater, readLater⟩ := leads
  refine ⟨met ++ later, ?_, ?_⟩
  · rw [Array.toList_append, List.map_append, notes, notesLater]
  · have joined : (progress.advance level opened met).advance filled more later =
        progress.advance filled (opened + more) (met ++ later) := by
      simp [advance, Nat.add_assoc]
    calc progress.readAll input
        = (progress.advance level opened met).readAll middle := read
      _ = ((progress.advance level opened met).advance filled more later).readAll rest :=
          readLater
      _ = (progress.advance filled (opened + more) (met ++ later)).readAll rest := by
          rw [joined]

theorem Leads.endBranch (leads : progress.Leads input level opened named ('|' :: rest)) :
    progress.Leads input level.endBranch opened named rest := by
  obtain ⟨met, notes, read⟩ := leads
  exact ⟨met, notes, read.trans (readAll_step rfl)⟩

end Progress

namespace Expr

structure ReadsAsAtom (atom : Expr) : Prop where
  unquantified : ∀ rest, Unquantified (atom.print ++ rest)
  reads : ∀ (progress : Progress) (item : Expr) (rest beyond : List Char),
    Numbered atom.groups progress.groups → quantify atom rest = .ok (item, beyond) →
      progress.Leads (atom.print ++ rest) (progress.level.addItem item) atom.groups.length
        atom.references beyond

structure ReadsAsItem (item : Expr) : Prop where
  unquantified : ∀ rest, Unquantified (item.print ++ rest)
  reads : ∀ (progress : Progress) (rest : List Char),
    Numbered item.groups progress.groups → Unquantified rest →
      progress.Leads (item.print ++ rest) (progress.level.addItem item) item.groups.length
        item.references rest

def ReadsAsBranch (branch : Expr) : Prop :=
  ∀ (progress : Progress) (rest : List Char), progress.level.items = #[] →
    Numbered branch.groups progress.groups → Unquantified rest →
      ∃ items : Array Expr, sequenceOf items.toList = branch ∧
        progress.Leads (branch.print ++ rest) ⟨progress.level.branches, items⟩
          branch.groups.length branch.references rest

def ReadsAsBody (body : Expr) : Prop :=
  ∀ (progress : Progress) (rest : List Char), progress.level = .empty →
    Numbered body.groups progress.groups → Unquantified rest →
      ∃ level : Level, level.close = body ∧
        progress.Leads (body.print ++ rest) level body.groups.length body.references rest

end Expr

open PatternSearch.Expr (ReadsAsAtom ReadsAsItem ReadsAsBranch ReadsAsBody)

theorem advance_nothing (progress : Progress) (item : Expr) :
    progress.addItem item = progress.advance (progress.level.addItem item) 0 #[] := by
  simp [Progress.addItem, Progress.advance]

theorem noteReference_eq_advance {atom item : Expr} (simple : atom.Simple) (progress : Progress)
    (site : List Char) :
    ∃ met : Array Reference, met.toList.map Reference.group = atom.references ∧
      (progress.noteReference atom site).addItem item =
        progress.advance (progress.level.addItem item) 0 met := by
  cases simple with
  | predicate => exact ⟨#[], rfl, advance_nothing progress item⟩
  | atStart => exact ⟨#[], rfl, advance_nothing progress item⟩
  | atEnd => exact ⟨#[], rfl, advance_nothing progress item⟩
  | @backreference index =>
    refine ⟨#[⟨index, site⟩], rfl, ?_⟩
    simp [Progress.noteReference, Progress.addItem, Progress.advance, Progress.addReference]

theorem ReadsBack.unquantified {atom : Expr} {written : List Char} (back : ReadsBack atom written)
    (rest : List Char) : Unquantified (written ++ rest) := by
  obtain ⟨c, tail, rfl, _, free, _⟩ := back
  exact unquantified_cons free _

theorem ReadsBack.leads {atom item : Expr} {written rest beyond : List Char}
    (back : ReadsBack atom written) (simple : atom.Simple) (progress : Progress)
    (quantified : quantify atom rest = .ok (item, beyond)) :
    progress.Leads (written ++ rest) (progress.level.addItem item) 0 atom.references beyond := by
  obtain ⟨c, tail, rfl, structural, _, reads⟩ := back
  simp only [List.mem_cons, List.not_mem_nil, or_false, not_or] at structural
  obtain ⟨bar, opening, closing⟩ := structural
  obtain ⟨met, notes, after⟩ := noteReference_eq_advance simple progress (c :: (tail ++ rest))
  refine ⟨met, notes, ?_⟩
  have stepped : progress.step c (tail ++ rest) =
      .ok ((progress.noteReference atom (c :: (tail ++ rest))).addItem item, beyond) := by
    simp only [Progress.step, if_neg bar, if_neg opening, if_neg closing, reads, quantified,
      bind, Except.bind]
    rfl
  rw [List.cons_append, Progress.readAll_step stepped, after]

theorem Progress.leads_group {progress : Progress} {written rest beyond : List Char} {level : Level}
    {opened : Nat} {named : List Nat} {item : Expr}
    (inside : (progress.openGroup ('(' :: (written ++ ')' :: rest))).Leads (written ++ ')' :: rest)
      level opened named (')' :: rest))
    (quantified : quantify (.group (progress.groups + 1) level.close) rest = .ok (item, beyond)) :
    progress.Leads ('(' :: (written ++ ')' :: rest)) (progress.level.addItem item) (opened + 1)
      named beyond := by
  let around := progress.openGroup ('(' :: (written ++ ')' :: rest))
  obtain ⟨met, notes, read⟩ := inside
  have entered : progress.step '(' (written ++ ')' :: rest) =
      .ok (around, written ++ ')' :: rest) := rfl
  have closed : (around.advance level opened met).step ')' rest =
      .ok (progress.advance (progress.level.addItem item) (opened + 1) met, beyond) := by
    change (quantify (.group (progress.groups + 1) level.close) rest >>= _) = _
    rw [quantified]
    simp only [bind, Except.bind, Progress.advance, around, Progress.openGroup, Nat.add_assoc,
      Nat.add_comm 1]
    rfl
  refine ⟨met, notes, ?_⟩
  calc progress.readAll ('(' :: (written ++ ')' :: rest))
      = around.readAll (written ++ ')' :: rest) := Progress.readAll_step entered
    _ = (around.advance level opened met).readAll (')' :: rest) := read
    _ = (progress.advance (progress.level.addItem item) (opened + 1) met).readAll beyond :=
        Progress.readAll_step closed

theorem Expr.Simple.readsAsAtom {atom : Expr} (simple : atom.Simple) : atom.ReadsAsAtom where
  unquantified := simple.readsBack.unquantified
  reads progress item rest beyond numbered quantified := by
    rw [simple.groups_eq]
    exact simple.readsBack.leads simple progress quantified

theorem Expr.ReadsAsAtom.toItem {atom : Expr} (atomic : atom.ReadsAsAtom) : atom.ReadsAsItem where
  unquantified := atomic.unquantified
  reads progress rest numbered free :=
    atomic.reads progress atom rest rest numbered (quantify_unquantified atom free)

theorem Expr.ReadsAsAtom.repeated {body : Expr} {quantifier : Quantifier}
    (atomic : body.ReadsAsAtom) (able : body.repeatable) (bounded : quantifier.Bounded) :
    (repetition body quantifier).ReadsAsItem where
  unquantified rest := by
    rw [print, List.append_assoc]
    exact atomic.unquantified _
  reads progress rest numbered free := by
    rw [print, List.append_assoc]
    exact atomic.reads progress _ _ rest numbered (quantify_print able bounded free)

theorem readsAsAtom_group {index : Nat} {body : Expr} (reads : body.ReadsAsBody) :
    (Expr.group index body).ReadsAsAtom := by
  constructor
  · exact fun rest => unquantified_cons rfl _
  · intro progress item rest beyond numbered quantified
    obtain ⟨rfl, inner⟩ := numbered_cons.mp numbered
    have spelled : (Expr.group (progress.groups + 1) body).print ++ rest =
        '(' :: (body.print ++ ')' :: rest) := by
      simp [Expr.print]
    have closing : Unquantified (')' :: rest) := unquantified_cons rfl rest
    obtain ⟨level, closes, inside⟩ :=
      reads (progress.openGroup ('(' :: (body.print ++ ')' :: rest))) (')' :: rest) rfl inner
        closing
    rw [← closes] at quantified
    rw [spelled]
    exact Progress.leads_group inside quantified

section Sequences

variable {items branches : List Expr} {rest : List Char}

theorem unquantified_items (each : ∀ item ∈ items, item.ReadsAsItem)
    (free : Unquantified rest) : Unquantified (Expr.printItems items ++ rest) := by
  cases items with
  | nil => exact free
  | cons item items =>
    rw [Expr.printItems, List.append_assoc]
    exact (each item (List.mem_cons_self ..)).unquantified _

/-- Items are added to the level one by one; none of them is taken for a quantifier of the one
before it. -/
theorem leads_items (each : ∀ item ∈ items, item.ReadsAsItem) (progress : Progress)
    (numbered : Numbered (items.flatMap Expr.groups) progress.groups)
    (free : Unquantified rest) :
    progress.Leads (Expr.printItems items ++ rest)
      ⟨progress.level.branches, progress.level.items ++ items.toArray⟩
      (items.flatMap Expr.groups).length (items.flatMap Expr.references) rest := by
  induction items generalizing progress with
  | nil =>
    have same : Level.mk progress.level.branches (progress.level.items ++ [].toArray) =
        progress.level := by simp
    rw [same]
    exact progress.leads_refl rest
  | cons item items ih =>
    have head := each item (List.mem_cons_self ..)
    have tail : ∀ item ∈ items, item.ReadsAsItem :=
      fun other member => each other (List.mem_cons_of_mem _ member)
    rw [List.flatMap_cons, numbered_append] at numbered
    obtain ⟨met, notes, read⟩ := head.reads progress _ numbered.1 (unquantified_items tail free)
    have both := Progress.Leads.extend notes read (ih tail (progress.advance _ _ met) numbered.2)
    rw [Expr.printItems, List.append_assoc, List.flatMap_cons, List.flatMap_cons,
      List.length_append]
    simpa [Progress.advance, Level.addItem] using both

theorem readsAsBranch_empty : Expr.empty.ReadsAsBranch := by
  intro progress rest fresh numbered free
  refine ⟨#[], rfl, ?_⟩
  rw [← fresh]
  exact progress.leads_refl rest

theorem readsAsBranch_sequence (several : 2 ≤ items.length)
    (each : ∀ item ∈ items, item.ReadsAsItem) : (Expr.sequence items).ReadsAsBranch := by
  intro progress rest fresh numbered free
  refine ⟨items.toArray, ?_, ?_⟩
  · match items, several with
    | first :: second :: items, _ => rfl
  · rw [Expr.groups_sequence] at numbered ⊢
    have leads := leads_items each progress numbered free
    rw [fresh, Array.empty_append] at leads
    rw [Expr.references_sequence]
    exact leads

theorem Expr.ReadsAsItem.toBranch {item : Expr} (reads : item.ReadsAsItem) :
    item.ReadsAsBranch := by
  intro progress rest fresh numbered free
  refine ⟨#[item], rfl, ?_⟩
  have leads := reads.reads progress rest numbered free
  rw [Level.addItem, fresh] at leads
  exact leads

theorem leads_branches (nonempty : branches ≠ [])
    (each : ∀ branch ∈ branches, branch.ReadsAsBranch) (progress : Progress)
    (fresh : progress.level.items = #[])
    (numbered : Numbered (branches.flatMap Expr.groups) progress.groups)
    (free : Unquantified rest) :
    ∃ level : Level, level.endBranch.branches = progress.level.branches ++ branches.toArray ∧
      progress.Leads (Expr.printBranches branches ++ rest) level
        (branches.flatMap Expr.groups).length (branches.flatMap Expr.references) rest := by
  induction branches generalizing progress with
  | nil => exact absurd rfl nonempty
  | cons branch others ih =>
    have head := each branch (List.mem_cons_self ..)
    have tail : ∀ other ∈ others, other.ReadsAsBranch :=
      fun other member => each other (List.mem_cons_of_mem _ member)
    rw [List.flatMap_cons, numbered_append] at numbered
    cases others with
    | nil =>
      obtain ⟨items, same, leads⟩ := head progress rest fresh numbered.1 free
      refine ⟨⟨progress.level.branches, items⟩, ?_, ?_⟩
      · simp [Level.endBranch, same]
      · simpa [Expr.printBranches] using leads
    | cons next others =>
      have spelled : Expr.printBranches (branch :: next :: others) ++ rest =
          branch.print ++ '|' :: (Expr.printBranches (next :: others) ++ rest) := by
        simp [Expr.printBranches]
      have bar : Unquantified ('|' :: (Expr.printBranches (next :: others) ++ rest)) :=
        unquantified_cons rfl _
      obtain ⟨items, same, leads⟩ := head progress _ fresh numbered.1 bar
      obtain ⟨met, notes, read⟩ := leads.endBranch
      let behind := progress.advance (Level.mk progress.level.branches items).endBranch
        branch.groups.length met
      -- Behind the bar the level has no items, so the other branches read on from there.
      obtain ⟨level, branches, leads⟩ :=
        ih (List.cons_ne_nil _ _) tail behind rfl numbered.2
      refine ⟨level, ?_, ?_⟩
      · rw [branches]
        simp [behind, Progress.advance, Level.endBranch, same]
      · rw [spelled, List.flatMap_cons, List.flatMap_cons, List.length_append]
        exact Progress.Leads.extend notes read leads

theorem readsAsBody_alternationOf (nonempty : branches ≠ [])
    (each : ∀ branch ∈ branches, branch.ReadsAsBranch) :
    (Expr.alternationOf branches).ReadsAsBody := by
  intro progress rest fresh numbered free
  have spelled : (Expr.alternationOf branches).print = Expr.printBranches branches := by
    match branches with
    | [] => rfl
    | [branch] => rfl
    | first :: second :: branches => rfl
  rw [Expr.additive_groups.alternationOf] at numbered ⊢
  rw [Expr.additive_references.alternationOf, spelled]
  obtain ⟨level, same, leads⟩ :=
    leads_branches nonempty each progress (by rw [fresh]; rfl) numbered free
  refine ⟨level, ?_, leads⟩
  rw [Level.close, same, fresh]
  simp [Level.empty]

theorem readsAsBody_alternation (several : 2 ≤ branches.length)
    (each : ∀ branch ∈ branches, branch.ReadsAsBranch) :
    (Expr.alternation branches).ReadsAsBody := by
  match branches, several with
  | first :: second :: branches, _ =>
    exact readsAsBody_alternationOf (List.cons_ne_nil _ _) each

theorem Expr.ReadsAsBranch.toBody {branch : Expr} (reads : branch.ReadsAsBranch) :
    branch.ReadsAsBody :=
  readsAsBody_alternationOf (List.cons_ne_nil branch []) (by simpa using reads)

end Sequences

/-- How an expression reads back in every place where it may stand. -/
structure Expr.ReadsEverywhere (expr : Expr) : Prop where
  body : expr.ReadsAsBody
  branch : expr.isBranch → expr.ReadsAsBranch
  item : expr.isItem → expr.ReadsAsItem
  atom : expr.repeatable → expr.ReadsAsAtom

namespace Expr.ReadsEverywhere

variable {expr : Expr}

theorem ofItem (item : expr.ReadsAsItem) (bare : expr.repeatable = false) :
    expr.ReadsEverywhere :=
  ⟨item.toBranch.toBody, fun _ => item.toBranch, fun _ => item, fun able => by simp [bare] at able⟩

theorem ofAtom (atom : expr.ReadsAsAtom) : expr.ReadsEverywhere :=
  ⟨atom.toItem.toBranch.toBody, fun _ => atom.toItem.toBranch, fun _ => atom.toItem, fun _ => atom⟩

end Expr.ReadsEverywhere

theorem readsEverywhere (expr : Expr) (shaped : expr.Throughout Shaped)
    (digits : ∀ index ∈ expr.references, 1 ≤ index ∧ index ≤ 9) : expr.ReadsEverywhere := by
  induction expr using Expr.induction with
  | empty => exact ⟨readsAsBranch_empty.toBody, fun _ => readsAsBranch_empty, nofun, nofun⟩
  | predicate test => exact .ofAtom (Expr.Simple.predicate shaped.here).readsAsAtom
  | atStart => exact .ofItem Expr.Simple.atStart.readsAsAtom.toItem rfl
  | atEnd => exact .ofItem Expr.Simple.atEnd.readsAsAtom.toItem rfl
  | backreference index =>
    have ⟨positive, digit⟩ := digits index (by simp)
    exact .ofAtom (Expr.Simple.backreference positive digit).readsAsAtom
  | group index body ih =>
    have inner := ih (Expr.Throughout.group_iff.mp shaped).2 digits
    exact .ofAtom (readsAsAtom_group inner.body)
  | repetition body quantifier ih =>
    have ⟨⟨able, bounded⟩, inside⟩ := Expr.Throughout.repetition_iff.mp shaped
    have inner := ih inside digits
    exact .ofItem ((inner.atom able).repeated able bounded) rfl
  | sequence items ih =>
    have ⟨⟨several, all⟩, inside⟩ := Expr.Throughout.sequence_iff.mp shaped
    rw [Expr.references_sequence] at digits
    have each : ∀ item ∈ items, item.ReadsAsItem := by
      intro item member
      have named : ∀ index ∈ item.references, 1 ≤ index ∧ index ≤ 9 :=
        fun index mentions => digits index (List.mem_flatMap.mpr ⟨item, member, mentions⟩)
      exact (ih item member (inside item member) named).item (all item member)
    have branch := readsAsBranch_sequence several each
    exact ⟨branch.toBody, fun _ => branch, nofun, nofun⟩
  | alternation branches ih =>
    have ⟨⟨several, all⟩, inside⟩ := Expr.Throughout.alternation_iff.mp shaped
    rw [Expr.references_alternation] at digits
    have each : ∀ branch ∈ branches, branch.ReadsAsBranch := by
      intro branch member
      have named : ∀ index ∈ branch.references, 1 ≤ index ∧ index ≤ 9 :=
        fun index mentions => digits index (List.mem_flatMap.mpr ⟨branch, member, mentions⟩)
      exact (ih branch member (inside branch member) named).branch (all branch member)
    exact ⟨readsAsBody_alternation several each, nofun, nofun, nofun⟩

theorem find?_references_eq_none {references : Array Reference} {groups : Nat} :
    references.find? (groups < Reference.group ·) = none ↔
      ∀ index ∈ references.toList.map Reference.group, index ≤ groups := by
  rw [Array.find?_eq_none, List.forall_mem_map]
  simp

/-- A pattern that is read to its end reads as what the level holds, if every backreference names
a group that was opened. -/
theorem parseChars_of_leads {input : List Char} {level : Level} {groups : Nat} {named : List Nat}
    {parsed : Parsed} (leads : Progress.start.Leads input level groups named []) :
    parseChars input = .ok parsed ↔
      (∀ index ∈ named, index ≤ groups) ∧ parsed = ⟨level.close, groups⟩ := by
  obtain ⟨met, notes, read⟩ := leads
  rw [Progress.readAll] at read
  have ended : parseChars input = (Progress.start.advance level groups met).finish := by
    unfold parseChars
    rw [read]
    rfl
  rw [ended, ← notes, ← find?_references_eq_none]
  simp only [Progress.finish, Progress.advance, Progress.start, Nat.zero_add, Array.empty_append]
  cases undefined : met.find? (groups < Reference.group ·) with
  | none => simp [eq_comm]
  | some reference => simp

theorem parse_render_of_canonical {expr : Expr} {groups : Nat}
    (canonical : expr.Canonical groups) : parse expr.render = .ok ⟨expr, groups⟩ := by
  have digits : ∀ index ∈ expr.references, 1 ≤ index ∧ index ≤ 9 := by
    intro index mentions
    have bounds := canonical.defined index mentions
    omega
  have counted : expr.groups.length = groups := by
    rw [canonical.numbered, List.length_range']
  have numbered : Numbered expr.groups Progress.start.groups := by
    unfold Numbered
    rw [counted]
    exact canonical.numbered
  have everywhere := readsEverywhere expr canonical.shaped digits
  obtain ⟨level, closes, leads⟩ := everywhere.body Progress.start [] rfl numbered nofun
  rw [List.append_nil, counted] at leads
  have defined : ∀ index ∈ expr.references, index ≤ groups := by
    intro index mentions
    have bounds := canonical.defined index mentions
    omega
  rw [parse_eq_ok, Expr.render, String.toList_ofList, parseChars_of_leads leads]
  exact ⟨defined, by rw [closes]⟩

/-- Writing and reading are inverse: every pattern that reads gives a canonical tree, and every
canonical tree is what its written form reads as. So the written form of a pattern's tree reads
as the same tree with the same number of groups. -/
theorem parse_render_inverse :
    (∀ source parsed, parse source = .ok parsed → parsed.expr.Canonical parsed.groups) ∧
      (∀ expr groups, Expr.Canonical expr groups → parse expr.render = .ok ⟨expr, groups⟩) ∧
      ∀ source parsed, parse source = .ok parsed → parse parsed.expr.render = .ok parsed := by
  refine ⟨fun source parsed => canonical_of_parse, fun expr groups => parse_render_of_canonical, ?_⟩
  intro source parsed read
  exact parse_render_of_canonical (canonical_of_parse read)

end PatternSearch

import PatternSearch.Proofs.Grammar.Unambiguity

/-! Reading accepts what the grammar derives. A derived part reads as what it stands for from any
progress. Conversely a reading that comes to its end leaves a derivation behind: step by step from
the end to the start, the rest of the pattern is a body, with the rests of the groups around it
that are still open. -/

namespace PatternSearch

namespace Grammar

theorem Branch.tree_eq (branch : Branch) (before : Nat) :
    branch.tree before = .sequenceOf (branch.items before) := by
  match branch with
  | .nil => rfl
  | .cons item .nil => rfl
  | .cons item (.cons next items) => rfl

theorem Body.tree_eq (body : Body) (before : Nat) :
    body.tree before = .alternationOf (body.branches before) := by
  match body with
  | .single branch => rfl
  | .bar branch (.single other) => rfl
  | .bar branch (.bar other others) => rfl

section Soundness

mutual

theorem Body.leads : ∀ (body : Body) (progress : Progress) (rest : List Char),
    progress.level.items = #[] → Unquantified rest →
      ∃ level : Level, level.endBranch.branches =
          progress.level.branches ++ (body.branches progress.groups).toArray ∧
        progress.Leads (body.write ++ rest) level body.groups body.references rest
  | .single branch, progress, rest, fresh, free => by
    refine ⟨_, ?_, branch.leads progress rest free⟩
    simp [Level.endBranch, Body.branches, Branch.tree_eq, fresh]
  | .bar branch others, progress, rest, fresh, free => by
    -- The bar ends the branch, so the others start without items and behind its groups.
    have bar : Unquantified ('|' :: (others.write ++ rest)) := unquantified_cons rfl _
    obtain ⟨met, notes, read⟩ := (branch.leads progress _ bar).endBranch
    let ended := Level.endBranch ⟨progress.level.branches,
      progress.level.items ++ (branch.items progress.groups).toArray⟩
    obtain ⟨level, branches, leads⟩ :=
      others.leads (progress.advance ended branch.groups met) rest rfl free
    refine ⟨level, ?_, ?_⟩
    · rw [branches]
      simp [ended, Progress.advance, Level.endBranch, Body.branches, Branch.tree_eq, fresh]
    · rw [Body.write, List.append_assoc]
      exact Progress.Leads.extend notes read leads

theorem Branch.leads : ∀ (branch : Branch) (progress : Progress) (rest : List Char),
    Unquantified rest →
      progress.Leads (branch.write ++ rest)
        ⟨progress.level.branches,
          progress.level.items ++ (branch.items progress.groups).toArray⟩
        branch.groups branch.references rest
  | .nil, progress, rest, free => by
    simpa [Branch.items, Branch.write, Branch.groups, Branch.references] using
      progress.leads_refl rest
  | .cons item items, progress, rest, free => by
    obtain ⟨met, notes, read⟩ := item.leads progress _ (items.unquantified free)
    have both := Progress.Leads.extend notes read (items.leads (progress.advance _ _ met) rest free)
    rw [Branch.write, Branch.groups, Branch.references, List.append_assoc]
    simpa [Progress.advance, Level.addItem, Branch.items] using both

theorem Item.leads : ∀ (item : Item) (progress : Progress) (rest : List Char),
    Unquantified rest →
      progress.Leads (item.write ++ rest) (progress.level.addItem (item.tree progress.groups))
        item.groups item.references rest
  | .atStart, progress, rest, free =>
    Expr.Simple.atStart.readsBack.leads .atStart progress (quantify_unquantified _ free)
  | .atEnd, progress, rest, free =>
    Expr.Simple.atEnd.readsBack.leads .atEnd progress (quantify_unquantified _ free)
  | .leaf leaf suffix, progress, rest, free => by
    have references : (Item.leaf leaf suffix).references = leaf.tree.references := by
      cases leaf <;> rfl
    rw [references, Item.write, List.append_assoc]
    exact leaf.readsBack.leads leaf.simple progress (quantify_writeSuffix leaf.repeatable free)
  | .group body suffix, progress, rest, free => by
    rw [Item.write, List.cons_append, List.append_assoc, List.cons_append]
    have closing : Unquantified (')' :: (writeSuffix suffix ++ rest)) := unquantified_cons rfl _
    obtain ⟨level, branches, inside⟩ :=
      body.leads (progress.openGroup ('(' :: (body.write ++ ')' :: (writeSuffix suffix ++ rest))))
        _ rfl closing
    have closes : level.close = body.tree (progress.groups + 1) := by
      rw [Level.close, branches, body.tree_eq]
      simp [Progress.openGroup, Level.empty]
    apply Progress.leads_group inside
    rw [closes]
    exact quantify_writeSuffix rfl free

end

/-- What a derived pattern reads as, and that only its backreferences can be at fault. -/
theorem Body.parseChars_write (body : Body) (parsed : Parsed) :
    parseChars body.write = .ok parsed ↔
      (∀ group ∈ body.references, group ≤ body.groups) ∧
        parsed = ⟨body.tree 0, body.groups⟩ := by
  obtain ⟨level, branches, leads⟩ := body.leads Progress.start [] rfl nofun
  rw [List.append_nil] at leads
  rw [parseChars_of_leads leads, Level.close, branches, body.tree_eq]
  simp [Progress.start, Level.empty]

end Soundness

section Completeness

/-- The rest of a pattern: the rest of the innermost open body, and behind the parenthesis that
closes it the rest of what is around it. -/
inductive Remainder where
  | last (body : Body)
  | closing (body : Body) (suffix : Option Suffix) (outer : Remainder)

namespace Remainder

def write : Remainder → List Char
  | last body => body.write
  | closing body suffix outer => body.write ++ ')' :: (writeSuffix suffix ++ outer.write)

def depth : Remainder → Nat
  | last _ => 0
  | closing _ _ outer => outer.depth + 1

end Remainder

def Body.cons (item : Item) : Body → Body
  | .single branch => .single (.cons item branch)
  | .bar branch others => .bar (.cons item branch) others

theorem Body.write_cons (item : Item) (body : Body) :
    (body.cons item).write = item.write ++ body.write := by
  cases body with
  | single branch => rfl
  | bar branch others => simp only [cons, write, Branch.write, List.append_assoc]

variable {remainder : Remainder} {progress next : Progress} {c : Char} {rest beyond : List Char}

theorem Remainder.exists_append (text : List Char)
    (extend : ∀ body : Body, ∃ longer : Body, longer.write = text ++ body.write)
    (remainder : Remainder) :
    ∃ longer : Remainder, longer.depth = remainder.depth ∧
      longer.write = text ++ remainder.write := by
  cases remainder with
  | last body =>
    obtain ⟨longer, written⟩ := extend body
    exact ⟨.last longer, rfl, written⟩
  | closing body suffix outer =>
    obtain ⟨longer, written⟩ := extend body
    exact ⟨.closing longer suffix outer, rfl, by rw [write, written, List.append_assoc]; rfl⟩

theorem Remainder.exists_item (item : Item) (remainder : Remainder) :
    ∃ longer : Remainder, longer.depth = remainder.depth ∧
      longer.write = item.write ++ remainder.write :=
  Remainder.exists_append item.write (fun body => ⟨body.cons item, body.write_cons item⟩)
    remainder

/-- A step backwards: in front of a remainder stands what the step has read. -/
theorem remainder_of_stepsTo (stepped : progress.StepsTo c rest next beyond)
    (deep : remainder.depth = next.pending.length) (written : remainder.write = beyond) :
    ∃ longer : Remainder, longer.depth = progress.pending.length ∧ longer.write = c :: rest := by
  cases stepped with
  | bar =>
    rw [← written]
    obtain ⟨longer, level, extended⟩ :=
      Remainder.exists_append ['|'] (fun body => ⟨.bar .nil body, rfl⟩) remainder
    exact ⟨longer, level.trans deep, extended⟩
  | opening =>
    cases remainder with
    | last body => cases deep
    | closing body suffix outer =>
      obtain ⟨longer, level, extended⟩ := outer.exists_item (.group body suffix)
      refine ⟨longer, level.trans (Nat.succ.inj deep), ?_⟩
      rw [extended, ← written]
      simp [Item.write, Remainder.write]
  | closing innermost closed =>
    obtain ⟨suffix, found, _⟩ := suffix_of_quantify closed
    refine ⟨.closing (.single .nil) suffix remainder, ?_, ?_⟩
    · rw [innermost, List.length_cons, Remainder.depth, deep]
    · rw [found, ← written]
      rfl
  | atom outside first quantified =>
    obtain ⟨suffix, found, rigid⟩ := suffix_of_quantify quantified
    have derived : ∃ item : Item, item.write ++ beyond = c :: rest := by
      rcases leaf_of_readAtom outside first with ⟨anchor, rfl, able⟩ | ⟨leaf, spelled⟩
      · rw [rigid able] at found
        rcases anchor with rfl | rfl
        · exact ⟨.atStart, by rw [found]; rfl⟩
        · exact ⟨.atEnd, by rw [found]; rfl⟩
      · exact ⟨.leaf leaf suffix, by rw [spelled, found, Item.write, List.append_assoc]⟩
    obtain ⟨item, spelled⟩ := derived
    obtain ⟨longer, level, extended⟩ := remainder.exists_item item
    refine ⟨longer, ?_, by rw [extended, written, spelled]⟩
    rw [level, deep, Progress.addItem, Progress.pending_noteReference]

theorem remainder_of_readAll {input : List Char} {last : Progress}
    (read : progress.readAll input = .ok last) (closed : last.pending = []) :
    ∃ remainder : Remainder, remainder.depth = progress.pending.length ∧
      remainder.write = input := by
  fun_induction Progress.readAll progress input with
  | case1 progress =>
    cases read
    exact ⟨.last (.single .nil), by rw [closed]; rfl, rfl⟩
  | case2 => cases read
  | case3 progress c rest next beyond stepped ih =>
    obtain ⟨remainder, deep, written⟩ := ih read
    exact remainder_of_stepsTo (Progress.stepsTo stepped) deep written

theorem body_of_readAll {input : List Char} {last : Progress}
    (read : Progress.start.readAll input = .ok last) (closed : last.pending = []) :
    ∃ body : Body, body.write = input := by
  obtain ⟨remainder, deep, written⟩ := remainder_of_readAll read closed
  cases remainder with
  | last body => exact ⟨body, written⟩
  | closing body suffix outer => cases deep

theorem body_of_parseChars {input : List Char} {parsed : Parsed}
    (read : parseChars input = .ok parsed) : ∃ body : Body, body.write = input := by
  obtain ⟨last, all, finished⟩ := bind_eq_ok.mp read
  apply body_of_readAll all
  unfold Progress.finish at finished
  split at finished
  · cases finished
  · assumption

end Completeness

end Grammar

/-- A pattern has no two derivations. -/
theorem Derivation.source_injective : Function.Injective Derivation.source := by
  intro first second same
  have written : first.body.write = second.body.write := String.ofList_injective same
  have bodies := (first.body.unique second.body Grammar.endsBody_nil Grammar.endsBody_nil
    (by rw [written])).1
  cases first
  cases second
  cases bodies
  rfl

/-- A pattern reads exactly as what its derivation stands for, and it has no other derivation. -/
theorem parse_accepts_grammar :
    (∀ source parsed, parse source = .ok parsed ↔
      ∃ derivation : Derivation, derivation.source = source ∧ derivation.parsed = parsed) ∧
    Function.Injective Derivation.source := by
  refine ⟨?_, Derivation.source_injective⟩
  intro source parsed
  rw [parse_eq_ok]
  constructor
  · intro read
    -- Only the text of the body is known from the reading; what it reads as tells the rest.
    obtain ⟨body, written⟩ := Grammar.body_of_parseChars read
    rw [← written] at read
    obtain ⟨defined, same⟩ := (body.parseChars_write parsed).mp read
    refine ⟨⟨body, defined⟩, ?_, same.symm⟩
    rw [Derivation.source, written, String.ofList_toList]
  · rintro ⟨⟨body, defined⟩, rfl, rfl⟩
    rw [Derivation.source, String.toList_ofList]
    exact (body.parseChars_write _).mpr ⟨defined, rfl⟩

end PatternSearch

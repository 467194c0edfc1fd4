import PatternSearch.Graph.Shape
import PatternSearch.Proofs.Graph.Layout

/-! Graphs of expressions are of good shape, whatever the expression. From the entry of an
expression a walk reaches every node that lowering has added for it, and the chain comes nested to
the node that follows. What else a walk can meet before it gets there is told by how the expression
lies in the graph. -/

namespace PatternSearch

/-- A node that is neither `last` nor `start`. The chains that begin at the node come to `last`, and
the chain behind the head of a group comes to a tail of the group. -/
inductive Node.Proper (graph : Graph) : Node → Prop where
  | char {test : Predicate} {next : Nat} : Proper graph (.char test next)
  | atStart {next : Nat} : Proper graph (.atStart next)
  | atEnd {next : Nat} : Proper graph (.atEnd next)
  | backreference {group next : Nat} : Proper graph (.backreference group next)
  | groupHead {group inner tail next : Nat} (inside : graph.Comes inner tail)
      (leaves : graph.node tail = .groupTail group next) : Proper graph (.groupHead group inner)
  | groupTail {group next : Nat} : Proper graph (.groupTail group next)
  | branch {ids : List Nat} {next : Nat} (each : ∀ id ∈ ids, graph.Comes id 0) :
      Proper graph (.branch ids next)
  | loop {repeated : Loop} (inside : graph.Comes repeated.body 0) : Proper graph (.loop repeated)

namespace Graph

variable {graph : Graph} {entry middle next stop id : Nat} {node : Node}

section Walks

theorem Names.descends {successor : Nat} (names : graph.Names id successor) : successor < id :=
  successor_lt names

theorem descends_of_transGen {first second : Nat}
    (path : Relation.TransGen graph.Names first second) : second < first := by
  induction path with
  | single names => exact names.descends
  | tail _ names ih => exact Nat.lt_trans names.descends ih

theorem Reaches.here : graph.Reaches id id := Relation.ReflTransGen.refl

theorem Reaches.trans (first : graph.Reaches entry middle) (rest : graph.Reaches middle id) :
    graph.Reaches entry id :=
  Relation.ReflTransGen.trans first rest

theorem Reaches.onward {successor : Nat} (rest : graph.Reaches successor id)
    (found : graph.node entry = node) (named : successor ∈ node.successors) :
    graph.Reaches entry id := by
  subst found
  exact Relation.ReflTransGen.head named rest

theorem Reaches.cases (reaches : graph.Reaches entry id) :
    id = entry ∨ ∃ successor ∈ (graph.node entry).successors, graph.Reaches successor id := by
  rcases Relation.ReflTransGen.cases_head reaches with rfl | ⟨successor, named, rest⟩
  · exact .inl rfl
  · exact .inr ⟨successor, named, rest⟩

theorem Reaches.eq_of_last (last : graph.node entry = .last) (reaches : graph.Reaches entry id) :
    id = entry := by
  rcases reaches.cases with same | ⟨successor, named, _⟩
  · exact same
  · rw [last] at named
    cases named

end Walks

section Chains

theorem Nested.append {ids others : List Nat} (first : graph.Nested ids)
    (rest : graph.Nested others) : graph.Nested (ids ++ others) := by
  induction first with
  | nil => exact rest
  | plain plain _ ih => exact .plain plain ih
  | group enters inside leaves _ _ ih =>
    rw [List.cons_append, List.append_assoc, List.cons_append]
    exact .group enters inside leaves ih

theorem Comes.here : graph.Comes stop stop := ⟨[], rfl, .nil⟩

theorem Comes.trans (first : graph.Comes entry middle) (rest : graph.Comes middle stop) :
    graph.Comes entry stop := by
  obtain ⟨ids, chain, nested⟩ := first
  obtain ⟨others, further, nestedRest⟩ := rest
  exact ⟨ids ++ others, by rw [chain, further, List.append_assoc], nested.append nestedRest⟩

theorem Comes.plain (found : graph.node entry = node) (plain : node.isPlain)
    (follows : node.next? = some next) : graph.Comes entry next := by
  subst found
  exact ⟨[entry], chain_of_some follows, .plain plain .nil⟩

theorem chain_groupHead {head tail group inner : Nat}
    (enters : graph.node head = .groupHead group inner) (inside : graph.Comes inner tail)
    (leaves : graph.node tail = .groupTail group next) :
    ∃ body, graph.chain head = head :: (body ++ tail :: graph.chain next) ∧
      graph.Nested body := by
  obtain ⟨body, chain, nested⟩ := inside
  have first : graph.chain head = head :: graph.chain inner := chain_of_some (by rw [enters]; rfl)
  have behind : graph.chain tail = tail :: graph.chain next := chain_of_some (by rw [leaves]; rfl)
  exact ⟨body, by rw [first, chain, behind], nested⟩

theorem Comes.group {head tail group inner : Nat}
    (enters : graph.node head = .groupHead group inner) (inside : graph.Comes inner tail)
    (leaves : graph.node tail = .groupTail group next) : graph.Comes head next := by
  obtain ⟨body, chain, nested⟩ := chain_groupHead enters inside leaves
  refine ⟨head :: (body ++ [tail]), ?_, .group enters nested leaves .nil⟩
  rw [chain, List.cons_append, List.append_assoc]
  rfl

theorem reaches_of_mem_chain (member : id ∈ graph.chain entry) : graph.Reaches entry id := by
  fun_induction graph.chain entry with
  | case1 entry ends =>
    rw [List.mem_singleton.mp member]
    exact .here
  | case2 entry next follows ih =>
    rcases List.mem_cons.mp member with rfl | behind
    · exact .here
    · exact (ih behind).onward rfl (Node.mem_successors.mpr (.inr follows))

theorem self_mem_chain (id : Nat) : id ∈ graph.chain id := by
  rw [chain]
  split <;> exact List.mem_cons_self ..

theorem Comes.reaches (comes : graph.Comes entry stop) : graph.Reaches entry stop := by
  obtain ⟨ids, chain, _⟩ := comes
  apply reaches_of_mem_chain
  rw [chain]
  exact List.mem_append_right _ (self_mem_chain stop)

end Chains

section Visits

/-- A walk from the entry meets nothing but proper nodes and the end before it comes to the node
that follows. -/
def Visits (graph : Graph) (entry next : Nat) : Prop :=
  ∀ id, graph.Reaches entry id → (graph.node id).Proper graph ∨ id = 0 ∨ graph.Reaches next id

theorem Visits.here : graph.Visits next next := fun _ reaches => .inr (.inr reaches)

theorem Visits.trans (first : graph.Visits entry middle) (rest : graph.Visits middle next) :
    graph.Visits entry next := by
  intro id reaches
  rcases first id reaches with proper | ended | onward
  · exact .inl proper
  · exact .inr (.inl ended)
  · exact rest id onward

theorem Visits.onward (found : graph.node entry = node) (proper : node.Proper graph)
    (each : ∀ successor ∈ node.successors, graph.Visits successor next) :
    graph.Visits entry next := by
  intro id reaches
  subst found
  rcases reaches.cases with rfl | ⟨successor, named, rest⟩
  · exact .inl proper
  · exact each successor named id rest

theorem Visits.ended (last : graph.node 0 = .last) (visits : graph.Visits entry 0) :
    graph.Visits entry next := by
  intro id reaches
  rcases visits id reaches with proper | ended | onward
  · exact .inl proper
  · exact .inr (.inl ended)
  · exact .inr (.inl (onward.eq_of_last last))

theorem Visits.single (found : graph.node entry = node) (proper : node.Proper graph)
    (names : node.successors = [next]) : graph.Visits entry next := by
  apply Visits.onward found proper
  rw [names]
  exact List.forall_mem_singleton.mpr .here

end Visits

section Covering

variable {before middle after : Array Node}

def Covers (graph : Graph) (before after : Array Node) (entry : Nat) : Prop :=
  ∀ id, before.size ≤ id → id < after.size → graph.Reaches entry id

theorem Covers.nothing : graph.Covers before before entry :=
  fun _ added bounded => absurd bounded (Nat.not_lt.mpr added)

theorem Covers.push (covers : graph.Covers before middle middle.size) :
    graph.Covers before (middle.push node) middle.size := by
  intro id added bounded
  rw [Array.size_push] at bounded
  rcases Nat.lt_succ_iff_lt_or_eq.mp bounded with early | rfl
  · exact covers id added early
  · exact .here

theorem Covers.onward {successor : Nat} (covers : graph.Covers before after successor)
    (found : graph.node entry = node) (named : successor ∈ node.successors) :
    graph.Covers before after entry :=
  fun id added bounded => (covers id added bounded).onward found named

theorem Covers.trans {following : Nat} (rest : graph.Covers before middle following)
    (reaches : graph.Reaches entry following) (first : graph.Covers middle after entry) :
    graph.Covers before after entry := by
  intro id added bounded
  by_cases early : id < middle.size
  · exact reaches.trans (rest id added early)
  · exact first id (Nat.not_lt.mp early) bounded

end Covering

end Graph

namespace Expr

open PatternSearch.Graph

variable {graph : Graph}

mutual

theorem comes_of_carries : (expr : Expr) → {entry next : Nat} → graph.Carries expr entry next →
    graph.Comes entry next
  | empty, entry, next, carries => by
    cases carries with
    | empty => exact .here
  | predicate test, entry, next, carries => by
    cases carries with
    | predicate found => exact .plain found rfl rfl
  | atStart, entry, next, carries => by
    cases carries with
    | atStart found => exact .plain found rfl rfl
  | atEnd, entry, next, carries => by
    cases carries with
    | atEnd found => exact .plain found rfl rfl
  | sequence items, entry, next, carries => by
    cases carries with
    | sequence all => exact comes_of_carriesItems items all
  | alternation branches, entry, next, carries => by
    cases carries with
    | alternation found each => exact .plain found rfl rfl
  | group index body, entry, next, carries => by
    cases carries with
    | group head inside found => exact .group head (comes_of_carries body inside) found
  | repetition body quantifier, entry, next, carries => by
    cases carries with
    | repetition found inside => exact .plain found rfl rfl
  | backreference index, entry, next, carries => by
    cases carries with
    | backreference found => exact .plain found rfl rfl

theorem comes_of_carriesItems : (items : List Expr) → {entry next : Nat} →
    graph.CarriesItems items entry next → graph.Comes entry next
  | [], entry, next, carries => by
    cases carries with
    | nil => exact .here
  | item :: items, entry, next, carries => by
    cases carries with
    | cons first rest =>
      exact (comes_of_carries item first).trans (comes_of_carriesItems items rest)

end

theorem comes_of_carriesBranches {branches : List Expr} {entries : List Nat}
    (carries : graph.CarriesBranches branches entries) : ∀ id ∈ entries, graph.Comes id 0 := by
  cases carries with
  | nil => nofun
  | @cons branch _ _ _ first rest =>
    exact List.forall_mem_cons.mpr ⟨comes_of_carries branch first, comes_of_carriesBranches rest⟩

mutual

theorem visits_of_carries (last : graph.node 0 = .last) : (expr : Expr) → {entry next : Nat} →
    graph.Carries expr entry next → graph.Visits entry next
  | empty, entry, next, carries => by
    cases carries with
    | empty => exact .here
  | predicate test, entry, next, carries => by
    cases carries with
    | predicate found => exact .single found .char rfl
  | atStart, entry, next, carries => by
    cases carries with
    | atStart found => exact .single found .atStart rfl
  | atEnd, entry, next, carries => by
    cases carries with
    | atEnd found => exact .single found .atEnd rfl
  | sequence items, entry, next, carries => by
    cases carries with
    | sequence all => exact visits_of_carriesItems last items all
  | alternation branches, entry, next, carries => by
    cases carries with
    | alternation found each =>
      refine .onward found (.branch (comes_of_carriesBranches each)) ?_
      refine List.forall_mem_append.mpr ⟨?_, List.forall_mem_singleton.mpr .here⟩
      exact fun id member => (visits_of_carriesBranches last branches each id member).ended last
  | group index body, entry, next, carries => by
    cases carries with
    | group head inside found =>
      refine .onward head (.groupHead (comes_of_carries body inside) found) ?_
      refine List.forall_mem_singleton.mpr ?_
      exact (visits_of_carries last body inside).trans (.single found .groupTail rfl)
  | repetition body quantifier, entry, next, carries => by
    cases carries with
    | repetition found inside =>
      refine .onward found (.loop (comes_of_carries body inside)) ?_
      refine List.forall_mem_cons.mpr ⟨?_, List.forall_mem_singleton.mpr .here⟩
      exact (visits_of_carries last body inside).ended last
  | backreference index, entry, next, carries => by
    cases carries with
    | backreference found => exact .single found .backreference rfl

theorem visits_of_carriesItems (last : graph.node 0 = .last) : (items : List Expr) →
    {entry next : Nat} → graph.CarriesItems items entry next → graph.Visits entry next
  | [], entry, next, carries => by
    cases carries with
    | nil => exact .here
  | item :: items, entry, next, carries => by
    cases carries with
    | cons first rest =>
      exact (visits_of_carries last item first).trans (visits_of_carriesItems last items rest)

theorem visits_of_carriesBranches (last : graph.node 0 = .last) : (branches : List Expr) →
    {entries : List Nat} → graph.CarriesBranches branches entries →
      ∀ id ∈ entries, graph.Visits id 0
  | [], entries, carries => by
    cases carries with
    | nil => nofun
  | branch :: branches, entries, carries => by
    cases carries with
    | cons first rest =>
      exact List.forall_mem_cons.mpr
        ⟨visits_of_carries last branch first, visits_of_carriesBranches last branches rest⟩

end

section Covering

mutual

/-- A walk from the entry of a lowered expression reaches all nodes that were added for it. -/
theorem covers_lower : (expr : Expr) → (nodes : Array Node) → (next : Nat) →
    graph.Holds (expr.lower nodes next).1 →
      graph.Covers nodes (expr.lower nodes next).1 (expr.lower nodes next).2
  | empty, nodes, next, holds => by
    rw [lower]
    exact .nothing
  | predicate test, nodes, next, holds => by
    rw [lower]
    exact .push .nothing
  | atStart, nodes, next, holds => by
    rw [lower]
    exact .push .nothing
  | atEnd, nodes, next, holds => by
    rw [lower]
    exact .push .nothing
  | sequence items, nodes, next, holds => by
    rw [lower] at holds ⊢
    exact covers_lowerItems items nodes next holds
  | alternation branches, nodes, next, holds => by
    rw [lower] at holds ⊢
    have each := covers_lowerBranches branches nodes holds.before
    refine .push fun id added bounded => ?_
    obtain ⟨entry, member, reaches⟩ := each id added bounded
    exact reaches.onward holds.newest (List.mem_append_left _ member)
  | group index body, nodes, next, holds => by
    rw [lower] at holds ⊢
    have inner := (comes_of_carries body (carries_lower body _ _ holds.before)).reaches
    have covers := covers_lower body _ _ holds.before
    exact .push (((Covers.push .nothing).trans inner covers).onward holds.newest
      (List.mem_singleton_self _))
  | repetition body quantifier, nodes, next, holds => by
    rw [lower] at holds ⊢
    have covers := covers_lower body nodes 0 holds.before
    exact .push (covers.onward holds.newest (List.mem_cons_self ..))
  | backreference index, nodes, next, holds => by
    rw [lower]
    exact .push .nothing

theorem covers_lowerItems : (items : List Expr) → (nodes : Array Node) → (next : Nat) →
    graph.Holds (lowerItems nodes next items).1 →
      graph.Covers nodes (lowerItems nodes next items).1 (lowerItems nodes next items).2
  | [], nodes, next, holds => by
    rw [lowerItems]
    exact .nothing
  | item :: items, nodes, next, holds => by
    rw [lowerItems] at holds ⊢
    have rest := covers_lowerItems items nodes next (holds_of_lower item _ _ holds)
    have first := comes_of_carries item (carries_lower item _ _ holds)
    exact rest.trans first.reaches (covers_lower item _ _ holds)

theorem covers_lowerBranches : (branches : List Expr) → (nodes : Array Node) →
    graph.Holds (lowerBranches nodes branches).1 →
      ∀ id, nodes.size ≤ id → id < (lowerBranches nodes branches).1.size →
        ∃ entry ∈ (lowerBranches nodes branches).2, graph.Reaches entry id
  | [], nodes, holds, id, added, bounded => by
    rw [lowerBranches] at bounded
    exact absurd bounded (Nat.not_lt.mpr added)
  | branch :: branches, nodes, holds, id, added, bounded => by
    rw [lowerBranches] at holds bounded ⊢
    by_cases early : id < (branch.lower nodes 0).1.size
    · have first := covers_lower branch nodes 0 (holds_of_lowerBranches branches _ holds)
      exact ⟨_, List.mem_cons_self .., first id added early⟩
    · obtain ⟨entry, member, reaches⟩ :=
        covers_lowerBranches branches _ holds id (Nat.not_lt.mp early) bounded
      exact ⟨entry, List.mem_cons_of_mem _ member, reaches⟩

end

end Covering

end Expr

namespace Graph

variable (expr : Expr)

theorem reachable_ofExpr {id : Nat} (inside : id < (ofExpr expr).nodes.size) :
    (ofExpr expr).Reaches (ofExpr expr).root id := by
  have holds := holds_lower_ofExpr expr
  have first := (Expr.comes_of_carries expr (carries_ofExpr expr)).reaches
  have ended : (ofExpr expr).Covers #[] #[.last] 0 := Covers.push .nothing
  have covers := ended.trans first (expr.covers_lower _ _ holds)
  have all : (ofExpr expr).Covers #[] (ofExpr expr).nodes (ofExpr expr).root :=
    .push (covers.onward (root_ofExpr expr) (List.mem_singleton_self _))
  exact all id (Nat.zero_le id) inside

theorem proper_ofExpr {id : Nat} (inside : id < (ofExpr expr).nodes.size) :
    id = (ofExpr expr).root ∨ id = 0 ∨ ((ofExpr expr).node id).Proper (ofExpr expr) := by
  have last := last_ofExpr expr
  rcases (reachable_ofExpr expr inside).cases with same | ⟨entry, named, reaches⟩
  · exact .inl same
  · rw [root_ofExpr] at named
    rw [List.mem_singleton.mp named] at reaches
    rcases expr.visits_of_carries last (carries_ofExpr expr) id reaches with
      proper | ended | behind
    · exact .inr (.inr proper)
    · exact .inr (.inl ended)
    · exact .inr (.inl (behind.eq_of_last last))

theorem getElem?_ofExpr {id : Nat} {node : Node} : (ofExpr expr).nodes[id]? = some node ↔
    id < (ofExpr expr).nodes.size ∧ (ofExpr expr).node id = node := by
  rw [Array.getElem?_eq_some_iff]
  constructor
  · rintro ⟨inside, rfl⟩
    exact ⟨inside, holds_ofExpr expr id inside⟩
  · rintro ⟨inside, rfl⟩
    exact ⟨inside, (holds_ofExpr expr id inside).symm⟩

theorem size_ofExpr : (ofExpr expr).nodes.size = (ofExpr expr).root + 1 := Array.size_push _

theorem last_iff_ofExpr (id : Nat) : (ofExpr expr).nodes[id]? = some .last ↔ id = 0 := by
  rw [getElem?_ofExpr]
  constructor
  · rintro ⟨inside, found⟩
    rcases proper_ofExpr expr inside with rfl | same | proper
    · rw [root_ofExpr] at found
      cases found
    · exact same
    · rw [found] at proper
      cases proper
  · rintro rfl
    exact ⟨by rw [size_ofExpr]; omega, last_ofExpr expr⟩

theorem start_iff_ofExpr (id : Nat) :
    (∃ next, (ofExpr expr).nodes[id]? = some (.start next)) ↔ id = (ofExpr expr).root := by
  simp only [getElem?_ofExpr]
  constructor
  · rintro ⟨next, inside, found⟩
    rcases proper_ofExpr expr inside with same | rfl | proper
    · exact same
    · rw [last_ofExpr] at found
      cases found
    · rw [found] at proper
      cases proper
  · rintro rfl
    exact ⟨_, by rw [size_ofExpr]; omega, root_ofExpr expr⟩

theorem getLast?_chain_ofExpr {id : Nat} (inside : id < (ofExpr expr).nodes.size) :
    ((ofExpr expr).chain id).getLast? = some 0 := by
  fun_induction (ofExpr expr).chain id with
  | case1 id ends =>
    have last : (ofExpr expr).node id = .last := by
      cases found : (ofExpr expr).node id <;> rw [found] at ends <;> cases ends
    rw [(last_iff_ofExpr expr id).mp ((getElem?_ofExpr expr).mpr ⟨inside, last⟩)]
    rfl
  | case2 id next follows ih =>
    have lower : next < id := successor_lt (Node.mem_successors.mpr (.inr follows))
    rw [List.getLast?_cons, ih (Nat.lt_trans lower inside)]
    rfl

theorem inside_of_ne_last {graph : Graph} {id : Nat} (other : graph.node id ≠ .last) :
    id < graph.nodes.size := by
  rcases Nat.lt_or_ge id graph.nodes.size with inside | beyond
  · exact inside
  · refine absurd ?_ other
    rw [node, Array.getElem?_eq_none beyond]
    rfl

theorem paired_ofExpr {head group inner : Nat}
    (enters : (ofExpr expr).node head = .groupHead group inner) :
    ∃ body tail behind next, (ofExpr expr).chain head = head :: (body ++ tail :: behind) ∧
      (ofExpr expr).Nested body ∧ (ofExpr expr).node tail = .groupTail group next := by
  have inside : head < (ofExpr expr).nodes.size := inside_of_ne_last (by rw [enters]; nofun)
  rcases proper_ofExpr expr inside with rfl | rfl | proper
  · rw [root_ofExpr] at enters
    cases enters
  · rw [last_ofExpr] at enters
    cases enters
  · rw [enters] at proper
    cases proper with
    | groupHead comes leaves =>
      obtain ⟨body, chain, nested⟩ := chain_groupHead enters comes leaves
      exact ⟨body, _, _, _, chain, nested, leaves⟩

theorem chain_of_comes {entry : Nat} (comes : (ofExpr expr).Comes entry 0) :
    ∃ ids, (ofExpr expr).chain entry = ids ++ [0] ∧ (ofExpr expr).Nested ids := by
  have ended : (ofExpr expr).chain 0 = [0] := chain_of_none (by rw [last_ofExpr]; rfl)
  obtain ⟨ids, chain, nested⟩ := comes
  exact ⟨ids, by rw [chain, ended], nested⟩

theorem nested_ofExpr {entry : Nat} (begins : (ofExpr expr).Begins entry) :
    ∃ ids, (ofExpr expr).chain entry = ids ++ [0] ∧ (ofExpr expr).Nested ids := by
  apply chain_of_comes
  rcases begins with rfl | ⟨id, begins⟩
  · exact (Comes.plain (root_ofExpr expr) rfl rfl).trans
      (Expr.comes_of_carries expr (carries_ofExpr expr))
  · have other : (ofExpr expr).node id ≠ .last := by
      intro last
      rw [last] at begins
      cases begins
    rcases proper_ofExpr expr (inside_of_ne_last other) with rfl | rfl | proper
    · rw [root_ofExpr] at begins
      cases begins
    · exact absurd (last_ofExpr expr) other
    · generalize (ofExpr expr).node id = node at begins proper
      cases proper with
      | branch each => exact each entry begins
      | loop inside => exact List.mem_singleton.mp begins ▸ inside
      | _ => cases begins

/-- The graph of every expression is of good shape. -/
theorem wellShaped_ofExpr : (ofExpr expr).WellShaped where
  last_iff := last_iff_ofExpr expr
  start_iff := start_iff_ofExpr expr
  size := size_ofExpr expr
  descends _ _ names := names.descends
  acyclic _ path := Nat.lt_irrefl _ (descends_of_transGen path)
  ends _ inside := getLast?_chain_ofExpr expr inside
  reachable _ inside := reachable_ofExpr expr inside
  paired _ _ _ enters := paired_ofExpr expr enters
  nested _ begins := nested_ofExpr expr begins

end Graph

end PatternSearch

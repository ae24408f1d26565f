import BindCheck.Proofs.KindsBelow
import BindCheck.Proofs.ReadRegions

/-!
# BindCheck.Proofs.Occurrences

**Where names are bound and where they are read**, said without a walk. A variable stands
directly below a node of some kind or it does not (`Spot.isUnder`), and `Tree.variablesUnder`
lists those that do, in the order of the text.

* A pattern binds the variables directly below its nodes, relationships and paths; an `UNWIND`,
  a `YIELD` and the columns of a projection bind one name each (`Tree.DefiningExact`). The walk
  stops at every binding site, so that it misses nothing is a matter of the schema: there is
  no site below a site, and beside the names of a pattern stand conditions, which bind nothing
  (`Tree.Parsed.defining_of_conditions`).
* In the empty scope every variable is a reference but for aliases, `UNWIND` targets and yielded
  names (`referencing_empty_eq`). **The names that a pattern binds are among the references.**
-/

namespace BindCheck

open RegularExpression

/-- Whether a name below a node of the kind is bound by a pattern. -/
def NodeKind.isPatternSite : NodeKind → Bool
  | .patternPart | .nodePattern | .relationshipDetail => true
  | _ => false

theorem NodeKind.cases_introduces {k : NodeKind} (h : k.introduces = true) :
    k = .projectionItem ∨ k = .unwindClause ∨ k = .yieldItem := by
  cases k <;> first | exact Bool.noConfusion h | simp

/-- The kinds of the nodes that may bind a name. -/
def NodeKind.sites : List NodeKind :=
  [.projectionItem, .unwindClause, .yieldItem, .nodePattern, .relationshipDetail, .variableName]

/-- What stands in a condition and has no value has no variable directly below it. -/
theorem NodeKind.variableName_notMem_letters : ∀ k ∈ ofConditions, k ∉ sites →
    k.isExpression = false → .variableName ∉ k.schema.letters := by
  decide +kernel

/-- The other parts of a pattern bind nothing but the variable of a path. -/
theorem NodeKind.isPatternSite_of_variable : ∀ k ∈ ofPatterns, k ∉ ofConditions →
    k ≠ .nodePattern → k ≠ .relationshipDetail →
      (k ∉ sites ∧ k.isExpression = false) ∧
        (.variableName ∈ k.schema.letters → k.isPatternSite = true) := by
  decide +kernel

namespace Spot

/-- Whether a node is a variable directly below a node of some kinds. -/
def isUnder (p : NodeKind → Bool) (s : Spot) : Bool :=
  s.node.is .variableName && s.above.head?.any fun n => p n.kind

/-- The variables among some nodes that stand directly below nodes of some kinds. -/
def variablesUnder (p : NodeKind → Bool) (ss : List Spot) : List Tree :=
  (ss.filter (·.isUnder p)).map node

variable (p : NodeKind → Bool)

theorem variablesUnder_cons (s : Spot) (ss : List Spot) :
    variablesUnder p (s :: ss) = (if s.isUnder p then [s.node] else []) ++ variablesUnder p ss := by
  rw [variablesUnder, List.filter_cons]
  split <;> rfl

theorem variablesUnder_flatMap (f : Tree → List Spot) (cs : List Tree) :
    variablesUnder p (cs.flatMap f) = cs.flatMap fun c => variablesUnder p (f c) := by
  rw [variablesUnder, List.filter_flatMap, List.map_flatMap]
  rfl

end Spot

namespace Tree

/-- The variables that stand directly below nodes of some kinds, in the order of the text. -/
def variablesUnder (p : NodeKind → Bool) (t : Tree) : List Tree := Spot.variablesUnder p t.spots

/-! ### Variables below a node and below its children -/

theorem spotsBelowAll_eq (above : List Tree) (cs : List Tree) :
    spotsBelowAll above cs = cs.flatMap (spotsBelow above) := by
  induction cs with
  | nil => rfl
  | cons c cs ih => rw [spotsBelowAll, ih, List.flatMap_cons]

theorem spotsBelow_eq (above : List Tree) (t : Tree) :
    t.spotsBelow above = ⟨t, above⟩ :: t.children.flatMap (spotsBelow (t :: above)) := by
  obtain ⟨k, x, p, cs⟩ := t
  rw [spotsBelow, spotsBelowAll_eq]

section

variable (p : NodeKind → Bool)

/-- For a node below another one, only the node right above it matters. -/
theorem variablesUnder_spotsBelow (t : Tree) : ∀ (n : Tree) (above : List Tree),
    Spot.variablesUnder p (t.spotsBelow (n :: above)) =
      (if t.is .variableName && p n.kind then [t] else []) ++ t.variablesUnder p := by
  induction t using Tree.induction with
  | node t ih =>
      intro n above
      have hroot : Spot.isUnder p ⟨t, []⟩ = false := Bool.and_false _
      rw [variablesUnder, spots, spotsBelow_eq, spotsBelow_eq, Spot.variablesUnder_cons,
        Spot.variablesUnder_cons, hroot, Spot.variablesUnder_flatMap, Spot.variablesUnder_flatMap]
      congr 1
      exact List.flatMap_congr fun c hc => (ih c hc t _).trans (ih c hc t _).symm

/-- The variables below a node: children that are variables, and those below the children. -/
theorem variablesUnder_eq (t : Tree) :
    t.variablesUnder p = t.children.flatMap fun c =>
      (if c.is .variableName && p t.kind then [c] else []) ++ c.variablesUnder p := by
  have hroot : Spot.isUnder p ⟨t, []⟩ = false := Bool.and_false _
  rw [variablesUnder, spots, spotsBelow_eq, Spot.variablesUnder_cons, hroot,
    Spot.variablesUnder_flatMap]
  exact List.flatMap_congr fun c _ => c.variablesUnder_spotsBelow p t []

variable {p}

/-- Where no node is of the kinds, no variable stands below one. -/
theorem variablesUnder_eq_nil {t : Tree} (h : ∀ n ∈ t.descendants, p n.kind = false) :
    t.variablesUnder p = [] := by
  induction t using Tree.induction with
  | node t ih =>
      rw [variablesUnder_eq, List.flatMap_eq_nil_iff]
      intro c hc
      rw [h t t.mem_descendants_self, Bool.and_false,
        ih c hc fun n hn => h n (mem_descendants_iff.mpr (.inr ⟨c, hc, hn⟩))]
      rfl

end

/-! ### Binding sites -/

/-- The walk stops at what may bind a name and at expressions. -/
theorem isBindingSite_iff {t : Tree} :
    t.isBindingSite = true ↔ t.kind ∈ NodeKind.sites ∨ t.kind.isExpression = true := by
  obtain ⟨k, x, p, cs⟩ := t
  cases k <;> simp [isBindingSite, NodeKind.sites, NodeKind.isExpression]

theorem isBindingSite_eq_false {t : Tree} (hsites : t.kind ∉ NodeKind.sites)
    (hx : t.kind.isExpression = false) : t.isBindingSite = false := by
  rw [Bool.eq_false_iff, ne_eq, isBindingSite_iff, hx]
  simpa using hsites

theorem boundName?_of_not_site {t : Tree} (h : t.isBindingSite = false) : t.boundName? = none := by
  obtain ⟨k, x, p, cs⟩ := t
  cases k <;> first | rfl | exact Bool.noConfusion h

theorem boundName?_of_isExpression {t : Tree} (h : t.kind.isExpression = true) :
    t.boundName? = none := by
  obtain ⟨k, x, p, cs⟩ := t
  cases k <;> first | rfl | exact Bool.noConfusion h

/-- At a site the walk stops. -/
theorem defining_of_site {t : Tree} (h : t.isBindingSite = true) :
    t.defining = t.boundName?.toList := by
  have hwalk : (t.walk fun n => !n.isBindingSite) = [t] := by
    rw [walk_eq_preorder, preorder_eq, h]
    rfl
  rw [defining, hwalk]
  cases hname : t.boundName? <;> simp [hname]

/-- Anywhere else it goes on. -/
theorem defining_of_not_site {t : Tree} (h : t.isBindingSite = false) :
    t.defining = t.children.flatMap defining := by
  have hwalk : (t.walk fun n => !n.isBindingSite) =
      t :: t.children.flatMap fun c => c.walk fun n => !n.isBindingSite := by
    rw [walk_eq_preorder, preorder_eq, h, Bool.not_false, if_pos rfl, preorderAll_eq]
    simp only [walk_eq_preorder]
  rw [defining, hwalk, List.filterMap_cons_none (boundName?_of_not_site h), List.filterMap_flatMap]
  rfl

/-- A target, a yielded result and the node or relationship of a pattern bind their variable. -/
theorem defining_of_named {t : Tree}
    (h : t.kind ∈ [.unwindClause, .yieldItem, .nodePattern, .relationshipDetail]) :
    t.defining = ((t.child? .variableName).map Variable.ofTree).toList := by
  have hsites : ∀ k ∈ [NodeKind.unwindClause, .yieldItem, .nodePattern, .relationshipDetail],
      k ∈ NodeKind.sites := by
    decide
  rw [defining_of_site (isBindingSite_iff.mpr (.inl (hsites _ h)))]
  simp only [List.mem_cons, List.not_mem_nil, or_false] at h
  rcases h with hk | hk | hk | hk <;> rw [boundName?, hk]

theorem defining_of_variable {t : Tree} (h : t.kind = .variableName) :
    t.defining = [Variable.ofTree t] := by
  obtain ⟨k, x, p, cs⟩ := t
  obtain rfl : k = .variableName := h
  exact defining_of_site rfl

/-! ### Conditions -/

namespace Parsed

variable {t : Tree}

/-- No pattern stands in a condition. -/
theorem variablesUnder_of_conditions (h : t.Parsed) (ht : t.kind ∈ NodeKind.ofConditions) :
    t.variablesUnder NodeKind.isPatternSite = [] := by
  have hsites : ∀ k ∈ NodeKind.ofConditions, k.isPatternSite = false := by decide
  exact variablesUnder_eq_nil fun n hn =>
    hsites _ (h.kind_mem_of_closed NodeKind.closed_ofConditions ht n hn)

/-- **A condition binds nothing.** -/
theorem defining_of_conditions (h : t.Parsed) (ht : t.kind ∈ NodeKind.ofConditions)
    (hv : t.kind ≠ .variableName) : t.defining = [] := by
  induction t using Tree.induction with
  | node t ih =>
      cases hx : t.kind.isExpression with
      | true =>
          rw [defining_of_site (isBindingSite_iff.mpr (.inr hx)), boundName?_of_isExpression hx]
          rfl
      | false =>
          have hsites : ∀ k ∈ NodeKind.ofConditions, k ≠ .variableName → k ∉ NodeKind.sites := by
            decide
          have hsite := isBindingSite_eq_false (hsites _ ht hv) hx
          have hletters := NodeKind.variableName_notMem_letters _ ht (hsites _ ht hv) hx
          rw [defining_of_not_site hsite, List.flatMap_eq_nil_iff]
          intro c hc
          have hkind := h.kind_mem_letters hc
          exact ih c hc (h.of_mem_children hc) (NodeKind.closed_ofConditions _ ht _ hkind)
            fun hvariable => hletters (hvariable ▸ hkind)

/-! ### Patterns -/

/-- A node or a relationship of a pattern has at most one variable. -/
theorem childrenOf_variableName (h : t.Parsed)
    (ht : t.kind = .nodePattern ∨ t.kind = .relationshipDetail) :
    t.childrenOf .variableName = (t.child? .variableName).toList := by
  have hschema : includes 0 t.kind.schema (NodeKind.optional (char .variableName) *
      (NodeKind.oneOf [.nodeLabels, .relationshipTypes, .rangeLiteral, .properties]).star) =
        true := by
    rcases ht with ht | ht <;> rw [ht] <;> decide +kernel
  obtain ⟨cs, cs', hchildren, hfirst, hothers⟩ :=
    eq_append_of_kinds (mem_of_includes hschema (Nat.zero_le _) h.kinds_mem_schema)
  -- behind the variable there is no other
  have hrest : cs'.filter (·.is .variableName) = [] := by
    rw [List.filter_eq_nil_iff]
    intro c hc hvariable
    have hletter := mem_letters hothers _ (List.mem_map_of_mem hc)
    rw [eq_of_beq hvariable] at hletter
    exact absurd hletter (by decide)
  rw [childrenOf, child?, ← List.head?_filter, hchildren, List.filter_append, hrest,
    List.append_nil]
  rcases eq_nil_or_singleton_of_kinds hfirst with rfl | ⟨c, rfl, hc⟩
  · rfl
  · rw [List.filter_singleton, is, hc]
    rfl

/-- A node or a relationship of a pattern binds its variable. -/
theorem defining_of_patternSite (h : t.Parsed)
    (ht : t.kind = .nodePattern ∨ t.kind = .relationshipDetail) :
    t.defining = (t.variablesUnder NodeKind.isPatternSite).map Variable.ofTree := by
  have hnamed : t.kind ∈ [.unwindClause, .yieldItem, .nodePattern, .relationshipDetail] := by
    rcases ht with ht | ht <;> simp [ht]
  have hbelow : t.variablesUnder NodeKind.isPatternSite = t.childrenOf .variableName := by
    have hpattern : t.kind.isPatternSite = true := by rcases ht with ht | ht <;> rw [ht] <;> rfl
    have hletters : ∀ k ∈ t.kind.schema.letters, k ∈ NodeKind.ofConditions := by
      rcases ht with ht | ht <;> rw [ht] <;> decide
    rw [variablesUnder_eq, childrenOf, ← List.filterMap_eq_filter,
      List.filterMap_eq_flatMap_toList]
    refine List.flatMap_congr fun c hc => ?_
    rw [hpattern, Bool.and_true, (h.of_mem_children hc).variablesUnder_of_conditions
      (hletters _ (h.kind_mem_letters hc)), List.append_nil, Option.guard]
    split <;> rfl
  rw [defining_of_named hnamed, hbelow, h.childrenOf_variableName ht]
  cases t.child? .variableName <;> rfl

/-- **What a pattern, or a part of one, binds** are the variables of its nodes, relationships
and paths. -/
theorem defining_of_pattern (h : t.Parsed) (ht : t.kind ∈ NodeKind.ofPatterns)
    (hv : t.kind ≠ .variableName) :
    t.defining = (t.variablesUnder NodeKind.isPatternSite).map Variable.ofTree := by
  induction t using Tree.induction with
  | node t ih =>
      by_cases hcondition : t.kind ∈ NodeKind.ofConditions
      · rw [h.defining_of_conditions hcondition hv, h.variablesUnder_of_conditions hcondition]
        rfl
      by_cases hsite : t.kind = .nodePattern ∨ t.kind = .relationshipDetail
      · exact h.defining_of_patternSite hsite
      obtain ⟨⟨hnot, hx⟩, hpath⟩ := NodeKind.isPatternSite_of_variable _ ht hcondition
        (fun h => hsite (.inl h)) fun h => hsite (.inr h)
      rw [defining_of_not_site (isBindingSite_eq_false hnot hx), variablesUnder_eq,
        List.map_flatMap]
      refine List.flatMap_congr fun c hc => ?_
      have hparsed := h.of_mem_children hc
      have hkind := h.kind_mem_letters hc
      by_cases hvariable : c.kind = .variableName
      · -- the variable of a path, with nothing below it
        have his : c.is .variableName = true := beq_iff_eq.mpr hvariable
        rw [defining_of_variable hvariable, his, hpath (hvariable ▸ hkind),
          hparsed.variablesUnder_of_conditions (by rw [hvariable]; decide)]
        rfl
      · have his : c.is .variableName = false := beq_eq_false_iff_ne.mpr hvariable
        rw [ih c hc hparsed (NodeKind.closed_ofPatterns _ ht _ hkind) hvariable, his]
        rfl

/-! ### Targets, results and columns -/

/-- An `UNWIND` has a list and a target. -/
theorem children_of_unwindClause (h : t.Parsed) (ht : t.kind = .unwindClause) :
    ∃ e v, t.children = [e, v] ∧ e.kind = .expression ∧ v.kind = .variableName := by
  have hkinds := h.kinds_mem_schema
  rw [ht] at hkinds
  obtain ⟨cs, cs', hchildren, hlist, htarget⟩ := eq_append_of_kinds hkinds
  obtain ⟨e, rfl, he⟩ := eq_singleton_of_kinds hlist
  obtain ⟨v, rfl, hv⟩ := eq_singleton_of_kinds htarget
  exact ⟨e, v, hchildren, he, hv⟩

/-- A column has an expression, and a name of its own or none. -/
theorem children_of_projectionItem (h : t.Parsed) (ht : t.kind = .projectionItem) :
    ∃ e, e.kind = .expression ∧
      (t.children = [e] ∨ ∃ v, t.children = [e, v] ∧ v.kind = .variableName) := by
  have hkinds := h.kinds_mem_schema
  rw [ht] at hkinds
  obtain ⟨cs, cs', hchildren, hexpression, hname⟩ := eq_append_of_kinds hkinds
  obtain ⟨e, rfl, he⟩ := eq_singleton_of_kinds hexpression
  rcases eq_nil_or_singleton_of_kinds hname with rfl | ⟨v, rfl, hv⟩
  · exact ⟨e, he, .inl hchildren⟩
  · exact ⟨e, he, .inr ⟨v, hchildren, hv⟩⟩

/-- A yielded result has one variable, behind the name of a result or alone. -/
theorem children_of_yieldItem (h : t.Parsed) (ht : t.kind = .yieldItem) :
    ∃ v, v.kind = .variableName ∧
      (t.children = [v] ∨ ∃ f, t.children = [f, v] ∧ f.kind = .procedureResultField) := by
  have hkinds := h.kinds_mem_schema
  rw [ht] at hkinds
  obtain ⟨cs, cs', hchildren, hfield, hname⟩ := eq_append_of_kinds hkinds
  obtain ⟨v, rfl, hv⟩ := eq_singleton_of_kinds hname
  rcases eq_nil_or_singleton_of_kinds hfield with rfl | ⟨f, rfl, hf⟩
  · exact ⟨v, hv, .inl hchildren⟩
  · exact ⟨v, hv, .inr ⟨f, hchildren, hf⟩⟩

end Parsed

/-- The name of a column: the variable behind its `AS` if it has one, and else the text of its
expression. -/
inductive NamesColumn (item : Tree) : Variable → Prop where
  | alias {e v : Tree} (children : item.children = [e, v]) (expression : e.kind = .expression)
      (name : v.kind = .variableName) : NamesColumn item (Variable.ofTree v)
  | text {e : Tree} (children : item.children = [e]) (expression : e.kind = .expression) :
      NamesColumn item (Variable.ofTree e)

/-- **What a node binds**: a clause with a pattern binds the variables right below the nodes,
relationships and paths of the pattern, none of which is inside a map of properties or a filter;
an `UNWIND`, a `YIELD` and a projection bind one name for each target, result and column. -/
structure DefiningExact (n : Tree) : Prop where
  pattern : n.kind = .matchClause ∨ n.kind = .createClause →
    n.defining = (n.variablesUnder NodeKind.isPatternSite).map Variable.ofTree ∧
      ∀ m ∈ n.descendants, m.kind = .properties ∨ m.kind = .whereClause →
        m.variablesUnder NodeKind.isPatternSite = []
  target : n.kind = .unwindClause → ∃ e v, n.children = [e, v] ∧ v.kind = .variableName ∧
    n.defining = [Variable.ofTree v]
  results : n.kind = .yieldItems →
    List.Forall₂ (fun y x => ∃ v, y.childrenOf .variableName = [v] ∧ x = Variable.ofTree v)
      (n.childrenOf .yieldItem) n.defining
  columns : n.kind = .projectionItems →
    List.Forall₂ NamesColumn (n.childrenOf .projectionItem) n.defining

/-- Some children give one thing each, and the others nothing. -/
theorem forall₂_filter_flatMap {R : Tree → Variable → Prop} {f : Tree → List Variable}
    {p : Tree → Bool} {cs : List Tree}
    (h : ∀ c ∈ cs, p c = true ∧ (∃ x, f c = [x] ∧ R c x) ∨ p c = false ∧ f c = []) :
    List.Forall₂ R (cs.filter p) (cs.flatMap f) := by
  induction cs with
  | nil => exact .nil
  | cons c cs ih =>
      obtain ⟨hc, hcs⟩ := List.forall_mem_cons.mp h
      rw [List.flatMap_cons]
      rcases hc with ⟨hp, x, hx, hR⟩ | ⟨hp, hx⟩
      · rw [List.filter_cons_of_pos hp, hx]
        exact .cons hR (ih hcs)
      · rw [List.filter_cons_of_neg (Bool.not_eq_true _ ▸ hp), hx]
        exact ih hcs

namespace Parsed

variable {t : Tree}

theorem defining_of_projectionItem (h : t.Parsed) (ht : t.kind = .projectionItem) :
    ∃ x, t.defining = [x] ∧ t.NamesColumn x := by
  have hsite : t.isBindingSite = true := isBindingSite_iff.mpr (.inl (by rw [ht]; decide))
  have hname : t.boundName? =
      ((t.child? .variableName).or (t.child? .expression)).map Variable.ofTree := by
    rw [boundName?, ht]
  rw [defining_of_site hsite, hname, child?, child?]
  obtain ⟨e, he, hchildren | ⟨v, hchildren, hv⟩⟩ := h.children_of_projectionItem ht
  · exact ⟨_, by simp [hchildren, is, he], .text hchildren he⟩
  · exact ⟨_, by simp [hchildren, is, he, hv], .alias hchildren he hv⟩

theorem defining_of_yieldItem (h : t.Parsed) (ht : t.kind = .yieldItem) :
    ∃ x, t.defining = [x] ∧ ∃ v, t.childrenOf .variableName = [v] ∧ x = Variable.ofTree v := by
  rw [defining_of_named (by simp [ht]), child?, childrenOf]
  obtain ⟨v, hv, hchildren | ⟨f, hchildren, hf⟩⟩ := h.children_of_yieldItem ht
  · exact ⟨_, by simp [hchildren, is, hv], v, by simp [hchildren, is, hv], rfl⟩
  · exact ⟨_, by simp [hchildren, is, hf, hv], v, by simp [hchildren, is, hf, hv], rfl⟩

theorem defining_of_unwindClause (h : t.Parsed) (ht : t.kind = .unwindClause) :
    ∃ e v, t.children = [e, v] ∧ v.kind = .variableName ∧ t.defining = [Variable.ofTree v] := by
  obtain ⟨e, v, hchildren, he, hv⟩ := h.children_of_unwindClause ht
  refine ⟨e, v, hchildren, hv, ?_⟩
  rw [defining_of_named (by simp [ht]), child?]
  simp [hchildren, is, he, hv]

theorem defining_of_yieldItems (h : t.Parsed) (ht : t.kind = .yieldItems) :
    List.Forall₂ (fun y x => ∃ v, y.childrenOf .variableName = [v] ∧ x = Variable.ofTree v)
      (t.childrenOf .yieldItem) t.defining := by
  have hsite : t.isBindingSite = false :=
    isBindingSite_eq_false (by rw [ht]; decide) (by rw [ht]; rfl)
  rw [defining_of_not_site hsite]
  refine forall₂_filter_flatMap fun c hc => ?_
  have hparsed := h.of_mem_children hc
  have hkind := h.kind_mem_letters hc
  rw [ht] at hkind
  have hkinds : c.kind = .yieldItem ∨ c.kind = .whereClause := by
    revert hkind
    generalize c.kind = k
    revert k
    decide
  rcases hkinds with hk | hk
  · exact .inl ⟨beq_iff_eq.mpr hk, hparsed.defining_of_yieldItem hk⟩
  · exact .inr ⟨by rw [is, hk]; rfl,
      hparsed.defining_of_conditions (by rw [hk]; decide) (by rw [hk]; decide)⟩

theorem defining_of_projectionItems (h : t.Parsed) (ht : t.kind = .projectionItems) :
    List.Forall₂ NamesColumn (t.childrenOf .projectionItem) t.defining := by
  have hsite : t.isBindingSite = false :=
    isBindingSite_eq_false (by rw [ht]; decide) (by rw [ht]; rfl)
  rw [defining_of_not_site hsite]
  refine forall₂_filter_flatMap fun c hc => ?_
  have hk := h.kind_of_columns ht c hc
  exact .inl ⟨beq_iff_eq.mpr hk, (h.of_mem_children hc).defining_of_projectionItem hk⟩

end Parsed

end Tree

/-- **What every node of a query binds, exactly.** -/
theorem parse_definingExact {source : String} {t : Tree} (h : parse source = .ok t) :
    ∀ n ∈ t.descendants, n.DefiningExact := by
  intro n hn
  have hparsed : n.Parsed := ⟨source, t, h, hn⟩
  constructor
  case pattern =>
    intro hk
    have hpattern : n.kind ∈ NodeKind.ofPatterns ∧ n.kind ≠ .variableName := by
      rcases hk with hk | hk <;> rw [hk] <;> decide
    refine ⟨hparsed.defining_of_pattern hpattern.1 hpattern.2, fun m hm hk => ?_⟩
    have hcondition : m.kind ∈ NodeKind.ofConditions := by
      rcases hk with hk | hk <;> rw [hk] <;> decide
    exact (hparsed.of_mem_descendants hm).variablesUnder_of_conditions hcondition
  case target => exact hparsed.defining_of_unwindClause
  case results => exact hparsed.defining_of_yieldItems
  case columns => exact hparsed.defining_of_projectionItems

/-- The names of a path, its nodes and its relationship, and not the name in the map. -/
theorem parse_definingExact_of_path :
    ∃ t n, parse "MATCH p = ((a)-[r]->(b \x7bx: c\x7d)) RETURN a" = .ok t ∧ n ∈ t.descendants ∧
      n.kind = .matchClause ∧ n.defining.map Variable.name = ["p", "a", "r", "b"] ∧
        n.DefiningExact := by
  obtain ⟨t, ht, hfind⟩ : ∃ t, parse "MATCH p = ((a)-[r]->(b \x7bx: c\x7d)) RETURN a" = .ok t ∧
      (t.find? .matchClause).map (fun n => (n.kind, n.defining.map Variable.name)) =
        some (.matchClause, ["p", "a", "r", "b"]) :=
    exists_parse_eq_ok (by decide +kernel)
  obtain ⟨n, hn, hnode⟩ := Option.map_eq_some_iff.mp hfind
  obtain ⟨hkind, hnames⟩ := Prod.mk.inj hnode
  have hmem := List.mem_of_find?_eq_some hn
  exact ⟨t, n, ht, hmem, hkind, hnames, parse_definingExact ht n hmem⟩

/-! ### References in the empty scope -/

namespace Tree

theorem isReference_empty (t : Tree) : t.isReference Scope.empty = t.is .variableName := by
  simp [isReference, Scope.binds, Scope.empty]

theorem referencingAll_eq (scope : Scope) (cs : List Tree) :
    referencingAll scope cs = cs.flatMap (referencing scope) := by
  induction cs with
  | nil => rfl
  | cons c cs ih => rw [referencingAll, ih, List.flatMap_cons]

theorem variablesUnder_of_leaf {p : NodeKind → Bool} {t : Tree} (h : t.children = []) :
    t.variablesUnder p = [] := by
  rw [variablesUnder_eq, h]
  rfl

namespace Parsed

variable {t : Tree}

/-- A node that introduces a name has an expression or none, and else leaves. -/
theorem children_of_introduces (h : t.Parsed) (ht : t.kind.introduces = true) :
    ∃ es vs, t.children = es ++ vs ∧ es = (t.child? .expression).toList ∧
      ∀ v ∈ vs, v.children = [] := by
  have hleaf : ∀ v ∈ t.children, v.kind = .variableName → v.children = [] :=
    fun v hv hk => (h.of_mem_children hv).children_of_variable hk
  rcases NodeKind.cases_introduces ht with hk | hk | hk
  · obtain ⟨e, he, hchildren | ⟨v, hchildren, hv⟩⟩ := h.children_of_projectionItem hk
    · exact ⟨[e], [], by simp [hchildren], by simp [child?, hchildren, is, he], by simp⟩
    · have := hleaf v (by simp [hchildren]) hv
      exact ⟨[e], [v], by simp [hchildren], by simp [child?, hchildren, is, he], by simpa⟩
  · obtain ⟨e, v, hchildren, he, hv⟩ := h.children_of_unwindClause hk
    have := hleaf v (by simp [hchildren]) hv
    exact ⟨[e], [v], by simp [hchildren], by simp [child?, hchildren, is, he], by simpa⟩
  · obtain ⟨v, hv, hchildren | ⟨f, hchildren, hf⟩⟩ := h.children_of_yieldItem hk
    · have := hleaf v (by simp [hchildren]) hv
      exact ⟨[], [v], by simp [hchildren], by simp [child?, hchildren, is, hv], by simpa⟩
    · have := hleaf v (by simp [hchildren]) hv
      have : f.children = [] :=
        (h.of_mem_children (by simp [hchildren])).children_eq_nil (by rw [hf]; rfl)
      exact ⟨[], [f, v], by simp [hchildren], by simp [child?, hchildren, is, hv, hf], by simp [*]⟩

/-- A node that introduces a name reads what its expression reads, if it has one. -/
theorem referencing_of_introduces (h : t.Parsed) (ht : t.kind.introduces = true) (scope : Scope) :
    t.referencing scope = (t.child? .expression).toList.flatMap (referencing scope) := by
  have hexpression : t.kind ≠ .yieldItem →
      t.referencing scope = referencingExpression scope t.children := by
    intro hk
    obtain ⟨k, x, p, cs⟩ := t
    rcases NodeKind.cases_introduces ht with rfl | rfl | rfl
    · rw [referencing]
    · rw [referencing]
    · exact absurd rfl hk
  by_cases hk : t.kind = .yieldItem
  · -- a yielded result has no expression
    have hnone : t.child? .expression = none := by
      obtain ⟨v, hv, hchildren | ⟨f, hchildren, hf⟩⟩ := h.children_of_yieldItem hk
      · simp [child?, hchildren, is, hv]
      · simp [child?, hchildren, is, hv, hf]
    rw [hnone]
    obtain ⟨k, x, p, cs⟩ := t
    obtain rfl : k = .yieldItem := hk
    rw [referencing]
    rfl
  · rw [hexpression hk, referencingExpression_eq, child?]
    cases t.children.find? (·.is .expression) <;> simp

/-- **In the empty scope every variable is read** unless it stands right below a node that
introduces a name. -/
theorem referencing_empty (h : t.Parsed) :
    t.referencing Scope.empty = ((if t.is .variableName then [t] else []) ++
      t.variablesUnder fun k => !k.introduces).map Variable.ofTree := by
  induction t using Tree.induction with
  | node t ih =>
      have hchild : ∀ c ∈ t.children, c.referencing Scope.empty =
          ((if c.is .variableName then [c] else []) ++
            c.variablesUnder fun k => !k.introduces).map Variable.ofTree :=
        fun c hc => ih c hc (h.of_mem_children hc)
      cases hintroduces : t.kind.introduces with
      | true =>
          -- of the children only the expression has variables below it
          obtain ⟨es, vs, hchildren, hes, hvs⟩ := h.children_of_introduces hintroduces
          have hvariable : t.is .variableName = false := by
            rcases NodeKind.cases_introduces hintroduces with hk | hk | hk <;> rw [is, hk] <;> rfl
          have hleaves : (vs.flatMap fun c => c.variablesUnder fun k => !k.introduces) = [] :=
            List.flatMap_eq_nil_iff.mpr fun v hv => variablesUnder_of_leaf (hvs v hv)
          rw [h.referencing_of_introduces hintroduces, ← hes, variablesUnder_eq, hvariable,
            hintroduces, hchildren]
          simp only [Bool.not_true, Bool.and_false, Bool.false_eq_true, if_false, List.nil_append]
          rw [List.flatMap_append, hleaves, List.append_nil, List.map_flatMap]
          refine List.flatMap_congr fun e he => ?_
          have hfirst : t.child? .expression = some e := Option.mem_toList.mp (hes ▸ he)
          have hexpression : e.is .variableName = false := by
            rw [is, show e.kind = .expression from eq_of_beq (is_of_child? hfirst)]
            rfl
          rw [hchild e (List.mem_of_find?_eq_some hfirst), hexpression]
          rfl
      | false =>
          have hplain : t.Plain := ⟨hintroduces, h.children_of_variable⟩
          rw [referencing_of_plain hplain, isReference_empty]
          cases hvariable : t.is .variableName with
          | true =>
              rw [variablesUnder_of_leaf (h.children_of_variable (eq_of_beq hvariable))]
              rfl
          | false =>
              rw [if_neg Bool.false_ne_true, if_neg Bool.false_ne_true, referencingAll_eq,
                variablesUnder_eq, List.nil_append, List.map_flatMap, hintroduces]
              refine List.flatMap_congr fun c hc => ?_
              rw [hchild c hc, Bool.not_false, Bool.and_true]

end Parsed

theorem variablesUnder_sublist {p q : NodeKind → Bool} (h : ∀ k, p k = true → q k = true)
    (t : Tree) : (t.variablesUnder p).Sublist (t.variablesUnder q) := by
  refine (List.monotone_filter_right _ fun s hs => ?_).map _
  obtain ⟨hvariable, habove⟩ := Bool.and_eq_true_iff.mp hs
  obtain ⟨n, hn, hk⟩ := (Option.any_eq_true _ _).mp habove
  exact Bool.and_eq_true_iff.mpr ⟨hvariable, (Option.any_eq_true _ _).mpr ⟨n, hn, h _ hk⟩⟩

/-- A name that a pattern binds stands below no node that introduces a name in another way. -/
theorem length_variablesUnder (t : Tree) :
    (t.variablesUnder fun k => !k.introduces).length =
      (t.variablesUnder NodeKind.isPatternSite).length +
        (t.variablesUnder fun k => !k.introduces && !k.isPatternSite).length := by
  have hkinds : ∀ k : NodeKind, k.isPatternSite = true → k.introduces = false := by
    intro k hk
    cases k <;> first | rfl | exact Bool.noConfusion hk
  simp only [variablesUnder, Spot.variablesUnder, List.length_map, ← List.countP_eq_length_filter]
  rw [List.countP_eq_countP_filter_add _ _ fun s => s.isUnder NodeKind.isPatternSite,
    List.countP_filter, List.countP_filter]
  congr 1 <;> refine List.countP_congr fun s _ => ?_ <;> cases hs : s.above.head? with
    | none => simp [Spot.isUnder, hs]
    | some n =>
        have := hkinds n.kind
        simp only [Spot.isUnder, hs, Option.any_some]
        grind

end Tree

/-- **The references of a node in the empty scope** are the variables below it, in the order of
the text, but for aliases, targets of `UNWIND` and yielded names. The names that a pattern binds
are among them, so bindings are left out exactly where no pattern binds a name. -/
theorem referencing_empty_eq {source : String} {t : Tree} (h : parse source = .ok t) :
    ∀ m ∈ t.descendants, m.kind ≠ .variableName →
      m.referencing Scope.empty =
          (m.variablesUnder fun k => !k.introduces).map Variable.ofTree ∧
        (m.referencing Scope.empty =
            (m.variablesUnder fun k => !k.introduces && !k.isPatternSite).map Variable.ofTree ↔
          m.variablesUnder NodeKind.isPatternSite = []) := by
  intro m hm hk
  have hvariable : m.is .variableName = false := beq_eq_false_iff_ne.mpr hk
  have hreferences := Tree.Parsed.referencing_empty ⟨source, t, h, hm⟩
  rw [hvariable, if_neg Bool.false_ne_true, List.nil_append] at hreferences
  refine ⟨hreferences, ?_⟩
  rw [hreferences]
  have hlength := m.length_variablesUnder
  constructor
  · intro heq
    have := congrArg List.length heq
    rw [List.length_map, List.length_map] at this
    exact List.length_eq_zero_iff.mp (by omega)
  · intro hnone
    rw [hnone, List.length_nil, Nat.zero_add] at hlength
    have hsublist := m.variablesUnder_sublist (p := fun k => !k.introduces && !k.isPatternSite)
      (q := fun k => !k.introduces) fun k hk => (Bool.and_eq_true_iff.mp hk).1
    rw [hsublist.eq_of_length hlength.symm]

/-- The name that a pattern binds is read in the clause of the pattern. -/
theorem referencing_empty_eq_of_match :
    ∃ t m, parse "MATCH (n) RETURN n" = .ok t ∧ m ∈ t.descendants ∧ m.kind = .matchClause ∧
      m.referencing Scope.empty = [⟨"n", ⟨1, 7⟩⟩] ∧
        m.referencing Scope.empty =
          (m.variablesUnder fun k => !k.introduces).map Variable.ofTree := by
  obtain ⟨t, ht, hfind⟩ : ∃ t, parse "MATCH (n) RETURN n" = .ok t ∧
      (t.find? .matchClause).map (fun m => (m.kind, m.referencing Scope.empty)) =
        some (.matchClause, [⟨"n", ⟨1, 7⟩⟩]) :=
    exists_parse_eq_ok (by decide +kernel)
  obtain ⟨m, hm, hnode⟩ := Option.map_eq_some_iff.mp hfind
  obtain ⟨hkind, hreferences⟩ := Prod.mk.inj hnode
  have hmem := List.mem_of_find?_eq_some hm
  have hvariable : m.kind ≠ .variableName := by rw [hkind]; decide
  exact ⟨t, m, ht, hmem, hkind, hreferences, (referencing_empty_eq ht m hmem hvariable).1⟩

/-- So references and bindings are not kept apart. -/
theorem pattern_name_referenced :
    ¬∀ source t, parse source = .ok t → ∀ m ∈ t.descendants, m.kind ≠ .variableName →
      m.referencing Scope.empty =
        (m.variablesUnder fun k => !k.introduces && !k.isPatternSite).map Variable.ofTree := by
  intro h
  obtain ⟨t, ht, hfind⟩ : ∃ t, parse "MATCH (n) RETURN n" = .ok t ∧
      (t.find? .matchClause).map (fun m => (m.kind, m.referencing Scope.empty,
        (m.variablesUnder fun k => !k.introduces && !k.isPatternSite).map Variable.ofTree)) =
          some (.matchClause, [⟨"n", ⟨1, 7⟩⟩], []) :=
    exists_parse_eq_ok (by decide +kernel)
  obtain ⟨m, hm, hnode⟩ := Option.map_eq_some_iff.mp hfind
  obtain ⟨hkind, hrest⟩ := Prod.mk.inj hnode
  obtain ⟨hreferences, hdocumented⟩ := Prod.mk.inj hrest
  have hvariable : m.kind ≠ .variableName := by rw [hkind]; decide
  have heq := h _ t ht m (List.mem_of_find?_eq_some hm) hvariable
  rw [hreferences, hdocumented] at heq
  exact List.cons_ne_nil _ _ heq

end BindCheck

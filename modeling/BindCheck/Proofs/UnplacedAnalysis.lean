import BindCheck.Analysis
import BindCheck.Proofs.Unplaced

/-!
# BindCheck.Proofs.UnplacedAnalysis

**What is found does not depend on places.** The analysis of a tree at the start of the
text is that of the tree itself, at the start of the text (`Tree.analyze_unplaced`): the
same names in the same order, or the same construct that is not analyzed.

One lemma for each function of the resolver says that it commutes with `unplaced`, from
scopes and walks up to queries. What carries them is that names alone are compared.
-/

namespace BindCheck

/-! ### Findings without places -/

/-- A variable at the start of the text. -/
def Variable.unplaced (v : Variable) : Variable := { v with position := .start }

/-- A finding at the start of the text. -/
def Diagnostic.unplaced (d : Diagnostic) : Diagnostic := { d with position := .start }

/-- A construct that is not analyzed, at the start of the text. -/
def Unsupported.unplaced (u : Unsupported) : Unsupported := { u with position := .start }

/-- The result of an analysis, at the start of the text. -/
def Analysis.unplacedResult : Except Unsupported Analysis → Except Unsupported Analysis
  | .ok a => .ok ⟨a.diagnostics.map Diagnostic.unplaced⟩
  | .error u => .error u.unplaced

theorem Variable.map_name_unplaced (vs : List Variable) :
    (vs.map unplaced).map name = vs.map name := by
  rw [List.map_map]
  rfl

theorem Variable.ofTree_unplaced (t : Tree) :
    Variable.ofTree t.unplaced = (Variable.ofTree t).unplaced := by
  cases t; rfl

/-! ### Scopes -/

namespace Scope

/-- A scope with all bindings at the start of the text. -/
def unplaced (s : Scope) : Scope where
  bindings := s.bindings.map Variable.unplaced
  nodup := by rw [Variable.map_name_unplaced]; exact s.nodup

theorem ext_bindings {s s' : Scope} (h : s.bindings = s'.bindings) : s = s' := by
  cases s; cases s'
  cases h
  rfl

@[simp] theorem binds_unplaced (s : Scope) (x : String) : s.unplaced.binds x = s.binds x := by
  simp only [binds, unplaced, List.any_map]
  rfl

theorem insert_unplaced (s : Scope) (v : Variable) :
    s.unplaced.insert v.unplaced = (s.insert v).unplaced := by
  have hbinds : s.unplaced.binds v.unplaced.name = s.binds v.name := s.binds_unplaced v.name
  apply ext_bindings
  by_cases h : s.binds v.name = true
  · rw [insert, insert, dif_pos h, dif_pos (hbinds.trans h)]
  · rw [insert, insert, dif_neg h, dif_neg (by rwa [hbinds])]
    show s.bindings.map _ ++ [v].map _ = (s.bindings ++ [v]).map _
    rw [List.map_append]

theorem add_unplaced (s : Scope) (vs : List Variable) :
    s.unplaced.add (vs.map Variable.unplaced) = (s.add vs).unplaced := by
  induction vs generalizing s with
  | nil => rfl
  | cons v vs ih =>
      show (s.unplaced.insert v.unplaced).add (vs.map Variable.unplaced) = _
      rw [insert_unplaced, ih]
      rfl

theorem check_unplaced (s : Scope) (vs : List Variable) :
    s.unplaced.check (vs.map Variable.unplaced) = (s.check vs).map Diagnostic.unplaced := by
  have hfilter : s.unplaced.unbound (vs.map Variable.unplaced) =
      (s.unbound vs).map Variable.unplaced := by
    simp only [unbound, List.filter_map, Function.comp_def, binds_unplaced]
    rfl
  rw [check, check, hfilter, List.map_map, List.map_map]
  rfl

end Scope

/-! ### Trees -/

namespace Tree

@[simp] theorem is_unplaced (t : Tree) (k : NodeKind) : t.unplaced.is k = t.is k := by
  simp only [is, unplaced_kind]

theorem child?_unplaced (t : Tree) (k : NodeKind) :
    t.unplaced.child? k = (t.child? k).map unplaced := by
  rw [child?, unplaced_children, List.find?_map, child?]
  simp only [Function.comp_def, is_unplaced]

mutual

theorem size_unplaced : ∀ t : Tree, t.unplaced.size = t.size
  | ⟨k, x, p, cs⟩ => by rw [unplaced, size, size, sizeAll_unplaced cs]

theorem sizeAll_unplaced : ∀ cs : List Tree, sizeAll (unplacedAll cs) = sizeAll cs
  | [] => rfl
  | c :: cs => by rw [unplacedAll, sizeAll, sizeAll, size_unplaced c, sizeAll_unplaced cs]

end

/-- A walk visits the same nodes if it goes on at the same nodes. -/
theorem walk_unplaced {descend : Tree → Bool} (h : ∀ t, descend t.unplaced = descend t)
    (t : Tree) : t.unplaced.walk descend = (t.walk descend).map unplaced := by
  have hpending : ∀ (fuel : Nat) (ts : List Tree),
      walkPending descend fuel (ts.map unplaced) = (walkPending descend fuel ts).map unplaced := by
    intro fuel
    induction fuel with
    | zero => intro ts; rfl
    | succ fuel ih =>
        intro ts
        cases ts with
        | nil => rfl
        | cons t ts =>
            rw [List.map_cons, walkPending, walkPending, List.map_cons, h, ← ih]
            congr 2
            by_cases hd : descend t = true <;> simp [hd]
  rw [walk, walk, size_unplaced]
  exact hpending t.size [t]

theorem isBindingSite_unplaced (t : Tree) : t.unplaced.isBindingSite = t.isBindingSite := by
  simp only [isBindingSite, unplaced_kind]

theorem boundName?_unplaced (t : Tree) :
    t.unplaced.boundName? = t.boundName?.map Variable.unplaced := by
  have hchild : ∀ k, (t.unplaced.child? k).map Variable.ofTree =
      ((t.child? k).map Variable.ofTree).map Variable.unplaced := by
    intro k
    rw [child?_unplaced, Option.map_map, Option.map_map]
    congr 1
    funext c
    exact Variable.ofTree_unplaced c
  cases hk : t.kind
  case projectionItem =>
    simp only [boundName?, unplaced_kind, hk, child?_unplaced]
    cases t.child? .variableName <;> cases t.child? .expression <;>
      simp [Variable.ofTree_unplaced]
  case unwindClause | yieldItem | nodePattern | relationshipDetail =>
    simp only [boundName?, unplaced_kind, hk, hchild]
  case variableName =>
    simp only [boundName?, unplaced_kind, hk, Variable.ofTree_unplaced, Option.map_some]
  all_goals simp only [boundName?, unplaced_kind, hk, Option.map_none]

theorem defining_unplaced (t : Tree) :
    t.unplaced.defining = t.defining.map Variable.unplaced := by
  have hwalk : t.unplaced.walk (fun n => !n.isBindingSite) =
      (t.walk fun n => !n.isBindingSite).map unplaced :=
    walk_unplaced (fun t => by rw [isBindingSite_unplaced]) t
  rw [defining, hwalk, List.filterMap_map, defining, List.map_filterMap]
  congr 1
  funext n
  exact boundName?_unplaced n

theorem isReference_unplaced (s : Scope) (t : Tree) :
    isReference s.unplaced t.unplaced = isReference s t := by
  simp only [isReference, is_unplaced, unplaced_kind, unplaced_text, Scope.binds_unplaced]

mutual

theorem referencing_unplaced (s : Scope) : ∀ t : Tree,
    t.unplaced.referencing s.unplaced = (t.referencing s).map Variable.unplaced
  | ⟨k, x, p, cs⟩ => by
      have href : isReference s.unplaced ⟨k, x, .start, unplacedAll cs⟩ =
          isReference s ⟨k, x, p, cs⟩ := isReference_unplaced s ⟨k, x, p, cs⟩
      rw [unplaced]
      cases k
      case projectionItem | unwindClause =>
        simp only [referencing]
        exact referencingExpression_unplaced s cs
      case yieldItem => rfl
      all_goals
        simp only [referencing, href]
        split
        · rfl
        · exact referencingAll_unplaced s cs

theorem referencingExpression_unplaced (s : Scope) : ∀ cs : List Tree,
    referencingExpression s.unplaced (unplacedAll cs) =
      (referencingExpression s cs).map Variable.unplaced
  | [] => rfl
  | c :: cs => by
      simp only [unplacedAll, referencingExpression, is_unplaced]
      split
      · exact referencing_unplaced s c
      · exact referencingExpression_unplaced s cs

theorem referencingAll_unplaced (s : Scope) : ∀ cs : List Tree,
    referencingAll s.unplaced (unplacedAll cs) = (referencingAll s cs).map Variable.unplaced
  | [] => rfl
  | c :: cs => by
      rw [unplacedAll, referencingAll, referencingAll, List.map_append,
        referencing_unplaced s c, referencingAll_unplaced s cs]

end

theorem referencingChild_unplaced (t : Tree) (s : Scope) (k : NodeKind) :
    t.unplaced.referencingChild s.unplaced k =
      (t.referencingChild s k).map Variable.unplaced := by
  rw [referencingChild, referencingChild, child?_unplaced]
  cases t.child? k with
  | none => rfl
  | some c => exact referencing_unplaced s c

end Tree

/-! ### Clauses and queries -/

/-- A state with its scope and its findings at the start of the text. -/
def State.unplaced (s : State) : State :=
  ⟨s.scope.unplaced, s.diagnostics.map Diagnostic.unplaced⟩

/-- A state and a count, with the state at the start of the text. -/
def State.unplacedResult (r : State × Nat) : State × Nat := (r.1.unplaced, r.2)

theorem State.bind_unplaced (s : State) (vs : List Variable) :
    s.unplaced.bind (vs.map Variable.unplaced) = (s.bind vs).unplaced := by
  simp only [bind, unplaced, Scope.add_unplaced]

theorem State.lookUp_unplaced (s : State) (scope : Scope) (vs : List Variable) :
    s.unplaced.lookUp scope.unplaced (vs.map Variable.unplaced) =
      unplacedResult (s.lookUp scope vs) := by
  simp only [lookUp, unplaced, unplacedResult, Scope.check_unplaced, List.length_map,
    List.map_append]

theorem State.check_unplaced (s : State) (vs : List Variable) :
    s.unplaced.check (vs.map Variable.unplaced) = unplacedResult (s.check vs) :=
  s.lookUp_unplaced s.scope vs

namespace Tree

theorem lookUpModifiers_unplaced (visible : Scope) (ms : List Tree) (s : State) :
    lookUpModifiers visible.unplaced (ms.map unplaced) s.unplaced =
      State.unplacedResult (lookUpModifiers visible ms s) := by
  induction ms generalizing s with
  | nil => rfl
  | cons m ms ih =>
      have hlook := s.lookUp_unplaced visible (m.referencing visible)
      rw [← referencing_unplaced] at hlook
      simp only [List.map_cons, lookUpModifiers, hlook, State.unplacedResult, ih]

theorem columns_unplaced (items : Option Tree) :
    ((items.map unplaced).map defining).getD [] =
      ((items.map defining).getD []).map Variable.unplaced := by
  cases items with
  | none => rfl
  | some items => exact items.defining_unplaced

theorem resolveProjectionBody_unplaced (body : Tree) (s : State) :
    body.unplaced.resolveProjectionBody s.unplaced =
      State.unplacedResult (body.resolveProjectionBody s) := by
  have hmodifiers : body.unplaced.children.filter isModifier =
      (body.children.filter isModifier).map unplaced := by
    rw [unplaced_children, List.filter_map]
    have hmodifier : ∀ t : Tree, t.unplaced.isModifier = t.isModifier := by
      intro t
      simp only [isModifier, is_unplaced]
    simp only [Function.comp_def, hmodifier]
  have hinputs : body.unplaced.projectionInputs s.unplaced.scope =
      (body.projectionInputs s.scope).map Variable.unplaced :=
    body.referencingChild_unplaced s.scope .projectionItems
  have hkept : ∀ items : Option Tree,
      (if ((items.map unplaced).map projectsAll).getD false then s.unplaced.scope else Scope.empty) =
        (if (items.map projectsAll).getD false then s.scope else Scope.empty).unplaced := by
    intro items
    have hall : ((items.map unplaced).map projectsAll).getD false =
        (items.map projectsAll).getD false := by
      cases items with
      | none => rfl
      | some items => simp [projectsAll]
    rw [hall]
    split <;> rfl
  simp only [resolveProjectionBody, child?_unplaced, columns_unplaced, hmodifiers, hinputs, hkept,
    State.check_unplaced]
  rw [show s.unplaced.scope = s.scope.unplaced from rfl, Scope.add_unplaced]
  simp only [State.unplacedResult, lookUpModifiers_unplaced, Scope.add_unplaced]
  rfl

theorem resolveProjection_unplaced (t : Tree) (s : State) :
    t.unplaced.resolveProjection s.unplaced = State.unplacedResult (t.resolveProjection s) := by
  rw [resolveProjection, resolveProjection, child?_unplaced]
  cases t.child? .projectionBody with
  | none => rfl
  | some body => exact resolveProjectionBody_unplaced body s

/-- Checking what a child of a kind reads. -/
theorem check_referencingChild_unplaced (t : Tree) (s : State) (k : NodeKind) :
    s.unplaced.check (t.unplaced.referencingChild s.unplaced.scope k) =
      State.unplacedResult (s.check (t.referencingChild s.scope k)) := by
  rw [← State.check_unplaced, ← referencingChild_unplaced]
  rfl

theorem resolveCall_unplaced (t : Tree) (s : State) :
    t.unplaced.resolveCall s.unplaced = State.unplacedResult (t.resolveCall s) := by
  simp only [resolveCall, check_referencingChild_unplaced, child?_unplaced]
  cases t.child? .yieldItems with
  | none => rfl
  | some items =>
      simp only [Option.map_some, State.unplacedResult, defining_unplaced, State.bind_unplaced]

theorem resolveSimple_unplaced (t : Tree) (s : State) :
    t.unplaced.resolveSimple s.unplaced = State.unplacedResult (t.resolveSimple s) := by
  unfold resolveSimple
  rw [unplaced_kind]
  cases t.kind
  case matchClause | createClause =>
    simp only [defining_unplaced, State.bind_unplaced, State.unplacedResult]
  case unwindClause =>
    simp only [check_referencingChild_unplaced, State.unplacedResult, defining_unplaced,
      State.bind_unplaced]
  case inQueryCall => exact resolveCall_unplaced t s
  case setClause | deleteClause | removeClause =>
    show s.unplaced.check (t.unplaced.referencing s.scope.unplaced) = _
    rw [referencing_unplaced, State.check_unplaced]
  case withClause | returnClause => exact resolveProjection_unplaced t s
  all_goals rfl

mutual

theorem resolveClause_unplaced : ∀ (t : Tree) (s : State),
    t.unplaced.resolveClause s.unplaced = State.unplacedResult (t.resolveClause s)
  | ⟨k, x, p, cs⟩, s => by
      have hsimple := resolveSimple_unplaced ⟨k, x, p, cs⟩ s
      rw [unplaced] at hsimple ⊢
      cases k
      case readingClause | updatingClause => exact resolveFirst_unplaced cs s
      case singlePartQuery | multiPartQuery => exact resolveClauses_unplaced cs s
      all_goals exact hsimple

theorem resolveFirst_unplaced : ∀ (cs : List Tree) (s : State),
    resolveFirst (unplacedAll cs) s.unplaced = State.unplacedResult (resolveFirst cs s)
  | [], _ => rfl
  | c :: _, s => resolveClause_unplaced c s

theorem resolveClauses_unplaced : ∀ (cs : List Tree) (s : State),
    resolveClauses (unplacedAll cs) s.unplaced = State.unplacedResult (resolveClauses cs s)
  | [], _ => rfl
  | c :: cs, s => by
      have hall := resolveClauses_unplaced cs (c.resolveClause s).1
      simp only [unplacedAll, resolveClauses, resolveClause_unplaced c s, State.unplacedResult,
        hall]

end

theorem resolveTop_unplaced (t : Tree) (s : State) :
    t.unplaced.resolveTop s.unplaced = State.unplacedResult (t.resolveTop s) := by
  rw [resolveTop, resolveTop, is_unplaced]
  split
  · exact check_referencingChild_unplaced t s .procedureInvocation
  · rw [resolveQuery, resolveQuery, unplaced_children, ← unplacedAll_eq_map]
    exact resolveClauses_unplaced t.children s

/-! ### Whole trees -/

/-- The answer to what the top of a tree is, at the start of the text. -/
def unplacedTop : Except Unsupported Tree → Except Unsupported Tree
  | .ok t => .ok t.unplaced
  | .error u => .error u.unplaced

mutual

theorem top_unplaced : ∀ t : Tree, t.unplaced.top = unplacedTop t.top
  | ⟨k, x, p, cs⟩ => by
      rw [unplaced]
      cases k
      case cypher | statement | query | regularQuery | singleQuery =>
        exact topOfFirst_unplaced p cs
      case singlePartQuery | multiPartQuery | standaloneCall => rfl
      all_goals rfl

theorem topOfFirst_unplaced (p : Position) : ∀ cs : List Tree,
    topOfFirst .start (unplacedAll cs) = unplacedTop (topOfFirst p cs)
  | [] => rfl
  | c :: _ => top_unplaced c

end

theorem find?_unplaced (t : Tree) (k : NodeKind) :
    t.unplaced.find? k = (t.find? k).map unplaced := by
  rw [find?, find?, descendants, descendants, walk_unplaced (fun _ => rfl), List.find?_map]
  simp only [Function.comp_def, is_unplaced]

theorem unsupported?_unplaced (t : Tree) :
    t.unplaced.unsupported? = t.unsupported?.map Unsupported.unplaced := by
  simp only [unsupported?, find?_unplaced]
  induction unsupportedKinds with
  | nil => rfl
  | cons row rows ih =>
      rw [List.findSome?_cons, List.findSome?_cons]
      cases t.find? row.1 with
      | none => simpa using ih
      | some n => simp [Unsupported.unplaced]

/-- **The analysis does not depend on places.** -/
theorem analyze_unplaced (t : Tree) :
    t.unplaced.analyze = Analysis.unplacedResult t.analyze := by
  rw [analyze, analyze, unsupported?_unplaced]
  cases t.unsupported? with
  | some u => rfl
  | none =>
      rw [top_unplaced]
      cases t.top with
      | error u => rfl
      | ok t =>
          have hinitial : State.initial.unplaced = State.initial := rfl
          have htop := resolveTop_unplaced t State.initial
          rw [hinitial] at htop
          simp only [Option.map_none, unplacedTop, htop]
          rfl

end Tree

end BindCheck

import BindCheck.Proofs.Correspondence

/-!
# BindCheck.Proofs.AlikeAnalysis

**The analysis compares texts and looks at nothing else about them**, save for a leading `*`.
Two trees are alike if they have the same shape and kinds and their texts correspond one to
one (`Matching`, `Tree.Alike`). Then whatever the resolver does with the one tree it does with
the other: the same construct is not analyzed, or there are as many findings, each at the node
that corresponds (`Tree.Alike.analyze`).

One lemma for each function of the resolver says that alike arguments give alike results, from
scopes up to queries; walks, bound names and refusals are those of corresponding trees. What
carries them is that a name is bound in a scope just if the corresponding name is bound in an
alike scope (`Scope.Alike.binds`).
-/

namespace BindCheck

/-! ### Matchings -/

/-- How the texts and nodes of two trees correspond. Texts correspond one to one, as far as
they occur. -/
structure Matching where
  text : String → String → Prop
  /-- Which nodes of a kind correspond; a node is given by its text and place. -/
  node : NodeKind → Variable → Variable → Prop
  oneToOne : ∀ {x x' y y' : String}, text x x' → text y y' → (x = y ↔ x' = y')
  star : ∀ {x x' : String}, text x x' →
    (x.toList.head? = some '*' ↔ x'.toList.head? = some '*')

/-- Trees of the same shape whose nodes correspond. -/
inductive Tree.Alike (M : Matching) : Tree → Tree → Prop where
  | node {k : NodeKind} {x x' : String} {p p' : Position} {cs cs' : List Tree}
      (text : M.text x x') (node : M.node k ⟨x, p⟩ ⟨x', p'⟩)
      (children : List.Forall₂ (Tree.Alike M) cs cs') : Tree.Alike M ⟨k, x, p, cs⟩ ⟨k, x', p', cs'⟩

namespace Matching

variable (M : Matching)

/-- Variables whose names correspond. -/
def Names (v v' : Variable) : Prop := M.text v.name v'.name

/-- References: variables that correspond, or names that are bound. -/
def References (s : Scope) (v v' : Variable) : Prop :=
  M.Names v v' ∧ (s.binds v.name = true ∨ M.node .variableName v v')

/-- Findings of one kind about variables that correspond. -/
def Findings (d d' : Diagnostic) : Prop :=
  d.kind = d'.kind ∧ M.node .variableName ⟨d.name, d.position⟩ ⟨d'.name, d'.position⟩

/-- One construct at nodes that correspond. -/
def Refusals (u u' : Unsupported) : Prop :=
  u.construct = u'.construct ∧ ∃ k x x', M.node k ⟨x, u.position⟩ ⟨x', u'.position⟩

/-- Results of two analyses that correspond. -/
def Results : Except Unsupported Analysis → Except Unsupported Analysis → Prop
  | .ok a, .ok a' => List.Forall₂ M.Findings a.diagnostics a'.diagnostics
  | .error u, .error u' => M.Refusals u u'
  | _, _ => False

end Matching

variable {M : Matching}

/-! ### Scopes -/

/-- Scopes that bind corresponding names in the same order. -/
def Scope.Alike (M : Matching) (s s' : Scope) : Prop :=
  List.Forall₂ M.Names s.bindings s'.bindings

namespace Scope.Alike

variable {s s' : Scope} {vs vs' : List Variable}

theorem empty : Alike M Scope.empty Scope.empty := .nil

/-- **Corresponding names are bound together.** -/
theorem binds (h : Alike M s s') {x x' : String} (hx : M.text x x') : s.binds x = s'.binds x' := by
  have hany : ∀ {vs vs' : List Variable}, List.Forall₂ M.Names vs vs' →
      vs.any (·.name == x) = vs'.any (·.name == x') := by
    intro vs vs' hvs
    induction hvs with
    | nil => rfl
    | cons hv _ ih =>
        rw [List.any_cons, List.any_cons, ih, Bool.beq_eq_decide_eq, Bool.beq_eq_decide_eq]
        simp only [M.oneToOne hv hx]
  exact hany h

theorem insert (h : Alike M s s') {v v' : Variable} (hv : M.Names v v') :
    Alike M (s.insert v) (s'.insert v') := by
  have hbinds := h.binds hv
  by_cases hb : s.binds v.name = true
  · rw [Scope.insert, dif_pos hb, Scope.insert, dif_pos (hbinds ▸ hb)]
    exact h
  · rw [Scope.insert, dif_neg hb, Scope.insert, dif_neg (hbinds ▸ hb)]
    exact List.rel_append h (.cons hv .nil)

theorem add (h : Alike M s s') (hvs : List.Forall₂ M.Names vs vs') :
    Alike M (s.add vs) (s'.add vs') := by
  induction hvs generalizing s s' with
  | nil => exact h
  | cons hv _ ih => exact ih (h.insert hv)

/-- What is not bound are variables, which correspond. -/
theorem unbound (h : Alike M s s') (hvs : List.Forall₂ (M.References s) vs vs') :
    List.Forall₂ (M.node .variableName) (s.unbound vs) (s'.unbound vs') := by
  induction hvs with
  | nil => exact .nil
  | @cons v v' vs vs' hv _ ih =>
      have hbinds := h.binds hv.1
      rw [Scope.unbound, Scope.unbound, List.filter_cons, List.filter_cons, ← hbinds]
      cases hb : s.binds v.name with
      | true => exact ih
      | false => exact .cons (hv.2.resolve_left (by rw [hb]; exact Bool.false_ne_true)) ih

theorem check (h : Alike M s s') (hvs : List.Forall₂ (M.References s) vs vs') :
    List.Forall₂ M.Findings (s.check vs) (s'.check vs') :=
  List.rel_map (fun _ _ hv => ⟨rfl, hv⟩) (h.unbound hvs)

end Scope.Alike

/-! ### Alike trees -/

namespace Tree.Alike

variable {t t' : Tree}

theorem kind (h : Alike M t t') : t.kind = t'.kind := by
  cases h; rfl

theorem texts (h : Alike M t t') : M.text t.text t'.text := by
  cases h; assumption

theorem nodes (h : Alike M t t') : M.node t.kind (Variable.ofTree t) (Variable.ofTree t') := by
  cases h; assumption

theorem names (h : Alike M t t') : M.Names (Variable.ofTree t) (Variable.ofTree t') := h.texts

theorem children (h : Alike M t t') : List.Forall₂ (Alike M) t.children t'.children := by
  cases h; assumption

/-- Alike trees correspond. -/
theorem correspondence (M : Matching) : Correspondence (Alike M) :=
  ⟨kind, fun h => M.star h.texts, children⟩

theorem is (h : Alike M t t') (k : NodeKind) : t.is k = t'.is k := (correspondence M).is h k

theorem child? (h : Alike M t t') (k : NodeKind) :
    Option.Rel (Alike M) (t.child? k) (t'.child? k) :=
  (correspondence M).child? h k

/-! ### Occurrences -/

theorem defining (h : Alike M t t') : List.Forall₂ M.Names t.defining t'.defining := by
  refine ((correspondence M).defining h).imp ?_
  rintro ⟨_, p⟩ ⟨_, p'⟩ ⟨n, n', ⟨hn, -⟩, rfl, rfl⟩
  exact hn.texts

theorem isReference (h : Alike M t t') {s s' : Scope} (hs : Scope.Alike M s s') :
    Tree.isReference s t = Tree.isReference s' t' := by
  rw [Tree.isReference, Tree.isReference, h.is, h.kind, hs.binds h.texts]

/-- What is read as a whole is a variable, or its text is bound. -/
theorem reference (h : Alike M t t') {s : Scope} (href : Tree.isReference s t = true) :
    M.References s (Variable.ofTree t) (Variable.ofTree t') := by
  refine ⟨h.names, ?_⟩
  rw [Tree.isReference, Bool.or_eq_true, Bool.and_eq_true] at href
  rcases href with hvariable | ⟨-, hbound⟩
  · have hnode := h.nodes
    rw [eq_of_beq hvariable] at hnode
    exact .inr hnode
  · exact .inl hbound

mutual

/-- Corresponding references are found in alike trees. -/
theorem referencing {s s' : Scope} (hs : Scope.Alike M s s') : ∀ {t t' : Tree}, Alike M t t' →
    List.Forall₂ (M.References s) (t.referencing s) (t'.referencing s')
  | ⟨k, x, p, cs⟩, ⟨k', x', p', cs'⟩, h => by
      have href := h.isReference hs
      have hself := h.reference (s := s)
      obtain rfl : k = k' := h.kind
      have hall := referencingAll hs h.children
      cases k
      case projectionItem | unwindClause => exact referencingExpression hs h.children
      case yieldItem => exact .nil
      all_goals
        simp only [Tree.referencing, ← href]
        split
        · next hyes => exact .cons (hself hyes) .nil
        · exact hall

theorem referencingExpression {s s' : Scope} (hs : Scope.Alike M s s') :
    ∀ {cs cs' : List Tree}, List.Forall₂ (Alike M) cs cs' →
      List.Forall₂ (M.References s) (Tree.referencingExpression s cs)
        (Tree.referencingExpression s' cs')
  | [], _, .nil => .nil
  | c :: cs, _, .cons h hcs => by
      rw [Tree.referencingExpression, Tree.referencingExpression, ← h.is]
      split
      · exact referencing hs h
      · exact referencingExpression hs hcs

theorem referencingAll {s s' : Scope} (hs : Scope.Alike M s s') :
    ∀ {cs cs' : List Tree}, List.Forall₂ (Alike M) cs cs' →
      List.Forall₂ (M.References s) (Tree.referencingAll s cs) (Tree.referencingAll s' cs')
  | [], _, .nil => .nil
  | _ :: _, _, .cons h hcs => List.rel_append (referencing hs h) (referencingAll hs hcs)

end

theorem referencingChild (h : Alike M t t') {s s' : Scope} (hs : Scope.Alike M s s')
    (k : NodeKind) :
    List.Forall₂ (M.References s) (t.referencingChild s k) (t'.referencingChild s' k) := by
  unfold Tree.referencingChild
  exact (h.child? k).casesOn (fun hchild => referencing hs hchild) .nil

end Tree.Alike

/-! ### Clauses -/

/-- States with alike scopes and corresponding findings. -/
structure State.Alike (M : Matching) (s s' : State) : Prop where
  scope : Scope.Alike M s.scope s'.scope
  diagnostics : List.Forall₂ M.Findings s.diagnostics s'.diagnostics

namespace State.Alike

variable {s s' : State} {vs vs' : List Variable}

theorem initial : Alike M State.initial State.initial := ⟨.empty, .nil⟩

theorem bind (h : Alike M s s') (hvs : List.Forall₂ M.Names vs vs') :
    Alike M (s.bind vs) (s'.bind vs') :=
  ⟨h.scope.add hvs, h.diagnostics⟩

theorem lookUp (h : Alike M s s') {scope scope' : Scope} (hscope : Scope.Alike M scope scope')
    (hvs : List.Forall₂ (M.References scope) vs vs') :
    Alike M (s.lookUp scope vs).1 (s'.lookUp scope' vs').1 :=
  ⟨h.scope, List.rel_append h.diagnostics (hscope.check hvs)⟩

theorem check (h : Alike M s s') (hvs : List.Forall₂ (M.References s.scope) vs vs') :
    Alike M (s.check vs).1 (s'.check vs').1 :=
  h.lookUp h.scope hvs

end State.Alike

namespace Tree.Alike

variable {t t' : Tree} {s s' : State}

theorem lookUpModifiers {visible visible' : Scope} (hv : Scope.Alike M visible visible')
    {ms ms' : List Tree} (h : List.Forall₂ (Alike M) ms ms') (hs : State.Alike M s s') :
    State.Alike M (Tree.lookUpModifiers visible ms s).1
      (Tree.lookUpModifiers visible' ms' s').1 := by
  induction h generalizing s s' with
  | nil => exact hs
  | cons hm _ ih => exact ih (hs.lookUp hv (referencing hv hm))

theorem columns {o o' : Option Tree} (h : Option.Rel (Alike M) o o') :
    List.Forall₂ M.Names ((o.map Tree.defining).getD []) ((o'.map Tree.defining).getD []) := by
  cases h with
  | none => exact .nil
  | some h => exact h.defining

theorem projectsAll {o o' : Option Tree} (h : Option.Rel (Alike M) o o') :
    (o.map Tree.projectsAll).getD false = (o'.map Tree.projectsAll).getD false := by
  cases h with
  | none => rfl
  | some h =>
      simp only [Option.map_some, Option.getD_some, Tree.projectsAll, h.is, Bool.beq_eq_decide_eq,
        M.star h.texts]

theorem resolveProjectionBody (h : Alike M t t') (hs : State.Alike M s s') :
    State.Alike M (t.resolveProjectionBody s).1 (t'.resolveProjectionBody s').1 := by
  have hitems := h.child? .projectionItems
  have hmodifiers : List.Forall₂ (Alike M) (t.children.filter isModifier)
      (t'.children.filter isModifier) :=
    List.rel_filter (fun _ _ ht => by simp only [isModifier, ht.is]) h.children
  have hchecked := hs.check (h.referencingChild hs.scope .projectionItems)
  have hlooked := lookUpModifiers (hs.scope.add (columns hitems)) hmodifiers hchecked
  refine ⟨?_, hlooked.diagnostics⟩
  show Scope.Alike M (Scope.add (if _ then _ else _) _) (Scope.add (if _ then _ else _) _)
  rw [← projectsAll hitems]
  refine Scope.Alike.add ?_ (columns hitems)
  split
  · exact hs.scope
  · exact .empty

theorem resolveProjection (h : Alike M t t') (hs : State.Alike M s s') :
    State.Alike M (t.resolveProjection s).1 (t'.resolveProjection s').1 := by
  unfold Tree.resolveProjection
  exact (h.child? .projectionBody).casesOn (fun hbody => resolveProjectionBody hbody hs) hs

theorem resolveCall (h : Alike M t t') (hs : State.Alike M s s') :
    State.Alike M (t.resolveCall s).1 (t'.resolveCall s').1 := by
  have hchecked := hs.check (h.referencingChild hs.scope .procedureInvocation)
  unfold Tree.resolveCall
  exact (h.child? .yieldItems).casesOn (fun hyield => hchecked.bind hyield.defining) hchecked

theorem resolveSimple (h : Alike M t t') (hs : State.Alike M s s') :
    State.Alike M (t.resolveSimple s).1 (t'.resolveSimple s').1 := by
  unfold Tree.resolveSimple
  rw [← h.kind]
  cases t.kind
  case matchClause | createClause => exact hs.bind h.defining
  case unwindClause =>
    exact (hs.check (h.referencingChild hs.scope .expression)).bind h.defining
  case inQueryCall => exact h.resolveCall hs
  case setClause | deleteClause | removeClause => exact hs.check (referencing hs.scope h)
  case withClause | returnClause => exact h.resolveProjection hs
  all_goals exact hs

/-! ### Queries -/

mutual

theorem resolveClause : ∀ {t t' : Tree} {s s' : State}, Alike M t t' → State.Alike M s s' →
    State.Alike M (t.resolveClause s).1 (t'.resolveClause s').1
  | ⟨k, x, p, cs⟩, ⟨k', x', p', cs'⟩, s, s', h, hs => by
      have hsimple := h.resolveSimple hs
      obtain rfl : k = k' := h.kind
      have hfirst := resolveFirst h.children hs
      have hall := resolveClauses h.children hs
      cases k
      case readingClause | updatingClause => exact hfirst
      case singlePartQuery | multiPartQuery => exact hall
      all_goals exact hsimple

theorem resolveFirst : ∀ {cs cs' : List Tree} {s s' : State}, List.Forall₂ (Alike M) cs cs' →
    State.Alike M s s' → State.Alike M (Tree.resolveFirst cs s).1 (Tree.resolveFirst cs' s').1
  | [], _, _, _, .nil, hs => hs
  | _ :: _, _, _, _, .cons h _, hs => resolveClause h hs

theorem resolveClauses : ∀ {cs cs' : List Tree} {s s' : State}, List.Forall₂ (Alike M) cs cs' →
    State.Alike M s s' → State.Alike M (Tree.resolveClauses cs s).1 (Tree.resolveClauses cs' s').1
  | [], _, _, _, .nil, hs => hs
  | _ :: _, _, _, _, .cons h hcs, hs => (resolveClauses hcs (resolveClause h hs) :)

end

theorem resolveTop (h : Alike M t t') (hs : State.Alike M s s') :
    State.Alike M (t.resolveTop s).1 (t'.resolveTop s').1 := by
  unfold Tree.resolveTop
  rw [← h.is]
  split
  · exact hs.check (h.referencingChild hs.scope .procedureInvocation)
  · exact resolveClauses h.children hs

/-! ### Whole trees -/

theorem refusals {u u' : Unsupported} (h : RefusalsOf (Alike M) u u') : M.Refusals u u' := by
  obtain ⟨construct, p⟩ := u
  obtain ⟨construct', p'⟩ := u'
  obtain ⟨hconstruct, n, n', hn, rfl, rfl⟩ := h
  exact ⟨hconstruct, _, _, _, hn.nodes⟩

/-- **Alike trees are analyzed alike.** -/
theorem analyze (h : Alike M t t') : M.Results t.analyze t'.analyze := by
  have hunsupported := (correspondence M).unsupported? h
  have htop := (correspondence M).top h
  unfold Tree.analyze
  cases hu : t.unsupported? <;> cases hu' : t'.unsupported? <;> rw [hu, hu'] at hunsupported <;>
    cases hunsupported
  · cases ht : t.top <;> cases ht' : t'.top <;> rw [ht, ht'] at htop
    · exact refusals htop
    · exact htop.elim
    · exact htop.elim
    · exact (resolveTop htop .initial).diagnostics
  · next hrefused => exact refusals hrefused

end Tree.Alike

end BindCheck

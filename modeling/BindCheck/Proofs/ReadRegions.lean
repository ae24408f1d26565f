import BindCheck.Proofs.Schema
import BindCheck.Proofs.Sequencing

/-!
# BindCheck.Proofs.ReadRegions

**The findings of an analysis are the unresolved variables, and nothing else.** Where names
are read is said here without any walk: each clause has regions, each with the names that are
bound there (`Tree.regions`), and a variable in a region is unresolved if its name is not
bound and no expression around it, up to the root of the region, is a bound column
(`Spot.Unresolved`).

The resolver finds the same list in the same order:

* in one region, by induction on the tree (`Tree.check_referencing`): where it stops at a
  bound column, nothing below is unresolved;
* in one clause, by cases of the clause (`Tree.found_eq`);
* in a run of clauses, by induction on the clauses, with the scope in closed form
  (`Tree.diagnostics_foldl_after`).
-/

namespace BindCheck

/-! ### Nodes and what stands above them -/

/-- A node, and the nodes above it up to some root, the nearest first. -/
structure Spot where
  node : Tree
  above : List Tree

namespace Tree

mutual

/-- The nodes of a tree that stands below some nodes, in the order of the text. -/
def spotsBelow (above : List Tree) : Tree → List Spot
  | ⟨k, x, p, cs⟩ => ⟨⟨k, x, p, cs⟩, above⟩ :: spotsBelowAll (⟨k, x, p, cs⟩ :: above) cs

/-- The nodes of several trees that stand below some nodes. -/
def spotsBelowAll (above : List Tree) : List Tree → List Spot
  | [] => []
  | c :: cs => c.spotsBelow above ++ spotsBelowAll above cs

end

/-- The nodes of a tree, each with those above it. -/
def spots (t : Tree) : List Spot := t.spotsBelow []

end Tree

/-- That a node is a variable that reads no bound name: its own is not bound, and no
expression above it is a bound column. -/
def Spot.Unresolved (names : List String) (s : Spot) : Prop :=
  s.node.kind = .variableName ∧ s.node.text ∉ names ∧
    ∀ n ∈ s.above, n.kind.isExpression = true → n.text ∉ names

instance (names : List String) (s : Spot) : Decidable (s.Unresolved names) :=
  inferInstanceAs (Decidable (_ ∧ _ ∧ _))

/-! ### Where names are read -/

/-- A part of a query that is read as a whole, and the names that are bound there. -/
structure Region where
  root : Tree
  names : List String

/-- The unresolved variables of a region. -/
def Region.unresolved (r : Region) : List Tree :=
  (r.root.spots.filter fun s => decide (s.Unresolved r.names)).map Spot.node

namespace Tree

/-- The expressions of the columns of a projection. -/
def columnExpressions (body : Tree) : List Tree :=
  match body.child? .projectionItems with
  | some items => (items.childrenOf .projectionItem).filterMap (·.child? .expression)
  | none => []

/-- The regions of a projection: its columns see the names before it, its modifiers also the
new columns. -/
def projectionRegions (names : List String) (body : Tree) : List Region :=
  body.columnExpressions.map (Region.mk · names) ++
    (body.children.filter isModifier).map
      (Region.mk · (names ++ body.columns.map Variable.name))

/-- The regions of a clause, given the names that are bound before it. -/
def regions (names : List String) (c : Tree) : List Region :=
  match c.kind with
  | .unwindClause => (c.child? .expression).toList.map (Region.mk · names)
  | .inQueryCall => (c.child? .procedureInvocation).toList.map (Region.mk · names)
  | .setClause | .deleteClause | .removeClause => [⟨c, names⟩]
  | .withClause | .returnClause =>
    match c.child? .projectionBody with
    | some body => body.projectionRegions names
    | none => []
  | _ => []

/-- The names that are bound behind some clauses. -/
def namesAfter (cs : List Tree) : List String := (leaves [] cs).map Variable.name

/-- The regions of clauses in a row that stand behind others. -/
def regionsAll (before : List Tree) : List Tree → List Region
  | [] => []
  | c :: cs => c.regions (namesAfter before) ++ regionsAll (before ++ [c]) cs

/-- The regions of what stands at the top: nothing is bound before a call that is a query of
its own. -/
def topRegions (q : Tree) : List Region :=
  if q.is .standaloneCall then (q.child? .procedureInvocation).toList.map (Region.mk · [])
  else regionsAll [] (stepsAll q.children)

/-- The unresolved variables of a query. -/
def unresolved (t : Tree) : List Tree :=
  match t.top with
  | .ok q => q.topRegions.flatMap Region.unresolved
  | .error _ => []

/-- The finding about a variable that is not bound. -/
def undefined (v : Tree) : Diagnostic := ⟨.undefinedVariable, v.text, v.position⟩

end Tree

/-! ### One region -/

/-- The findings about some spots. -/
def Spot.findings (names : List String) (ss : List Spot) : List Diagnostic :=
  (ss.filter fun s => decide (s.Unresolved names)).map fun s => s.node.undefined

namespace Spot

variable {names : List String}

theorem findings_append (ss ss' : List Spot) :
    findings names (ss ++ ss') = findings names ss ++ findings names ss' := by
  rw [findings, List.filter_append, List.map_append]
  rfl

theorem findings_cons_of_unresolved {s : Spot} {ss : List Spot} (h : s.Unresolved names) :
    findings names (s :: ss) = s.node.undefined :: findings names ss := by
  rw [findings, List.filter_cons_of_pos (by simpa using h)]
  rfl

theorem findings_cons_of_resolved {s : Spot} {ss : List Spot} (h : ¬s.Unresolved names) :
    findings names (s :: ss) = findings names ss := by
  rw [findings, List.filter_cons_of_neg (by simpa using h)]
  rfl

theorem findings_of_resolved {ss : List Spot} (h : ∀ s ∈ ss, ¬s.Unresolved names) :
    findings names ss = [] := by
  rw [findings, List.filter_eq_nil_iff.mpr (by simpa using h), List.map_nil]

end Spot

namespace Tree

mutual

theorem above_subset_of_mem_spotsBelow {s : Spot} : ∀ (t : Tree) {above : List Tree},
    s ∈ t.spotsBelow above → above ⊆ s.above
  | ⟨k, x, p, cs⟩, above, h => by
      rw [spotsBelow] at h
      rcases List.mem_cons.mp h with rfl | h
      · exact List.Subset.refl _
      · exact List.subset_of_cons_subset (above_subset_of_mem_spotsBelowAll cs h)

theorem above_subset_of_mem_spotsBelowAll {s : Spot} : ∀ (cs : List Tree) {above : List Tree},
    s ∈ spotsBelowAll above cs → above ⊆ s.above
  | [], _, h => absurd h List.not_mem_nil
  | c :: cs, _, h => by
      rw [spotsBelowAll] at h
      rcases List.mem_append.mp h with h | h
      · exact above_subset_of_mem_spotsBelow c h
      · exact above_subset_of_mem_spotsBelowAll cs h

end

/-- Below a bound column nothing is unresolved. -/
theorem findings_below_column {names : List String} {t : Tree} {above : List Tree}
    (hk : t.kind.isExpression = true) (hx : t.text ∈ names) (cs : List Tree) :
    Spot.findings names (spotsBelowAll (t :: above) cs) = [] := by
  apply Spot.findings_of_resolved
  intro s hs hunresolved
  have ht : t ∈ s.above := above_subset_of_mem_spotsBelowAll cs hs List.mem_cons_self
  exact hunresolved.2.2 t ht hk hx

/-- That a node introduces no name, and is a leaf if it is a variable. -/
def Plain (t : Tree) : Prop :=
  t.kind.introduces = false ∧ (t.kind = .variableName → t.children = [])

theorem referencing_of_plain {t : Tree} (h : t.Plain) (scope : Scope) :
    t.referencing scope =
      if t.isReference scope then [⟨t.text, t.position⟩] else referencingAll scope t.children := by
  obtain ⟨k, x, p, cs⟩ := t
  cases k
  case projectionItem | unwindClause | yieldItem => exact Bool.noConfusion h.1
  all_goals rfl

section

variable {scope : Scope} {names : List String}

mutual

/-- **What the resolver finds in a region are the unresolved variables.** It stops at a bound
column, below which there are none; anywhere else a variable is unresolved if its own name is
not bound, since no node above is a bound column. -/
theorem check_referencing (hnames : ∀ x, scope.binds x = true ↔ x ∈ names) :
    ∀ (t : Tree) {above : List Tree},
      (∀ n ∈ above, n.kind.isExpression = true → n.text ∉ names) →
        (∀ n ∈ t.preorder (fun _ => true), n.Plain) →
          scope.check (t.referencing scope) = Spot.findings names (t.spotsBelow above)
  | ⟨k, x, p, cs⟩, above, habove, hplain => by
      rw [preorder, if_pos rfl] at hplain
      have hroot : (Tree.mk k x p cs).Plain := hplain _ List.mem_cons_self
      rw [referencing_of_plain hroot, spotsBelow]
      by_cases hvariable : k = .variableName
      case pos =>
        -- a variable is a leaf, so the list below it is empty
        subst hvariable
        obtain rfl := hroot.2 rfl
        have href : isReference scope ⟨.variableName, x, p, []⟩ = true := rfl
        rw [if_pos href, spotsBelowAll]
        by_cases hx : x ∈ names
        · rw [Scope.check_of_binds ((hnames x).mpr hx),
            Spot.findings_cons_of_resolved fun h => h.2.1 hx]
          rfl
        · rw [Scope.check_of_not_binds (mt (hnames x).mp hx),
            Spot.findings_cons_of_unresolved ⟨rfl, hx, habove⟩]
          rfl
      case neg =>
        rw [Spot.findings_cons_of_resolved fun h => hvariable h.1]
        by_cases hcolumn : k.isExpression = true ∧ scope.binds x = true
        · -- one reference, to a bound name
          have href : isReference scope ⟨k, x, p, cs⟩ = true := by
            simp [isReference, hcolumn]
          rw [if_pos href, Scope.check_of_binds hcolumn.2,
            findings_below_column hcolumn.1 ((hnames x).mp hcolumn.2)]
        · -- the walk goes on, and this node is one more above that is no bound column
          have href : ¬isReference scope ⟨k, x, p, cs⟩ = true := by
            simpa [isReference, is, hvariable] using hcolumn
          rw [if_neg href]
          refine check_referencingAll hnames cs ?_ fun n hn => hplain n (List.mem_cons_of_mem _ hn)
          intro n hn hk hx
          rcases List.mem_cons.mp hn with rfl | hn
          · exact hcolumn ⟨hk, (hnames _).mpr hx⟩
          · exact habove n hn hk hx

theorem check_referencingAll (hnames : ∀ x, scope.binds x = true ↔ x ∈ names) :
    ∀ (cs : List Tree) {above : List Tree},
      (∀ n ∈ above, n.kind.isExpression = true → n.text ∉ names) →
        (∀ n ∈ preorderAll (fun _ => true) cs, n.Plain) →
          scope.check (referencingAll scope cs) = Spot.findings names (spotsBelowAll above cs)
  | [], _, _, _ => rfl
  | c :: cs, _, habove, hplain => by
      rw [preorderAll] at hplain
      rw [referencingAll, Scope.check_append, spotsBelowAll, Spot.findings_append,
        check_referencing hnames c habove fun n hn => hplain n (List.mem_append_left _ hn),
        check_referencingAll hnames cs habove fun n hn => hplain n (List.mem_append_right _ hn)]

end

end

/-- A node that is read as a whole introduces no name, and neither does any node below it. -/
theorem Parsed.plain {t : Tree} (h : t.Parsed) (hread : t.kind.isRead = true) :
    ∀ n ∈ t.preorder (fun _ => true), n.Plain := by
  rw [← walk_eq_preorder]
  exact fun n hn =>
    ⟨h.not_introduces hread n hn, (h.of_mem_descendants hn).children_of_variable⟩

end Tree

/-- The findings about a region. -/
def Region.findings (r : Region) : List Diagnostic := r.unresolved.map Tree.undefined

theorem Region.findings_eq (r : Region) : r.findings = Spot.findings r.names r.root.spots :=
  List.map_map

/-! ### One clause -/

namespace Tree

section

variable {scope : Scope} {names : List String}

theorem check_region (hnames : ∀ x, scope.binds x = true ↔ x ∈ names) {t : Tree} (h : t.Parsed)
    (hread : t.kind.isRead = true) :
    scope.check (t.referencing scope) = (Region.mk t names).findings := by
  rw [Region.findings_eq]
  exact check_referencing hnames t (fun _ hn => absurd hn List.not_mem_nil) (h.plain hread)

theorem check_referencingChild (hnames : ∀ x, scope.binds x = true ↔ x ∈ names) {t : Tree}
    (h : t.Parsed) {k : NodeKind} (hread : k.isRead = true) :
    scope.check (t.referencingChild scope k) =
      ((t.child? k).toList.map (Region.mk · names)).flatMap Region.findings := by
  unfold referencingChild
  cases hc : t.child? k with
  | none => rfl
  | some c =>
      have hk : c.kind = k := eq_of_beq (is_of_child? hc)
      simpa using check_region hnames (h.of_child? hc) (hk ▸ hread)

theorem referencingExpression_eq (cs : List Tree) :
    referencingExpression scope cs =
      match cs.find? (·.is .expression) with
      | some e => e.referencing scope
      | none => [] := by
  induction cs with
  | nil => rfl
  | cons c cs ih =>
      by_cases hc : c.is .expression = true
      · simp only [referencingExpression, List.find?_cons, hc, if_true]
      · simp only [referencingExpression, List.find?_cons, hc, Bool.false_eq_true, if_false, ih]

theorem referencing_projectionItem {t : Tree} (hk : t.kind = .projectionItem) :
    t.referencing scope = t.referencingChild scope .expression := by
  obtain ⟨k, x, p, cs⟩ := t
  obtain rfl : k = .projectionItem := hk
  rw [referencing, referencingExpression_eq]
  rfl

theorem check_referencing_columns (hnames : ∀ x, scope.binds x = true ↔ x ∈ names)
    {cs : List Tree} (h : ∀ c ∈ cs, c.Parsed) (hk : ∀ c ∈ cs, c.kind = .projectionItem) :
    scope.check (referencingAll scope cs) =
      ((cs.filterMap (·.child? .expression)).map (Region.mk · names)).flatMap Region.findings := by
  induction cs with
  | nil => rfl
  | cons c cs ih =>
      have hcs := ih (fun c hc => h c (List.mem_cons_of_mem _ hc))
        (fun c hc => hk c (List.mem_cons_of_mem _ hc))
      have hc := check_referencingChild hnames (h c List.mem_cons_self) (k := .expression) rfl
      rw [referencingAll, Scope.check_append, hcs, referencing_projectionItem (hk c
        List.mem_cons_self), hc]
      cases he : c.child? .expression <;> simp [he]

/-- The resolver looks at the expressions of the columns. -/
theorem check_projectionInputs (hnames : ∀ x, scope.binds x = true ↔ x ∈ names) {body : Tree}
    (h : body.Parsed) :
    scope.check (body.projectionInputs scope) =
      (body.columnExpressions.map (Region.mk · names)).flatMap Region.findings := by
  unfold projectionInputs referencingChild columnExpressions
  cases hi : body.child? .projectionItems with
  | none => rfl
  | some items =>
      have hitems : items.Parsed := h.of_child? hi
      have hk : items.kind = .projectionItems := eq_of_beq (is_of_child? hi)
      have hcolumns := hitems.kind_of_columns hk
      have hplain : items.Plain := by simp [Plain, hk, NodeKind.introduces]
      have href : ¬items.isReference scope = true := by
        simp [isReference, is, hk, NodeKind.isExpression]
      have hall : items.childrenOf .projectionItem = items.children :=
        List.filter_eq_self.mpr fun c hc => by simp [is, hcolumns c hc]
      simp only [referencing_of_plain hplain, if_neg href, hall]
      exact check_referencing_columns hnames (fun c hc => hitems.of_mem_children hc) hcolumns

end

theorem isRead_of_isModifier {t : Tree} (h : t.isModifier = true) : t.kind.isRead = true := by
  simp only [isModifier, is, Bool.or_eq_true, beq_iff_eq] at h
  rcases h with (h | h) | h <;> rw [h] <;> rfl

section

variable {scope : Scope} {names : List String}

theorem foundInBody_eq (hnames : ∀ x, scope.binds x = true ↔ x ∈ names) {body : Tree}
    (h : body.Parsed) :
    body.foundInBody scope = (body.projectionRegions names).flatMap Region.findings := by
  have hvisible : ∀ x, (scope.add body.columns).binds x = true ↔
      x ∈ names ++ body.columns.map Variable.name := by
    intro x
    rw [Scope.binds_add, hnames, List.mem_append]
  have hmodifiers :
      ((body.children.filter isModifier).flatMap fun m =>
        (scope.add body.columns).check (m.referencing (scope.add body.columns))) =
      ((body.children.filter isModifier).map
        (Region.mk · (names ++ body.columns.map Variable.name))).flatMap Region.findings := by
    rw [List.flatMap_map]
    apply List.flatMap_congr
    intro m hm
    obtain ⟨hm, hmodifier⟩ := List.mem_filter.mp hm
    exact check_region hvisible (h.of_mem_children hm) (isRead_of_isModifier hmodifier)
  rw [foundInBody, check_projectionInputs hnames h, hmodifiers, projectionRegions,
    List.flatMap_append]

/-- **What one clause adds to the findings.** -/
theorem found_eq (hnames : ∀ x, scope.binds x = true ↔ x ∈ names) {c : Tree} (h : c.Parsed) :
    c.found scope = (c.regions names).flatMap Region.findings := by
  unfold found
  split
  case h_1 hk | h_2 hk =>
    simp only [regions, hk]
    exact check_referencingChild hnames h rfl
  case h_3 hk | h_4 hk | h_5 hk =>
    simp only [regions, hk, List.flatMap_singleton]
    exact check_region hnames h (by rw [hk]; rfl)
  case h_6 hk | h_7 hk =>
    simp only [regions, hk]
    cases hbody : c.child? .projectionBody with
    | none => rfl
    | some body => exact foundInBody_eq hnames (h.of_child? hbody)
  case h_8 =>
    have hnone : c.regions names = [] := by unfold regions; split <;> simp_all
    rw [hnone]
    rfl

end

/-! ### A run of clauses -/

/-- The names that are bound behind some clauses, as the closed form of the scope says. -/
theorem binds_foldl_after (before : List Tree) (x : String) :
    (before.foldl after State.initial).scope.binds x = true ↔ x ∈ namesAfter before := by
  rw [Scope.binds_iff, Scope.names, bindings_foldl_resolveSimple, mem_names_firstPerName]
  rfl

/-- **What a run of clauses adds to the findings.** Before each clause the scope has the names
that the clauses before it leave, as its closed form says. -/
theorem diagnostics_foldl_after (cs before : List Tree) (h : ∀ c ∈ cs, c.Parsed) :
    ((before ++ cs).foldl after State.initial).diagnostics =
      (before.foldl after State.initial).diagnostics ++
        (regionsAll before cs).flatMap Region.findings := by
  induction cs generalizing before with
  | nil => simp [regionsAll]
  | cons c cs ih =>
      have hstep := (adds_resolveSimple c (before.foldl after State.initial)).1
      rw [found_eq (binds_foldl_after before) (h c List.mem_cons_self)] at hstep
      have hrest := ih (before ++ [c]) fun c hc => h c (List.mem_cons_of_mem _ hc)
      have hlast : (before ++ [c]).foldl after State.initial =
          after (before.foldl after State.initial) c := List.foldl_append
      rw [List.append_assoc, List.singleton_append, hlast] at hrest
      rw [hrest, after, hstep, regionsAll, List.flatMap_append, List.append_assoc]

/-- What the resolver finds at the top of a parsed query. -/
theorem diagnostics_resolveTop {q : Tree} (h : q.Parsed)
    (hsteps : ∀ c ∈ stepsAll q.children, c.Parsed) :
    (q.resolveTop State.initial).1.diagnostics = q.topRegions.flatMap Region.findings := by
  unfold resolveTop topRegions
  by_cases hcall : q.is .standaloneCall = true
  · rw [if_pos hcall, if_pos hcall]
    have hnames : ∀ x, Scope.empty.binds x = true ↔ x ∈ ([] : List String) := by
      intro x
      rw [Scope.binds_iff]
      rfl
    show [] ++ Scope.empty.check (q.referencingChild Scope.empty .procedureInvocation) = _
    exact check_referencingChild hnames h rfl
  · rw [if_neg hcall, if_neg hcall, resolveQuery, resolveClauses_eq_foldl]
    show ((stepsAll q.children).foldl after State.initial).diagnostics = _
    exact diagnostics_foldl_after _ [] hsteps

/-! ### The order of the text -/

mutual

theorem map_node_spotsBelow : ∀ (t : Tree) (above : List Tree),
    (t.spotsBelow above).map Spot.node = t.preorder fun _ => true
  | ⟨k, x, p, cs⟩, above => by
      rw [spotsBelow, List.map_cons, map_node_spotsBelowAll cs, preorder, if_pos rfl]

theorem map_node_spotsBelowAll : ∀ (cs above : List Tree),
    (spotsBelowAll above cs).map Spot.node = preorderAll (fun _ => true) cs
  | [], _ => rfl
  | c :: cs, above => by
      rw [spotsBelowAll, List.map_append, map_node_spotsBelow c, map_node_spotsBelowAll cs,
        preorderAll]

end

/-- The spots of a tree are its nodes in the order of the text. -/
theorem map_node_spots (t : Tree) : t.spots.map Spot.node = t.descendants := by
  rw [spots, map_node_spotsBelow, descendants, walk_eq_preorder]

end Tree

/-- The nodes of a region. -/
def Region.nodes (r : Region) : List Tree := r.root.descendants

theorem Region.unresolved_sublist (r : Region) : r.unresolved.Sublist r.nodes := by
  rw [unresolved, nodes, ← r.root.map_node_spots]
  exact List.filter_sublist.map Spot.node

namespace Tree

theorem flatMap_nodes_map_mk (ts : List Tree) (names : List String) :
    (ts.map (Region.mk · names)).flatMap Region.nodes = ts.flatMap descendants := by
  rw [List.flatMap_map]
  rfl

theorem child?_toList_sublist (t : Tree) (k : NodeKind) :
    (t.child? k).toList.Sublist t.children := by
  cases hc : t.child? k with
  | none => exact List.nil_sublist _
  | some c => exact List.singleton_sublist.mpr (List.mem_of_find?_eq_some hc)

theorem flatMap_child?_sublist (ts : List Tree) (k : NodeKind) :
    ((ts.filterMap (·.child? k)).flatMap descendants).Sublist (ts.flatMap descendants) := by
  rw [List.filterMap_eq_flatMap_toList, List.flatMap_assoc]
  exact List.Sublist.flatMap_right ts fun t _ =>
    flatMap_descendants_sublist (t.child?_toList_sublist k)

/-- The regions of a projection stand in the order of the text, since its columns stand before
its modifiers. -/
theorem projectionRegions_sublist {body : Tree} (h : body.Parsed) (hk : body.kind = .projectionBody)
    (names : List String) :
    ((body.projectionRegions names).flatMap Region.nodes).Sublist body.descendants := by
  obtain ⟨items, ms, hchildren, hitems, hms⟩ := h.projectionBody hk
  have hfirst : body.child? .projectionItems = some items := by
    simp [child?, hchildren, is, hitems]
  have hrest : body.children.filter isModifier = ms := by
    have hnot : ¬items.isModifier = true := by simp [isModifier, is, hitems]
    rw [hchildren, List.filter_cons_of_neg hnot, List.filter_eq_self.mpr hms]
  have hcolumns : (body.columnExpressions.flatMap descendants).Sublist items.descendants := by
    simp only [columnExpressions, hfirst]
    exact (flatMap_child?_sublist _ _).trans (flatMap_descendants_sublist List.filter_sublist)
  rw [projectionRegions, List.flatMap_append, flatMap_nodes_map_mk, flatMap_nodes_map_mk, hrest,
    body.descendants_eq, preorderAll_eq_flatMap, hchildren, List.flatMap_cons]
  exact (hcolumns.append (List.Sublist.refl _)).trans (List.sublist_cons_self _ _)

/-- The regions of a clause stand in the order of the text, apart from each other. -/
theorem regions_sublist {c : Tree} (h : c.Parsed) (names : List String) :
    ((c.regions names).flatMap Region.nodes).Sublist c.descendants := by
  have hchild (k : NodeKind) :
      (((c.child? k).toList.map (Region.mk · names)).flatMap Region.nodes).Sublist
        c.descendants := by
    rw [flatMap_nodes_map_mk]
    exact flatMap_descendants_sublist (c.child?_toList_sublist k)
  unfold regions
  split
  case h_1 => exact hchild .expression
  case h_2 => exact hchild .procedureInvocation
  case h_3 | h_4 | h_5 =>
    rw [List.flatMap_singleton]
    exact List.Sublist.refl _
  case h_6 | h_7 =>
    cases hbody : c.child? .projectionBody with
    | none => exact List.nil_sublist _
    | some body =>
        have hk : body.kind = .projectionBody := eq_of_beq (is_of_child? hbody)
        have hmem : body ∈ c.children := List.mem_of_find?_eq_some hbody
        exact (projectionRegions_sublist (h.of_child? hbody) hk names).trans
          (descendants_sublist (mem_descendants_of_mem_children hmem))
  case h_8 => exact List.nil_sublist _

theorem regionsAll_sublist (cs before : List Tree) (h : ∀ c ∈ cs, c.Parsed) :
    ((regionsAll before cs).flatMap Region.nodes).Sublist (cs.flatMap descendants) := by
  induction cs generalizing before with
  | nil => exact List.nil_sublist _
  | cons c cs ih =>
      rw [regionsAll, List.flatMap_append, List.flatMap_cons]
      exact (regions_sublist (h c List.mem_cons_self) _).append
        (ih _ fun c hc => h c (List.mem_cons_of_mem _ hc))

mutual

/-- The clauses of a query stand in the order of the text. -/
theorem steps_sublist : ∀ t : Tree, (t.steps.flatMap descendants).Sublist t.descendants
  | ⟨k, x, p, cs⟩ => by
      have hall : ∀ ts : List Tree, (ts.flatMap descendants).Sublist (cs.flatMap descendants) →
          (ts.flatMap descendants).Sublist (Tree.mk k x p cs).descendants :=
        fun ts hts => hts.trans (flatMap_descendants_sublist (List.Sublist.refl cs))
      unfold steps
      split
      case h_1 | h_2 => exact hall _ (stepsFirst_sublist cs)
      case h_3 | h_4 => exact hall _ (stepsAll_sublist cs)
      case h_5 => rw [List.flatMap_singleton]

theorem stepsFirst_sublist : ∀ cs : List Tree,
    ((stepsFirst cs).flatMap descendants).Sublist (cs.flatMap descendants)
  | [] => List.Sublist.refl _
  | c :: _ => (steps_sublist c).trans (List.sublist_append_left _ _)

theorem stepsAll_sublist : ∀ cs : List Tree,
    ((stepsAll cs).flatMap descendants).Sublist (cs.flatMap descendants)
  | [] => List.Sublist.refl _
  | c :: cs => by
      rw [stepsAll, List.flatMap_append, List.flatMap_cons]
      exact (steps_sublist c).append (stepsAll_sublist cs)

end

mutual

theorem mem_descendants_of_top : ∀ {t q : Tree}, t.top = .ok q → q ∈ t.descendants
  | ⟨k, x, p, cs⟩, q, h => by
      unfold top at h
      split at h
      case h_1 | h_2 | h_3 | h_4 | h_5 =>
        rw [descendants_eq, preorderAll_eq_flatMap]
        exact List.mem_cons_of_mem _ (mem_descendants_of_topOfFirst h)
      case h_6 | h_7 | h_8 =>
        obtain rfl := Except.ok.inj h
        exact mem_descendants_self _
      case h_9 => cases h

theorem mem_descendants_of_topOfFirst : ∀ {p : Position} {cs : List Tree} {q : Tree},
    topOfFirst p cs = .ok q → q ∈ cs.flatMap descendants
  | _, [], _, h => by cases h
  | _, _ :: _, _, h => List.mem_append_left _ (mem_descendants_of_top h)

end

theorem mem_descendants_of_mem_steps {q c : Tree} (hc : c ∈ stepsAll q.children) :
    c ∈ q.descendants := by
  have hmem : c ∈ (stepsAll q.children).flatMap descendants :=
    List.mem_flatMap.mpr ⟨c, hc, c.mem_descendants_self⟩
  have hsub := (stepsAll_sublist q.children).trans
    (flatMap_descendants_sublist (List.Sublist.refl q.children))
  exact hsub.subset hmem

theorem Parsed.of_mem_steps {q c : Tree} (h : q.Parsed) (hc : c ∈ stepsAll q.children) :
    c.Parsed :=
  h.of_mem_descendants (mem_descendants_of_mem_steps hc)

theorem topRegions_sublist {q : Tree} (h : q.Parsed) :
    (q.topRegions.flatMap Region.nodes).Sublist q.descendants := by
  unfold topRegions
  split
  · rw [flatMap_nodes_map_mk]
    exact flatMap_descendants_sublist (q.child?_toList_sublist _)
  · exact (regionsAll_sublist _ _ fun c hc => h.of_mem_steps hc).trans
      ((stepsAll_sublist _).trans (flatMap_descendants_sublist (List.Sublist.refl _)))

end Tree

/-! ### The whole analysis -/

namespace Tree

theorem kind_of_mem_unresolved {t v : Tree} (h : v ∈ t.unresolved) : v.kind = .variableName := by
  unfold unresolved at h
  cases htop : t.top with
  | error u =>
      rw [htop] at h
      exact absurd h List.not_mem_nil
  | ok q =>
      rw [htop] at h
      obtain ⟨r, -, hv⟩ := List.mem_flatMap.mp h
      obtain ⟨s, hs, rfl⟩ := List.mem_map.mp hv
      exact (of_decide_eq_true (List.mem_filter.mp hs).2).1

variable {source : String} {t : Tree}

/-- The unresolved variables stand in the order of the text. -/
theorem unresolved_sublist (h : parse source = .ok t) : t.unresolved.Sublist t.descendants := by
  obtain ⟨q, htop⟩ := top_of_parse h
  have hq : q ∈ t.descendants := mem_descendants_of_top htop
  have hparsed : q.Parsed := ⟨source, t, h, hq⟩
  have hregions : (q.topRegions.flatMap Region.unresolved).Sublist
      (q.topRegions.flatMap Region.nodes) :=
    List.Sublist.flatMap_right _ fun r _ => r.unresolved_sublist
  simp only [unresolved, htop]
  exact (hregions.trans (topRegions_sublist hparsed)).trans (descendants_sublist hq)

/-- What is found in a supported query are the unresolved variables. -/
theorem analyze_of_supported (h : parse source = .ok t) (hsupported : t.unsupported? = none) :
    t.analyze = .ok ⟨t.unresolved.map undefined⟩ := by
  obtain ⟨q, htop⟩ := top_of_parse h
  have hparsed : q.Parsed := ⟨source, t, h, mem_descendants_of_top htop⟩
  have hfindings : t.unresolved.map undefined = q.topRegions.flatMap Region.findings := by
    simp only [unresolved, htop, List.map_flatMap]
    rfl
  rw [analyze, hsupported, htop, hfindings,
    ← diagnostics_resolveTop hparsed fun c hc => hparsed.of_mem_steps hc]

end Tree

/-- **The findings of an analysis are exactly the unresolved variables of the query**: one for
each of them, in the order of the text. A supported query always has an analysis. -/
theorem analyze_eq_unresolved {source : String} {t : Tree} (h : parse source = .ok t)
    (hsupported : t.unsupported? = none) :
    t.analyze = .ok ⟨t.unresolved.map Tree.undefined⟩ ∧
      t.unresolved.Sublist t.descendants :=
  ⟨Tree.analyze_of_supported h hsupported, Tree.unresolved_sublist h⟩

/-- A bound column hides the variables in it where it is whole, and only there. -/
theorem analyze_eq_unresolved_of_columns :
    ∃ t, parse "UNWIND [a] AS x WITH count(x), y RETURN count(x), x ORDER BY y + count(x)" = .ok t ∧
      t.analyze = .ok ⟨[⟨.undefinedVariable, "a", ⟨1, 8⟩⟩, ⟨.undefinedVariable, "y", ⟨1, 31⟩⟩,
        ⟨.undefinedVariable, "x", ⟨1, 50⟩⟩]⟩ := by
  obtain ⟨t, ht, hfindings⟩ : ∃ t,
      parse "UNWIND [a] AS x WITH count(x), y RETURN count(x), x ORDER BY y + count(x)" = .ok t ∧
        (t.unsupported?, t.unresolved.map Tree.undefined) =
          (none, [⟨.undefinedVariable, "a", ⟨1, 8⟩⟩, ⟨.undefinedVariable, "y", ⟨1, 31⟩⟩,
            ⟨.undefinedVariable, "x", ⟨1, 50⟩⟩]) :=
    exists_parse_eq_ok (by decide +kernel)
  obtain ⟨hsupported, hunresolved⟩ := Prod.mk.inj hfindings
  exact ⟨t, ht, hunresolved ▸ (analyze_eq_unresolved ht hsupported).1⟩

end BindCheck

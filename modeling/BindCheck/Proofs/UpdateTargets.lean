import BindCheck.Proofs.DocumentOrder
import BindCheck.Proofs.Occurrences
import BindCheck.Proofs.SupportGate

/-!
# BindCheck.Proofs.UpdateTargets

**A clean query updates only what it knows.** An item of a `SET` or a `REMOVE` begins with its
target: a variable, or a property of one (`Run.targeted_item`). The whole clause is read in the
scope before it, so in a clean query the variable is bound there, unless the property as a whole
is a column (`Tree.UpdatesBound`). **After `WITH n.x` the item `n.x = 1` reads the column `n.x`**,
and the name `n` need not be bound.

Items stand right below the clauses that the resolver goes through, and nowhere else
(`Tree.Parsed.exists_step_of_item`): the schema of trees says for each kind of node where items
may be below it.
-/

namespace BindCheck

open RegularExpression

namespace NodeKind

/-- Whether a node is an item of a clause that updates. -/
def isItem : NodeKind → Bool
  | .setItem | .removeItem => true
  | _ => false

/-- The kinds of the nodes that only wrap the top of a query. -/
def wrappers : List NodeKind := [.cypher, .statement, .query, .regularQuery, .singleQuery]

/-- The kinds of the nodes that stand above the items of updates, from the queries of the
resolver downwards. -/
def aboveItems : List NodeKind :=
  [.singlePartQuery, .multiPartQuery, .readingClause, .updatingClause, .setClause, .removeClause]

/-- Items stand right below the clauses that update. -/
theorem clause_of_item : ∀ k ∈ all, ∀ k' ∈ k.schema.letters, k'.isItem = true →
    k = .setClause ∨ k = .removeClause := by
  decide +kernel

/-- Nothing else stands there. -/
theorem isItem_of_clause : ∀ k ∈ all, ∀ k' ∈ k.schema.letters,
    k = .setClause ∨ k = .removeClause → k'.isItem = true := by
  decide +kernel

/-- What is written in an item holds none. -/
theorem letters_of_item : ∀ k ∈ all, ∀ k' ∈ k.schema.letters, k.isItem = true →
    k' ∈ ofOtherClauses := by
  decide +kernel

/-- Above the clauses that update there are queries and wrappers. What else stands below those
holds no items, but for a `MERGE`. -/
theorem letters_aboveItems : ∀ k ∈ aboveItems, ∀ k' ∈ k.schema.letters,
    k'.isItem = true ∨ k' ∈ aboveItems ∨ k' ∈ ofOtherClauses ∨ k' = .mergeClause := by
  decide +kernel

theorem isItem_eq_false : ∀ k ∈ aboveItems ++ ofOtherClauses, k.isItem = false := by
  decide

end NodeKind

/-! ### The target of an item -/

namespace Grammar

/-- Each form of an item is made at one site. -/
theorem item_site {site : Site} (h : site ∈ sites) :
    (.setItem ∈ site.rule.kinds → site.rule = setItem) ∧
      (.removeItem ∈ site.rule.kinds → site.rule = removeItem) := by
  revert site
  decide +kernel

end Grammar

/-- That some nodes begin with the target of an update: a variable, or a property of one. -/
def Cover.Targeted (cs : List Cover) : Prop :=
  ∃ c cs', cs = c :: cs' ∧ (c.kind = .variableName ∨
    c.kind = .propertyExpression ∧ ∃ v cs, c.children = v :: cs ∧ v.kind = .variableName)

namespace Run

variable {r s : Rule} {us vs : List Lexeme} {cs : List Cover}

theorem targeted_variable (h : Run Grammar.variableName us vs cs) : Cover.Targeted cs := by
  obtain ⟨cs', rfl, -⟩ := node_iff.mp h
  exact ⟨_, [], rfl, .inl rfl⟩

theorem targeted_property
    (h : Run (.node .propertyExpression (.seq Grammar.variableName r)) us vs cs) :
    Cover.Targeted cs := by
  obtain ⟨_, rfl, hrow⟩ := node_iff.mp h
  obtain ⟨_, _, _, cs', -, rfl, hvariable, -⟩ := seq_iff.mp hrow
  obtain ⟨_, rfl, -⟩ := node_iff.mp hvariable
  exact ⟨_, [], rfl, .inr ⟨rfl, _, cs', rfl, rfl⟩⟩

theorem targeted_seq (hfirst : ∀ {us vs cs}, Run r us vs cs → Cover.Targeted cs)
    (h : Run (.seq r s) us vs cs) : Cover.Targeted cs := by
  obtain ⟨_, _, _, cs₂, -, rfl, hrun, -⟩ := seq_iff.mp h
  obtain ⟨c, cs, rfl, hc⟩ := hfirst hrun
  exact ⟨c, cs ++ cs₂, rfl, hc⟩

/-- **An item begins with its target.** -/
theorem targeted_item {m : Cover} (hr : r = Grammar.setItem ∨ r = Grammar.removeItem)
    (h : Run r us vs [m]) : Cover.Targeted m.children := by
  rcases hr with rfl | rfl
  · obtain ⟨_, hm, hbody⟩ := node_iff.mp h
    obtain rfl := (List.cons.inj hm).1
    rcases branch_iff.mp hbody with ⟨-, hrow⟩ | ⟨-, hrow⟩
    · exact targeted_seq targeted_property hrow
    · exact targeted_seq targeted_variable hrow
  · obtain ⟨_, hm, hbody⟩ := node_iff.mp h
    obtain rfl := (List.cons.inj hm).1
    rcases branch_iff.mp hbody with ⟨-, hrow⟩ | ⟨-, hproperty⟩
    · exact targeted_seq targeted_variable hrow
    · exact targeted_property hproperty

end Run

namespace Tree

theorem find?_self {t : Tree} {k : NodeKind} (h : t.is k = true) : t.find? k = some t := by
  rw [find?, descendants_eq]
  exact List.find?_cons_of_pos h

/-- What is found first in the first child is found first in the whole. -/
theorem find?_of_firstChild? {t c v : Tree} {k : NodeKind} (h : t.is k = false)
    (hc : t.firstChild? = some c) (hv : c.find? k = some v) : t.find? k = some v := by
  obtain ⟨cs, hchildren⟩ := List.head?_eq_some_iff.mp hc
  rw [find?] at hv
  rw [find?, descendants_eq, List.find?_cons, h, preorderAll_eq_flatMap, hchildren,
    List.flatMap_cons, List.find?_append, hv]
  rfl

/-- **An item of a parsed query begins with its target.** -/
theorem Parsed.target {item : Tree} (h : item.Parsed) (hitem : item.kind.isItem = true) :
    ∃ c, item.firstChild? = some c ∧ (c.kind = .variableName ∨
      c.kind = .propertyExpression ∧ ∃ v, c.firstChild? = some v ∧ v.kind = .variableName) := by
  obtain ⟨m, rfl, site, hsite, vs, -, hmakes⟩ := h.exists_site
  have hrule : site.rule = Grammar.setItem ∨ site.rule = Grammar.removeItem := by
    have hkind := hmakes.kind_mem
    rw [m.tree_kind] at hitem
    generalize m.kind = k at hkind hitem
    cases k <;> first | exact Bool.noConfusion hitem | skip
    case setItem => exact .inl ((Grammar.item_site hsite).1 hkind)
    case removeItem => exact .inr ((Grammar.item_site hsite).2 hkind)
  obtain ⟨c, cs, hchildren, hc⟩ := hmakes.run.targeted_item hrule
  refine ⟨c.tree, by rw [firstChild?, m.tree_children, hchildren]; rfl, ?_⟩
  rw [c.tree_kind]
  refine hc.imp_right fun ⟨hk, v, cs', hv, hvariable⟩ => ⟨hk, v.tree, ?_, ?_⟩
  · rw [firstChild?, c.tree_children, hv]
    rfl
  · rw [v.tree_kind, hvariable]

/-! ### Where items stand -/

theorem stepsAll_eq_flatMap (cs : List Tree) : stepsAll cs = cs.flatMap steps := by
  induction cs with
  | nil => rfl
  | cons c cs ih => rw [stepsAll, ih, List.flatMap_cons]

namespace Parsed

variable {t : Tree}

/-- Where no items are left below, there are none. -/
theorem isItem_of_otherClauses (h : t.Parsed) (ht : t.kind ∈ NodeKind.ofOtherClauses) :
    ∀ n ∈ t.descendants, n.kind.isItem = false := fun n hn =>
  NodeKind.isItem_eq_false _ (List.mem_append_right _
    (h.kind_mem_of_closed NodeKind.closed_ofOtherClauses ht n hn))

/-- A wrapper or a query stands for the clauses that the nodes below it stand for. -/
theorem mem_steps_of_mem_children (h : t.Parsed) (ht : t.kind ∈ NodeKind.aboveItems) {d : Tree}
    (hd : d ∈ t.children) (hitem : d.kind.isItem = false) {c : Tree} (hc : c ∈ d.steps) :
    c ∈ t.steps := by
  have hkinds := h.kinds_mem_schema
  have hclause := NodeKind.isItem_of_clause _ (NodeKind.mem_all _) _ (h.kind_mem_letters hd)
  obtain ⟨k, x, p, cs⟩ := t
  have hall : c ∈ stepsAll cs := by
    rw [stepsAll_eq_flatMap]
    exact List.mem_flatMap.mpr ⟨d, hd, hc⟩
  -- a wrapper has one child
  have hfirst : ∀ {ks : List NodeKind}, cs.map kind ∈ (NodeKind.oneOf ks).matches' →
      c ∈ stepsFirst cs := by
    intro ks hone
    obtain ⟨d', rfl, -⟩ := eq_singleton_of_oneOf hone
    obtain rfl := List.mem_singleton.mp hd
    exact hc
  have hnot : ¬(k = .setClause ∨ k = .removeClause) := fun hk => by
    rw [hclause hk] at hitem
    exact Bool.noConfusion hitem
  simp only [NodeKind.aboveItems, List.mem_cons, List.not_mem_nil, or_false] at ht
  rcases ht with rfl | rfl | rfl | rfl | rfl | rfl
  · exact hall
  · exact hall
  · exact hfirst hkinds
  · exact hfirst hkinds
  · exact absurd (.inl rfl) hnot
  · exact absurd (.inr rfl) hnot

/-- **Items stand right below the clauses** that the resolver goes through. -/
theorem exists_step_of_item (h : t.Parsed) (ht : t.kind ∈ NodeKind.aboveItems)
    (hmerge : ∀ n ∈ t.descendants, n.kind ≠ .mergeClause) {item : Tree}
    (hitem : item ∈ t.descendants) (hk : item.kind.isItem = true) :
    ∃ c ∈ t.steps, item ∈ c.children := by
  induction t using Tree.induction with
  | node t ih =>
      have hroot : t.kind.isItem = false :=
        NodeKind.isItem_eq_false _ (List.mem_append_left _ ht)
      rcases mem_descendants_iff.mp hitem with rfl | ⟨d, hd, hbelow⟩
      · exact absurd hk (Bool.eq_false_iff.mp hroot)
      have hparsed := h.of_mem_children hd
      have hletter := h.kind_mem_letters hd
      rcases NodeKind.letters_aboveItems _ ht _ hletter with hd' | hd' | hd' | hd'
      · -- `d` is an item itself, and there is none below it
        have hself : item = d := by
          rcases mem_descendants_iff.mp hbelow with rfl | ⟨e, he, hbelow⟩
          · rfl
          · have hother := NodeKind.letters_of_item _ (NodeKind.mem_all _) _
              (hparsed.kind_mem_letters he) hd'
            have := (hparsed.of_mem_children he).isItem_of_otherClauses hother item hbelow
            exact absurd hk (Bool.eq_false_iff.mp this)
        refine ⟨t, ?_, hself ▸ hd⟩
        obtain ⟨k, x, p, cs⟩ := t
        rcases NodeKind.clause_of_item _ (NodeKind.mem_all _) _ hletter hd' with rfl | rfl <;>
          exact List.mem_singleton_self _
      · obtain ⟨c, hc, hmem⟩ := ih d hd hparsed hd'
          (fun n hn => hmerge n (mem_descendants_iff.mpr (.inr ⟨d, hd, hn⟩))) hbelow
        have hnot := NodeKind.isItem_eq_false _ (List.mem_append_left _ hd')
        exact ⟨c, h.mem_steps_of_mem_children ht hd hnot hc, hmem⟩
      · exact absurd hk (Bool.eq_false_iff.mp (hparsed.isItem_of_otherClauses hd' item hbelow))
      · exact absurd hd' (hmerge d (mem_descendants_of_mem_children hd))

/-- A wrapper has one child, but for a `UNION` behind it. -/
theorem kind_of_wrapped (h : t.Parsed) (ht : t.kind ∈ NodeKind.wrappers) {c : Tree}
    {cs : List Tree} (hchildren : t.children = c :: cs) : ∀ d ∈ cs, d.kind = .union := by
  have hschema : ∀ k ∈ NodeKind.wrappers,
      includes 0 k.schema (NodeKind.oneOf NodeKind.all * (char .union).star) = true := by
    decide +kernel
  obtain ⟨cs₁, cs₂, hcs, hfirst, hunions⟩ :=
    eq_append_of_kinds (mem_of_includes (hschema _ ht) (Nat.zero_le _) h.kinds_mem_schema)
  obtain ⟨d, rfl, -⟩ := eq_singleton_of_oneOf hfirst
  obtain ⟨-, rfl⟩ := List.cons.inj (hchildren.symm.trans hcs)
  intro d hd
  exact List.mem_singleton.mp (mem_letters hunions _ (List.mem_map_of_mem hd))

end Parsed

/-- Above the top of a query there are only wrappers. -/
theorem top_cases {t q : Tree} (h : t.top = .ok q) :
    t = q ∧ q.kind ∈ [NodeKind.singlePartQuery, .multiPartQuery, .standaloneCall] ∨
      t.kind ∈ NodeKind.wrappers ∧
        ∃ c cs, t.children = c :: cs ∧ c.top = .ok q := by
  obtain ⟨k, x, p, cs⟩ := t
  unfold top at h
  split at h
  case h_1 | h_2 | h_3 | h_4 | h_5 =>
    refine .inr ⟨by simp [NodeKind.wrappers], ?_⟩
    cases cs with
    | nil => cases h
    | cons c cs => exact ⟨c, cs, rfl, h⟩
  case h_6 | h_7 | h_8 =>
    obtain rfl := Except.ok.inj h
    exact .inl ⟨rfl, by simp⟩
  case h_9 => cases h

theorem kind_of_top {t q : Tree} (h : t.top = .ok q) :
    q.kind ∈ [NodeKind.singlePartQuery, .multiPartQuery, .standaloneCall] := by
  induction t using Tree.induction with
  | node t ih =>
      rcases top_cases h with ⟨-, hk⟩ | ⟨-, c, cs, hchildren, hc⟩
      · exact hk
      · exact ih c (hchildren ▸ List.mem_cons_self) hc

/-- In a query without `UNION` everything but the wrappers is below the top. -/
theorem Parsed.mem_descendants_top {t q : Tree} (h : t.Parsed)
    (hunion : ∀ n ∈ t.descendants, n.kind ≠ .union) (htop : t.top = .ok q) {item : Tree}
    (hitem : item ∈ t.descendants) (hk : item.kind.isItem = true) : item ∈ q.descendants := by
  induction t using Tree.induction with
  | node t ih =>
      rcases top_cases htop with ⟨rfl, -⟩ | ⟨hwrapper, c, cs, hchildren, hc⟩
      · exact hitem
      have hbelow : ∀ d ∈ t.children, ∀ n ∈ d.descendants, n.kind ≠ .union := fun d hd n hn =>
        hunion n (mem_descendants_iff.mpr (.inr ⟨d, hd, hn⟩))
      rcases mem_descendants_iff.mp hitem with rfl | ⟨d, hd, hn⟩
      · have hnot : ∀ k ∈ NodeKind.wrappers, k.isItem = false := by decide
        exact absurd hk (Bool.eq_false_iff.mp (hnot _ hwrapper))
      · have hfirst : d = c := by
          rcases List.mem_cons.mp (hchildren ▸ hd) with hdc | hrest
          · exact hdc
          · exact absurd (h.kind_of_wrapped hwrapper hchildren d hrest)
              (hbelow d hd d d.mem_descendants_self)
        subst hfirst
        exact ih d hd (h.of_mem_children hd) (hbelow d hd) hc hn

/-- A top with an item below it is a query with clauses. -/
theorem Parsed.steps_of_item {q item : Tree} (h : q.Parsed)
    (hq : q.kind ∈ [NodeKind.singlePartQuery, .multiPartQuery, .standaloneCall])
    (hitem : item ∈ q.descendants) (hk : item.kind.isItem = true) :
    q.is .standaloneCall = false ∧ q.kind ∈ NodeKind.aboveItems ∧
      q.steps = stepsAll q.children := by
  obtain ⟨k, x, p, cs⟩ := q
  simp only [List.mem_cons, List.not_mem_nil, or_false] at hq
  rcases hq with rfl | rfl | rfl
  · exact ⟨rfl, by simp [NodeKind.aboveItems], rfl⟩
  · exact ⟨rfl, by simp [NodeKind.aboveItems], rfl⟩
  · have hnone := h.isItem_of_otherClauses (by simp [NodeKind.ofOtherClauses]) item hitem
    exact absurd hk (Bool.eq_false_iff.mp hnone)

/-! ### Clean queries -/

/-- **That an update knows what it writes to**: the name of its target, which is the first variable
of the item, is bound, or the target is a property of it that as a whole is a bound column. -/
def UpdatesBound (scope : Scope) (item : Tree) : Prop :=
  ∃ v, item.find? .variableName = some v ∧
    (scope.binds v.text = true ∨
      ∃ p, item.firstChild? = some p ∧ p.kind = .propertyExpression ∧ p.firstChild? = some v ∧
        scope.binds p.text = true)

theorem regionsAll_append (cs cs' before : List Tree) :
    regionsAll before (cs ++ cs') = regionsAll before cs ++ regionsAll (before ++ cs) cs' := by
  induction cs generalizing before with
  | nil => rw [List.append_nil]; rfl
  | cons c cs ih =>
      rw [List.cons_append, regionsAll, regionsAll, ih, List.append_assoc, List.append_assoc]
      rfl

theorem mem_spotsBelow_of_mem_children {t c : Tree} (h : c ∈ t.children) {above : List Tree}
    {s : Spot} (hs : s ∈ c.spotsBelow (t :: above)) : s ∈ t.spotsBelow above := by
  rw [spotsBelow_eq]
  exact List.mem_cons_of_mem _ (List.mem_flatMap.mpr ⟨c, h, hs⟩)

theorem mem_spotsBelow_self (t : Tree) (above : List Tree) : ⟨t, above⟩ ∈ t.spotsBelow above := by
  rw [spotsBelow_eq]
  exact List.mem_cons_self

theorem mem_of_firstChild? {t c : Tree} (h : t.firstChild? = some c) : c ∈ t.children :=
  List.mem_of_mem_head? h

end Tree

theorem Region.not_unresolved {r : Region} (h : r.unresolved = []) :
    ∀ s ∈ r.root.spots, ¬s.Unresolved r.names := by
  rw [unresolved, List.map_eq_nil_iff, List.filter_eq_nil_iff] at h
  exact fun s hs => by simpa using h s hs

namespace Tree

/-- In a region without unresolved variables the items know their targets. -/
theorem Parsed.updatesBound {c item : Tree} (h : item.Parsed) (hk : item.kind.isItem = true)
    (hc : c.kind.isExpression = false) (hmem : item ∈ c.children) {scope : Scope}
    {names : List String} (hnames : ∀ x, scope.binds x = true ↔ x ∈ names)
    (hclean : ∀ s ∈ c.spots, ¬s.Unresolved names) : item.UpdatesBound scope := by
  have hitem : item.is .variableName = false ∧ item.kind.isExpression = false := by
    rw [is]
    generalize item.kind = k at hk ⊢
    cases k <;> first | exact Bool.noConfusion hk | decide
  obtain ⟨target, htarget, hvariable | ⟨hproperty, v, hv, hvariable⟩⟩ := h.target hk
  · have his : target.is .variableName = true := beq_iff_eq.mpr hvariable
    have hspot : ⟨target, [item, c]⟩ ∈ c.spots :=
      mem_spotsBelow_of_mem_children hmem <|
        mem_spotsBelow_of_mem_children (mem_of_firstChild? htarget) (mem_spotsBelow_self _ _)
    refine ⟨target, find?_of_firstChild? hitem.1 htarget (find?_self his), .inl ?_⟩
    by_contra hnot
    refine hclean _ hspot ⟨hvariable, mt (hnames _).mpr hnot, ?_⟩
    simp [hitem.2, hc]
  · have his : target.is .variableName = false := by rw [is, hproperty]; rfl
    have hspot : ⟨v, [target, item, c]⟩ ∈ c.spots :=
      mem_spotsBelow_of_mem_children hmem <|
        mem_spotsBelow_of_mem_children (mem_of_firstChild? htarget) <|
          mem_spotsBelow_of_mem_children (mem_of_firstChild? hv) (mem_spotsBelow_self _ _)
    refine ⟨v, find?_of_firstChild? hitem.1 htarget (find?_of_firstChild? his hv
      (find?_self (beq_iff_eq.mpr hvariable))), ?_⟩
    by_contra hnot
    obtain ⟨hname, hcolumn⟩ := not_or.mp hnot
    refine hclean _ hspot ⟨hvariable, mt (hnames _).mpr hname, ?_⟩
    have htext : target.text ∉ names := fun hx =>
      hcolumn ⟨target, htarget, hproperty, hv, (hnames _).mpr hx⟩
    simp [hitem.2, hc, htext]

/-- **In a clean query the items of a clause know their targets** in the scope before it. -/
theorem Parsed.updatesBound_of_clean {q : Tree} (h : q.Parsed) (hq : q.is .standaloneCall = false)
    (hclean : ∀ r ∈ q.topRegions, r.unresolved = []) {before rest : List Tree} {c item : Tree}
    (hsteps : stepsAll q.children = before ++ c :: rest) (hitem : item ∈ c.children)
    (hk : item.kind.isItem = true) :
    item.UpdatesBound (before.foldl after State.initial).scope := by
  have hc : c.Parsed := h.of_mem_steps (by simp [hsteps])
  have hclause : c.kind = .setClause ∨ c.kind = .removeClause :=
    NodeKind.clause_of_item _ (NodeKind.mem_all _) _ (hc.kind_mem_letters hitem) hk
  -- the clause is read as a whole
  have hregion : ⟨c, namesAfter before⟩ ∈ q.topRegions := by
    have hregions : c.regions (namesAfter before) = [⟨c, namesAfter before⟩] := by
      rcases hclause with hk | hk <;> simp only [regions, hk]
    rw [topRegions, hq, if_neg Bool.false_ne_true, hsteps, regionsAll_append, List.nil_append,
      regionsAll, hregions]
    simp
  have hexpression : c.kind.isExpression = false := by
    rcases hclause with hk | hk <;> rw [hk] <;> rfl
  exact (hc.of_mem_children hitem).updatesBound hk hexpression hitem (binds_foldl_after before)
    (Region.not_unresolved (hclean _ hregion))

end Tree

/-- **A clean query updates only what is bound.** Its items stand right below the clauses that
the resolver goes through, and each of them knows what it writes to in the scope before its
clause. -/
theorem analyze_clean_updates {source : String} {t : Tree} (h : parse source = .ok t)
    (hclean : t.analyze = .ok ⟨[]⟩) :
    ∃ q, t.top = .ok q ∧
      (∀ item ∈ t.descendants, item.kind.isItem = true →
        ∃ c ∈ Tree.stepsAll q.children, item ∈ c.children) ∧
      ∀ before c rest, Tree.stepsAll q.children = before ++ c :: rest →
        ∀ item ∈ c.children, item.kind.isItem = true →
          item.UpdatesBound (before.foldl Tree.after State.initial).scope := by
  obtain ⟨q, htop⟩ := top_of_parse h
  have hparsed : t.Parsed := ⟨source, t, h, t.mem_descendants_self⟩
  have hmem : q ∈ t.descendants := Tree.mem_descendants_of_top htop
  have hq : q.Parsed := hparsed.of_mem_descendants hmem
  have hsupported := Tree.unsupported?_of_analyze hclean
  refine ⟨q, htop, ?_, ?_⟩
  · have hgate : ∀ n ∈ t.descendants, n.kind ∉ [NodeKind.mergeClause, .union, .whereClause] := by
      rw [Tree.descendants, Tree.walk_eq_preorder]
      exact Tree.unsupported?_eq_none_iff.mp hsupported
    have hmerge : ∀ n ∈ q.descendants, n.kind ≠ .mergeClause := fun n hn hk =>
      hgate n ((Tree.descendants_sublist hmem).subset hn) (by simp [hk])
    intro item hitem hk
    have hbelow : item ∈ q.descendants :=
      hparsed.mem_descendants_top (fun n hn hk => hgate n hn (by simp [hk])) htop hitem hk
    obtain ⟨-, habove, hsteps⟩ := hq.steps_of_item (Tree.kind_of_top htop) hbelow hk
    exact hsteps ▸ hq.exists_step_of_item habove hmerge hbelow hk
  · have hregions : ∀ r ∈ q.topRegions, r.unresolved = [] := by
      have hanalyze := Tree.analyze_of_supported h hsupported
      rw [hclean, Except.ok.injEq, Analysis.mk.injEq] at hanalyze
      have hunresolved : t.unresolved = [] := List.map_eq_nil_iff.mp hanalyze.symm
      simp only [Tree.unresolved, htop] at hunresolved
      exact List.flatMap_eq_nil_iff.mp hunresolved
    intro before c rest hsteps item hitem hk
    have hbelow : item ∈ q.descendants := by
      have hc : c ∈ q.descendants := Tree.mem_descendants_of_mem_steps (by simp [hsteps])
      exact (Tree.descendants_sublist hc).subset (Tree.mem_descendants_of_mem_children hitem)
    obtain ⟨hcall, -, -⟩ := hq.steps_of_item (Tree.kind_of_top htop) hbelow hk
    exact hq.updatesBound_of_clean hcall hregions hsteps hitem hk

theorem Tree.analyze_of_toOption {t : Tree} {a : Analysis} (h : t.analyze.toOption = some a) :
    t.analyze = .ok a := by
  cases ha : t.analyze with
  | error u => rw [ha] at h; exact absurd h (Option.some_ne_none a).symm
  | ok a' => rw [ha] at h; exact congrArg _ (Option.some.inj h)

/-- A property and a label are set where the name is bound. -/
theorem analyze_clean_updates_of_match :
    ∃ t q, parse "MATCH (n) SET n.x = 1 REMOVE n:A" = .ok t ∧ t.analyze = .ok ⟨[]⟩ ∧
      t.top = .ok q ∧ (Tree.stepsAll q.children).map Tree.kind =
        [.matchClause, .setClause, .removeClause] ∧
      ∀ before c rest, Tree.stepsAll q.children = before ++ c :: rest →
        ∀ item ∈ c.children, item.kind.isItem = true →
          item.UpdatesBound (before.foldl Tree.after State.initial).scope := by
  obtain ⟨t, ht, hfacts⟩ : ∃ t, parse "MATCH (n) SET n.x = 1 REMOVE n:A" = .ok t ∧
      (t.analyze.toOption, t.top.toOption.map fun q => (Tree.stepsAll q.children).map Tree.kind) =
        (some ⟨[]⟩, some [.matchClause, .setClause, .removeClause]) :=
    exists_parse_eq_ok (by decide +kernel)
  obtain ⟨hanalyze, hkinds⟩ := Prod.mk.inj hfacts
  have hclean : t.analyze = .ok ⟨[]⟩ := Tree.analyze_of_toOption hanalyze
  obtain ⟨q, htop, -, hbound⟩ := analyze_clean_updates ht hclean
  rw [htop] at hkinds
  exact ⟨t, q, ht, hclean, htop, Option.some.inj hkinds, hbound⟩

/-- **The name itself need not be bound** where the property is a column. -/
theorem column_updated_unbound :
    ¬∀ source t, parse source = .ok t → t.analyze = .ok ⟨[]⟩ → ∀ q, t.top = .ok q →
      ∀ before c rest, Tree.stepsAll q.children = before ++ c :: rest →
        ∀ item ∈ c.children, item.kind.isItem = true →
          ∃ v, item.find? .variableName = some v ∧
            (before.foldl Tree.after State.initial).scope.binds v.text = true := by
  intro h
  obtain ⟨t, ht, hfacts⟩ : ∃ t, parse "MATCH (n) WITH n.x SET n.x = 1" = .ok t ∧
      decide (t.analyze.toOption = some ⟨[]⟩ ∧
        (t.top.toOption.map fun q => ((Tree.stepsAll q.children).drop 2).map fun c =>
          c.children.map fun i => (i.kind.isItem, (i.find? .variableName).map Tree.text)) =
            some [[(true, some "n")]] ∧
        (t.top.toOption.map fun q =>
          (((Tree.stepsAll q.children).take 2).foldl Tree.after State.initial).scope.binds "n") =
            some false) = true :=
    exists_parse_eq_ok (by decide +kernel)
  obtain ⟨hanalyze, hitems, hunbound⟩ := of_decide_eq_true hfacts
  obtain ⟨q, htop⟩ := top_of_parse ht
  rw [htop] at hitems hunbound
  obtain ⟨c, hdrop, hc⟩ := List.map_eq_singleton_iff.mp (Option.some.inj hitems)
  obtain ⟨item, hchildren, hitem⟩ := List.map_eq_singleton_iff.mp hc
  obtain ⟨hk, hname⟩ := Prod.mk.inj hitem
  have hsteps : Tree.stepsAll q.children = (Tree.stepsAll q.children).take 2 ++ c :: [] :=
    hdrop ▸ (List.take_append_drop 2 _).symm
  have hclean : t.analyze = .ok ⟨[]⟩ := Tree.analyze_of_toOption hanalyze
  obtain ⟨v, hv, hbinds⟩ := h _ t ht hclean q htop _ c [] hsteps item (by simp [hchildren]) hk
  have hnot : (((Tree.stepsAll q.children).take 2).foldl Tree.after State.initial).scope.binds "n" =
      false := Option.some.inj hunbound
  rw [hv] at hname
  rw [Option.some.inj hname, hnot] at hbinds
  exact Bool.noConfusion hbinds

end BindCheck

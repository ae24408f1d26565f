import BindCheck.Analysis
import BindCheck.Proofs.Normalization
import BindCheck.Proofs.Sites
import BindCheck.Proofs.Walks

/-!
# BindCheck.Proofs.Schema

**What the resolver may rely on in a parsed tree.** The resolver looks for children by their
kinds and would accept any tree; what it finds is right because parsed trees have a shape:

* the kinds of the children of a node are those of the site that made it
  (`Rule.childKinds`, `Tree.Parsed.exists_site`);
* below a node that is read as a whole there is no column, no `UNWIND` and no yielded name, so
  no name is introduced there (`Tree.Parsed.not_introduces`);
* the columns of a projection stand before its modifiers (`Tree.Parsed.projectionBody`);
* at the top there is a query or a call (`Run.top_eq_ok`).

The first two are read off the table of all sites by computation; nothing is said there of a
single rule of the grammar.
-/

namespace BindCheck

/-- The sites of the whole grammar. -/
def Grammar.sites : List Site := cypher.sites none ++ Nonterminal.sites Nonterminal.all

/-! ### The kinds of the nodes that a rule finds -/

/-- The kinds of the nodes after a shape, given those before it. -/
def Shape.tops (s : Shape) (ks : List NodeKind) : List NodeKind :=
  match s with
  | bare => ks
  | node k => [k]
  | ifMany k => k :: ks

theorem Shape.kind_mem_tops {s : Shape} {us : List Lexeme} {cs : List Cover} {ks : List NodeKind}
    (h : ∀ c ∈ cs, c.kind ∈ ks) : ∀ c ∈ s.cover us cs, c.kind ∈ s.tops ks := by
  cases s with
  | bare => exact h
  | node k =>
      intro c hc
      obtain rfl := List.mem_singleton.mp hc
      exact List.mem_singleton_self k
  | ifMany k =>
      intro c hc
      by_cases hlen : 1 < cs.length
      · rw [cover, if_pos hlen] at hc
        obtain rfl := List.mem_singleton.mp hc
        exact List.mem_cons_self
      · rw [cover, if_neg hlen] at hc
        exact List.mem_cons_of_mem _ (h c hc)

/-- The kinds of the nodes that a named rule finds. -/
def Nonterminal.tops : Nonterminal → List NodeKind
  | singleQuery => [.singleQuery]
  | queryTail => [.readingClause, .updatingClause, .withClause, .singlePartQuery]
  | patternElement => [.patternElement]
  | expression => [.expression]
  | comparison | sum | unary => NodeKind.all

namespace Rule

/-- The kinds of the nodes that a rule finds, without those below them. -/
def tops : Rule → List NodeKind
  | empty | token _ _ | demand _ _ => []
  | call n => n.tops
  | seq r s => r.tops ++ s.tops
  | branch _ y n => y.tops ++ n.tops
  | many _ b => b.tops
  | sepBy item _ => item.tops
  | wrap s b => s.tops b.tops
  | fork first _ ys y ns n => ys.tops (first.tops ++ y.tops) ++ ns.tops (first.tops ++ n.tops)
  | attempt first _ other => first.tops ++ other.tops

/-- The kinds of the nodes below a node that the rule itself makes. -/
def childKinds : Rule → List NodeKind
  | wrap _ b => b.tops
  | fork first _ _ y _ n => first.tops ++ (y.tops ++ n.tops)
  | _ => []

end Rule

theorem Grammar.tops_production (n : Nonterminal) :
    ∀ k ∈ (production n).tops, k ∈ n.tops := by
  cases n
  case comparison | sum | unary => exact fun k _ => NodeKind.mem_all k
  all_goals decide

theorem Cover.kind_mem_append {cs cs' : List Cover} {ks ks' : List NodeKind}
    (h : ∀ c ∈ cs, c.kind ∈ ks) (h' : ∀ c ∈ cs', c.kind ∈ ks') :
    ∀ c ∈ cs ++ cs', c.kind ∈ ks ++ ks' := by
  intro c hc
  rcases List.mem_append.mp hc with hc | hc
  · exact List.mem_append_left _ (h c hc)
  · exact List.mem_append_right _ (h' c hc)

namespace Run

/-- The nodes of a run have the kinds that its rule allows. -/
theorem kind_mem_tops {r : Rule} {us vs : List Lexeme} {cs : List Cover} (h : Run r us vs cs) :
    ∀ c ∈ cs, c.kind ∈ r.tops := by
  induction h with
  | empty | token | demand | done => intro c hc; exact absurd hc List.not_mem_nil
  | seq _ _ ih₁ ih₂ => exact Cover.kind_mem_append ih₁ ih₂
  | yes _ _ ih => exact fun c hc => List.mem_append_left _ (ih c hc)
  | no _ _ ih => exact fun c hc => List.mem_append_right _ (ih c hc)
  | step _ _ _ ih₁ ih₂ =>
      intro c hc
      rcases List.mem_append.mp hc with hc | hc
      · exact ih₁ c hc
      · exact ih₂ c hc
  | sepBy _ _ ih₁ ih₂ =>
      intro c hc
      rcases List.mem_append.mp hc with hc | hc
      · exact ih₁ c hc
      · exact ih₂ c hc
  | wrap _ ih => exact Shape.kind_mem_tops ih
  | forkYes _ _ _ ih₁ ih₂ =>
      exact fun c hc => List.mem_append_left _
        (Shape.kind_mem_tops (Cover.kind_mem_append ih₁ ih₂) c hc)
  | forkNo _ _ _ ih₁ ih₂ =>
      exact fun c hc => List.mem_append_right _
        (Shape.kind_mem_tops (Cover.kind_mem_append ih₁ ih₂) c hc)
  | @call n _ _ _ _ ih => exact fun c hc => Grammar.tops_production n _ (ih c hc)
  | attemptFirst _ _ ih => exact fun c hc => List.mem_append_left _ (ih c hc)
  | attemptOther _ ih => exact fun c hc => List.mem_append_right _ (ih c hc)

/-- A rule that makes no node finds none. -/
theorem eq_nil_of_tops {r : Rule} {us vs : List Lexeme} {cs : List Cover} (h : Run r us vs cs)
    (hr : r.tops = []) : cs = [] := by
  rw [List.eq_nil_iff_forall_not_mem]
  intro c hc
  have hk := h.kind_mem_tops c hc
  rw [hr] at hk
  exact List.not_mem_nil hk

end Run

theorem Makes.kind_mem_childKinds {r : Rule} {vs : List Lexeme} {m : Cover} (h : Makes r vs m) :
    ∀ c ∈ m.children, c.kind ∈ r.childKinds := by
  cases h with
  | wrap made run => exact run.kind_mem_tops
  | forkYes made run holds more =>
      refine Cover.kind_mem_append run.kind_mem_tops fun c hc => ?_
      exact List.mem_append_left _ (more.kind_mem_tops c hc)
  | forkNo made run fails more =>
      refine Cover.kind_mem_append run.kind_mem_tops fun c hc => ?_
      exact List.mem_append_right _ (more.kind_mem_tops c hc)

/-! ### Nodes of parsed trees -/

namespace Cover

mutual

theorem map_tree_nodes : ∀ c : Cover, c.nodes.map tree = c.tree.preorder fun _ => true
  | ⟨k, us, cs⟩ => by
      rw [nodes, List.map_cons, map_tree_nodesAll cs, tree, Tree.over, Tree.preorder, if_pos rfl]

theorem map_tree_nodesAll : ∀ cs : List Cover,
    (nodesAll cs).map tree = Tree.preorderAll (fun _ => true) (trees cs)
  | [] => rfl
  | c :: cs => by
      rw [nodesAll, List.map_append, map_tree_nodes c, map_tree_nodesAll cs, trees,
        Tree.preorderAll]

end

/-- The nodes of a cover are those of its tree. -/
theorem descendants_tree (c : Cover) : c.tree.descendants = c.nodes.map tree := by
  rw [map_tree_nodes, Tree.descendants, Tree.walk_eq_preorder]

theorem Of.own_infix {c m : Cover} {source : String} (h : c.Of source) (hm : m ∈ c.nodes) :
    m.own <:+: c.own := by
  obtain ⟨p, -, run⟩ := h.run
  exact run.own_infix m (by rwa [nodesAll_singleton])

/-- Every node of a parsed tree was made at a site of the grammar. -/
theorem Of.exists_site {c m : Cover} {source : String} (h : c.Of source) (hm : m ∈ c.nodes) :
    ∃ site ∈ Grammar.sites, site.Made m := by
  obtain ⟨p, -, run⟩ := h.run
  exact run.exists_site Nonterminal.closed_all (Rule.holds_none _) (by decide) m
    (by rwa [nodesAll_singleton])

end Cover

/-! ### What the table of sites says -/

namespace NodeKind

/-- Whether a node of the kind is read as a whole. -/
def isRead : NodeKind → Bool
  | .expression | .procedureInvocation | .setClause | .deleteClause | .removeClause
  | .orderClause | .skipClause | .limitClause => true
  | _ => false

/-- Whether a node of the kind introduces a name beside what it reads, if anything. -/
def introduces : NodeKind → Bool
  | .projectionItem | .unwindClause | .yieldItem => true
  | _ => false

end NodeKind

namespace Grammar

/-- **What is read as a whole is made of expressions**, and introduces no name. -/
theorem read_site {site : Site} (h : site ∈ sites)
    (hread : site.rule.kinds.any NodeKind.isRead = true) :
    (∀ n ∈ site.rule.calls, n ∈ Nonterminal.ofExpressions) ∧
      ∀ site' ∈ site.rule.sites site.known ++ Nonterminal.sites Nonterminal.ofExpressions,
        site'.rule.kinds.any NodeKind.introduces = false := by
  revert site
  decide +kernel

/-- Nothing stands below a variable, and only columns below the columns of a projection. Bodies
of projections are made at one site. -/
theorem child_site {site : Site} (h : site ∈ sites) :
    (.variableName ∈ site.rule.kinds → site.rule.childKinds = []) ∧
      (.projectionItems ∈ site.rule.kinds → ∀ k ∈ site.rule.childKinds, k = .projectionItem) ∧
        (.projectionBody ∈ site.rule.kinds → site.rule = projectionBody) := by
  revert site
  decide +kernel

/-- The two places of the grammar where a variable stands. -/
def variableForms : List Rule := [variableName, .node .variableName (.token .identifier .expression)]

theorem variable_site {site : Site} (h : site ∈ sites)
    (hvariable : .variableName ∈ site.rule.kinds) : site.rule ∈ variableForms := by
  revert site
  decide +kernel

end Grammar

/-- A variable is a leaf over one lexeme, a name. -/
theorem Run.variable_iff {r : Rule} (hr : r ∈ Grammar.variableForms) {us vs : List Lexeme}
    {cs : List Cover} :
    Run r us vs cs ↔ ∃ l, us = [l] ∧ cs = [⟨.variableName, [l], []⟩] ∧
      Terminal.identifier.accepts l.token = true := by
  have hnode : ∀ e, Run (.node .variableName (.token .identifier e)) us vs cs ↔ ∃ l, us = [l] ∧
      cs = [⟨.variableName, [l], []⟩] ∧ Terminal.identifier.accepts l.token = true := by
    intro e
    rw [node_iff]
    constructor
    · rintro ⟨_, rfl, htoken⟩
      obtain ⟨l, rfl, hl, rfl⟩ := token_iff.mp htoken
      exact ⟨l, rfl, rfl, hl⟩
    · rintro ⟨l, rfl, rfl, hl⟩
      exact ⟨[], rfl, .token hl⟩
  simp only [Grammar.variableForms, List.mem_cons, List.not_mem_nil, or_false] at hr
  rcases hr with rfl | rfl
  · exact hnode _
  · exact hnode _

/-- In a source a variable is one lexeme, a name. -/
theorem Cover.Of.own_of_variable {c m : Cover} {source : String} (h : c.Of source)
    (hm : m ∈ c.nodes) (hk : m.kind = .variableName) :
    ∃ l n, m.own = [l] ∧ l.token = .identifier n := by
  obtain ⟨site, hsite, vs, -, hmade⟩ := h.exists_site hm
  have hrule := Grammar.variable_site hsite (hk ▸ hmade.kind_mem)
  obtain ⟨l, hown, -, hl⟩ := (Run.variable_iff hrule).mp hmade.run
  cases ht : l.token <;> rw [ht] at hl <;> first | exact Bool.noConfusion hl | exact ⟨l, _, hown, ht⟩

/-! ### The shape of parsed trees -/

namespace Tree

/-- That a node is one of a parsed tree. -/
def Parsed (t : Tree) : Prop := ∃ source u, BindCheck.parse source = .ok u ∧ t ∈ u.descendants

namespace Parsed

variable {t : Tree}

theorem of_mem_descendants (h : t.Parsed) {n : Tree} (hn : n ∈ t.descendants) : n.Parsed := by
  obtain ⟨source, u, hparse, ht⟩ := h
  exact ⟨source, u, hparse, (descendants_sublist ht).subset hn⟩

theorem of_mem_children (h : t.Parsed) {c : Tree} (hc : c ∈ t.children) : c.Parsed :=
  h.of_mem_descendants (mem_descendants_of_mem_children hc)

theorem of_child? (h : t.Parsed) {c : Tree} {k : NodeKind} (hc : t.child? k = some c) :
    c.Parsed := h.of_mem_children (List.mem_of_find?_eq_some hc)

/-- A node of a parsed tree is that of a cover, which was made at a site. -/
theorem exists_site (h : t.Parsed) :
    ∃ m : Cover, m.tree = t ∧ ∃ site ∈ Grammar.sites, site.Made m := by
  obtain ⟨source, u, hparse, ht⟩ := h
  obtain ⟨c, hc, rfl⟩ := cover_of_parse hparse
  rw [c.descendants_tree] at ht
  obtain ⟨m, hm, rfl⟩ := List.mem_map.mp ht
  exact ⟨m, rfl, hc.exists_site hm⟩

/-- The children of a node are of kinds that some site allows. -/
theorem exists_childKinds (h : t.Parsed) :
    ∃ site ∈ Grammar.sites, t.kind ∈ site.rule.kinds ∧
      ∀ c ∈ t.children, c.kind ∈ site.rule.childKinds := by
  obtain ⟨m, rfl, site, hsite, _, -, hmakes⟩ := h.exists_site
  refine ⟨site, hsite, by rw [m.tree_kind]; exact hmakes.kind_mem, ?_⟩
  intro c hc
  rw [m.tree_children] at hc
  obtain ⟨m', hm', rfl⟩ := List.mem_map.mp hc
  rw [m'.tree_kind]
  exact hmakes.kind_mem_childKinds m' hm'

/-- A variable is a leaf. -/
theorem children_of_variable (h : t.Parsed) (hk : t.kind = .variableName) : t.children = [] := by
  obtain ⟨site, hsite, hkind, hchildren⟩ := h.exists_childKinds
  rw [hk] at hkind
  rw [(Grammar.child_site hsite).1 hkind] at hchildren
  rw [List.eq_nil_iff_forall_not_mem]
  exact fun c hc => List.not_mem_nil (hchildren c hc)

/-- The columns of a projection are columns. -/
theorem kind_of_columns (h : t.Parsed) (hk : t.kind = .projectionItems) :
    ∀ c ∈ t.children, c.kind = .projectionItem := by
  obtain ⟨site, hsite, hkind, hchildren⟩ := h.exists_childKinds
  rw [hk] at hkind
  exact fun c hc => (Grammar.child_site hsite).2.1 hkind _ (hchildren c hc)

/-- **What is read as a whole introduces no name.** -/
theorem not_introduces (h : t.Parsed) (hread : t.kind.isRead = true) :
    ∀ n ∈ t.descendants, n.kind.introduces = false := by
  obtain ⟨m, rfl, site, hsite, vs, hknown, hmakes⟩ := h.exists_site
  have hkinds : site.rule.kinds.any NodeKind.isRead = true :=
    List.any_eq_true.mpr ⟨_, hmakes.kind_mem, by rwa [m.tree_kind] at hread⟩
  obtain ⟨hcalls, hsites⟩ := Grammar.read_site hsite hkinds
  intro n hn
  rw [m.descendants_tree] at hn
  obtain ⟨m', hm', rfl⟩ := List.mem_map.mp hn
  rw [← Cover.nodesAll_singleton] at hm'
  obtain ⟨site', hsite', _, -, hmakes'⟩ :=
    hmakes.run.exists_site Nonterminal.closed_ofExpressions hknown hcalls m' hm'
  have hnone := List.any_eq_false.mp (hsites site' hsite') _ hmakes'.kind_mem
  rw [m'.tree_kind]
  exact Bool.eq_false_iff.mpr hnone

/-- **The columns of a projection stand before its modifiers.** -/
theorem projectionBody (h : t.Parsed) (hk : t.kind = .projectionBody) :
    ∃ items ms, t.children = items :: ms ∧ items.kind = .projectionItems ∧
      ∀ m ∈ ms, m.isModifier = true := by
  obtain ⟨m, rfl, site, hsite, vs, -, hmakes⟩ := h.exists_site
  rw [m.tree_kind] at hk
  have run := hmakes.run
  rw [(Grammar.child_site hsite).2.2 (hk ▸ hmakes.kind_mem)] at run
  obtain ⟨cs, hm, hbody⟩ := Run.node_iff.mp run
  have hchildren : m.children = cs := congrArg Cover.children (List.cons.inj hm).1
  obtain ⟨_, _, cs₁, cs₂, -, rfl, hdistinct, hrest⟩ := Run.seq_iff.mp hbody
  obtain ⟨_, us, cs₃, cs₄, -, rfl, hitems, hmodifiers⟩ := Run.seq_iff.mp hrest
  obtain rfl := hdistinct.eq_nil_of_tops rfl
  obtain ⟨cs, rfl, -⟩ := Run.node_iff.mp hitems
  refine ⟨_, cs₄.map Cover.tree, by rw [m.tree_children, hchildren]; rfl, rfl, ?_⟩
  intro n hn
  obtain ⟨c, hc, rfl⟩ := List.mem_map.mp hn
  have hkind := hmodifiers.kind_mem_tops c hc
  change c.kind ∈ [NodeKind.orderClause, .skipClause, .limitClause] at hkind
  simp only [List.mem_cons, List.not_mem_nil, or_false] at hkind
  rcases hkind with hkind | hkind | hkind <;> simp [isModifier, is, hkind]

end Parsed

end Tree

/-! ### The top of a query -/

/-- A wrapper has the top of its first child. -/
theorem Cover.top_wrapper {k : NodeKind} {us : List Lexeme} {c : Cover} {cs : List Cover}
    (hk : k ∈ [NodeKind.cypher, .statement, .query, .regularQuery, .singleQuery]) :
    (Cover.mk k us (c :: cs)).tree.top = c.tree.top := by
  simp only [List.mem_cons, List.not_mem_nil, or_false] at hk
  rcases hk with rfl | rfl | rfl | rfl | rfl <;>
    simp only [tree, trees, Tree.over, Tree.top, Tree.topOfFirst]

namespace Run

variable {us vs : List Lexeme} {cs : List Cover} {c : Cover}

/-- The rest of a query is one part, or clauses up to a `WITH` and a rest behind them. -/
theorem queryTail_cases (h : Run Grammar.queryTail us vs cs) :
    (∃ cs', cs = [⟨.singlePartQuery, us, cs'⟩]) ∨
      ∃ cs₁ w us₂ cs₂, cs = cs₁ ++ w :: cs₂ ∧ Run Grammar.queryTail us₂ vs cs₂ := by
  obtain ⟨_, us₁, cs₁, cs₂, -, -, ⟨-, hwith, rfl⟩ | ⟨-, -, rfl⟩⟩ := fork_iff.mp h
  · obtain ⟨_, us₂, _, cs₃, -, rfl, hclause, hcall⟩ := seq_iff.mp hwith
    obtain ⟨cs₄, rfl, -⟩ := node_iff.mp hclause
    exact .inr ⟨cs₁, _, us₂, cs₃, rfl, call_iff.mp hcall⟩
  · exact .inl ⟨_, rfl⟩

theorem queryTail_ne_nil (h : Run Grammar.queryTail us vs cs) : cs ≠ [] := by
  rcases h.queryTail_cases with ⟨cs', rfl⟩ | ⟨cs₁, w, us₂, cs₂, rfl, -⟩ <;> simp

/-- A query of one part stands for itself, and so does one of several parts. -/
theorem top_of_singleQuery (h : Run Grammar.singleQuery us vs [c]) :
    ∃ q, c.tree.top = .ok q := by
  obtain ⟨cs, hc, hbody⟩ := node_iff.mp h
  obtain ⟨cs', rfl, htail⟩ := wrap_iff.mp hbody
  obtain rfl := (List.cons.inj hc).1
  rcases htail.queryTail_cases with ⟨cs, rfl⟩ | ⟨cs₁, w, us₂, cs₂, rfl, hrest⟩
  · have hone : Shape.cover (.ifMany .multiPartQuery) us [⟨.singlePartQuery, us, cs⟩] =
        [⟨.singlePartQuery, us, cs⟩] := rfl
    rw [hone, Cover.top_wrapper (by decide)]
    exact ⟨_, rfl⟩
  · have hlen : 1 < (cs₁ ++ w :: cs₂).length := by
      have := List.length_pos_iff.mpr hrest.queryTail_ne_nil
      rw [List.length_append, List.length_cons]
      omega
    rw [Shape.cover, if_pos hlen, Cover.top_wrapper (by decide)]
    exact ⟨_, rfl⟩

/-- **At the top of a parsed query there is a query or a call.** -/
theorem top_eq_ok (h : Run Grammar.cypher us vs [c]) : ∃ q, c.tree.top = .ok q := by
  obtain ⟨_, hc, hbody⟩ := node_iff.mp h
  obtain rfl := (List.cons.inj hc).1
  obtain ⟨_, _, _, _, -, rfl, hstatement, -⟩ := seq_iff.mp hbody
  obtain ⟨_, rfl, hquery⟩ := node_iff.mp hstatement
  obtain ⟨_, rfl, hattempt⟩ := node_iff.mp hquery
  rw [List.singleton_append, Cover.top_wrapper (by decide), Cover.top_wrapper (by decide)]
  cases hattempt with
  | attemptFirst hcall _ =>
      obtain ⟨_, rfl, -⟩ := node_iff.mp hcall
      rw [Cover.top_wrapper (by decide)]
      exact ⟨_, rfl⟩
  | attemptOther hregular =>
      obtain ⟨_, rfl, hparts⟩ := node_iff.mp hregular
      obtain ⟨_, _, _, _, -, rfl, hsingle, -⟩ := seq_iff.mp hparts
      obtain ⟨_, rfl, -⟩ := node_iff.mp hsingle
      rw [Cover.top_wrapper (by decide), List.singleton_append, Cover.top_wrapper (by decide)]
      exact top_of_singleQuery hsingle

end Run

theorem top_of_parse {source : String} {t : Tree} (h : parse source = .ok t) :
    ∃ q, t.top = .ok q := by
  obtain ⟨c, hc, rfl⟩ := cover_of_parse h
  obtain ⟨p, -, run⟩ := hc.run
  exact run.top_eq_ok

end BindCheck

import BindCheck.Proofs.Ladder
import BindCheck.Proofs.Schema

/-!
# BindCheck.Proofs.NodeText

**The text of a node identifies it.** A scope knows a column by the text of its expression,
so two expressions with one text have to be one expression. For every node of a parsed
tree:

* the text is read back as the lexemes of the node, so equal texts are equal lexemes;
* the text of an expression or a variable, parsed as an expression on its own, gives the node
  back, so equal texts are equal trees but for an outer `Expression` node.

The second part goes over the few sites of the grammar that make such nodes
(`Grammar.value_site`): the node is found alone (`Run.alone`), then on the level of the
operators that it belongs to, and from there on the loosest one (`Run.disjunction_of_level`).
-/

namespace BindCheck

/-! ### Expressions on their own -/

/-- Whether a node of the kind can be read as a value: an expression or a variable. -/
def NodeKind.isValue (k : NodeKind) : Bool := k.isExpression || k == .variableName

/-- A node as an expression: an `Expression` node stays as it is, and any other node is put
under one. -/
def Tree.asExpression (t : Tree) : Tree :=
  if t.is .expression then t else ⟨.expression, t.text, t.position, [t]⟩

/-- A node with its lexemes as an expression. -/
def Cover.asExpression (m : Cover) : Cover :=
  if m.kind = .expression then m else ⟨.expression, m.own, [m]⟩

theorem Cover.tree_asExpression (m : Cover) : m.asExpression.tree = m.tree.asExpression := by
  obtain ⟨k, us, cs⟩ := m
  by_cases hk : k = .expression
  · simp [asExpression, Tree.asExpression, Tree.is, hk]
  · simp [asExpression, Tree.asExpression, Tree.is, hk, tree, trees, Tree.over]

theorem Tree.unplaced_asExpression (t : Tree) :
    t.asExpression.unplaced = t.unplaced.asExpression := by
  by_cases hk : t.is .expression = true
  · rw [asExpression, asExpression, is_unplaced, if_pos hk, if_pos hk]
  · rw [asExpression, asExpression, is_unplaced, if_neg hk, if_neg hk]
    simp [unplaced, unplacedAll]

namespace Grammar

/-- A variable with a property to be set. -/
def propertyToSet : Rule :=
  .node .propertyExpression (.row [variableName, .many (.next [.symbol .dot]) propertyLookup])

/-- A variable with a property to be removed. -/
def propertyToRemove : Rule :=
  .node .propertyExpression
    (.row [variableName, propertyLookup, .many (.next [.symbol .dot]) propertyLookup])

/-- An operand with a sign. -/
def signed : Rule :=
  .node .unaryAddOrSubtractExpression (.row [.take (.symbols [.plus, .minus]), .call .unary])

/-- A comparison with `NOT` in front. -/
def negated : Rule :=
  .node .notExpression
    (.row [.many (.next [.keyword .NOT]) (.word .NOT), .call .comparison])

/-- **The sites that make expressions and variables.** -/
theorem value_site {site : Site} (h : site ∈ sites)
    (hvalue : site.rule.kinds.any NodeKind.isValue = true) :
    site.rule = expression ∨ (site.rule.kinds.contains .expression = false ∧
      (site.rule ∈ disjunction :: levels ∨
        site = ⟨some (.next [.symbols [.plus, .minus]]), signed⟩ ∨
        site = ⟨some (.next [.keyword .NOT]), negated⟩ ∨
        site.rule ∈ countStar :: atomForms.map Prod.snd ∨
        site = ⟨some .dottedCall, functionInvocation⟩ ∨
        site.rule ∈ variableForms ∨
        site = ⟨some (.next [.identifier, .symbol .dot]), propertyToSet⟩ ∨
        site.rule = propertyToRemove)) := by
  revert site
  decide +kernel

end Grammar

section

variable {m : Cover} {e : Lexeme} {vs : List Lexeme}

/-- A lookahead for one token that held before a node holds before the node alone. -/
theorem Run.next_alone {r : Rule} (h : Run r m.own vs [m]) (htakes : r.takes none = true)
    {t : Terminal} (hl : (Lookahead.next [t]).holds (m.own ++ vs) = true) (he : e.token = .eof) :
    (Lookahead.next [t]).holds (m.own ++ [e]) = true :=
  Lookahead.holds_ending (k := 1) rfl
    (List.length_pos_iff.mpr (h.taken_ne_nil (Rule.holds_none _) htakes)) he hl

/-- A variable is an atom. -/
theorem Run.disjunction_of_variable {r : Rule} (hr : r ∈ Grammar.variableForms)
    (he : e.token = .eof) (h : Run r m.own vs [m]) : Run Grammar.disjunction m.own [e] [m] := by
  obtain ⟨x, -, hm, hx⟩ := (Run.variable_iff hr).mp h
  obtain ⟨rfl, -⟩ := List.cons.inj hm
  have hnone : Run (.many (.next [.symbol .dot]) Grammar.propertyLookup) [] [e] [] :=
    .done (Lookahead.next_ending rfl he)
  exact (Run.atom_of_variable hx he hnone).disjunction_of_level List.mem_cons_self he

/-- A variable with properties, as an update writes it, is a property expression. -/
theorem Run.disjunction_of_properties {us us' : List Lexeme} {cs cs' : List Cover}
    (hvariable : Run Grammar.variableName us (us' ++ vs) cs)
    (hlookups : Run (.many (.next [.symbol .dot]) Grammar.propertyLookup) us' vs cs')
    (hne : cs' ≠ []) (he : e.token = .eof) :
    Run Grammar.disjunction (us ++ us') [e] [⟨.propertyExpression, us ++ us', cs ++ cs'⟩] := by
  obtain ⟨_, rfl, htoken⟩ := Run.node_iff.mp hvariable
  obtain ⟨x, rfl, hx, rfl⟩ := Run.token_iff.mp htoken
  exact (Run.accessed_of_properties hx he hlookups hne).disjunction_of_level
    (by simp [Grammar.levels]) he

/-- A node that a rule makes of all it takes. -/
theorem Run.eq_of_node {k : NodeKind} {r : Rule} (h : Run (.node k r) m.own vs [m]) :
    ∃ us cs, m = ⟨k, us, cs⟩ ∧ Run r us vs cs := by
  obtain ⟨k', us, cs⟩ := m
  obtain ⟨_, hm, hbody⟩ := Run.node_iff.mp h
  simp only [List.cons.injEq, Cover.mk.injEq, and_true] at hm
  obtain ⟨rfl, -, rfl⟩ := hm
  exact ⟨us, cs, rfl, hbody⟩

theorem Run.disjunction_of_propertyToSet (h : Run Grammar.propertyToSet m.own vs [m])
    (hl : (Lookahead.next [.identifier, .symbol .dot]).holds (m.own ++ vs) = true)
    (he : e.token = .eof) : Run Grammar.disjunction m.own [e] [m] := by
  obtain ⟨us, cs, rfl, hbody⟩ := h.eq_of_node
  obtain ⟨us₁, us₂, cs₁, cs₂, rfl, rfl, hvariable, hlookups⟩ := Run.seq_iff.mp hbody
  refine Run.disjunction_of_properties hvariable hlookups ?_ he
  -- the lookahead has seen the dot of the first property
  rintro rfl
  obtain ⟨_, -, htoken⟩ := Run.node_iff.mp hvariable
  obtain ⟨x, rfl, -, -⟩ := Run.token_iff.mp htoken
  have hdot : (Lookahead.next [.symbol .dot]).holds (us₂ ++ vs) = true :=
    (Bool.and_eq_true_iff.mp hl).2
  rcases Run.many_iff.mp hlookups with ⟨rfl, -, hfails⟩ | ⟨_, _, cs', _, -, hcs, -, hfirst, -⟩
  · rw [List.nil_append, hfails] at hdot
    exact Bool.noConfusion hdot
  · obtain ⟨_, rfl, -⟩ := Run.node_iff.mp hfirst
    exact absurd hcs.symm (List.cons_ne_nil _ _)

theorem Run.disjunction_of_propertyToRemove (h : Run Grammar.propertyToRemove m.own vs [m])
    (he : e.token = .eof) : Run Grammar.disjunction m.own [e] [m] := by
  obtain ⟨us, cs, rfl, hbody⟩ := h.eq_of_node
  obtain ⟨us₁, us₂, cs₁, cs₂, rfl, rfl, hvariable, hlookups⟩ := Run.seq_iff.mp hbody
  obtain ⟨us₃, us₄, cs₃, cs₄, rfl, rfl, hfirst, hmore⟩ := Run.seq_iff.mp hlookups
  have hdot : (Lookahead.next [.symbol .dot]).holds (us₃ ++ (us₄ ++ vs)) = true :=
    hfirst.next_holds rfl rfl
  refine Run.disjunction_of_properties hvariable (.step hdot hfirst hmore) ?_ he
  obtain ⟨_, rfl, -⟩ := Run.node_iff.mp hfirst
  exact List.cons_ne_nil _ _

/-- **An expression or a variable is found as an expression on its own.** -/
theorem Site.Made.run_expression {site : Site} (hmade : site.Made m) (hsite : site ∈ Grammar.sites)
    (hvalue : m.kind.isValue = true) (he : e.token = .eof) :
    Run Grammar.expression m.own [e] [m.asExpression] := by
  obtain ⟨vs, hknown, hmakes⟩ := hmade
  have run := hmakes.run
  have hkind := hmakes.kind_mem
  have hany : site.rule.kinds.any NodeKind.isValue = true := List.any_eq_true.mpr ⟨_, hkind, hvalue⟩
  rcases Grammar.value_site hsite hany with hrule | ⟨hnot, hcases⟩
  · rw [hrule] at run hkind
    rw [Cover.asExpression, if_pos (List.mem_singleton.mp hkind)]
    exact run.alone rfl he
  have hk : m.kind ≠ .expression := fun hk => by
    rw [← hk, List.contains_iff_mem.mpr hkind] at hnot
    exact Bool.noConfusion hnot
  rw [Cover.asExpression, if_neg hk]
  refine Run.node_iff.mpr ⟨[m], rfl, ?_⟩
  rcases hcases with hlevel | rfl | rfl | hform | rfl | hvariable | rfl | hremove
  · have hstands : ∀ r ∈ Grammar.disjunction :: Grammar.levels, r.standsAlone false = true := by
      decide
    have hrun := run.alone (hstands _ hlevel) he
    rcases List.mem_cons.mp hlevel with hrule | hlevel
    · exact hrule ▸ hrun
    · exact hrun.disjunction_of_level (List.mem_cons_of_mem _ hlevel) he
  · have hsign := run.next_alone rfl (hknown _ rfl) he
    exact Run.disjunction_of_level (r := Grammar.unary)
      (.yes hsign (run.alone rfl he)) (by simp [Grammar.levels]) he
  · have hnot := run.next_alone rfl (hknown _ rfl) he
    exact Run.disjunction_of_level (r := Grammar.negation)
      (.yes hnot (run.alone rfl he)) (by simp [Grammar.levels]) he
  · refine Run.disjunction_of_level (r := Grammar.atom) ?_ List.mem_cons_self he
    rcases List.mem_cons.mp hform with hrule | hform
    · rw [hrule] at run
      exact (run.alone rfl he).atom_of_countStar
    · obtain ⟨f, hf, hrule⟩ := List.mem_map.mp hform
      have hstands : ∀ f ∈ Grammar.atomForms, f.2.standsAlone false = true := by
        decide
      rw [← hrule] at run
      exact Run.atom_of_form hf (run.alone (hstands f hf) he)
  · refine Run.disjunction_of_level (r := Grammar.atom) ?_ List.mem_cons_self he
    exact (run.alone rfl he).atom_of_functionInvocation
      (run.dottedCall (Lookahead.identifier_of_dottedCall (hknown _ rfl)) _)
  · exact run.disjunction_of_variable hvariable he
  · exact run.disjunction_of_propertyToSet (hknown _ rfl) he
  · rw [hremove] at run
    exact run.disjunction_of_propertyToRemove he

end

/-! ### Nodes of parsed trees -/

namespace Cover

/-- That the text of a node is read as the lexemes of the node and nothing more. -/
def ReadsBack (m : Cover) : Prop :=
  ∃ us p, tokenize m.tree.text = .ok (us ++ [Lexeme.ending p]) ∧
    us.map Lexeme.content = m.own.map Lexeme.content

/-- That a fresh session on the text of a node finds the node, as an expression, and is
then at the end of the text. -/
def ParsesBack (m : Cover) : Prop :=
  ∃ s t p, Session.ofString m.tree.text = .ok s ∧
    s.expression = (.ok t, ⟨[Lexeme.ending p]⟩) ∧ t.unplaced = m.tree.asExpression.unplaced

namespace Of

variable {c : Cover} {source : String}

theorem readsBack (h : c.Of source) {m : Cover} (hm : m ∈ c.nodes) : m.ReadsBack := by
  have hown := h.own_infix hm
  have hchain := List.IsChain.infix h.isChain hown
  obtain ⟨us, p, htokens, hcontent⟩ :=
    tokenize_join (fun u hu => h.written u (hown.subset hu)) hchain
  exact ⟨us, p, by rwa [m.tree_text], hcontent⟩

theorem parsesBack (h : c.Of source) {m : Cover} (hm : m ∈ c.nodes)
    (hvalue : m.kind.isValue = true) : m.ParsesBack := by
  obtain ⟨us, q, htokens, hcontent⟩ := h.readsBack hm
  obtain ⟨site, hsite, hmade⟩ := h.exists_site hm
  have halone : Run Grammar.expression m.own [Lexeme.ending q] [m.asExpression] :=
    hmade.run_expression hsite hvalue rfl
  have hparse := halone.parse rfl rfl
  have hahead : (us ++ [Lexeme.ending q]).map Lexeme.content =
      (m.own ++ [Lexeme.ending q]).map Lexeme.content := by
    rw [List.map_append, List.map_append, hcontent]
  have hunplaced := Grammar.expression.unplaced_parse_congr hahead
  rw [hparse] at hunplaced
  rcases hdone : Grammar.expression.parse (us ++ [Lexeme.ending q]) with
    ⟨ts, taken, rest⟩ | ⟨e, rest⟩ <;> rw [hdone] at hunplaced
  case failed => exact Outcome.noConfusion hunplaced
  case done =>
    simp only [Outcome.unplaced_done, Outcome.done.injEq] at hunplaced
    obtain ⟨hts, -, hrest⟩ := hunplaced
    obtain ⟨t, ht, rfl⟩ : ∃ t, t.unplaced = m.asExpression.tree.unplaced ∧ ts = [t] := by
      obtain ⟨t, rfl, ht⟩ := List.map_eq_singleton_iff.mp hts
      exact ⟨t, ht, rfl⟩
    have hsplit := (Run.of_parse rfl hdone).1
    have hend : rest = [Lexeme.ending q] := by
      obtain ⟨l, rfl, -⟩ := List.map_eq_singleton_iff.mp hrest
      exact (List.append_inj_right' hsplit rfl).symm
    refine ⟨⟨us ++ [Lexeme.ending q]⟩, t, q, by rw [Session.ofString, htokens], ?_, ?_⟩
    · rw [Session.expression, Session.request, hdone, hend]
      rfl
    · rw [ht, m.tree_asExpression]

end Of

/-- Nodes that are read back have the same text if and only if they consist of the same
lexemes. -/
theorem text_eq_iff {m m' : Cover} (hm : m.ReadsBack) (hm' : m'.ReadsBack) :
    m.tree.text = m'.tree.text ↔ m.own.map Lexeme.content = m'.own.map Lexeme.content := by
  constructor
  · intro htext
    obtain ⟨us, p, htokens, hcontent⟩ := hm
    obtain ⟨us', p', htokens', hcontent'⟩ := hm'
    rw [htext, htokens', Except.ok.injEq] at htokens
    obtain ⟨rfl, -⟩ := List.append_inj' htokens rfl
    rw [← hcontent, ← hcontent']
  · intro hcontent
    rw [tree_text, tree_text, Lexeme.join_congr hcontent]

/-- Nodes that are parsed back from the same text are the same expression. -/
theorem asExpression_congr {m m' : Cover} (hm : m.ParsesBack) (hm' : m'.ParsesBack)
    (htext : m.tree.text = m'.tree.text) :
    m.tree.asExpression.unplaced = m'.tree.asExpression.unplaced := by
  obtain ⟨s, t, p, hs, hexpr, ht⟩ := hm
  obtain ⟨s', t', p', hs', hexpr', ht'⟩ := hm'
  rw [htext, hs', Except.ok.injEq] at hs
  subst hs
  rw [hexpr', Prod.mk.injEq, Except.ok.injEq] at hexpr
  rw [← ht, ← ht', hexpr.1]

end Cover

/-- An expression that is a variable, up to an outer `Expression` node, is just that node
over the variable. -/
theorem Tree.children_of_asExpression_eq {t v : Tree} (ht : t.kind.isExpression = true)
    (hv : v.kind = .variableName) (h : t.asExpression.unplaced = v.asExpression.unplaced) :
    t.kind = .expression ∧ t.children.map unplaced = [v.unplaced] := by
  have hchildren := congrArg children h
  rw [unplaced_asExpression, unplaced_asExpression, asExpression, asExpression, is_unplaced,
    is_unplaced] at hchildren
  have hv' : ¬v.is .expression = true := by simp [is, hv]
  rw [if_neg hv'] at hchildren
  by_cases hk : t.is .expression = true
  · rw [if_pos hk, unplaced_children] at hchildren
    exact ⟨eq_of_beq hk, hchildren⟩
  · rw [if_neg hk, List.cons.injEq] at hchildren
    have hkind : t.kind = v.kind := by simpa using congrArg kind hchildren.1
    rw [hkind, hv] at ht
    exact Bool.noConfusion ht

/-- **The text of a node is a faithful key.** Every parsed tree is that of a cover, whose
nodes are the nodes of the tree with their lexemes. The text of each node is read back as
these lexemes, so another node of any parsed tree has this text if and only if it consists of
the same lexemes. An expression or a variable is parsed back from its text; so two of them
with one text are the same expression but for an outer `Expression` node, and an expression has
the text of a variable only if it is an `Expression` node over just that variable. -/
theorem text_faithful {source : String} {t : Tree} (h : parse source = .ok t) :
    (∃ c : Cover, c.Of source ∧ c.tree = t) ∧
      ∀ c : Cover, c.Of source → t.descendants = c.nodes.map Cover.tree ∧ ∀ m ∈ c.nodes,
        m.ReadsBack ∧ (m.kind.isValue = true → m.ParsesBack) ∧
          ∀ (source' : String) (c' : Cover), c'.Of source' → ∀ m' ∈ c'.nodes,
            (m.tree.text = m'.tree.text ↔
                m.own.map Lexeme.content = m'.own.map Lexeme.content) ∧
              (m.tree.text = m'.tree.text → m.kind.isValue = true → m'.kind.isValue = true →
                m.tree.asExpression.unplaced = m'.tree.asExpression.unplaced) ∧
              (m.tree.text = m'.tree.text → m.kind.isExpression = true →
                m'.kind = .variableName →
                m.kind = .expression ∧ m.tree.children.map Tree.unplaced = [m'.tree.unplaced]) := by
  refine ⟨cover_of_parse h, fun c hc => ?_⟩
  have htree : c.tree = t := by simpa [hc.parsed] using h
  refine ⟨by rw [← htree, c.descendants_tree], fun m hm => ?_⟩
  refine ⟨hc.readsBack hm, hc.parsesBack hm, fun source' c' hc' m' hm' => ?_⟩
  refine ⟨Cover.text_eq_iff (hc.readsBack hm) (hc'.readsBack hm'), ?_, ?_⟩
  · intro htext hvalue hvalue'
    exact Cover.asExpression_congr (hc.parsesBack hm hvalue) (hc'.parsesBack hm' hvalue') htext
  · intro htext hexpr hvariable
    have hvalue : m.kind.isValue = true := by rw [NodeKind.isValue, hexpr, Bool.true_or]
    have hvalue' : m'.kind.isValue = true := by rw [hvariable]; rfl
    have hsame :=
      Cover.asExpression_congr (hc.parsesBack hm hvalue) (hc'.parsesBack hm' hvalue') htext
    have hroot := Tree.children_of_asExpression_eq (by simpa using hexpr) (by simpa using hvariable)
      hsame
    exact ⟨by simpa using hroot.1, hroot.2⟩

/-- The nodes of a query with a sum and a call are read back from their texts. -/
theorem text_faithful_of_count :
    ∃ c : Cover, c.Of "RETURN count( n ) + 1" ∧ c.tree.text = "RETURN count(n)+1" ∧
      ∀ m ∈ c.nodes, m.ReadsBack ∧ (m.kind.isValue = true → m.ParsesBack) := by
  obtain ⟨t, ht, htext⟩ : ∃ t, parse "RETURN count( n ) + 1" = .ok t ∧
      t.text = "RETURN count(n)+1" :=
    exists_parse_eq_ok (by decide +kernel)
  obtain ⟨⟨c, hc, rfl⟩, hnodes⟩ := text_faithful ht
  exact ⟨c, hc, htext, fun m hm => ⟨((hnodes c hc).2 m hm).1, ((hnodes c hc).2 m hm).2.1⟩⟩

end BindCheck

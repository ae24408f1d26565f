import BindCheck.Proofs.ChildKinds

/-!
# BindCheck.Proofs.KindsBelow

**What may stand below a node of a kind.** The schema names the kinds of the children of a node
(`Tree.Parsed.kinds_mem_schema`), so kinds that it does not lead out of are not left below a node
either (`Tree.Parsed.kind_mem_of_closed`). That some kinds are closed in this way is read off the
schema by computation.

In this way parts of a query are kept apart: no pattern occurs in an expression or a filter
(`NodeKind.ofConditions`), and items of updates occur in no pattern and in no clause that is no
update (`NodeKind.ofOtherClauses`).
-/

namespace RegularExpression

variable {α : Type}

/-- The letters of an expression. -/
def letters : RegularExpression α → List α
  | zero | epsilon => []
  | char a => [a]
  | plus p q | comp p q => p.letters ++ q.letters
  | star p => p.letters

theorem mem_letters {p : RegularExpression α} {w : List α} (h : w ∈ p.matches') :
    ∀ a ∈ w, a ∈ p.letters := by
  induction p generalizing w with
  | zero => exact absurd h (Language.notMem_zero w)
  | epsilon =>
      obtain rfl : w = [] := h
      exact fun a ha => absurd ha List.not_mem_nil
  | char b =>
      obtain rfl := Set.mem_singleton_iff.mp h
      exact fun a ha => ha
  | plus p q ihp ihq =>
      rcases mem_matches'_add.mp h with h | h
      · exact fun a ha => List.mem_append_left _ (ihp h a ha)
      · exact fun a ha => List.mem_append_right _ (ihq h a ha)
  | comp p q ihp ihq =>
      obtain ⟨u, hu, v, hv, rfl⟩ := mem_matches'_mul.mp h
      intro a ha
      rcases List.mem_append.mp ha with ha | ha
      · exact List.mem_append_left _ (ihp hu a ha)
      · exact List.mem_append_right _ (ihq hv a ha)
  | star p ih =>
      rw [matches'_star] at h
      obtain ⟨S, rfl, hS⟩ := h
      intro a ha
      obtain ⟨u, hu, ha⟩ := List.mem_flatten.mp ha
      exact ih (hS u hu) a ha

end RegularExpression

namespace BindCheck

open RegularExpression

/-! ### Kinds that the schema does not lead out of -/

namespace NodeKind

/-- That some kinds have all the kinds of their children among them. -/
def Closed (K : List NodeKind) : Prop := ∀ k ∈ K, ∀ k' ∈ k.schema.letters, k' ∈ K

/-- The kinds of an expression and of the nodes below it. -/
def ofExpressions : List NodeKind :=
  ladder ++ [.expression, .propertyLookup, .propertyKeyName, .listOperator, .nodeLabels, .nodeLabel,
    .caseAlternative, .functionName]

/-- The kinds of a filter, of what a pattern says beside its names, and of the nodes below. -/
def ofConditions : List NodeKind :=
  ofExpressions ++ [.relationshipTypes, .rangeLiteral, .properties, .whereClause]

/-- The kinds of a clause that binds the names of a pattern, and of the nodes below it. -/
def ofPatterns : List NodeKind :=
  ofConditions ++ [.matchClause, .createClause, .pattern, .patternPart, .patternElement,
    .nodePattern, .relationshipPattern, .relationshipDetail]

/-- The kinds of a clause that updates nothing that is there, and of the nodes below it. -/
def ofOtherClauses : List NodeKind :=
  ofPatterns ++ [.unwindClause, .inQueryCall, .standaloneCall, .procedureInvocation, .procedureName,
    .yieldItems, .yieldItem, .procedureResultField, .deleteClause, .withClause, .returnClause,
    .projectionBody, .projectionItems, .projectionItem, .orderClause, .sortItem, .skipClause,
    .limitClause]

theorem closed_ofConditions : Closed ofConditions := by
  unfold Closed
  decide +kernel

theorem closed_ofPatterns : Closed ofPatterns := by
  unfold Closed
  decide +kernel

theorem closed_ofOtherClauses : Closed ofOtherClauses := by
  unfold Closed
  decide +kernel

end NodeKind

/-! ### Nodes of parsed trees -/

namespace Tree

mutual

/-- Induction over a tree: what holds of a node if it holds of its children holds of all. -/
theorem induction {motive : Tree → Prop}
    (node : ∀ t : Tree, (∀ c ∈ t.children, motive c) → motive t) : ∀ t : Tree, motive t
  | ⟨k, x, p, cs⟩ => node ⟨k, x, p, cs⟩ (inductionAll node cs)

theorem inductionAll {motive : Tree → Prop}
    (node : ∀ t : Tree, (∀ c ∈ t.children, motive c) → motive t) :
    ∀ cs : List Tree, ∀ c ∈ cs, motive c
  | [] => fun _ hc => absurd hc List.not_mem_nil
  | c :: cs => List.forall_mem_cons.mpr ⟨induction node c, inductionAll node cs⟩

end

section

variable {k : NodeKind} {cs : List Tree}

theorem eq_singleton_of_kinds (h : cs.map kind ∈ (char k).matches') :
    ∃ c, cs = [c] ∧ c.kind = k :=
  List.map_eq_singleton_iff.mp (Set.mem_singleton_iff.mp h)

theorem eq_nil_or_singleton_of_kinds (h : cs.map kind ∈ (NodeKind.optional (char k)).matches') :
    cs = [] ∨ ∃ c, cs = [c] ∧ c.kind = k := by
  rcases mem_matches'_add.mp h with h | h
  · exact .inr (eq_singleton_of_kinds h)
  · exact .inl (List.map_eq_nil_iff.mp (Set.mem_singleton_iff.mp h))

theorem eq_append_of_kinds {p q : RegularExpression NodeKind}
    (h : cs.map kind ∈ (p * q).matches') :
    ∃ cs₁ cs₂, cs = cs₁ ++ cs₂ ∧ cs₁.map kind ∈ p.matches' ∧ cs₂.map kind ∈ q.matches' := by
  obtain ⟨u, hu, v, hv, huv⟩ := mem_matches'_mul.mp h
  obtain ⟨cs₁, cs₂, hcs, rfl, rfl⟩ := List.map_eq_append_iff.mp huv.symm
  exact ⟨cs₁, cs₂, hcs, hu, hv⟩

theorem eq_singleton_of_oneOf {ks : List NodeKind}
    (h : cs.map kind ∈ (NodeKind.oneOf ks).matches') : ∃ c, cs = [c] ∧ c.kind ∈ ks := by
  induction ks with
  | nil => exact absurd h (Language.notMem_zero _)
  | cons k ks ih =>
      rcases mem_matches'_add.mp h with h | h
      · obtain ⟨c, rfl, hc⟩ := eq_singleton_of_kinds h
        exact ⟨c, rfl, hc ▸ List.mem_cons_self⟩
      · obtain ⟨c, rfl, hc⟩ := ih h
        exact ⟨c, rfl, List.mem_cons_of_mem _ hc⟩

end

/-- A node of a tree is the root, or a node of a child. -/
theorem mem_descendants_iff {n t : Tree} :
    n ∈ t.descendants ↔ n = t ∨ ∃ c ∈ t.children, n ∈ c.descendants := by
  rw [descendants_eq, preorderAll_eq_flatMap, List.mem_cons, List.mem_flatMap]

namespace Parsed

variable {t : Tree}

/-- The kinds of the children of a node are as the schema says. -/
theorem kinds_mem_schema (h : t.Parsed) : t.children.map Tree.kind ∈ t.kind.schema.matches' := by
  obtain ⟨source, u, hparse, ht⟩ := h
  obtain ⟨c, hc, rfl⟩ := cover_of_parse hparse
  obtain ⟨p, -, run⟩ := hc.run
  rw [c.descendants_tree, ← Cover.nodesAll_singleton] at ht
  obtain ⟨m, hm, rfl⟩ := List.mem_map.mp ht
  have hfits : m.Fits := run.fits (Rule.holds_none _) Grammar.schemaChecks.cypher m hm
  have hkinds : m.tree.children.map Tree.kind = m.children.map Cover.kind := by
    rw [m.tree_children, List.map_map]
    exact List.map_congr_left fun c _ => c.tree_kind
  rw [hkinds, m.tree_kind]
  exact hfits

theorem kind_mem_letters (h : t.Parsed) {c : Tree} (hc : c ∈ t.children) :
    c.kind ∈ t.kind.schema.letters :=
  mem_letters h.kinds_mem_schema _ (List.mem_map_of_mem hc)

/-- **Kinds that the schema does not lead out of are not left below a node.** -/
theorem kind_mem_of_closed {K : List NodeKind} (hK : NodeKind.Closed K) (h : t.Parsed)
    (ht : t.kind ∈ K) : ∀ n ∈ t.descendants, n.kind ∈ K := by
  induction t using Tree.induction with
  | node t ih =>
      intro n hn
      rcases mem_descendants_iff.mp hn with rfl | ⟨c, hc, hn⟩
      · exact ht
      · exact ih c hc (h.of_mem_children hc) (hK _ ht _ (h.kind_mem_letters hc)) n hn

/-- A node without kinds below it is a leaf. -/
theorem children_eq_nil (h : t.Parsed) (ht : t.kind.schema.letters = []) : t.children = [] := by
  rw [List.eq_nil_iff_forall_not_mem]
  intro c hc
  have hletters := h.kind_mem_letters hc
  rw [ht] at hletters
  exact List.not_mem_nil hletters

end Parsed

end Tree

end BindCheck

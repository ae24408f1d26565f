import BindCheck.Proofs.Lossless
import BindCheck.Proofs.ReadRegions

/-!
# BindCheck.Proofs.DocumentOrder

**Findings stand in the order of the text, each at a name that is written there.** What is found
are unresolved variables, in the order of the tree. A variable is a leaf, and the leaves of a
parse, read in the order of the tree, are lexemes of the text that have kept their order
(`Run.leafLexemes_sublist`): nodes share lexemes only where one stands above the other. So the
findings are about some of the lexemes of the text, in their order, and lexemes stand one behind
the other.
-/

namespace BindCheck

/-! ### The leaves of a run -/

namespace Cover

/-- The lexemes of the leaves of some nodes. -/
def leafLexemes (cs : List Cover) : List Lexeme :=
  ((nodesAll cs).filter fun m => m.children.isEmpty).flatMap own

theorem leafLexemes_append (cs cs' : List Cover) :
    leafLexemes (cs ++ cs') = leafLexemes cs ++ leafLexemes cs' := by
  rw [leafLexemes, nodesAll_append, List.filter_append, List.flatMap_append]
  rfl

/-- A node over others is no leaf itself. -/
theorem leafLexemes_over (k : NodeKind) (us : List Lexeme) (c : Cover) (cs : List Cover) :
    leafLexemes [⟨k, us, c :: cs⟩] = leafLexemes (c :: cs) := by
  rw [leafLexemes, nodesAll_singleton, nodes, List.filter_cons_of_neg (by simp)]
  rfl

theorem leafLexemes_leaf (k : NodeKind) (us : List Lexeme) :
    leafLexemes [⟨k, us, []⟩] = us := by
  simp [leafLexemes, nodesAll, nodes]

end Cover

theorem Shape.leafLexemes_cover_sublist (s : Shape) {us : List Lexeme} {cs : List Cover}
    (h : (Cover.leafLexemes cs).Sublist us) :
    (Cover.leafLexemes (s.cover us cs)).Sublist us := by
  cases hk : s.kindOver cs with
  | none => rwa [cover_of_kindOver_none hk]
  | some k =>
      rw [cover_of_kindOver hk]
      cases cs with
      | nil => rw [Cover.leafLexemes_leaf]
      | cons c cs => rwa [Cover.leafLexemes_over]

/-- **The leaves of a run are lexemes of the run, in their order.** -/
theorem Run.leafLexemes_sublist {r : Rule} {us vs : List Lexeme} {cs : List Cover}
    (h : Run r us vs cs) : (Cover.leafLexemes cs).Sublist us := by
  induction h with
  | empty | token | demand | done => exact List.nil_sublist _
  | seq _ _ ih₁ ih₂ | step _ _ _ ih₁ ih₂ | sepBy _ _ ih₁ ih₂ =>
      rw [Cover.leafLexemes_append]
      exact ih₁.append ih₂
  | yes _ _ ih | no _ _ ih | call _ ih | attemptFirst _ _ ih | attemptOther _ ih => exact ih
  | wrap _ ih => exact Shape.leafLexemes_cover_sublist _ ih
  | forkYes _ _ _ ih₁ ih₂ | forkNo _ _ _ ih₁ ih₂ =>
      apply Shape.leafLexemes_cover_sublist
      rw [Cover.leafLexemes_append]
      exact ih₁.append ih₂

/-! ### Variables -/

/-- The lexeme that a finding is about. -/
def Diagnostic.lexeme (d : Diagnostic) : Lexeme := ⟨.identifier d.name, d.name, d.position⟩

namespace Cover.Of

variable {c : Cover} {source : String}

/-- A variable is over the lexeme that a finding about it names. -/
theorem own_eq_lexeme (h : c.Of source) {m : Cover} (hm : m ∈ c.nodes)
    (hk : m.kind = .variableName) : m.own = [m.tree.undefined.lexeme] := by
  obtain ⟨l, n, hown, hl⟩ := h.own_of_variable hm hk
  have hwritten : l.Written :=
    h.written l ((h.own_infix hm).subset (hown ▸ List.mem_singleton_self l))
  obtain rfl := hwritten.eq_text hl
  obtain ⟨k, us, cs⟩ := m
  obtain rfl : us = [l] := hown
  have htext : Lexeme.join [l] = l.text := l.join_singleton
  have hlexeme : (Cover.mk k [l] cs).tree.undefined.lexeme =
      ⟨.identifier (Lexeme.join [l]), Lexeme.join [l], l.position⟩ := rfl
  rw [hlexeme, htext, ← hl]

/-- The variables of a parse, in the order of the tree, are lexemes in the order of the text. -/
theorem variables_sublist (h : c.Of source) :
    ((c.nodes.filter fun m => m.kind == .variableName).flatMap own).Sublist c.own := by
  obtain ⟨p, -, run⟩ := h.run
  have hleaf : ∀ m ∈ c.nodes, m.kind = .variableName → m.children = [] := by
    intro m hm hk
    have hmem : m.tree ∈ c.tree.descendants := by
      rw [descendants_tree]
      exact List.mem_map_of_mem hm
    have hparsed : m.tree.Parsed := ⟨source, c.tree, h.parsed, hmem⟩
    have hchildren := hparsed.children_of_variable (by rw [tree_kind, hk])
    rwa [tree_children, List.map_eq_nil_iff] at hchildren
  have hamong : (c.nodes.filter fun m => m.kind == .variableName) =
      (c.nodes.filter fun m => m.children.isEmpty).filter fun m => m.kind == .variableName := by
    rw [List.filter_filter]
    apply List.filter_congr
    intro m hm
    by_cases hk : m.kind = .variableName
    · simp [hk, hleaf m hm hk]
    · simp [hk]
  have hleaves := run.leafLexemes_sublist
  rw [leafLexemes, nodesAll_singleton] at hleaves
  rw [hamong]
  exact (List.filter_sublist.flatMap own).trans hleaves

/-- The lexemes that findings about the unresolved variables name stand in the text, in this
order. -/
theorem unresolved_sublist (h : c.Of source) :
    (c.tree.unresolved.map fun v => v.undefined.lexeme).Sublist c.own := by
  have hvariables : c.tree.unresolved.Sublist
      ((c.nodes.filter fun m => m.kind == .variableName).map tree) := by
    have hsub := (Tree.unresolved_sublist h.parsed).filter fun v => v.kind == .variableName
    rw [descendants_tree, List.filter_map, List.filter_eq_self.mpr fun v hv =>
      beq_iff_eq.mpr (Tree.kind_of_mem_unresolved hv)] at hsub
    simpa only [Function.comp_def, tree_kind] using hsub
  have hlexemes : ((c.nodes.filter fun m => m.kind == .variableName).map tree).map
      (fun v : Tree => v.undefined.lexeme) =
        (c.nodes.filter fun m => m.kind == .variableName).flatMap own := by
    rw [List.map_map, List.map_eq_flatMap]
    apply List.flatMap_congr
    intro m hm
    obtain ⟨hm, hk⟩ := List.mem_filter.mp hm
    exact (h.own_eq_lexeme hm (eq_of_beq hk)).symm
  have hmapped := hvariables.map fun v : Tree => v.undefined.lexeme
  rw [hlexemes] at hmapped
  exact hmapped.trans h.variables_sublist

end Cover.Of

/-! ### Findings -/

theorem Tree.unsupported?_of_analyze {t : Tree} {a : Analysis} (h : t.analyze = .ok a) :
    t.unsupported? = none := by
  cases hu : t.unsupported? with
  | none => rfl
  | some u =>
      rw [analyze, hu] at h
      cases h

/-- **Findings come in the order of the text, each at a name that is written there.** No place
is reported twice, and what a finding names is a whole lexeme, never a longer expression. -/
theorem analyze_ordered {source : String} {t : Tree} {a : Analysis} (h : parse source = .ok t)
    (ha : t.analyze = .ok a) :
    ∃ ls, tokenize source = .ok ls ∧
      (a.diagnostics.map Diagnostic.position).Pairwise Position.Before ∧
        ∀ d ∈ a.diagnostics, ⟨.identifier d.name, d.name, d.position⟩ ∈ ls := by
  have hanalyze := Tree.analyze_of_supported h (Tree.unsupported?_of_analyze ha)
  rw [ha, Except.ok.injEq] at hanalyze
  obtain ⟨c, hc, rfl⟩ := cover_of_parse h
  obtain ⟨p, hls, -⟩ := hc.run
  have hlexemes : (a.diagnostics.map Diagnostic.lexeme).Sublist (c.own ++ [Lexeme.ending p]) := by
    rw [hanalyze, List.map_map]
    exact hc.unresolved_sublist.trans (List.sublist_append_left _ _)
  refine ⟨_, hls, ?_, ?_⟩
  · have hpositions := hlexemes.map Lexeme.position
    rw [List.map_map] at hpositions
    exact (pairwise_before_of_tokenize hls).sublist hpositions
  · intro d hd
    exact hlexemes.subset (List.mem_map_of_mem hd)

/-- A column hides what stands in it; a name in backquotes is found as it is written. -/
theorem analyze_ordered_of_lines :
    ∃ t a, parse "UNWIND [b] AS x WITH count(x), a\nRETURN count(x), `a b`, x ORDER BY a + k" = .ok t ∧
      t.analyze = .ok a ∧
      a.diagnostics.map Diagnostic.name = ["b", "a", "`a b`", "x", "k"] ∧
      (a.diagnostics.map Diagnostic.position).Pairwise Position.Before := by
  obtain ⟨t, ht, hnames⟩ : ∃ t,
      parse "UNWIND [b] AS x WITH count(x), a\nRETURN count(x), `a b`, x ORDER BY a + k" = .ok t ∧
        t.analyze.toOption.map (·.diagnostics.map Diagnostic.name) =
          some ["b", "a", "`a b`", "x", "k"] :=
    exists_parse_eq_ok (by decide +kernel)
  cases ha : t.analyze with
  | error u => rw [ha] at hnames; exact absurd hnames (by simp [Except.toOption])
  | ok a =>
      rw [ha] at hnames
      obtain ⟨ls, -, hbefore, -⟩ := analyze_ordered ht ha
      exact ⟨t, a, ht, ha, Option.some.inj hnames, hbefore⟩

end BindCheck

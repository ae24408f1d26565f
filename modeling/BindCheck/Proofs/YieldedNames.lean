import BindCheck.Proofs.Occurrences

/-!
# BindCheck.Proofs.YieldedNames

**What a call within a query makes of its `YIELD`.** Behind the word stands a star or a row of
results, and the first token decides which (`Run.yieldItems_cases`). Results bind one name each,
so the row binds a name at least, and its text does not begin with a star; **a star binds
nothing** (`Tree.YieldsNames`, `Tree.YieldsAll`).

Both forms of a call share the rule. In a call of its own a star says that all results are
returned; **in a call within a query it is accepted too**, and the names of the results are then
not bound for the clauses behind the call (`star_within_query`).
-/

namespace BindCheck

namespace Grammar

/-- The results of a call, one by one, with or without a filter. -/
def namedResults : Rule :=
  .row [.sepBy yieldItem (.symbol .comma), .whenNext (.keyword .WHERE) whereClause]

/-- What a call yields is written in one form. -/
theorem yieldItems_site {site : Site} (h : site ∈ sites) (hk : .yieldItems ∈ site.rule.kinds) :
    site.rule = yieldItems := by
  revert site
  decide +kernel

/-- A row of results begins with a name. -/
theorem firsts_namedResults : ∀ t ∈ namedResults.firsts, t = .name ∨ t = .identifier := by
  decide

end Grammar

theorem Terminal.isWord_of_name {t : Terminal} {u : Token} (ht : t = .name ∨ t = .identifier)
    (hu : t.accepts u = true) : u.isWord = true := by
  rcases ht with rfl | rfl <;> cases u <;> first | rfl | exact Bool.noConfusion hu

/-! ### The two forms -/

namespace Run

variable {us vs : List Lexeme} {cs : List Cover}

/-- **A row of results begins with a word, and there is a result.** -/
theorem namedResults_spec (h : Run Grammar.namedResults us vs cs) :
    (∃ l us', us = l :: us' ∧ l.token.isWord = true) ∧ ∃ c ∈ cs, c.kind = .yieldItem := by
  constructor
  · have hne : us ≠ [] := h.taken_ne_nil (Rule.holds_none _) (by decide)
    obtain ⟨l, us', rfl⟩ := List.exists_cons_of_ne_nil hne
    obtain ⟨t, ht, hl⟩ := h.head_firsts l rfl
    exact ⟨l, us', rfl, Terminal.isWord_of_name (Grammar.firsts_namedResults t ht) hl⟩
  · obtain ⟨_, _, _, _, -, rfl, hresults, -⟩ := seq_iff.mp h
    obtain ⟨_, _, _, _, -, rfl, hfirst, -⟩ := sepBy_iff.mp hresults
    obtain ⟨_, rfl, -⟩ := node_iff.mp hfirst
    exact ⟨_, List.mem_append_left _ (List.mem_append_left _ (List.mem_singleton_self _)), rfl⟩

/-- **Behind a `YIELD` stands a star or a row of results.** -/
theorem yieldItems_cases {m : Cover} (h : Run Grammar.yieldItems us vs [m]) :
    (∃ l, m.own = [l] ∧ l.token = .symbol .star ∧ m.children = []) ∨
      (∃ l us', m.own = l :: us' ∧ l.token.isWord = true) ∧
        ∃ c ∈ m.children, c.kind = .yieldItem := by
  obtain ⟨cs, hm, hbody⟩ := node_iff.mp h
  obtain ⟨rfl, -⟩ := List.cons.inj hm
  rcases branch_iff.mp hbody with ⟨-, hstar⟩ | ⟨-, hresults⟩
  · obtain ⟨l, hus, hl, hcs⟩ := token_iff.mp hstar
    refine .inl ⟨l, hus, ?_, hcs⟩
    generalize l.token = t at hl
    cases t <;> first | exact Bool.noConfusion hl | exact congrArg _ (eq_of_beq hl).symm
  · exact .inr hresults.namedResults_spec

end Run

/-! ### Nodes of parsed trees -/

namespace Tree

/-- That a call takes all results of a procedure, and binds none of them. -/
structure YieldsAll (call y : Tree) : Prop where
  text : y.text = "*"
  leaf : y.children = []
  /-- The scope behind the call is the scope before it. -/
  bindsNothing : ∀ s : State, (call.resolveCall s).1.scope = s.scope

/-- That a call names the results that it takes. -/
structure YieldsNames (call y : Tree) : Prop where
  text : y.text.toList.head? ≠ some '*'
  /-- There is a result. -/
  results : y.childrenOf .yieldItem ≠ []
  /-- The variable of each result is bound behind the call. -/
  binds : ∀ i ∈ y.childrenOf .yieldItem, ∃ v, i.childrenOf .variableName = [v] ∧
    ∀ s : State, (call.resolveCall s).1.scope.binds v.text = true

namespace Parsed

variable {t y : Tree}

/-- A call has its results as its only child of the kind. -/
theorem child?_yieldItems (h : t.Parsed) (ht : t.kind = .inQueryCall) (hy : y ∈ t.children)
    (hk : y.kind = .yieldItems) : t.child? .yieldItems = some y := by
  have hkinds := h.kinds_mem_schema
  rw [ht] at hkinds
  obtain ⟨cs, cs', hchildren, hprocedure, hresults⟩ := eq_append_of_kinds hkinds
  obtain ⟨p, rfl, hp⟩ := eq_singleton_of_kinds hprocedure
  rw [hchildren] at hy
  have hyp : y ≠ p := by
    rintro rfl
    exact NodeKind.noConfusion (hk.symm.trans hp)
  rcases eq_nil_or_singleton_of_kinds hresults with rfl | ⟨r, rfl, hr⟩
  · exact absurd (List.mem_singleton.mp hy) hyp
  · obtain rfl : y = r := by simpa [hyp] using hy
    simp [child?, hchildren, is, hp, hk]

/-- **The names of the results are all that a call binds.** -/
theorem scope_resolveCall (h : t.Parsed) (ht : t.kind = .inQueryCall) (hy : y ∈ t.children)
    (hk : y.kind = .yieldItems) (s : State) :
    (t.resolveCall s).1.scope = s.scope.add y.defining := by
  rw [resolveCall, h.child?_yieldItems ht hy hk]
  rfl

end Parsed

end Tree

/-- Of lists whose elements correspond one by one, the second has what belongs to an element of
the first. -/
theorem exists_mem_of_forall₂ {α β : Type} {R : α → β → Prop} {xs : List α} {ys : List β}
    (h : List.Forall₂ R xs ys) {x : α} (hx : x ∈ xs) : ∃ y ∈ ys, R x y := by
  induction h with
  | nil => exact absurd hx List.not_mem_nil
  | cons hR _ ih =>
      rcases List.mem_cons.mp hx with rfl | hx
      · exact ⟨_, List.mem_cons_self, hR⟩
      · obtain ⟨y, hy, hxy⟩ := ih hx
        exact ⟨y, List.mem_cons_of_mem _ hy, hxy⟩

/-- A star is written in one way. -/
theorem Lexeme.Written.text_of_star {l : Lexeme} (h : l.Written) (hl : l.token = .symbol .star) :
    l.text = "*" := by
  have hspells := h.spells
  rw [hl] at hspells
  have hrow := hspells.mem_spellings
  simp [Symbol.spellings] at hrow
  rw [← String.toList_inj, hrow]
  rfl

/-- **The two forms of a `YIELD` in a source.** -/
theorem Cover.Of.yieldItems_cases {c m : Cover} {source : String} (h : c.Of source)
    (hm : m ∈ c.nodes) (hk : m.kind = .yieldItems) :
    (m.tree.text = "*" ∧ m.tree.children = []) ∨
      m.tree.text.toList.head? ≠ some '*' ∧ m.tree.childrenOf .yieldItem ≠ [] := by
  have hwritten : ∀ u ∈ m.own, u.Written := fun u hu => h.written u ((h.own_infix hm).subset hu)
  obtain ⟨site, hsite, vs, -, hmade⟩ := h.exists_site hm
  have run := hmade.run
  rw [Grammar.yieldItems_site hsite (hk ▸ hmade.kind_mem)] at run
  rw [m.tree_text, m.tree_children, Tree.childrenOf, m.tree_children]
  rcases run.yieldItems_cases with ⟨l, hown, hl, hcs⟩ | ⟨⟨l, us, hown, hl⟩, r, hr, hrk⟩
  · have htext := (hwritten l (by simp [hown])).text_of_star hl
    exact .inl ⟨by rw [hown, Lexeme.join_singleton, htext], by rw [hcs]; rfl⟩
  · have hw : l.Written := hwritten l (by simp [hown])
    refine .inr ⟨by rw [hown, Lexeme.head?_join hw]; exact hw.head?_ne_star hl, ?_⟩
    have hmem : r.tree ∈ (m.children.map Cover.tree).filter (·.is .yieldItem) :=
      List.mem_filter.mpr ⟨List.mem_map_of_mem hr, beq_iff_eq.mpr (r.tree_kind.trans hrk)⟩
    exact List.ne_nil_of_mem hmem

/-- **A call within a query that yields anything names its results, each of which is bound behind
it, or has just a star, and then nothing is.** -/
theorem yields_names_or_star {source : String} {t : Tree} (h : parse source = .ok t) :
    ∀ n ∈ t.descendants, n.kind = .inQueryCall → ∀ y ∈ n.children, y.kind = .yieldItems →
      n.YieldsAll y ∨ n.YieldsNames y := by
  obtain ⟨c, hc, rfl⟩ := cover_of_parse h
  intro n hn hk y hy hyk
  have hparsed : n.Parsed := ⟨source, c.tree, h, hn⟩
  have hyparsed := hparsed.of_mem_children hy
  obtain ⟨m, hm, rfl⟩ : ∃ m ∈ c.nodes, m.tree = y := by
    have hmem : y ∈ c.tree.descendants :=
      (Tree.descendants_sublist hn).subset (Tree.mem_descendants_of_mem_children hy)
    rw [c.descendants_tree] at hmem
    exact List.mem_map.mp hmem
  have hscope := hparsed.scope_resolveCall hk hy hyk
  have hnames := hyparsed.defining_of_yieldItems hyk
  rcases hc.yieldItems_cases hm (m.tree_kind ▸ hyk) with ⟨htext, hleaf⟩ | ⟨htext, hresults⟩
  · refine .inl ⟨htext, hleaf, fun s => ?_⟩
    rw [Tree.childrenOf, hleaf] at hnames
    rw [hscope, List.forall₂_nil_left_iff.mp hnames]
    rfl
  · refine .inr ⟨htext, hresults, fun i hi => ?_⟩
    obtain ⟨x, hx, v, hv, rfl⟩ := exists_mem_of_forall₂ hnames hi
    exact ⟨v, hv, fun s => by
      rw [hscope, Scope.binds_add]
      exact .inr (List.mem_map_of_mem hx)⟩

/-- The first call within a query, and what it yields. -/
theorem exists_call_of_parse {source x : String}
    (h : (parse source).toOption.map (fun t => (t.find? .inQueryCall).bind fun n =>
      (n.child? .yieldItems).map Tree.text) = some (some x)) :
    ∃ t n y, parse source = .ok t ∧ n ∈ t.descendants ∧ n.kind = .inQueryCall ∧
      y ∈ n.children ∧ y.kind = .yieldItems ∧ y.text = x := by
  obtain ⟨t, ht, hcall⟩ := exists_parse_eq_ok h
  obtain ⟨n, hn, hchild⟩ := Option.bind_eq_some_iff.mp hcall
  obtain ⟨y, hy, hx⟩ := Option.map_eq_some_iff.mp hchild
  rw [Tree.find?] at hn
  have hk := List.find?_some hn
  exact ⟨t, n, y, ht, List.mem_of_find?_eq_some hn, eq_of_beq hk, List.mem_of_find?_eq_some hy,
    eq_of_beq (Tree.is_of_child? hy), hx⟩

/-- One result is named. -/
theorem yields_names_or_star_of_name :
    ∃ t n y, parse "CALL f() YIELD a RETURN a" = .ok t ∧ n ∈ t.descendants ∧
      n.kind = .inQueryCall ∧ y ∈ n.children ∧ y.kind = .yieldItems ∧ n.YieldsNames y := by
  obtain ⟨t, n, y, ht, hn, hk, hy, hyk, htext⟩ :
      ∃ t n y, parse "CALL f() YIELD a RETURN a" = .ok t ∧ n ∈ t.descendants ∧
        n.kind = .inQueryCall ∧ y ∈ n.children ∧ y.kind = .yieldItems ∧ y.text = "a" :=
    exists_call_of_parse (by decide +kernel)
  refine ⟨t, n, y, ht, hn, hk, hy, hyk, ?_⟩
  rcases yields_names_or_star ht n hn hk y hy hyk with hall | hnames
  · exact absurd (htext.symm.trans hall.text) (by decide)
  · exact hnames

/-- **Within a query, too, a star is accepted** in the place of the results. -/
theorem star_within_query :
    ¬∀ source t, parse source = .ok t → ∀ n ∈ t.descendants, n.kind = .inQueryCall →
      ∀ y ∈ n.children, y.kind = .yieldItems →
        y.childrenOf .yieldItem ≠ [] ∧ y.text.toList.head? ≠ some '*' := by
  intro h
  obtain ⟨t, n, y, ht, hn, hk, hy, hyk, htext⟩ :
      ∃ t n y, parse "CALL f YIELD * RETURN 1" = .ok t ∧ n ∈ t.descendants ∧
        n.kind = .inQueryCall ∧ y ∈ n.children ∧ y.kind = .yieldItems ∧ y.text = "*" :=
    exists_call_of_parse (by decide +kernel)
  obtain ⟨-, hstar⟩ := h _ t ht n hn hk y hy hyk
  exact hstar (by rw [htext]; rfl)

end BindCheck

import BindCheck.Proofs.ClauseRows
import BindCheck.Proofs.DocumentOrder
import BindCheck.Proofs.Insertion
import BindCheck.Proofs.LayoutIndependence
import BindCheck.Proofs.Sequencing
import BindCheck.Proofs.SupportGate

/-!
# BindCheck.Proofs.NeutralProjection

**`WITH *` is neutral.** Put in front of any clause of a query it changes the findings in nothing
but their places, which are those of the same lexemes in the new text (`analyze_with_star`).

* The new text has the lexemes of the old one, moved behind the clause (`tokenize_insert`).
* The clauses of a query are a row, and a row may take a projection anywhere; the parser nests the
  new row in other parts, but over the same clauses (`Row.insert`, `Row.run`).
* The resolver and the test for what is not analyzed see the clauses alone, one after another
  (`Cover.analyze_whole`, `Cover.unsupported?_whole`).
* A projection of `*` binds nothing, finds nothing and lets every name through
  (`resolveClause_withStar`).

The two texts differ in places and in the clause. So the query is moved first, where only the
places of its lexemes change, and then the clause is put in between.
-/

namespace BindCheck

open Grammar

/-! ### Queries of clauses -/

namespace Cover

variable {us zs rest : List Lexeme} {ms : List Cover}

/-- The nodes of a query are those of its parts, and those of its clauses. -/
theorem mem_nodesAll_iff {m : Cover} :
    m ∈ nodesAll ms ↔ (m ∈ ms ∧ m.kind = .singlePartQuery) ∨ m ∈ nodesAll (clauses ms) := by
  induction ms with
  | nil => simp [nodesAll, clauses]
  | cons c ms ih =>
      have hsplit : clauses (c :: ms) = c.opened ++ clauses ms := List.flatMap_cons
      rw [hsplit, nodesAll_append, nodesAll, List.mem_append, List.mem_append, ih, nodes_eq,
        List.mem_cons, List.mem_cons, opened]
      by_cases hc : c.kind = .singlePartQuery
      · rw [if_pos hc]
        by_cases hm : m = c
        · simp [hm, hc]
        · simp [hm]
          tauto
      · rw [if_neg hc, nodesAll_singleton, nodes_eq, List.mem_cons]
        by_cases hm : m = c
        · simp [hm]
        · simp [hm]
          tauto

theorem flatten_tree {c : Cover} (h : c.kind ∈ NodeKind.ofClauses) : c.tree.flatten = [c.tree] := by
  obtain ⟨k, us, cs⟩ := c
  simp only [NodeKind.ofClauses, List.mem_cons, List.not_mem_nil, or_false] at h
  rcases h with rfl | rfl | rfl | rfl <;> rfl

theorem flattenAll_of_kind {cs : List Cover} (h : ∀ c ∈ cs, c.kind ∈ NodeKind.ofClauses) :
    Tree.flattenAll (trees cs) = cs.map tree := by
  induction cs with
  | nil => rfl
  | cons c cs ih =>
      obtain ⟨hc, hcs⟩ := List.forall_mem_cons.mp h
      rw [trees, Tree.flattenAll, flatten_tree hc, ih hcs]
      rfl

/-- The resolver opens the nodes of parts as well. -/
theorem flattenAll_trees (h : ∀ d ∈ clauses ms, d.kind ∈ NodeKind.ofClauses) :
    Tree.flattenAll (trees ms) = (clauses ms).map tree := by
  induction ms with
  | nil => rfl
  | cons c ms ih =>
      have hsplit : clauses (c :: ms) = c.opened ++ clauses ms := List.flatMap_cons
      rw [hsplit] at h
      obtain ⟨hc, hms⟩ := List.forall_mem_append.mp h
      rw [trees, Tree.flattenAll, ih hms, hsplit, List.map_append]
      congr 1
      obtain ⟨k, us, cs⟩ := c
      by_cases hk : k = .singlePartQuery
      · subst hk
        exact flattenAll_of_kind hc
      · rw [opened, if_neg hk] at hc ⊢
        exact flatten_tree (hc _ (List.mem_singleton_self _))

/-- At the top of a whole text is a query of the clauses. -/
theorem exists_top_whole (run : Run queryTail us rest ms)
    (h : ∀ d ∈ clauses ms, d.kind ∈ NodeKind.ofClauses) (zs : List Lexeme) :
    ∃ q, (whole us zs ms).tree.top = .ok q ∧ q.isQuery = true ∧
      q.clauses = (clauses ms).map tree := by
  have htop : ∀ m, Shape.cover (.ifMany .multiPartQuery) us ms = [m] →
      (whole us zs ms).tree.top = m.tree.top := by
    intro m hm
    rw [whole, hm]
    iterate 5 rw [top_wrapper (by decide)]
  rcases run.queryTail_cases with ⟨cs, rfl⟩ | ⟨cs₁, w, us₂, cs₂, rfl, hrest⟩
  · refine ⟨_, htop _ rfl, rfl, ?_⟩
    exact (List.append_nil _).symm.trans (flattenAll_trees h)
  · have hlen : 1 < (cs₁ ++ w :: cs₂).length := by
      have := List.length_pos_iff.mpr hrest.queryTail_ne_nil
      rw [List.length_append, List.length_cons]
      omega
    exact ⟨_, htop _ (if_pos hlen), rfl, flattenAll_trees h⟩

/-- The kinds of nodes that are not analyzed. -/
def refused : List NodeKind := [.mergeClause, .union, .whereClause]

theorem unsupported?_eq_none_iff {c : Cover} :
    c.tree.unsupported? = none ↔ ∀ m ∈ c.nodes, m.kind ∉ refused := by
  rw [Tree.unsupported?_eq_none_iff, ← map_tree_nodes, List.forall_mem_map]
  simp only [tree_kind, refused]

theorem mem_nodes_whole {m : Cover} (hm : m ∈ nodesAll (clauses ms)) :
    m ∈ (whole us zs ms).nodes := by
  have hshape : m ∈ nodesAll (Shape.cover (.ifMany .multiPartQuery) us ms) :=
    Shape.mem_nodesAll_of_mem (mem_nodesAll_iff.mpr (.inr hm))
  simp [whole, nodes, nodesAll, hshape]

/-- What keeps a query from being analyzed is in its clauses. -/
theorem unsupported?_whole :
    (whole us zs ms).tree.unsupported? = none ↔ ∀ m ∈ nodesAll (clauses ms), m.kind ∉ refused := by
  rw [unsupported?_eq_none_iff]
  constructor
  · exact fun h m hm => h m (mem_nodes_whole hm)
  · intro h m hm
    simp only [whole, nodes, nodesAll, List.append_nil, List.mem_cons] at hm
    rcases hm with rfl | rfl | rfl | rfl | rfl | hm
    iterate 5 simp [refused]
    rcases Shape.mem_nodesAll_cover hm with ⟨k, hk, rfl⟩ | hm
    · by_cases hlen : 1 < ms.length
      · rw [Shape.kindOver, if_pos hlen] at hk
        obtain rfl := Option.some.inj hk
        simp [refused]
      · rw [Shape.kindOver, if_neg hlen] at hk
        cases hk
    · rcases mem_nodesAll_iff.mp hm with ⟨-, hk⟩ | hm
      · rw [hk]
        decide
      · exact h m hm

/-- **The findings of a query are those of its clauses, one after another.** -/
theorem analyze_whole (run : Run queryTail us rest ms)
    (hkinds : ∀ d ∈ clauses ms, d.kind ∈ NodeKind.ofClauses)
    (hsupported : ∀ m ∈ nodesAll (clauses ms), m.kind ∉ refused) (zs : List Lexeme) :
    (whole us zs ms).tree.analyze = .ok
      ⟨(Tree.inTurn Tree.resolveClause ((clauses ms).map tree) State.initial).1.diagnostics⟩ := by
  obtain ⟨q, htop, hq, hclauses⟩ := exists_top_whole run hkinds zs
  have hcall : q.is .standaloneCall = false := by
    rcases Bool.or_eq_true_iff.mp hq with hk | hk <;> rw [Tree.is, eq_of_beq hk] <;> rfl
  have hresolve : q.resolveTop State.initial =
      Tree.inTurn Tree.resolveClause ((clauses ms).map tree) State.initial := by
    rw [Tree.resolveTop, hcall, if_neg Bool.false_ne_true, ← hclauses, Tree.clauses,
      Tree.inTurn_flattenAll]
    rfl
  rw [Tree.analyze, unsupported?_whole.mpr hsupported, htop]
  simp only [hresolve]

end Cover

/-! ### The projection that keeps everything -/

/-- `WITH *` over two lexemes. -/
def Cover.withStar (w s : Lexeme) : Cover :=
  ⟨.withClause, [w, s], [⟨.projectionBody, [s], [⟨.projectionItems, [s], []⟩]⟩]⟩

section

variable {w s : Lexeme}

/-- `WITH *` is a clause in front of any other. -/
theorem Run.withStar (hw : w.token = .keyword .WITH) (hs : s.token = .symbol .star)
    {zs : List Lexeme} (hzs : ClauseNext zs) : Run withClause [w, s] zs [Cover.withStar w s] := by
  -- what may stand behind the columns is left out
  have hskip : ∀ {t : Terminal} (r : Rule), clauseWord.disjoint t = true →
      Run (.whenNext t r) [] zs [] :=
    fun _ ht => .no (Lookahead.fails_of_disjoint hzs ht) .empty
  have hskips : ∀ {r r' : Rule}, Run r [] zs [] → Run r' [] zs [] → Run (.seq r r') [] zs [] :=
    fun h h' => seq_iff.mpr ⟨[], [], [], [], rfl, rfl, h, h'⟩
  have hbehind : ∀ {r r' : Rule} {us : List Lexeme} {cs : List Cover}, Run r us zs cs →
      Run r' [] zs [] → Run (.seq r r') us zs cs := fun h h' =>
    seq_iff.mpr ⟨_, [], _, [], (List.append_nil _).symm, (List.append_nil _).symm, h, h'⟩
  have hsign : Run (.sign .star) [s] zs [] := .token (by rw [hs]; rfl)
  have hstar : (Lookahead.next [.symbol .star]).holds ([s] ++ zs) = true :=
    hsign.next_holds rfl rfl
  have hitems : Run projectionItems [s] zs [⟨.projectionItems, [s], []⟩] :=
    .wrap (.yes hstar (hbehind hsign (hskip _ (by decide))))
  have hdistinct : Run (.optional (.keyword .DISTINCT)) [] ([s] ++ zs) [] :=
    .no (Lookahead.fails_of_disjoint hstar (by decide)) .empty
  have hbody : Run projectionBody [s] zs
      [⟨.projectionBody, [s], [⟨.projectionItems, [s], []⟩]⟩] :=
    .wrap (hdistinct.seq (hbehind hitems
      (hskips (hskip _ (by decide)) (hskips (hskip _ (by decide)) (hskip _ (by decide))))))
  have hword : Run (.word .WITH) [w] ([s] ++ zs) [] := .token (by rw [hw]; rfl)
  exact .wrap (hword.seq (hbehind hbody (hskip _ (by decide))))

/-- **`WITH *` changes nothing.** -/
theorem resolveClause_withStar (hs : s.text = "*") (st : State) :
    (Cover.withStar w s).tree.resolveClause st = (st, 0) := by
  have hfound : (Cover.withStar w s).tree.found st.scope = [] := rfl
  have hbound : (Cover.withStar w s).tree.bound = [] := rfl
  have hkeeps : (Cover.withStar w s).tree.startsOver = false := by
    show ((Lexeme.join [s]).toList.head? != some '*') = false
    rw [Lexeme.join_singleton, hs]
    decide
  have hsimple : (Cover.withStar w s).tree.resolveClause st =
      (Cover.withStar w s).tree.resolveSimple st := rfl
  rw [hsimple, Tree.resolveSimple_eq, Tree.effect, Tree.scopeBehind, hfound, hbound, hkeeps,
    Effect.on, List.append_nil]
  rfl

/-- So a query does the same with it as without it. -/
theorem inTurn_withStar (hs : s.text = "*") (as bs : List Cover) (st : State) :
    Tree.inTurn Tree.resolveClause ((as ++ Cover.withStar w s :: bs).map Cover.tree) st =
      Tree.inTurn Tree.resolveClause ((as ++ bs).map Cover.tree) st := by
  simp only [List.map_append, List.map_cons, Tree.inTurn_append, Tree.inTurn,
    resolveClause_withStar hs, Nat.zero_add]

/-- **A whole text with `WITH *` in front of a clause** is one with the same findings. -/
theorem Run.exists_withStar (hw : w.token = .keyword .WITH) (hs : s.token = .symbol .star)
    (htext : s.text = "*") {us zs : List Lexeme} {e : Lexeme} {ms as bs : List Cover} {b : Cover}
    (run : Run queryTail us (zs ++ [e]) ms) (hclosing : Run Grammar.closing zs [e] [])
    (hclauses : Cover.clauses ms = as ++ b :: bs)
    (hsupported : (Cover.whole us zs ms).tree.unsupported? = none) :
    ∃ c, Run cypher (Cover.owns as ++ w :: s :: (Cover.owns (b :: bs) ++ zs)) [e] [c] ∧
      c.tree.unsupported? = none ∧ c.tree.analyze = (Cover.whole us zs ms).tree.analyze := by
  obtain ⟨-, hend⟩ := hclosing.queryEnd_of_closing
  obtain ⟨hrow, -⟩ := run.row hend
  have hnodes := Cover.unsupported?_whole.mp hsupported
  have hkinds := hrow.kind_mem
  rw [hclauses] at hrow hkinds hnodes
  have hstar : ∀ zs, ClauseNext zs →
      Run withClause (Cover.withStar w s).own zs [Cover.withStar w s] :=
    fun _ hzs => Run.withStar hw hs hzs
  have hrow' := hrow.insert hstar
  have hkinds' := hrow'.kind_mem
  obtain ⟨ms', run', hclauses'⟩ := hrow'.run hend
  have hnodes' : ∀ m ∈ Cover.nodesAll (Cover.clauses ms'), m.kind ∉ Cover.refused := by
    have hstar : ∀ m ∈ (Cover.withStar w s).nodes, m.kind ∉ Cover.refused := by
      simp [Cover.withStar, Cover.nodes, Cover.nodesAll, Cover.refused]
    rw [Cover.nodesAll_append] at hnodes
    obtain ⟨has, hbs⟩ := List.forall_mem_append.mp hnodes
    rw [hclauses', Cover.nodesAll_append, Cover.nodesAll]
    exact List.forall_mem_append.mpr ⟨has, List.forall_mem_append.mpr ⟨hstar, hbs⟩⟩
  have hwhole := run'.whole hclosing
  have howns : Cover.owns (as ++ Cover.withStar w s :: b :: bs) ++ zs =
      Cover.owns as ++ w :: s :: (Cover.owns (b :: bs) ++ zs) := by
    rw [Cover.owns_append, Cover.owns_cons, List.append_assoc, List.append_assoc]
    rfl
  rw [howns] at hwhole
  refine ⟨_, hwhole, Cover.unsupported?_whole.mpr hnodes', ?_⟩
  rw [Cover.analyze_whole run' (hclauses' ▸ hkinds') hnodes', hclauses', inTurn_withStar htext,
    ← hclauses, Cover.analyze_whole run (hclauses ▸ hkinds) (hclauses ▸ hnodes)]

end

/-! ### Moved queries -/

namespace Cover

variable (φ : Lexeme → Lexeme)

theorem opened_relabel (c : Cover) : (c.relabel φ).opened = c.opened.map (relabel φ) := by
  obtain ⟨k, us, cs⟩ := c
  by_cases hk : k = .singlePartQuery
  · simp [opened, relabel, hk, relabelAll_eq_map]
  · simp [opened, relabel, hk]

theorem clauses_relabel (ms : List Cover) :
    clauses (ms.map (relabel φ)) = (clauses ms).map (relabel φ) := by
  rw [clauses, clauses, List.flatMap_map, List.map_flatMap]
  exact List.flatMap_congr fun c _ => c.opened_relabel φ

theorem owns_relabel (cs : List Cover) : owns (cs.map (relabel φ)) = (owns cs).map φ := by
  rw [owns, owns, List.flatMap_map, List.map_flatMap]
  exact List.flatMap_congr fun c _ => c.own_relabel φ

theorem whole_relabel (us zs : List Lexeme) (ms : List Cover) :
    (whole us zs ms).relabel φ = whole (us.map φ) (zs.map φ) (ms.map (relabel φ)) := by
  simp [whole, relabel, relabelAll, relabelAll_eq_map, Shape.cover_relabel]

end Cover

/-! ### ` WITH * ` in a text -/

section

open Cover

variable {source : String}

/-- A clause of a query that is analyzed, among all its clauses. -/
theorem Cover.Of.exists_clause {c : Cover} (hc : c.Of source)
    (hsupported : c.tree.unsupported? = none) {q d : Tree} (htop : c.tree.top = .ok q)
    (hq : q.isQuery = true) (hd : d ∈ q.clauses) :
    ∃ us zs ms as b bs l vs p, c = whole us zs ms ∧ Run queryTail us (zs ++ [.ending p]) ms ∧
      Run Grammar.closing zs [.ending p] [] ∧ clauses ms = as ++ b :: bs ∧
      owns (b :: bs) = l :: vs ∧ l.token ≠ .eof ∧ l.position = d.position ∧
      tokenize source = .ok (owns as ++ l :: (vs ++ (zs ++ [.ending p]))) := by
  obtain ⟨p, hls, hrun⟩ := hc.run
  have hunion : ∀ m ∈ c.nodes, m.kind ≠ .union := fun m hm hk =>
    Cover.unsupported?_eq_none_iff.mp hsupported m hm (hk ▸ by decide)
  obtain ⟨us, zs, ms, hown, rfl, run, hclosing⟩ := hrun.exists_whole hunion htop hq
  obtain ⟨-, hend⟩ := hclosing.queryEnd_of_closing
  obtain ⟨hrow, howns⟩ := run.row hend
  obtain ⟨q', htop', -, hclauses⟩ := exists_top_whole run hrow.kind_mem zs
  obtain rfl := Except.ok.inj (htop.symm.trans htop')
  rw [hclauses] at hd
  obtain ⟨b, hb, rfl⟩ := List.mem_map.mp hd
  obtain ⟨as, bs, hsplit⟩ := List.append_of_mem hb
  have hmem : b ∈ nodesAll (clauses ms) := by
    rw [hsplit, nodesAll_append, nodesAll, nodes_eq]
    simp
  have hne := hc.own_ne_nil (mem_nodes_whole hmem)
  rw [hsplit, owns_append] at howns
  obtain ⟨k, own, cs⟩ := b
  obtain ⟨l, own, rfl⟩ := List.exists_cons_of_ne_nil hne
  rw [owns_cons] at howns
  have hl : l.token ≠ .eof := (hc.written l (by simp [whole, ← howns])).token_ne_eof
  refine ⟨us, zs, ms, as, _, bs, l, own ++ owns bs, p, rfl, run, hclosing, hsplit, rfl, hl, rfl, ?_⟩
  rw [hls, hown, ← howns]
  simp

/-- A query that is moved has the same findings, at the same lexemes. -/
theorem Cover.Of.analyze_relabel {c : Cover} (hc : c.Of source) {ls : List Lexeme}
    (hls : tokenize source = .ok ls) (φ : Lexeme → Lexeme)
    (hφ : ∀ l ∈ ls, (φ l).content = l.content) {a : Analysis} (ha : c.tree.analyze = .ok a) :
    ∃ a', (c.relabel φ).tree.analyze = .ok a' ∧
      List.Forall₂ (layout ls (ls.map φ)).Findings a.diagnostics a'.diagnostics := by
  have hresults := (alike_relabel (hc.matches_layout hls hφ)).analyze
  rw [ha] at hresults
  cases ha' : (c.relabel φ).tree.analyze with
  | ok a' =>
      rw [ha'] at hresults
      exact ⟨a', rfl, hresults⟩
  | error u =>
      rw [ha'] at hresults
      exact hresults.elim

/-- A whole text whose lexemes are replaced, with `WITH *` in front of a clause. -/
theorem Run.exists_relabel_withStar {φ : Lexeme → Lexeme} (hφ : ∀ l, (φ l).content = l.content)
    {w s : Lexeme} (hw : w.token = .keyword .WITH) (hs : s.token = .symbol .star)
    (htext : s.text = "*") {us zs : List Lexeme} {e : Lexeme} {ms as bs : List Cover} {b : Cover}
    (run : Run queryTail us (zs ++ [e]) ms) (hclosing : Run Grammar.closing zs [e] [])
    (hclauses : clauses ms = as ++ b :: bs) {a : Analysis}
    (ha : ((Cover.whole us zs ms).relabel φ).tree.analyze = .ok a) :
    ∃ c, Run cypher ((owns as).map φ ++ w :: s :: (owns (b :: bs) ++ zs).map φ) [φ e] [c] ∧
      c.tree.unsupported? = none ∧ c.tree.analyze = .ok a := by
  have hkeeps : ∀ {ls : List Lexeme}, ∀ l ∈ ls, l.Keeps φ := fun l _ =>
    Lexeme.keeps_of_content (hφ l)
  have hrun := run.relabel hkeeps
  rw [List.map_append] at hrun
  have hsplit := clauses_relabel φ ms
  rw [hclauses, List.map_append, List.map_cons] at hsplit
  have hsupported := Tree.unsupported?_of_analyze ha
  rw [whole_relabel] at ha hsupported
  obtain ⟨c, hc, hnone, hanalyze⟩ :=
    Run.exists_withStar hw hs htext hrun (hclosing.relabel hkeeps) hsplit hsupported
  rw [← List.map_cons, owns_relabel, owns_relabel, ← List.map_append] at hc
  exact ⟨c, hc, hnone, hanalyze.trans ha⟩

/-- **`WITH *` is neutral.** A query that is analyzed stays one with ` WITH * ` in front of the
first lexeme of any of its clauses. The lexemes before that one stay where they are, and the
others are moved. What is found has the same kinds and names, in the same order, and each finding
stands at the lexeme where it stood. -/
theorem analyze_with_star {t q c : Tree} (ht : parse source = .ok t) (htop : t.top = .ok q)
    (hq : q.isQuery = true) (hsupported : t.unsupported? = none) (hc : c ∈ q.clauses) :
    ∃ (front back : String) (us vs : List Lexeme) (l : Lexeme) (t' : Tree) (a a' : Analysis),
      source = front ++ (l.text ++ back) ∧ l.position = Position.start.after front.toList ∧
      l.position = c.position ∧ tokenize source = .ok (us ++ l :: vs) ∧
      tokenize (front ++ " WITH * " ++ (l.text ++ back)) =
        .ok (us ++ (withStar l.position ++ (l :: vs).map (Lexeme.shift l.position 8))) ∧
      parse (front ++ " WITH * " ++ (l.text ++ back)) = .ok t' ∧ t'.unsupported? = none ∧
      t.analyze = .ok a ∧ t'.analyze = .ok a' ∧
      List.Forall₂
        (layout (us ++ l :: vs) (us ++ (l :: vs).map (Lexeme.shift l.position 8))).Findings
        a.diagnostics a'.diagnostics := by
  obtain ⟨cov, hcov, rfl⟩ := cover_of_parse ht
  obtain ⟨us, zs, ms, as, b, bs, l, vs, p, rfl, run, hclosing, hclauses, howns, hend, hplace,
    hls⟩ := hcov.exists_clause hsupported htop hq hc
  obtain ⟨front, back, hsource, hfront, hls'⟩ := tokenize_insert hls hend
  have hfixed := shift_of_tokenize 8 hls
  -- the lexemes are moved first, and then the clause is put in between
  obtain ⟨a, ha⟩ : ∃ a, (whole us zs ms).tree.analyze = .ok a := by
    rw [Tree.analyze, hsupported, htop]
    exact ⟨_, rfl⟩
  obtain ⟨a', ha', hfindings⟩ :=
    hcov.analyze_relabel hls (Lexeme.shift l.position 8) (fun _ _ => rfl) ha
  rw [List.map_append, hfixed] at hfindings
  obtain ⟨c', hrun, hnone, hanalyze⟩ :=
    Run.exists_relabel_withStar (w := ⟨.keyword .WITH, "WITH", l.position.after [' ']⟩)
      (s := ⟨.symbol .star, "*", l.position.after " WITH ".toList⟩) (Lexeme.content_shift _ _)
      rfl rfl rfl run hclosing hclauses ha'
  rw [hfixed, howns] at hrun
  have hparse := parse_of_run (hls'.trans (by simp [withStar, Lexeme.shift])) hrun
  exact ⟨front, back, owns as, _, l, c'.tree, a, a', hsource, hfront, hplace, hls, hls', hparse,
    hnone, ha, hanalyze, hfindings⟩

/-- A call in front of which no other clause stands, and a name that is not bound. -/
theorem analyze_with_star_of_call :
    ∃ (t q c : Tree) (front back : String) (t' : Tree) (a' : Analysis),
      parse "CALL p() RETURN m" = .ok t ∧ t.top = .ok q ∧ q.isQuery = true ∧
      t.unsupported? = none ∧ c ∈ q.clauses ∧ c.position = ⟨1, 0⟩ ∧
      "CALL p() RETURN m" = front ++ back ∧ parse (front ++ " WITH * " ++ back) = .ok t' ∧
      t.analyze = .ok ⟨[⟨.undefinedVariable, "m", ⟨1, 16⟩⟩]⟩ ∧ t'.analyze = .ok a' ∧
      a'.diagnostics.map Diagnostic.name = ["m"] := by
  obtain ⟨t, ht, hread⟩ : ∃ t, parse "CALL p() RETURN m" = .ok t ∧
      (t.unsupported?, t.top.toOption.map fun q => (q.isQuery, q.clauses.map Tree.position),
        t.analyze) = (none, some (true, [⟨1, 0⟩, ⟨1, 9⟩]),
          .ok ⟨[⟨.undefinedVariable, "m", ⟨1, 16⟩⟩]⟩) :=
    exists_parse_eq_ok (by decide +kernel)
  simp only [Prod.mk.injEq] at hread
  obtain ⟨hsupported, htop, ha⟩ := hread
  cases hq : t.top with
  | error u => rw [hq] at htop; cases htop
  | ok q =>
      rw [hq] at htop
      obtain ⟨hquery, hclauses⟩ := Prod.mk.inj (Option.some.inj htop)
      obtain ⟨c, hc, hplace⟩ : ∃ c ∈ q.clauses, c.position = ⟨1, 0⟩ := by
        rw [← List.mem_map, hclauses]
        exact List.mem_cons_self
      obtain ⟨front, back, us, vs, l, t', a, a', hsource, -, -, -, -, ht', -, ha₁, ha',
        hfindings⟩ := analyze_with_star ht hq hquery hsupported hc
      obtain rfl := Except.ok.inj (ha₁.symm.trans ha)
      refine ⟨t, q, c, front, l.text ++ back, t', a', ht, hq, hquery, hsupported, hc, hplace,
        hsource, ht', ha, ha', ?_⟩
      have hnames := hfindings.imp fun d d' h => h.2.1
      rw [← List.forall₂_map_right_iff, ← List.forall₂_map_left_iff,
        List.forall₂_eq_eq_eq] at hnames
      exact hnames.symm

end

end BindCheck

import BindCheck.Proofs.Lossless
import BindCheck.Proofs.Progress
import Mathlib.Data.List.Nodup

/-!
# BindCheck.Proofs.SupportGate

**A query is kept from being analyzed just if it uses `MERGE`, `UNION` or `WHERE`**, and is
reported where the text first uses the word. The gate looks for nodes of three kinds in the tree;
what has to be shown is that these nodes are the uses of the words (`Run.clauseWords_eq`):

* **Every use leaves a node.** Wherever the grammar takes one of the words, it does so at the
  beginning of a node of its kind (`Rule.marks`).
* **A name is no use.** Labels, types, property keys, parameters and the names of procedures and
  functions may be reserved words. Their nodes are leaves, so no clause can stand in one.
* **The order of the tree is that of the text**, so the first node begins at the first use.

The first two are questions about the text of the grammar, one for each of the words.
-/

namespace BindCheck

/-! ### The first of a list -/

/-- That `x` is the first of a list with a property. -/
def IsFirst {α : Type} (p : α → Prop) (xs : List α) (x : α) : Prop :=
  p x ∧ ∃ front back, xs = front ++ x :: back ∧ ∀ y ∈ front, ¬p y

theorem isFirst_iff_find? {α : Type} {p : α → Bool} {xs : List α} {x : α} :
    IsFirst (p · = true) xs x ↔ xs.find? p = some x := by
  rw [List.find?_eq_some_iff_append, IsFirst]
  simp

theorem IsFirst.mem {α : Type} {p : α → Prop} {xs : List α} {x : α} (h : IsFirst p xs x) :
    x ∈ xs := by
  obtain ⟨-, front, back, rfl, -⟩ := h
  simp

/-! ### Names and uses -/

namespace NodeKind

/-- Whether a node of the kind is over a name that may be a reserved word. -/
def isName : NodeKind → Bool
  | .nodeLabel | .relationshipTypes | .propertyKeyName | .parameter | .procedureName
  | .functionName | .procedureResultField => true
  | _ => false

end NodeKind

namespace Cover

/-- The lexemes of the names that may be reserved words. -/
def names (cs : List Cover) : List Lexeme :=
  ((nodesAll cs).filter fun m => m.kind.isName).flatMap own

/-- The first lexemes of the nodes of a kind. -/
def heads (k : NodeKind) (cs : List Cover) : List Lexeme :=
  ((nodesAll cs).filter fun m => m.kind == k).flatMap fun m => m.own.take 1

/-- That a lexeme is a reserved word and stands in no name. -/
def Uses (cs : List Cover) (w : Keyword) (l : Lexeme) : Prop :=
  l.token = .keyword w ∧ l ∉ names cs

instance (cs : List Cover) (w : Keyword) (l : Lexeme) : Decidable (Uses cs w l) :=
  inferInstanceAs (Decidable (_ ∧ _))

/-- The uses of a reserved word among some lexemes. -/
def clauseWords (w : Keyword) (cs : List Cover) (us : List Lexeme) : List Lexeme :=
  us.filter fun l => Uses cs w l

variable {w : Keyword} {k : NodeKind} {cs cs' : List Cover} {us us' : List Lexeme}

theorem names_append : names (cs ++ cs') = names cs ++ names cs' := by
  rw [names, nodesAll_append, List.filter_append, List.flatMap_append]
  rfl

theorem heads_append : heads k (cs ++ cs') = heads k cs ++ heads k cs' := by
  rw [heads, nodesAll_append, List.filter_append, List.flatMap_append]
  rfl

theorem names_node (k : NodeKind) (us : List Lexeme) (cs : List Cover) :
    names [⟨k, us, cs⟩] = (if k.isName then us else []) ++ names cs := by
  rw [names, nodesAll_singleton, nodes, List.filter_cons]
  split <;> rfl

theorem heads_node (k k' : NodeKind) (us : List Lexeme) (cs : List Cover) :
    heads k [⟨k', us, cs⟩] = (if k' == k then us.take 1 else []) ++ heads k cs := by
  rw [heads, nodesAll_singleton, nodes, List.filter_cons]
  split <;> rfl

/-- Names stand over lexemes of the run. -/
theorem names_subset {r : Rule} {vs : List Lexeme} (h : Run r us vs cs) :
    ∀ l ∈ names cs, l ∈ us := by
  intro l hl
  obtain ⟨m, hm, hl⟩ := List.mem_flatMap.mp hl
  exact (h.own_infix m (List.mem_filter.mp hm).1).subset hl

theorem clauseWords_congr (h : names cs = names cs') :
    clauseWords w cs us = clauseWords w cs' us := by
  apply List.filter_congr
  intro l _
  rw [decide_eq_decide, Uses, Uses, h]

theorem clauseWords_lexeme (l : Lexeme) :
    clauseWords w [] [l] = if l.token = .keyword w then [l] else [] := by
  have huses : Uses [] w l ↔ l.token = .keyword w := and_iff_left List.not_mem_nil
  by_cases hl : l.token = .keyword w
  · rw [if_pos hl]
    exact List.filter_cons_of_pos (decide_eq_true (huses.mpr hl))
  · rw [if_neg hl]
    exact List.filter_cons_of_neg fun h => hl (huses.mp (of_decide_eq_true h))

/-- Where no lexeme occurs twice, the uses in two runs in a row are those in each. -/
theorem clauseWords_append (hnodup : (us ++ us').Nodup) (hcs : ∀ l ∈ names cs, l ∈ us)
    (hcs' : ∀ l ∈ names cs', l ∈ us') :
    clauseWords w (cs ++ cs') (us ++ us') = clauseWords w cs us ++ clauseWords w cs' us' := by
  have hdisjoint := List.disjoint_of_nodup_append hnodup
  rw [clauseWords, List.filter_append]
  congr 1
  all_goals
    apply List.filter_congr
    intro l hl
    rw [decide_eq_decide, Uses, Uses, names_append, List.mem_append, not_or]
  · have hother : l ∉ names cs' := fun h => hdisjoint hl (hcs' l h)
    simp only [hother, not_false_eq_true, and_true]
  · have hother : l ∉ names cs := fun h => hdisjoint (hcs l h) hl
    simp only [hother, not_false_eq_true, true_and]

end Cover

/-! ### What the grammar says about a reserved word -/

section

variable (w : Keyword) (k : NodeKind)

/-- Whether a shape makes no node of the kind, and no name. -/
def Shape.isPlain (s : Shape) : Bool := s.kind?.all fun k' => k' != k && !k'.isName

/-- Whether a shape makes a node over a name that may be a reserved word. -/
def Shape.isName : Shape → Bool
  | node k => k.isName
  | bare | ifMany _ => false

namespace Rule

/-- Whether a rule begins with the word and does not make the node for it itself. -/
def leads : Rule → Bool
  | token t _ => t == .keyword w
  | seq r _ => r.leads
  | branch _ y _ => y.leads
  | wrap s b => s.isPlain k && b.leads
  | attempt first _ _ => first.leads
  | empty | demand _ _ | many _ _ | sepBy _ _ | fork _ _ _ _ _ _ | call _ => false

/-- Whether the word, wherever a rule takes it, is in a name, or begins a node of the kind, or
begins the rule. -/
def marks : Rule → Bool
  | empty | demand _ _ | call _ => true
  | token t _ => t == .keyword w || !t.accepts (.keyword w)
  | seq r s => r.marks && s.marks && !s.leads w k && (!r.leads w k || r.takes none)
  | branch _ y n => y.marks && n.marks && y.leads w k == n.leads w k
  | many _ b => b.marks && !b.leads w k
  | sepBy item t => item.marks && !item.leads w k && !t.accepts (.keyword w)
  | wrap s b =>
    (s.isPlain k && b.marks) || (s == .node k && b.marks && b.leads w k) ||
      (s.isName && b.tops.isEmpty)
  | fork first _ ys y ns n =>
    ys.isPlain k && ns.isPlain k && (first.marks && y.marks && n.marks) &&
      !(first.leads w k || y.leads w k || n.leads w k)
  | attempt first _ other => first.marks && other.marks && first.leads w k == other.leads w k

end Rule

end

variable {w : Keyword} {k : NodeKind}

theorem Terminal.accepts_keyword {t : Token} :
    (Terminal.keyword w).accepts t = true ↔ t = .keyword w := by
  cases t with
  | keyword w' =>
      change (w == w') = true ↔ _
      rw [beq_iff_eq, Token.keyword.injEq, eq_comm]
  | _ => exact ⟨fun h => Bool.noConfusion h, fun h => Token.noConfusion h⟩

theorem Terminal.beq_keyword_of_not_accepts {t : Terminal} (h : t.accepts (.keyword w) = false) :
    (t == .keyword w) = false := by
  rw [beq_eq_false_iff_ne]
  rintro rfl
  rw [accepts_keyword.mpr rfl] at h
  exact Bool.noConfusion h

theorem Shape.names_cover {s : Shape} (hs : s.isPlain k = true) (us : List Lexeme)
    (cs : List Cover) : Cover.names (s.cover us cs) = Cover.names cs := by
  cases hk : s.kindOver cs with
  | none => rw [cover_of_kindOver_none hk]
  | some k' =>
      rw [isPlain, kind?_of_kindOver hk] at hs
      simp only [Option.all_some, Bool.and_eq_true, Bool.not_eq_true'] at hs
      rw [cover_of_kindOver hk, Cover.names_node, hs.2]
      rfl

theorem Shape.heads_cover {s : Shape} (hs : s.isPlain k = true) (us : List Lexeme)
    (cs : List Cover) : Cover.heads k (s.cover us cs) = Cover.heads k cs := by
  cases hk : s.kindOver cs with
  | none => rw [cover_of_kindOver_none hk]
  | some k' =>
      rw [isPlain, kind?_of_kindOver hk] at hs
      simp only [Option.all_some, Bool.and_eq_true, bne_iff_ne] at hs
      rw [cover_of_kindOver hk, Cover.heads_node, if_neg (by simpa using hs.1)]
      rfl

theorem Shape.clauseWords_cover {s : Shape} (hs : s.isPlain k = true) (us vs : List Lexeme)
    (cs : List Cover) : Cover.clauseWords w (s.cover us cs) vs = Cover.clauseWords w cs vs :=
  Cover.clauseWords_congr (names_cover hs us cs)

/-- Nothing in a name is a use. -/
theorem Cover.clauseWords_name {us : List Lexeme} (hk : k.isName = true) (cs : List Cover) :
    clauseWords w [⟨k, us, cs⟩] us = [] := by
  rw [clauseWords, List.filter_eq_nil_iff]
  intro l hl huses
  refine (of_decide_eq_true huses).2 ?_
  rw [names_node, if_pos hk]
  exact List.mem_append_left _ hl

/-- A name that holds no nodes begins no node of another sort. -/
theorem Cover.heads_name {k' : NodeKind} (hk : k.isName = false) (hk' : k'.isName = true)
    (us : List Lexeme) : heads k [⟨k', us, []⟩] = [] := by
  have hne : (k' == k) = false := by
    rw [beq_eq_false_iff_ne]
    rintro rfl
    rw [hk'] at hk
    cases hk
  rw [heads_node, hne]
  rfl

/-- The first lexeme of a node is the use that its body begins with. -/
theorem Cover.clauseWords_node (hk : k.isName = false) {us : List Lexeme} {cs : List Cover}
    (h : clauseWords w cs us = us.take 1 ++ heads k cs) :
    clauseWords w [⟨k, us, cs⟩] us = heads k [⟨k, us, cs⟩] := by
  have hnames : names [⟨k, us, cs⟩] = names cs := by
    rw [names_node, hk]
    rfl
  rw [clauseWords_congr hnames, heads_node, beq_self_eq_true, if_pos rfl, h]

/-- The words whose use keeps a query from being analyzed, and the nodes that they begin. -/
def gates : List (Keyword × NodeKind) :=
  [(.MERGE, .mergeClause), (.UNION, .union), (.WHERE, .whereClause)]

theorem isName_of_gate : ∀ g ∈ gates, g.2.isName = false := by
  decide

theorem Grammar.marks_production (n : Nonterminal) : ∀ g ∈ gates,
    (production n).marks g.1 g.2 = true ∧ (production n).leads g.1 g.2 = false := by
  cases n <;> decide

theorem Grammar.marks_cypher : ∀ g ∈ gates,
    cypher.marks g.1 g.2 = true ∧ cypher.leads g.1 g.2 = false := by
  decide

/-- Two runs in a row, of which neither begins with a use whose node is not yet made. -/
theorem Cover.clauseWords_runs {r r' : Rule} {us us' vs vs' : List Lexeme} {cs cs' : List Cover}
    (first : Run r us vs cs) (more : Run r' us' vs' cs') (hnodup : (us ++ us').Nodup)
    (h : clauseWords w cs us = heads k cs) (h' : clauseWords w cs' us' = heads k cs') :
    clauseWords w (cs ++ cs') (us ++ us') = heads k (cs ++ cs') := by
  rw [clauseWords_append hnodup (names_subset first) (names_subset more), h, h', heads_append]

/-- Two runs in a row, of which only the first may begin with a use whose node is not yet made. -/
theorem Cover.clauseWords_seq {us us' : List Lexeme} {cs cs' : List Cover} {leads : Bool}
    (hnodup : (us ++ us').Nodup) (hcs : ∀ l ∈ names cs, l ∈ us) (hcs' : ∀ l ∈ names cs', l ∈ us')
    (hleads : leads = true → us ≠ [])
    (h : clauseWords w cs us = (if leads then us.take 1 else []) ++ heads k cs)
    (h' : clauseWords w cs' us' = heads k cs') :
    clauseWords w (cs ++ cs') (us ++ us') =
      (if leads then (us ++ us').take 1 else []) ++ heads k (cs ++ cs') := by
  rw [clauseWords_append hnodup hcs hcs', h, h', heads_append, List.append_assoc]
  cases leads with
  | false => rfl
  | true =>
      have htake : (us ++ us').take 1 = us.take 1 :=
        List.take_append_of_le_length (List.length_pos_iff.mpr (hleads rfl))
      rw [if_pos rfl, if_pos rfl, htake]

/-- **The uses of a word in a run are the beginnings of the nodes of its kind**, in the same order;
of a rule that does not make the node itself the first lexeme is one more use. -/
theorem Run.clauseWords_eq (hg : (w, k) ∈ gates) {r : Rule} {us vs : List Lexeme}
    {cs : List Cover} (h : Run r us vs cs) :
    r.marks w k = true → us.Nodup →
      Cover.clauseWords w cs us =
        (if r.leads w k then us.take 1 else []) ++ Cover.heads k cs := by
  induction h with
  | empty | demand | done => exact fun _ _ => rfl
  | @token t e l vs accepts =>
      intro hr _
      rw [Rule.marks, Bool.or_eq_true, beq_iff_eq, Bool.not_eq_true'] at hr
      rw [Cover.clauseWords_lexeme, Rule.leads]
      rcases hr with rfl | hr
      · rw [if_pos (Terminal.accepts_keyword.mp accepts), beq_self_eq_true]
        rfl
      · have hl : l.token ≠ .keyword w := fun hl => by
          rw [← hl, accepts] at hr
          exact Bool.noConfusion hr
        rw [if_neg hl, Terminal.beq_keyword_of_not_accepts hr]
        rfl
  | seq first second ih₁ ih₂ =>
      intro hr hnodup
      simp only [Rule.marks, Bool.and_eq_true, Bool.or_eq_true, Bool.not_eq_true'] at hr
      obtain ⟨⟨⟨hfirst, hsecond⟩, hleads⟩, htakes⟩ := hr
      have hnodup' := List.nodup_append.mp hnodup
      have h' := ih₂ hsecond hnodup'.2.1
      rw [hleads] at h'
      refine Cover.clauseWords_seq hnodup (Cover.names_subset first) (Cover.names_subset second)
        (fun ho => ?_) (ih₁ hfirst hnodup'.1) h'
      rcases htakes with hno | htakes
      · exact absurd (hno.symm.trans ho) Bool.false_ne_true
      · exact first.taken_ne_nil (Rule.holds_none _) htakes
  | yes _ _ ih =>
      intro hr hnodup
      simp only [Rule.marks, Bool.and_eq_true] at hr
      exact ih hr.1.1 hnodup
  | no _ _ ih =>
      intro hr hnodup
      simp only [Rule.marks, Bool.and_eq_true, beq_iff_eq] at hr
      rw [Rule.leads, hr.2]
      exact ih hr.1.2 hnodup
  | @call n us vs cs _ ih =>
      intro _ hnodup
      obtain ⟨hmarks, hleads⟩ := Grammar.marks_production n _ hg
      have h := ih hmarks hnodup
      rwa [hleads] at h
  | attemptFirst _ _ ih =>
      intro hr hnodup
      simp only [Rule.marks, Bool.and_eq_true] at hr
      exact ih hr.1.1 hnodup
  | attemptOther _ ih =>
      intro hr hnodup
      simp only [Rule.marks, Bool.and_eq_true, beq_iff_eq] at hr
      rw [Rule.leads, hr.2]
      exact ih hr.1.2 hnodup
  | step _ first more ih₁ ih₂ =>
      intro hr hnodup
      have hbody := hr
      simp only [Rule.marks, Bool.and_eq_true, Bool.not_eq_true'] at hbody
      have hnodup' := List.nodup_append.mp hnodup
      have h := ih₁ hbody.1 hnodup'.1
      rw [hbody.2] at h
      exact Cover.clauseWords_runs first more hnodup h (ih₂ hr hnodup'.2.1)
  | @sepBy item t us us' vs cs cs' first more ih₁ ih₂ =>
      intro hr hnodup
      simp only [Rule.marks, Bool.and_eq_true, Bool.not_eq_true'] at hr
      obtain ⟨⟨hitem, hleads⟩, ht⟩ := hr
      have hnodup' := List.nodup_append.mp hnodup
      have h := ih₁ hitem hnodup'.1
      rw [hleads] at h
      have hmore :
          (Rule.many (.next [t]) (.seq (.token t (.terminal t)) item)).marks w k = true := by
        have hne : (t == .keyword w) = false := Terminal.beq_keyword_of_not_accepts ht
        simp [Rule.marks, Rule.leads, hitem, hleads, ht, hne]
      exact Cover.clauseWords_runs first more hnodup h (ih₂ hmore hnodup'.2.1)
  | @wrap s b us vs cs run ih =>
      intro hr hnodup
      have hk := isName_of_gate _ hg
      simp only [Rule.marks, Bool.or_eq_true, Bool.and_eq_true, beq_iff_eq] at hr
      rcases hr with (⟨hs, hb⟩ | ⟨⟨rfl, hb⟩, hleads⟩) | ⟨hs, htops⟩
      · rw [Shape.clauseWords_cover hs, Shape.heads_cover hs, Rule.leads, hs, Bool.true_and]
        exact ih hb hnodup
      · have h := ih hb hnodup
        rw [hleads, if_pos rfl] at h
        simp only [Shape.cover]
        rw [Cover.clauseWords_node hk h]
        simp [Rule.leads, Shape.isPlain, Shape.kind?]
      · obtain rfl := run.eq_nil_of_tops (List.isEmpty_iff.mp htops)
        cases s with
        | bare | ifMany => exact absurd hs Bool.false_ne_true
        | node k' =>
            have hk' : k'.isName = true := hs
            simp only [Shape.cover]
            rw [Cover.clauseWords_name hk', Cover.heads_name hk hk']
            simp [Rule.leads, Shape.isPlain, Shape.kind?, hk']
  | forkYes first _ more ih₁ ih₂ =>
      intro hr hnodup
      simp only [Rule.marks, Bool.and_eq_true, Bool.not_eq_true', Bool.or_eq_false_iff] at hr
      obtain ⟨⟨⟨hys, hns⟩, ⟨hfirst, hyes⟩, hno⟩, ⟨hf, hy⟩, hn⟩ := hr
      have hnodup' := List.nodup_append.mp hnodup
      have h := ih₁ hfirst hnodup'.1
      have h' := ih₂ hyes hnodup'.2.1
      rw [hf] at h
      rw [hy] at h'
      rw [Shape.clauseWords_cover hys, Shape.heads_cover hys]
      exact Cover.clauseWords_runs first more hnodup h h'
  | forkNo first _ more ih₁ ih₂ =>
      intro hr hnodup
      simp only [Rule.marks, Bool.and_eq_true, Bool.not_eq_true', Bool.or_eq_false_iff] at hr
      obtain ⟨⟨⟨hys, hns⟩, ⟨hfirst, hyes⟩, hno⟩, ⟨hf, hy⟩, hn⟩ := hr
      have hnodup' := List.nodup_append.mp hnodup
      have h := ih₁ hfirst hnodup'.1
      have h' := ih₂ hno hnodup'.2.1
      rw [hf] at h
      rw [hn] at h'
      rw [Shape.clauseWords_cover hns, Shape.heads_cover hns]
      exact Cover.clauseWords_runs first more hnodup h h'

/-! ### The gate on any tree -/

/-- What is reported of some nodes, and at which of them: the first `MERGE`, without one the first
`UNION`, and without either the first `WHERE`. -/
inductive Tree.Blocks (ns : List Tree) : Construct → Tree → Prop where
  | merge {n : Tree} (first : IsFirst (fun m => m.kind = .mergeClause) ns n) : Blocks ns .merge n
  | union {n : Tree} (first : IsFirst (fun m => m.kind = .union) ns n)
      (others : ∀ m ∈ ns, m.kind ≠ .mergeClause) : Blocks ns .union n
  | filter {n : Tree} (first : IsFirst (fun m => m.kind = .whereClause) ns n)
      (others : ∀ m ∈ ns, m.kind ≠ .mergeClause ∧ m.kind ≠ .union) : Blocks ns .filter n

namespace Tree

theorem find?_eq_some_iff {t n : Tree} {k : NodeKind} :
    t.find? k = some n ↔ IsFirst (fun m => m.kind = k) (t.preorder fun _ => true) n := by
  rw [find?, descendants, walk_eq_preorder, ← isFirst_iff_find?]
  simp only [is, beq_iff_eq]

theorem find?_eq_none_iff {t : Tree} {k : NodeKind} :
    t.find? k = none ↔ ∀ m ∈ t.preorder fun _ => true, m.kind ≠ k := by
  rw [find?, descendants, walk_eq_preorder, List.find?_eq_none]
  simp only [is, beq_iff_eq, ne_eq]

theorem unsupported?_eq_none {t : Tree} :
    t.unsupported? = none ↔
      t.find? .mergeClause = none ∧ t.find? .union = none ∧ t.find? .whereClause = none := by
  simp [unsupported?, unsupportedKinds]

/-- **Which construct is reported, and where.** -/
theorem unsupported?_eq_some_iff {t : Tree} {u : Unsupported} :
    t.unsupported? = some u ↔
      ∃ n, Blocks (t.preorder fun _ => true) u.construct n ∧ u.position = n.position := by
  constructor
  · intro h
    rw [unsupported?, unsupportedKinds] at h
    cases hmerge : t.find? .mergeClause with
    | some n =>
        simp only [List.findSome?_cons, hmerge, Option.map_some, Option.some.injEq] at h
        subst h
        exact ⟨n, .merge (find?_eq_some_iff.mp hmerge), rfl⟩
    | none =>
        have hmerge' := find?_eq_none_iff.mp hmerge
        cases hunion : t.find? .union with
        | some n =>
            simp only [List.findSome?_cons, hmerge, hunion, Option.map_none, Option.map_some,
              Option.some.injEq] at h
            subst h
            exact ⟨n, .union (find?_eq_some_iff.mp hunion) hmerge', rfl⟩
        | none =>
            have hunion' := find?_eq_none_iff.mp hunion
            cases hwhere : t.find? .whereClause with
            | some n =>
                simp only [List.findSome?_cons, hmerge, hunion, hwhere, Option.map_none,
                  Option.map_some, Option.some.injEq] at h
                subst h
                exact ⟨n, .filter (find?_eq_some_iff.mp hwhere) fun m hm =>
                  ⟨hmerge' m hm, hunion' m hm⟩, rfl⟩
            | none => simp [hmerge, hunion, hwhere] at h
  · intro h
    obtain ⟨x, p⟩ := u
    obtain ⟨n, hblocks, rfl⟩ := h
    cases hblocks with
    | merge first =>
        simp [unsupported?, unsupportedKinds, find?_eq_some_iff.mpr first]
    | union first others =>
        simp [unsupported?, unsupportedKinds, find?_eq_some_iff.mpr first,
          find?_eq_none_iff.mpr others]
    | filter first others =>
        simp [unsupported?, unsupportedKinds, find?_eq_some_iff.mpr first,
          find?_eq_none_iff.mpr fun m hm => (others m hm).1,
          find?_eq_none_iff.mpr fun m hm => (others m hm).2]

theorem unsupported?_eq_none_iff {t : Tree} :
    t.unsupported? = none ↔
      ∀ n ∈ t.preorder fun _ => true,
        n.kind ∉ [NodeKind.mergeClause, .union, .whereClause] := by
  rw [unsupported?_eq_none, find?_eq_none_iff, find?_eq_none_iff, find?_eq_none_iff]
  simp only [List.mem_cons, List.not_mem_nil, or_false, not_or, forall_and, ne_eq]

end Tree

/-! ### The gate on a query -/

namespace Cover.Of

variable {c : Cover} {source : String}

theorem nodup_own (h : c.Of source) : c.own.Nodup := by
  obtain ⟨p, htokens, -⟩ := h.run
  exact (List.nodup_append.mp (nodup_of_tokenize htokens)).1

theorem heads_eq (h : c.Of source) (hg : (w, k) ∈ gates) :
    heads k [c] = clauseWords w [c] c.own := by
  obtain ⟨p, -, run⟩ := h.run
  obtain ⟨hmarks, hleads⟩ := Grammar.marks_cypher _ hg
  have hwords := run.clauseWords_eq hg hmarks h.nodup_own
  rw [hleads] at hwords
  exact hwords.symm

/-- **The first node of a kind stands at the first use of its word.** -/
theorem find?_eq (h : c.Of source) (hg : (w, k) ∈ gates) :
    (c.tree.find? k).map Tree.position =
      (c.own.find? fun l => Uses [c] w l).map Lexeme.position := by
  have hwords := h.heads_eq hg
  rw [heads, nodesAll_singleton] at hwords
  rw [Tree.find?, descendants_tree, List.find?_map, ← List.head?_filter, ← List.head?_filter,
    ← clauseWords, ← hwords]
  simp only [Function.comp_def, Tree.is, tree_kind]
  cases hnodes : c.nodes.filter fun m => m.kind == k with
  | nil => rfl
  | cons m ms =>
      have hm : m ∈ c.nodes := by
        have hmem : m ∈ c.nodes.filter fun m => m.kind == k := hnodes ▸ List.mem_cons_self
        exact (List.mem_filter.mp hmem).1
      obtain ⟨k', us, cs⟩ := m
      cases us with
      | nil => exact absurd rfl (h.own_ne_nil hm)
      | cons l us => rfl

end Cover.Of

/-- The word that a construct begins with. -/
def Construct.word? : Construct → Option Keyword
  | merge => some .MERGE
  | union => some .UNION
  | filter => some .WHERE
  | shape => none

namespace Cover.Of

variable {c : Cover} {source : String}

theorem gate_of_blocks {ns : List Tree} {x : Construct} {n : Tree} (h : Tree.Blocks ns x n) :
    ∃ g ∈ gates, x.word? = some g.1 ∧ IsFirst (fun m => m.kind = g.2) ns n := by
  cases h with
  | merge first => exact ⟨(.MERGE, .mergeClause), by decide, rfl, first⟩
  | union first => exact ⟨(.UNION, .union), by decide, rfl, first⟩
  | filter first => exact ⟨(.WHERE, .whereClause), by decide, rfl, first⟩

/-- What is reported of a query stands at the first use of its word. -/
theorem isFirst_of_unsupported (h : c.Of source) {u : Unsupported}
    (hu : c.tree.unsupported? = some u) :
    ∃ w l, u.construct.word? = some w ∧ IsFirst (Uses [c] w) c.own l ∧
      u.position = l.position := by
  obtain ⟨n, hblocks, hposition⟩ := Tree.unsupported?_eq_some_iff.mp hu
  obtain ⟨⟨w, k⟩, hg, hw, hfirst⟩ := gate_of_blocks hblocks
  have hfind := h.find?_eq hg
  rw [Tree.find?_eq_some_iff.mpr hfirst, Option.map_some] at hfind
  obtain ⟨l, hl, hlposition⟩ := Option.map_eq_some_iff.mp hfind.symm
  have hlfirst := isFirst_iff_find?.mpr hl
  simp only [decide_eq_true_eq] at hlfirst
  exact ⟨w, l, hw, hlfirst, hposition.trans hlposition.symm⟩

/-- A query is not stopped at the gate just if it uses none of the words. -/
theorem unsupported?_eq_none_iff (h : c.Of source) :
    c.tree.unsupported? = none ↔
      ∀ w ∈ [Keyword.MERGE, .UNION, .WHERE], ∀ l ∈ c.own, ¬Uses [c] w l := by
  have hgate : ∀ {w : Keyword} {k : NodeKind}, (w, k) ∈ gates →
      (c.tree.find? k = none ↔ ∀ l ∈ c.own, ¬Uses [c] w l) := by
    intro w k hg
    rw [← Option.map_eq_none_iff, h.find?_eq hg, Option.map_eq_none_iff, List.find?_eq_none]
    simp only [decide_eq_true_eq]
  rw [Tree.unsupported?_eq_none, hgate (w := .MERGE) (by decide), hgate (w := .UNION) (by decide),
    hgate (w := .WHERE) (by decide)]
  simp only [List.forall_mem_cons, List.not_mem_nil, IsEmpty.forall_iff, implies_true, and_true]

end Cover.Of

theorem Tree.analyze_error_iff {source : String} {t : Tree} (h : parse source = .ok t)
    {u : Unsupported} : t.analyze = .error u ↔ t.unsupported? = some u := by
  obtain ⟨q, hq⟩ := top_of_parse h
  rw [analyze]
  cases hu : t.unsupported? with
  | some u' => simp
  | none => simp [hq]

/-- **The gate is exact.** Of any tree it reports the first `MERGE` node, without one the first
`UNION`, and without either the first `WHERE`, and lets it pass if there is none. A query always
has a shape that is analyzed; it is stopped just if it uses one of the three words outside of
names, and then the first use of the reported word is the place of the report. -/
theorem support_gate (t : Tree) :
    (t.unsupported? = none ↔ ∀ n ∈ t.preorder fun _ => true,
      n.kind ∉ [NodeKind.mergeClause, .union, .whereClause]) ∧
    (∀ u, t.unsupported? = some u ↔
      ∃ n, Tree.Blocks (t.preorder fun _ => true) u.construct n ∧ u.position = n.position) ∧
    ∀ source, parse source = .ok t → ∃ c : Cover, c.Of source ∧ c.tree = t ∧
      (∀ u, t.analyze = .error u → u.construct ≠ .shape) ∧
      ((∃ u, t.analyze = .error u) ↔
        ∃ w ∈ [Keyword.MERGE, .UNION, .WHERE], ∃ l ∈ c.own, Cover.Uses [c] w l) ∧
      ∀ u, t.analyze = .error u → ∃ w l, u.construct.word? = some w ∧
        IsFirst (Cover.Uses [c] w) c.own l ∧ u.position = l.position := by
  refine ⟨Tree.unsupported?_eq_none_iff, fun u => Tree.unsupported?_eq_some_iff, ?_⟩
  intro source h
  have herror : ∀ {u}, t.analyze = .error u ↔ t.unsupported? = some u := Tree.analyze_error_iff h
  obtain ⟨c, hc, rfl⟩ := cover_of_parse h
  refine ⟨c, hc, rfl, ?_, ?_, ?_⟩
  · intro u hu hshape
    obtain ⟨w, -, hw, -⟩ := hc.isFirst_of_unsupported (herror.mp hu)
    rw [hshape] at hw
    cases hw
  · simp only [herror]
    rw [← Option.isSome_iff_exists, ← not_iff_not, Option.not_isSome_iff_eq_none,
      hc.unsupported?_eq_none_iff]
    simp only [not_exists, not_and]
  · intro u hu
    exact hc.isFirst_of_unsupported (herror.mp hu)

/-- A label and a property key are no uses, even in front of one. -/
theorem support_gate_of_reserved_names :
    ∃ t c, parse "MATCH (n:Merge {where: 1}) WHERE n.union RETURN n" = .ok t ∧
      t.analyze = .error ⟨.filter, ⟨1, 27⟩⟩ ∧ Cover.tree c = t ∧
      ∃ w l, Construct.filter.word? = some w ∧ IsFirst (Cover.Uses [c] w) c.own l ∧
        ⟨1, 27⟩ = l.position := by
  obtain ⟨t, ht, hu⟩ : ∃ t, parse "MATCH (n:Merge {where: 1}) WHERE n.union RETURN n" = .ok t ∧
      t.unsupported? = some ⟨.filter, ⟨1, 27⟩⟩ :=
    exists_parse_eq_ok (by decide +kernel)
  have herror := (Tree.analyze_error_iff ht).mpr hu
  obtain ⟨-, -, hparsed⟩ := support_gate t
  obtain ⟨c, -, hc, -, -, hfirst⟩ := hparsed _ ht
  exact ⟨t, c, ht, herror, hc, hfirst _ herror⟩

end BindCheck

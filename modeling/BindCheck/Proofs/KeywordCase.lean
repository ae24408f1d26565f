import BindCheck.Proofs.CorrespondingRegions
import BindCheck.Proofs.LetterCase
import BindCheck.Proofs.Renaming
import BindCheck.Proofs.SupportGate

/-!
# BindCheck.Proofs.KeywordCase

**The case of reserved words matters where a text is the name of a column, and nowhere else.** Let
letters of a query be written in the other case, all of them within reserved words. The result is a
query whose tree has the same nodes at the same places; and the same is found in it, if the same
expressions have the text of a name that is bound where they are read (`analyze_recased`).

* Reserved words stay the same terminals, so the query is parsed as it was, with the same nodes over
  the lexemes that replace the old ones; these nodes correspond (`Recasing.correspondence`).
* A name is no reserved word and is written as it was. So a text is a name just if it was that name
  (`Recasing.text_iff_of_variable`), and a variable is bound just if it was.
* What is left of what the resolver compares are the texts of expressions with those of columns that
  have no name of their own. Of them the hypothesis speaks (`Tree.SameColumns`).

The hypothesis is needed: a column that is written in one way and read in another is not found
(`recased_column_not_found`). It holds where equal texts of expressions stay equal and different
ones different, and so wherever words that are spelled alike stay alike and all others apart
(`analyze_respelled`).
-/

namespace BindCheck

/-! ### What is kept -/

namespace Tree

mutual

/-- A tree whose nodes have no texts. -/
def outline : Tree → Tree
  | ⟨k, _, p, cs⟩ => ⟨k, "", p, outlineAll cs⟩

/-- Trees whose nodes have no texts. -/
def outlineAll : List Tree → List Tree
  | [] => []
  | c :: cs => c.outline :: outlineAll cs

end

/-- That in trees of one shape the same expressions have the text of a name that is bound where
they are read. -/
def SameColumns (t t' : Tree) : Prop :=
  ∀ r ∈ t.readRegions.zip t'.readRegions, ∀ m ∈ r.1.nodes.zip r.2.nodes,
    m.1.kind.isExpression = true → (m.1.text ∈ r.1.names ↔ m.2.text ∈ r.2.names)

instance (t t' : Tree) : Decidable (t.SameColumns t') :=
  inferInstanceAs (Decidable (∀ r ∈ _, ∀ m ∈ _, _ → _))

/-- That in trees of one shape equal texts of expressions stay equal, and different ones
different. -/
def SameTexts (t t' : Tree) : Prop :=
  ∀ m ∈ t.descendants.zip t'.descendants, ∀ n ∈ t.descendants.zip t'.descendants,
    m.1.kind.isExpression = true → n.1.kind.isExpression = true →
      (m.1.text = n.1.text ↔ m.2.text = n.2.text)

namespace Correspondence

variable {R : Tree → Tree → Prop}

mutual

/-- Trees of one shape have one outline, if their nodes are at the same places. -/
theorem outline (hR : Correspondence R)
    (hplace : ∀ {t t' : Tree}, R t t' → t.position = t'.position) :
    ∀ {t t' : Tree}, R t t' → t.outline = t'.outline
  | ⟨k, _, p, cs⟩, ⟨k', _, p', cs'⟩, h => by
      obtain rfl : k = k' := hR.kind h
      obtain rfl : p = p' := hplace h
      rw [Tree.outline, Tree.outline, outlineAll hR hplace (hR.children h)]

theorem outlineAll (hR : Correspondence R)
    (hplace : ∀ {t t' : Tree}, R t t' → t.position = t'.position) :
    ∀ {cs cs' : List Tree}, List.Forall₂ R cs cs' → Tree.outlineAll cs = Tree.outlineAll cs'
  | [], _, .nil => rfl
  | _ :: _, _, .cons h hs => by
      rw [Tree.outlineAll, Tree.outlineAll, outline hR hplace h, outlineAll hR hplace hs]

end

end Correspondence

end Tree

/-! ### Lexemes in another case -/

/-- That lexemes which are the same, places aside, stay the same, and different ones different. -/
def Lexeme.SameSpelling (ls ls' : List Lexeme) : Prop :=
  ∀ l ∈ ls.zip ls', ∀ u ∈ ls.zip ls', (l.1.content = u.1.content ↔ l.2.content = u.2.content)

namespace Lexeme.Recased

variable {l l' : Lexeme}

/-- A name is no reserved word. -/
theorem eq_of_identifier (h : l.Recased l') {n : String} (hl : l.token = .identifier n) :
    l' = l := by
  have htext : l'.text = l.text := by
    refine h.text.resolve_right fun hkeyword => ?_
    rw [hl] at hkeyword
    exact Bool.false_ne_true hkeyword.1
  obtain ⟨t, x, p⟩ := l
  obtain ⟨t', x', p'⟩ := l'
  obtain rfl : t' = t := h.token
  obtain rfl : p' = p := h.position
  obtain rfl : x' = x := htext
  rfl

theorem cased (h : l.Recased l') : Cased l.text.toList l'.text.toList := by
  rcases h.text with heq | ⟨-, hcased⟩
  · rw [heq]
    exact .refl _
  · exact hcased

/-- A lexeme is a name just if it was that name. -/
theorem content_iff (h : l.Recased l') {u : Lexeme} {n : String} (hu : u.token = .identifier n) :
    u.content = l.content ↔ u.content = l'.content := by
  have hsame : u.token = l.token → l' = l := fun ht => h.eq_of_identifier (ht ▸ hu)
  refine ⟨fun hl => ?_, fun hl' => ?_⟩
  · rw [hsame (Prod.mk.inj hl).1]
    exact hl
  · rw [← hsame ((Prod.mk.inj hl').1.trans h.token)]
    exact hl'

end Lexeme.Recased

variable {φ : Lexeme → Lexeme}

theorem Lexeme.cased_join {us : List Lexeme} (h : ∀ u ∈ us, u.Recased (φ u)) :
    Cased (join us).toList (join (us.map φ)).toList := by
  rw [toList_join, toList_join]
  generalize false = word
  induction us generalizing word with
  | nil => exact .nil
  | cons u us ih =>
      obtain ⟨hu, hus⟩ := List.forall_mem_cons.mp h
      rw [List.map_cons, joinAfter, joinAfter, hu.token]
      exact List.rel_append (Cased.refl _) (List.rel_append hu.cased (ih hus _))

/-! ### Nodes over lexemes in another case -/

namespace Cover

theorem relabel_kind (φ : Lexeme → Lexeme) (m : Cover) : (m.relabel φ).kind = m.kind := by
  cases m; rfl

theorem relabel_children (φ : Lexeme → Lexeme) (m : Cover) :
    (m.relabel φ).children = m.children.map (relabel φ) := by
  cases m
  exact relabelAll_eq_map _

mutual

/-- The children of a node are nodes. -/
theorem mem_nodes_of_child {m m' : Cover} (hm' : m' ∈ m.children) :
    ∀ c : Cover, m ∈ c.nodes → m' ∈ c.nodes
  | ⟨k, us, cs⟩, hm => by
      rcases List.mem_cons.mp hm with rfl | hm
      · obtain ⟨front, back, hcs⟩ := List.append_of_mem hm'
        obtain rfl : cs = front ++ m' :: back := hcs
        rw [nodes, nodesAll_append, nodesAll, nodes_eq m']
        simp
      · exact List.mem_cons_of_mem _ (mem_nodesAll_of_child hm' cs hm)

theorem mem_nodesAll_of_child {m m' : Cover} (hm' : m' ∈ m.children) :
    ∀ cs : List Cover, m ∈ nodesAll cs → m' ∈ nodesAll cs
  | [], hm => absurd hm List.not_mem_nil
  | c :: cs, hm => by
      rcases List.mem_append.mp hm with hm | hm
      · exact List.mem_append_left _ (mem_nodes_of_child hm' c hm)
      · exact List.mem_append_right _ (mem_nodesAll_of_child hm' cs hm)

end

end Cover

/-- A query, and the same query with reserved words in another case. -/
structure Recasing (φ : Lexeme → Lexeme) (c : Cover) (source source' : String) : Prop where
  before : c.Of source
  behind : (c.relabel φ).Of source'
  recased : ∀ l ∈ c.own, l.Recased (φ l)

namespace Recasing

variable {c v m : Cover} {source source' : String}

theorem recased_own (h : Recasing φ c source source') (hm : m ∈ c.nodes) :
    ∀ l ∈ m.own, l.Recased (φ l) := fun l hl => h.recased l ((h.before.own_infix hm).subset hl)

/-- **A text is the name of a variable just if it was that name.** -/
theorem text_iff_of_variable (h : Recasing φ c source source') (hv : v ∈ c.nodes)
    (hk : v.kind = .variableName) (hm : m ∈ c.nodes) :
    v.tree.text = m.tree.text ↔ (v.relabel φ).tree.text = (m.relabel φ).tree.text := by
  obtain ⟨l, n, hl, hn⟩ := h.before.own_of_variable hv hk
  have hmem : l ∈ v.own := by rw [hl]; exact List.mem_cons_self
  have hsame : φ l = l := (h.recased_own hv l hmem).eq_of_identifier hn
  rw [h.before.text_eq_iff hv hm,
    h.behind.text_eq_iff (Cover.mem_nodes_relabel hv) (Cover.mem_nodes_relabel hm),
    Cover.own_relabel, Cover.own_relabel, hl, List.map_singleton, List.map_singleton, hsame]
  match hus : m.own with
  | [] => simp
  | [u] =>
      have hu := h.recased_own hm u (by rw [hus]; exact List.mem_cons_self)
      simp [hu.content_iff hn]
  | u :: u' :: us => simp

/-- That a tree is that of a node, and the other one is over the lexemes in another case. -/
def Nodes (φ : Lexeme → Lexeme) (c : Cover) (t t' : Tree) : Prop :=
  ∃ m ∈ c.nodes, t = m.tree ∧ t' = (m.relabel φ).tree

/-- **The trees correspond**, node by node. -/
theorem correspondence (h : Recasing φ c source source') : Tree.Correspondence (Nodes φ c) where
  kind := by
    rintro _ _ ⟨m, hm, rfl, rfl⟩
    rw [Cover.tree_kind, Cover.tree_kind, Cover.relabel_kind]
  star := by
    rintro _ _ ⟨m, hm, rfl, rfl⟩
    rw [Cover.tree_text, Cover.tree_text, Cover.own_relabel]
    exact Cased.head?_eq_some_iff (Lexeme.cased_join (h.recased_own hm))
      (by decide)
  children := by
    rintro _ _ ⟨m, hm, rfl, rfl⟩
    rw [Cover.tree_children, Cover.tree_children, Cover.relabel_children, List.map_map,
      List.forall₂_map_left_iff, List.forall₂_map_right_iff, List.forall₂_same]
    exact fun m' hm' => ⟨m', Cover.mem_nodes_of_child hm' c hm, rfl, rfl⟩

theorem position_eq (h : Recasing φ c source source') {t t' : Tree} (ht : Nodes φ c t t') :
    t.position = t'.position := by
  obtain ⟨⟨k, us, cs⟩, hm, rfl, rfl⟩ := ht
  show (us.head?.map Lexeme.position).getD _ = ((us.map φ).head?.map Lexeme.position).getD _
  cases us with
  | nil => rfl
  | cons l us => exact (h.recased_own hm l List.mem_cons_self).position.symm

/-- The text of a variable stays as it is. -/
theorem text_eq_of_variable (h : Recasing φ c source source') {t t' : Tree}
    (ht : Nodes φ c t t') (hk : t.kind = .variableName) : t.text = t'.text := by
  obtain ⟨m, hm, rfl, rfl⟩ := ht
  obtain ⟨l, n, hl, hn⟩ := h.before.own_of_variable hm (m.tree_kind ▸ hk)
  have hsame := (h.recased_own hm l (by rw [hl]; exact List.mem_cons_self)).eq_of_identifier hn
  rw [Cover.tree_text, Cover.tree_text, Cover.own_relabel, hl, List.map_singleton, hsame]

/-- **A variable is bound just if it was.** -/
theorem mem_names_iff (h : Recasing φ c source source') {names names' : List String}
    (hnames : List.Forall₂ (Tree.TextsOf (Nodes φ c)) names names') {t t' : Tree}
    (ht : Nodes φ c t t') (hk : t.kind = .variableName) : t.text ∈ names ↔ t'.text ∈ names' := by
  obtain ⟨v, hv, rfl, rfl⟩ := ht
  rw [Cover.tree_kind] at hk
  induction hnames with
  | nil => simp
  | cons hx _ ih =>
      obtain ⟨_, _, ⟨⟨m, hm, rfl, rfl⟩, -⟩, rfl, rfl⟩ := hx
      rw [List.mem_cons, List.mem_cons, ih, h.text_iff_of_variable hv hk hm]

theorem root (c : Cover) : Nodes φ c c.tree (c.relabel φ).tree :=
  ⟨c, by rw [c.nodes_eq]; exact List.mem_cons_self, rfl, rfl⟩

/-- Corresponding variables are found under the same names, at the same places. -/
theorem map_undefined_eq (h : Recasing φ c source source') {vs vs' : List Tree}
    (hvs : List.Forall₂ (Nodes φ c) vs vs') (hk : ∀ v ∈ vs, v.kind = .variableName) :
    vs.map Tree.undefined = vs'.map Tree.undefined := by
  induction hvs with
  | nil => rfl
  | cons hv _ ih =>
      obtain ⟨hkind, hk⟩ := List.forall_mem_cons.mp hk
      rw [List.map_cons, List.map_cons, ih hk, Tree.undefined, Tree.undefined,
        h.text_eq_of_variable hv hkind, h.position_eq hv]

/-- **The same variables are unresolved**, if the same expressions have the text of a bound
name. -/
theorem unresolved_eq (h : Recasing φ c source source')
    (hcolumns : c.tree.SameColumns (c.relabel φ).tree) :
    c.tree.unresolved.map Tree.undefined = (c.relabel φ).tree.unresolved.map Tree.undefined := by
  have hunresolved := h.correspondence.unresolved (root c) fun r hr hnames m hm hnodes =>
    ⟨h.correspondence.kind hnodes, fun hvalue => hvalue.elim (hcolumns r hr m hm)
      (h.mem_names_iff hnames.names hnodes)⟩
  exact h.map_undefined_eq hunresolved fun v hv => Tree.kind_of_mem_unresolved hv

/-- The same is found in both queries. -/
theorem analyze_eq (h : Recasing φ c source source')
    (hcolumns : c.tree.SameColumns (c.relabel φ).tree) :
    (c.relabel φ).tree.analyze = c.tree.analyze := by
  have hunsupported := h.correspondence.unsupported? (root c)
  cases hu : c.tree.unsupported? <;> cases hu' : (c.relabel φ).tree.unsupported? <;>
    rw [hu, hu'] at hunsupported <;> cases hunsupported
  · rw [Tree.analyze_of_supported h.before.parsed hu, Tree.analyze_of_supported h.behind.parsed hu',
      h.unresolved_eq hcolumns]
  · next u u' hrefused =>
    obtain ⟨construct, p⟩ := u
    obtain ⟨construct', p'⟩ := u'
    obtain ⟨rfl, t, t', ht, rfl, rfl⟩ := hrefused
    unfold Tree.analyze
    rw [hu, hu', h.position_eq ht]

/-! ### Consistent spellings -/

theorem zip_descendants (φ : Lexeme → Lexeme) (c : Cover) :
    c.tree.descendants.zip (c.relabel φ).tree.descendants =
      c.nodes.map fun m => (m.tree, (m.relabel φ).tree) := by
  rw [Cover.descendants_tree, Cover.descendants_tree, Cover.nodes_relabel, List.map_map,
    List.zip_map']
  rfl

theorem Nodes.mem_zip {t t' : Tree} (h : Nodes φ c t t') :
    (t, t') ∈ c.tree.descendants.zip (c.relabel φ).tree.descendants := by
  obtain ⟨m, hm, rfl, rfl⟩ := h
  rw [zip_descendants]
  exact List.mem_map.mpr ⟨m, hm, rfl⟩

/-- An expression has the text of a bound name just if it had, if equal texts of expressions stay
equal and different ones different: the name is that of a variable or the text of an expression. -/
theorem mem_names_iff_of_sameTexts (h : Recasing φ c source source')
    (htexts : c.tree.SameTexts (c.relabel φ).tree) {names names' : List String}
    (hnames : List.Forall₂ (Tree.TextsOf (Nodes φ c)) names names') {t t' : Tree}
    (ht : Nodes φ c t t') (hk : t.kind.isExpression = true) :
    t.text ∈ names ↔ t'.text ∈ names' := by
  induction hnames with
  | nil => simp
  | cons hx _ ih =>
      obtain ⟨n, n', ⟨hn, hnamer⟩, rfl, rfl⟩ := hx
      have hsame : t.text = n.text ↔ t'.text = n'.text := by
        rcases hnamer with hnamer | hnamer
        · exact htexts _ ht.mem_zip _ hn.mem_zip hk (by rw [hnamer]; rfl)
        · obtain ⟨m, hm, rfl, rfl⟩ := ht
          obtain ⟨v, hv, rfl, rfl⟩ := hn
          rw [Cover.tree_kind] at hnamer
          exact eq_comm.trans ((h.text_iff_of_variable hv hnamer hm).trans eq_comm)
      rw [List.mem_cons, List.mem_cons, ih, hsame]

/-- **Where equal texts of expressions stay equal and different ones different**, the same
expressions have the text of a bound name. -/
theorem sameColumns (h : Recasing φ c source source')
    (htexts : c.tree.SameTexts (c.relabel φ).tree) :
    c.tree.SameColumns (c.relabel φ).tree := by
  intro r hr m hm hk
  obtain ⟨-, hregions⟩ := List.forall₂_iff_zip.mp (h.correspondence.readRegions (root c))
  have hregion := hregions hr
  obtain ⟨-, hnodes⟩ := List.forall₂_iff_zip.mp (h.correspondence.descendants hregion.root)
  exact h.mem_names_iff_of_sameTexts htexts hregion.names (hnodes hm) hk

/-- Texts are equal just if their lexemes are the same, so it is enough that these are told apart as
they were. -/
theorem sameTexts (h : Recasing φ c source source')
    (hspelling : ∀ l ∈ c.own, ∀ u ∈ c.own, (l.content = u.content ↔ (φ l).content = (φ u).content)) :
    c.tree.SameTexts (c.relabel φ).tree := by
  intro m hm n hn _ _
  rw [zip_descendants, List.mem_map] at hm hn
  obtain ⟨m, hm, rfl⟩ := hm
  obtain ⟨n, hn, rfl⟩ := hn
  have hwithin := h.before.own_infix hm
  have hwithin' := h.before.own_infix hn
  rw [h.before.text_eq_iff hm hn,
    h.behind.text_eq_iff (Cover.mem_nodes_relabel hm) (Cover.mem_nodes_relabel hn),
    Cover.own_relabel, Cover.own_relabel]
  exact Lexeme.map_content_iff fun l hl u hu =>
    hspelling l (hwithin.subset hl) u (hwithin'.subset hu)

end Recasing

/-- A query in which letters of reserved words are written in the other case is parsed, with the
same nodes over the lexemes that replace the old ones. -/
theorem Recased.exists_recasing {source source' : String} {ls : List Lexeme} {t : Tree}
    (hls : tokenize source = .ok ls) (h : parse source = .ok t)
    (hs : Recased .start ls source.toList source'.toList) :
    ∃ φ c, c.tree = t ∧ Recasing φ c source source' ∧ tokenize source' = .ok (ls.map φ) := by
  obtain ⟨ls', hls', hlexemes⟩ := tokenize_recased hls hs
  obtain ⟨φ, rfl, hφ⟩ := exists_map_of_forall₂ (nodup_of_tokenize hls) hlexemes
  have hkeeps : ∀ l ∈ ls, l.Keeps φ := by
    intro l hl t
    rw [(hφ l hl).token]
  obtain ⟨c, hc, rfl, hc'⟩ := parse_of_keeps hls hls' hkeeps h
  have hown : ∀ l ∈ c.own, l.Recased (φ l) := by
    obtain ⟨p, rfl, -⟩ := hc.run_of_tokenize hls
    exact fun l hl => hφ l (List.mem_append_left _ hl)
  exact ⟨φ, c, rfl, ⟨hc, hc', hown⟩, hls'⟩

/-- **The case of reserved words matters for the texts of columns alone.** Let letters of a query be
written in the other case, all of them within reserved words. The result is a query, with the same
nodes at the same places; and its analysis is the same, if the same expressions have the text of a
name that is bound where they are read. -/
theorem analyze_recased {source source' : String} {ls : List Lexeme} {t : Tree}
    (hls : tokenize source = .ok ls) (h : parse source = .ok t)
    (hs : Recased .start ls source.toList source'.toList) :
    ∃ t', parse source' = .ok t' ∧ t'.outline = t.outline ∧
      (t.SameColumns t' → t'.analyze = t.analyze) := by
  obtain ⟨φ, c, rfl, hrecasing, -⟩ := Recased.exists_recasing hls h hs
  have houtline := hrecasing.correspondence.outline hrecasing.position_eq (Recasing.root c)
  exact ⟨_, hrecasing.behind.parsed, houtline.symm, hrecasing.analyze_eq⟩

theorem exists_tokenize_eq_ok {source : String} {P : List Lexeme → Prop} [DecidablePred P]
    (h : (tokenize source).toOption.map (fun ls => decide (P ls)) = some true) :
    ∃ ls, tokenize source = .ok ls ∧ P ls := by
  cases hls : tokenize source with
  | error e => rw [hls] at h; exact absurd h (by simp [Except.toOption])
  | ok ls => rw [hls] at h; exact ⟨ls, rfl, of_decide_eq_true (Option.some.inj h)⟩

/-- A column that is written in one way where it is made and where it is read. -/
theorem analyze_recased_of_column :
    ∃ t t', parse "MATCH (n) WITH count(DISTINCT n) RETURN count(DISTINCT n), m" = .ok t ∧
      parse "match (n) WITH count(Distinct n) return count(Distinct n), m" = .ok t' ∧
        t'.outline = t.outline ∧ t.SameColumns t' ∧
          t.analyze = .ok ⟨[⟨.undefinedVariable, "m", ⟨1, 59⟩⟩]⟩ ∧ t'.analyze = t.analyze := by
  obtain ⟨ls, hls, hs⟩ : ∃ ls,
      tokenize "MATCH (n) WITH count(DISTINCT n) RETURN count(DISTINCT n), m" = .ok ls ∧
        Recased .start ls "MATCH (n) WITH count(DISTINCT n) RETURN count(DISTINCT n), m".toList
          "match (n) WITH count(Distinct n) return count(Distinct n), m".toList :=
    exists_tokenize_eq_ok (by decide +kernel)
  obtain ⟨t, ht, hfound⟩ : ∃ t,
      parse "MATCH (n) WITH count(DISTINCT n) RETURN count(DISTINCT n), m" = .ok t ∧
        (t.analyze,
          (parse "match (n) WITH count(Distinct n) return count(Distinct n), m").toOption.map
            fun t' => decide (t.SameColumns t')) =
          (.ok ⟨[⟨.undefinedVariable, "m", ⟨1, 59⟩⟩]⟩, some true) :=
    exists_parse_eq_ok (by decide +kernel)
  obtain ⟨hanalysis, hcolumns⟩ := Prod.mk.inj hfound
  obtain ⟨t', ht', houtline, hsame⟩ := analyze_recased hls ht hs
  rw [ht'] at hcolumns
  have hcolumns := of_decide_eq_true (Option.some.inj hcolumns)
  exact ⟨t, t', ht, ht', houtline, hcolumns, hanalysis, hsame hcolumns⟩

/-- **A column that is read in another case is not found.** Only letters of the second `DISTINCT`
change, while `count` is all that stands in names; and the variable below it is reported then. -/
theorem recased_column_not_found :
    ∃ ls t t', tokenize "MATCH (n) WITH count(DISTINCT n) RETURN count(DISTINCT n)" = .ok ls ∧
      ⟨.keyword .DISTINCT, "DISTINCT", ⟨1, 46⟩⟩ ∈ ls ∧
        Recased .start [⟨.keyword .DISTINCT, "DISTINCT", ⟨1, 46⟩⟩]
          "MATCH (n) WITH count(DISTINCT n) RETURN count(DISTINCT n)".toList
          "MATCH (n) WITH count(DISTINCT n) RETURN count(distinct n)".toList ∧
        parse "MATCH (n) WITH count(DISTINCT n) RETURN count(DISTINCT n)" = .ok t ∧
        (∀ m ∈ t.preorder fun _ => true, m.kind.isName = true → m.text = "count") ∧
        t.analyze = .ok ⟨[]⟩ ∧
        parse "MATCH (n) WITH count(DISTINCT n) RETURN count(distinct n)" = .ok t' ∧
        t'.analyze = .ok ⟨[⟨.undefinedVariable, "n", ⟨1, 55⟩⟩]⟩ := by
  obtain ⟨ls, hls, hmem⟩ : ∃ ls,
      tokenize "MATCH (n) WITH count(DISTINCT n) RETURN count(DISTINCT n)" = .ok ls ∧
        ⟨.keyword .DISTINCT, "DISTINCT", ⟨1, 46⟩⟩ ∈ ls :=
    exists_tokenize_eq_ok (by decide +kernel)
  obtain ⟨t, ht, hfound⟩ : ∃ t,
      parse "MATCH (n) WITH count(DISTINCT n) RETURN count(DISTINCT n)" = .ok t ∧
        (decide (∀ m ∈ t.preorder fun _ => true, m.kind.isName = true → m.text = "count"),
          t.analyze) = (true, .ok ⟨[]⟩) :=
    exists_parse_eq_ok (by decide +kernel)
  obtain ⟨hnames, hfound⟩ := Prod.mk.inj hfound
  obtain ⟨t', ht', hfound'⟩ : ∃ t',
      parse "MATCH (n) WITH count(DISTINCT n) RETURN count(distinct n)" = .ok t' ∧
        t'.analyze = .ok ⟨[⟨.undefinedVariable, "n", ⟨1, 55⟩⟩]⟩ :=
    exists_parse_eq_ok (by decide +kernel)
  exact ⟨ls, t, t', hls, hmem, by decide +kernel, ht, of_decide_eq_true hnames, hfound, ht',
    hfound'⟩

/-- **Where spellings are told apart as before, the same is found.** If words that are spelled alike
stay alike and all others apart, then so do the texts of expressions; and if these do, the same is
found. -/
theorem analyze_respelled {source source' : String} {ls ls' : List Lexeme} {t : Tree}
    (hls : tokenize source = .ok ls) (hls' : tokenize source' = .ok ls')
    (h : parse source = .ok t) (hs : Recased .start ls source.toList source'.toList) :
    ∃ t', parse source' = .ok t' ∧ (Lexeme.SameSpelling ls ls' → t.SameTexts t') ∧
      (t.SameTexts t' → t.SameColumns t' ∧ t'.analyze = t.analyze) := by
  obtain ⟨φ, c, rfl, hrecasing, htokens⟩ := Recased.exists_recasing hls h hs
  rw [hls', Except.ok.injEq] at htokens
  subst htokens
  refine ⟨_, hrecasing.behind.parsed, fun hspelling => ?_, fun htexts => ?_⟩
  · have hpair : ∀ l ∈ c.own, (l, φ l) ∈ ls.zip (ls.map φ) := by
      obtain ⟨p, rfl, -⟩ := hrecasing.before.run_of_tokenize hls
      intro l hl
      rw [← List.map_prod_left_eq_zip]
      exact List.mem_map.mpr ⟨l, List.mem_append_left _ hl, rfl⟩
    exact hrecasing.sameTexts fun l hl u hu => hspelling _ (hpair l hl) _ (hpair u hu)
  · have hcolumns := hrecasing.sameColumns htexts
    exact ⟨hcolumns, hrecasing.analyze_eq hcolumns⟩

end BindCheck

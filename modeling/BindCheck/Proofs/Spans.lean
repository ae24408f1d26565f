import BindCheck.Proofs.Lossless
import BindCheck.Proofs.Progress

/-!
# BindCheck.Proofs.Spans

**The nodes of a tree are over nested stretches of lexemes.** `Tree.Spans` gives each node of
a tree a stretch of the lexemes of the text, from one index up to another: its place is that of
the first of them, its text is theirs, and below it the stretches of its children follow one
upon the other inside its own.

* A run finds such nodes wherever its lexemes stand (`Run.spansAll`). A tree itself only
  remembers texts and places, so this is shown of runs, whose nodes hold their lexemes.
* Lexemes stand one behind the other, and so do the nodes that are over them: in the order of the
  tree no node starts before the one in front of it (`Tree.Spans.pairwise_preorder`).
-/

namespace BindCheck

/-! ### Stretches -/

namespace Tree

/-- That a node is over the lexemes from the index `i` up to the index `j`. It is over some, and
a variable is over just one, which is a name. -/
structure IsOver (ls : List Lexeme) (t : Tree) (i j : Nat) : Prop where
  nonempty : i < j
  position_eq : ls[i]?.map Lexeme.position = some t.position
  text_eq : t.text = Lexeme.join (ls.extract i j)
  name_of_variable : t.kind = .variableName →
    j = i + 1 ∧ ∃ n, ls[i]?.map Lexeme.token = some (.identifier n)

mutual

/-- That a node is over the lexemes from the index `i` up to the index `j`, and the nodes below
it are over stretches inside this one. -/
def Spans (ls : List Lexeme) : Tree → Nat → Nat → Prop
  | ⟨k, x, p, cs⟩, i, j => IsOver ls ⟨k, x, p, cs⟩ i j ∧ SpansAll ls cs i j

/-- That several nodes are over stretches between two indices, each behind the one before. -/
def SpansAll (ls : List Lexeme) : List Tree → Nat → Nat → Prop
  | [], i, j => i ≤ j
  | c :: cs, i, j => ∃ a b, i ≤ a ∧ Spans ls c a b ∧ SpansAll ls cs b j

end

variable {ls : List Lexeme} {t : Tree} {cs cs' : List Tree} {i j k : Nat}

theorem spans_iff : t.Spans ls i j ↔ t.IsOver ls i j ∧ SpansAll ls t.children i j := by
  cases t
  rfl

theorem Spans.isOver (h : t.Spans ls i j) : t.IsOver ls i j := (spans_iff.mp h).1

theorem Spans.children (h : t.Spans ls i j) : SpansAll ls t.children i j := (spans_iff.mp h).2

namespace SpansAll

theorem le (h : SpansAll ls cs i j) : i ≤ j := by
  induction cs generalizing i with
  | nil => exact h
  | cons c cs ih =>
      obtain ⟨a, b, hle, hc, hcs⟩ := h
      exact hle.trans (hc.isOver.nonempty.le.trans (ih hcs))

theorem singleton (h : t.Spans ls i j) : SpansAll ls [t] i j := ⟨i, j, le_rfl, h, le_rfl⟩

/-- The nodes may start later than they have to. -/
theorem mono_left (h : SpansAll ls cs j k) (hle : i ≤ j) : SpansAll ls cs i k := by
  cases cs with
  | nil => exact hle.trans h
  | cons c cs =>
      obtain ⟨a, b, hja, hc, hcs⟩ := h
      exact ⟨a, b, hle.trans hja, hc, hcs⟩

theorem append (h : SpansAll ls cs i j) (h' : SpansAll ls cs' j k) :
    SpansAll ls (cs ++ cs') i k := by
  induction cs generalizing i with
  | nil => exact h'.mono_left h
  | cons c cs ih =>
      obtain ⟨a, b, hle, hc, hcs⟩ := h
      exact ⟨a, b, hle, hc, ih hcs⟩

end SpansAll

end Tree

/-! ### The nodes of a run -/

/-- That a node holds a lexeme, and only one if it is a variable, which is a name. -/
structure Cover.Holds (m : Cover) : Prop where
  own_ne_nil : m.own ≠ []
  name_of_variable : m.kind = .variableName → ∃ l n, m.own = [l] ∧ l.token = .identifier n

theorem Cover.Holds.isOver {m : Cover} (h : m.Holds) (front vs : List Lexeme) :
    m.tree.IsOver (front ++ (m.own ++ vs)) front.length (front.length + m.own.length) := by
  obtain ⟨k, us, cs⟩ := m
  obtain ⟨hne, hname⟩ := h
  cases us with
  | nil => exact absurd rfl hne
  | cons u us =>
      refine ⟨by simp, by simp [tree, Tree.over], ?_, ?_⟩
      · simp [tree, Tree.over, List.extract_eq_take_drop]
      · intro hk
        obtain ⟨l, n, hl, hn⟩ := hname hk
        obtain ⟨rfl, rfl⟩ := List.cons.inj hl
        exact ⟨by simp, n, by simp [hn]⟩

/-- A node over others spans them. -/
theorem Shape.spansAll_cover {s : Shape} {us vs front : List Lexeme} {cs : List Cover}
    (hholds : ∀ m ∈ Cover.nodesAll (s.cover us cs), m.Holds)
    (h : Tree.SpansAll (front ++ (us ++ vs)) (cs.map Cover.tree) front.length
      (front.length + us.length)) :
    Tree.SpansAll (front ++ (us ++ vs)) ((s.cover us cs).map Cover.tree) front.length
      (front.length + us.length) := by
  cases hk : s.kindOver cs with
  | none => rwa [cover_of_kindOver_none hk]
  | some k =>
      rw [cover_of_kindOver hk] at hholds ⊢
      rw [Cover.nodesAll_singleton, Cover.nodes_eq] at hholds
      have hover := (hholds _ List.mem_cons_self).isOver front vs
      refine .singleton (Tree.spans_iff.mpr ⟨hover, ?_⟩)
      rwa [Cover.tree_children]

/-- **The nodes of a run are over nested stretches of its lexemes**, whatever stands in front
of them. -/
theorem Run.spansAll {r : Rule} {us vs : List Lexeme} {cs : List Cover} (h : Run r us vs cs) :
    (∀ m ∈ Cover.nodesAll cs, m.Holds) → ∀ front : List Lexeme,
      Tree.SpansAll (front ++ (us ++ vs)) (cs.map Cover.tree) front.length
        (front.length + us.length) := by
  -- two runs in a row: the second one has the lexemes of the first in front of it
  have hseq : ∀ {us us' vs : List Lexeme} {cs cs' : List Cover},
      ((∀ m ∈ Cover.nodesAll cs, m.Holds) → ∀ front : List Lexeme,
        Tree.SpansAll (front ++ (us ++ (us' ++ vs))) (cs.map Cover.tree) front.length
          (front.length + us.length)) →
      ((∀ m ∈ Cover.nodesAll cs', m.Holds) → ∀ front : List Lexeme,
        Tree.SpansAll (front ++ (us' ++ vs)) (cs'.map Cover.tree) front.length
          (front.length + us'.length)) →
      (∀ m ∈ Cover.nodesAll (cs ++ cs'), m.Holds) → ∀ front : List Lexeme,
        Tree.SpansAll (front ++ (us ++ us' ++ vs)) ((cs ++ cs').map Cover.tree) front.length
          (front.length + (us ++ us').length) := by
    intro us us' vs cs cs' ih₁ ih₂ hholds front
    rw [Cover.nodesAll_append] at hholds
    have h₁ := ih₁ (fun m hm => hholds m (List.mem_append_left _ hm)) front
    have h₂ := ih₂ (fun m hm => hholds m (List.mem_append_right _ hm)) (front ++ us)
    simp only [List.append_assoc, List.length_append, List.map_append, ← Nat.add_assoc] at h₁ h₂ ⊢
    exact h₁.append h₂
  induction h with
  | empty | token | demand | done => exact fun _ front => Nat.le_add_right _ _
  | seq _ _ ih₁ ih₂ | step _ _ _ ih₁ ih₂ | sepBy _ _ ih₁ ih₂ => exact hseq ih₁ ih₂
  | yes _ _ ih | no _ _ ih | call _ ih | attemptFirst _ _ ih | attemptOther _ ih => exact ih
  | wrap _ ih =>
      intro hholds front
      exact Shape.spansAll_cover hholds
        (ih (fun m hm => hholds m (Shape.mem_nodesAll_of_mem hm)) front)
  | forkYes _ _ _ ih₁ ih₂ | forkNo _ _ _ ih₁ ih₂ =>
      intro hholds front
      exact Shape.spansAll_cover hholds
        (hseq ih₁ ih₂ (fun m hm => hholds m (Shape.mem_nodesAll_of_mem hm)) front)

theorem Cover.Of.holds {c m : Cover} {source : String} (h : c.Of source) (hm : m ∈ c.nodes) :
    m.Holds :=
  ⟨h.own_ne_nil hm, h.own_of_variable hm⟩

/-! ### The order of places -/

/-- That a place is not behind another one. -/
def Position.NotAfter (p q : Position) : Prop := p = q ∨ p.Before q

/-- Lexemes that stand one behind the other have their places in the order of their indices. -/
theorem Lexeme.before_of_lt {ls : List Lexeme} (hls : (ls.map position).Pairwise Position.Before)
    {i j : Nat} {p q : Position} (hp : ls[i]?.map position = some p)
    (hq : ls[j]?.map position = some q) (h : i < j) : p.Before q := by
  rw [← List.getElem?_map] at hp hq
  obtain ⟨hi, rfl⟩ := List.getElem?_eq_some_iff.mp hp
  obtain ⟨hj, rfl⟩ := List.getElem?_eq_some_iff.mp hq
  exact List.pairwise_iff_getElem.mp hls i j hi hj h

namespace Tree

variable {ls : List Lexeme} {i j : Nat}

mutual

/-- Every node below a node spans a stretch inside that of the node. -/
theorem Spans.of_mem_preorder {n : Tree} : ∀ {t : Tree} {i j : Nat}, t.Spans ls i j →
    n ∈ t.preorder (fun _ => true) → ∃ a b, i ≤ a ∧ b ≤ j ∧ n.Spans ls a b
  | ⟨k, x, p, cs⟩, i, j, h, hn => by
      rw [preorder, if_pos rfl] at hn
      rcases List.mem_cons.mp hn with rfl | hn
      · exact ⟨i, j, le_rfl, le_rfl, h⟩
      · exact SpansAll.of_mem_preorderAll h.2 hn

theorem SpansAll.of_mem_preorderAll {n : Tree} : ∀ {cs : List Tree} {i j : Nat},
    SpansAll ls cs i j → n ∈ preorderAll (fun _ => true) cs →
      ∃ a b, i ≤ a ∧ b ≤ j ∧ n.Spans ls a b
  | [], _, _, _, hn => absurd hn List.not_mem_nil
  | c :: cs, i, j, h, hn => by
      obtain ⟨a, b, hle, hc, hcs⟩ := h
      rw [preorderAll] at hn
      rcases List.mem_append.mp hn with hn | hn
      · obtain ⟨a', b', ha, hb, hn⟩ := hc.of_mem_preorder hn
        exact ⟨a', b', hle.trans ha, hb.trans hcs.le, hn⟩
      · obtain ⟨a', b', ha, hb, hn⟩ := SpansAll.of_mem_preorderAll hcs hn
        exact ⟨a', b', (hle.trans hc.isOver.nonempty.le).trans ha, hb, hn⟩

end

theorem IsOver.notAfter {t t' : Tree} {i' j' : Nat}
    (hls : (ls.map Lexeme.position).Pairwise Position.Before) (h : t.IsOver ls i j)
    (h' : t'.IsOver ls i' j') (hle : i ≤ i') : t.position.NotAfter t'.position := by
  rcases hle.eq_or_lt with rfl | hlt
  · exact .inl (Option.some.inj (h.position_eq.symm.trans h'.position_eq))
  · exact .inr (Lexeme.before_of_lt hls h.position_eq h'.position_eq hlt)

mutual

/-- **In the order of the tree no node starts before the one in front of it.** -/
theorem Spans.pairwise_preorder (hls : (ls.map Lexeme.position).Pairwise Position.Before) :
    ∀ {t : Tree} {i j : Nat}, t.Spans ls i j →
      (t.preorder fun _ => true).Pairwise fun a b => a.position.NotAfter b.position
  | ⟨k, x, p, cs⟩, i, j, h => by
      rw [preorder, if_pos rfl, List.pairwise_cons]
      refine ⟨fun n hn => ?_, SpansAll.pairwise_preorderAll hls h.2⟩
      obtain ⟨a, b, hle, -, hspans⟩ := SpansAll.of_mem_preorderAll h.2 hn
      exact h.1.notAfter hls hspans.isOver hle

theorem SpansAll.pairwise_preorderAll (hls : (ls.map Lexeme.position).Pairwise Position.Before) :
    ∀ {cs : List Tree} {i j : Nat}, SpansAll ls cs i j →
      (preorderAll (fun _ => true) cs).Pairwise fun a b => a.position.NotAfter b.position
  | [], _, _, _ => List.Pairwise.nil
  | c :: cs, i, j, h => by
      obtain ⟨a, b, -, hc, hcs⟩ := h
      rw [preorderAll, List.pairwise_append]
      refine ⟨hc.pairwise_preorder hls, SpansAll.pairwise_preorderAll hls hcs, ?_⟩
      intro n hn n' hn'
      obtain ⟨a₁, b₁, -, hb₁, hspans⟩ := hc.of_mem_preorder hn
      obtain ⟨a₂, b₂, ha₂, -, hspans'⟩ := SpansAll.of_mem_preorderAll hcs hn'
      have hlt := hspans.isOver.nonempty
      exact hspans.isOver.notAfter hls hspans'.isOver (by omega)

end

/-- The children of a node start one behind the other. -/
theorem SpansAll.pairwise_before (hls : (ls.map Lexeme.position).Pairwise Position.Before)
    {cs : List Tree} (h : SpansAll ls cs i j) :
    (cs.map Tree.position).Pairwise Position.Before := by
  induction cs generalizing i with
  | nil => exact List.Pairwise.nil
  | cons c cs ih =>
      obtain ⟨a, b, -, hc, hcs⟩ := h
      rw [List.map_cons, List.pairwise_cons]
      refine ⟨fun q hq => ?_, ih hcs⟩
      obtain ⟨c', hc', rfl⟩ := List.mem_map.mp hq
      have hmem : c' ∈ preorderAll (fun _ => true) cs := by
        rw [preorderAll_eq_flatMap]
        exact List.mem_flatMap_of_mem hc' c'.mem_descendants_self
      obtain ⟨a', b', hle, -, hspans⟩ := hcs.of_mem_preorderAll hmem
      exact Lexeme.before_of_lt hls hc.isOver.position_eq hspans.isOver.position_eq
        (hc.isOver.nonempty.trans_le hle)

end Tree

/-! ### Parsed trees -/

/-- **The nodes of a parsed tree are over nested stretches of the lexemes of the text**, and the
root is over all of them but the end. So places never decrease in the order of the tree, and
the children of a node stand one behind the other. -/
theorem parse_spans {source : String} {t : Tree} (h : parse source = .ok t) :
    ∃ us p, tokenize source = .ok (us ++ [Lexeme.ending p]) ∧
      t.Spans (us ++ [Lexeme.ending p]) 0 us.length ∧
      (t.descendants.map Tree.position).Pairwise Position.NotAfter ∧
      ∀ n ∈ t.descendants, (n.children.map Tree.position).Pairwise Position.Before := by
  obtain ⟨c, hc, rfl⟩ := cover_of_parse h
  obtain ⟨p, htokens, run⟩ := hc.run
  have hls := pairwise_before_of_tokenize htokens
  have hspans : c.tree.Spans (c.own ++ [Lexeme.ending p]) 0 c.own.length := by
    obtain ⟨cs, hroot, hbody⟩ := Run.node_iff.mp run
    have hchildren : c.children = cs := congrArg Cover.children (List.cons.inj hroot).1
    have hall := hbody.spansAll (fun m hm => hc.holds ?_) []
    · have hmem : c ∈ c.nodes := c.nodes_eq ▸ List.mem_cons_self
      have hover := (hc.holds hmem).isOver [] [Lexeme.ending p]
      rw [List.length_nil, Nat.zero_add, List.nil_append] at hover hall
      refine Tree.spans_iff.mpr ⟨hover, ?_⟩
      rwa [c.tree_children, hchildren]
    · rw [c.nodes_eq, hchildren]
      exact List.mem_cons_of_mem _ hm
  refine ⟨c.own, p, htokens, hspans, ?_, fun n hn => ?_⟩
  · rw [List.pairwise_map, Tree.descendants, Tree.walk_eq_preorder]
    exact hspans.pairwise_preorder hls
  · rw [Tree.descendants, Tree.walk_eq_preorder] at hn
    obtain ⟨a, b, -, -, hn⟩ := hspans.of_mem_preorder hn
    exact hn.children.pairwise_before hls

/-- Spaces inside a call are in no text, and they are not counted in a stretch. -/
theorem parse_spans_of_count :
    ∃ t us p, parse "MATCH (n) RETURN count( n ) AS k" = .ok t ∧
      t.text = "MATCH(n)RETURN count(n)AS k" ∧
      tokenize "MATCH (n) RETURN count( n ) AS k" = .ok (us ++ [Lexeme.ending p]) ∧
      t.Spans (us ++ [Lexeme.ending p]) 0 us.length := by
  obtain ⟨t, ht, htext⟩ : ∃ t, parse "MATCH (n) RETURN count( n ) AS k" = .ok t ∧
      t.text = "MATCH(n)RETURN count(n)AS k" :=
    exists_parse_eq_ok (by decide +kernel)
  obtain ⟨us, p, htokens, hspans, -⟩ := parse_spans ht
  exact ⟨t, us, p, ht, htext, htokens, hspans⟩

end BindCheck

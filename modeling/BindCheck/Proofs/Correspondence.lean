import BindCheck.Analysis
import BindCheck.Proofs.Walks
import Mathlib.Data.List.Forall2

/-!
# BindCheck.Proofs.Correspondence

**Trees of one shape are walked in one way.** A relation between trees is a correspondence if it
relates trees of one kind, child by child (`Tree.Correspondence`); of texts it says only whether
they begin with a star. Then children of a kind correspond, so do the nodes that walks reach and
the names that are bound, and the trees have corresponding tops or are refused at nodes that
correspond.
-/

namespace BindCheck

open Relator

namespace Tree

/-- A relation between trees of one kind, whose children correspond. -/
structure Correspondence (R : Tree → Tree → Prop) : Prop where
  kind : ∀ {t t' : Tree}, R t t' → t.kind = t'.kind
  star : ∀ {t t' : Tree}, R t t' →
    (t.text.toList.head? = some '*' ↔ t'.text.toList.head? = some '*')
  children : ∀ {t t' : Tree}, R t t' → List.Forall₂ R t.children t'.children

/-- Corresponding trees that names are read off: variables, and expressions of columns. -/
def NamersOf (R : Tree → Tree → Prop) (t t' : Tree) : Prop :=
  R t t' ∧ (t.kind = .expression ∨ t.kind = .variableName)

/-- Texts of corresponding trees that names are read off. -/
def TextsOf (R : Tree → Tree → Prop) (x x' : String) : Prop :=
  ∃ t t', NamersOf R t t' ∧ x = t.text ∧ x' = t'.text

/-- Variables that are named by texts of corresponding trees. -/
def NamesOf (R : Tree → Tree → Prop) (v v' : Variable) : Prop := TextsOf R v.name v'.name

/-- One construct at corresponding trees. -/
def RefusalsOf (R : Tree → Tree → Prop) (u u' : Unsupported) : Prop :=
  u.construct = u'.construct ∧ ∃ t t', R t t' ∧ u.position = t.position ∧ u'.position = t'.position

/-- The tops of two trees, or two refusals to find one. -/
def TopsOf (R : Tree → Tree → Prop) : Except Unsupported Tree → Except Unsupported Tree → Prop
  | .ok t, .ok t' => R t t'
  | .error u, .error u' => RefusalsOf R u u'
  | _, _ => False

namespace Correspondence

variable {R : Tree → Tree → Prop} {t t' : Tree}

theorem is (hR : Correspondence R) (h : R t t') (k : NodeKind) : t.is k = t'.is k := by
  rw [Tree.is, Tree.is, hR.kind h]

/-- The first tree that passes a test which corresponding trees pass together. -/
theorem rel_find? {ts ts' : List Tree} (h : List.Forall₂ R ts ts') {p : Tree → Bool}
    (hp : ∀ {t t'}, R t t' → p t = p t') : Option.Rel R (ts.find? p) (ts'.find? p) := by
  induction h with
  | nil => exact .none
  | @cons t t' ts ts' ht _ ih =>
      rw [List.find?_cons, List.find?_cons, ← hp ht]
      cases p t with
      | true => exact .some ht
      | false => exact ih

theorem child? (hR : Correspondence R) (h : R t t') (k : NodeKind) :
    Option.Rel R (t.child? k) (t'.child? k) :=
  rel_find? (hR.children h) fun ht => hR.is ht k

/-- The first children of a kind that names are read off. -/
theorem namerChild? (hR : Correspondence R) (h : R t t') {k : NodeKind}
    (hk : k = .expression ∨ k = .variableName) :
    Option.Rel (NamersOf R) (t.child? k) (t'.child? k) := by
  have hchild := hR.child? h k
  cases hc : t.child? k <;> cases hc' : t'.child? k <;> rw [hc, hc'] at hchild <;> cases hchild
  case none.none => exact .none
  case some.some c c' hR =>
    have hkind : c.kind = k := eq_of_beq (is_of_child? hc)
    exact .some ⟨hR, hkind ▸ hk⟩

/-! ### Walks -/

mutual

theorem preorder (hR : Correspondence R) {descend : Tree → Bool}
    (hd : ∀ {t t'}, R t t' → descend t = descend t') : ∀ {t t' : Tree}, R t t' →
      List.Forall₂ R (t.preorder descend) (t'.preorder descend)
  | ⟨_, _, _, _⟩, ⟨_, _, _, _⟩, h => by
      rw [Tree.preorder, Tree.preorder, ← hd h]
      refine .cons h ?_
      split
      · exact preorderAll hR hd (hR.children h)
      · exact .nil

theorem preorderAll (hR : Correspondence R) {descend : Tree → Bool}
    (hd : ∀ {t t'}, R t t' → descend t = descend t') : ∀ {cs cs' : List Tree},
      List.Forall₂ R cs cs' →
        List.Forall₂ R (Tree.preorderAll descend cs) (Tree.preorderAll descend cs')
  | [], _, .nil => .nil
  | _ :: _, _, .cons h hs => List.rel_append (preorder hR hd h) (preorderAll hR hd hs)

end

/-- **A walk goes the same way through corresponding trees.** -/
theorem walk (hR : Correspondence R) (h : R t t') {descend : Tree → Bool}
    (hd : ∀ {t t'}, R t t' → descend t = descend t') :
    List.Forall₂ R (t.walk descend) (t'.walk descend) := by
  rw [walk_eq_preorder, walk_eq_preorder]
  exact preorder hR hd h

theorem descendants (hR : Correspondence R) (h : R t t') :
    List.Forall₂ R t.descendants t'.descendants :=
  hR.walk h fun _ => rfl

/-! ### Bound names -/

theorem boundName? (hR : Correspondence R) (h : R t t') :
    Option.Rel (NamesOf R) t.boundName? t'.boundName? := by
  have hname : ∀ {o o' : Option Tree}, Option.Rel (NamersOf R) o o' →
      Option.Rel (NamesOf R) (o.map Variable.ofTree) (o'.map Variable.ofTree) := by
    intro o o' ho
    cases ho with
    | none => exact .none
    | some ht => exact .some ⟨_, _, ht, rfl, rfl⟩
  have hfirst : ∀ {o o' u u' : Option Tree}, Option.Rel (NamersOf R) o o' →
      Option.Rel (NamersOf R) u u' → Option.Rel (NamersOf R) (o.or u) (o'.or u') := by
    intro o o' u u' ho hu
    cases ho with
    | none => exact hu
    | some ht => exact .some ht
  have hvariable := hR.namerChild? h (.inr rfl)
  unfold Tree.boundName?
  rw [← hR.kind h]
  cases hk : t.kind
  case projectionItem => exact hname (hfirst hvariable (hR.namerChild? h (.inl rfl)))
  case unwindClause | yieldItem | nodePattern | relationshipDetail => exact hname hvariable
  case variableName => exact .some ⟨t, t', ⟨h, .inr hk⟩, rfl, rfl⟩
  all_goals exact .none

/-- Corresponding names are bound by corresponding trees. -/
theorem defining (hR : Correspondence R) (h : R t t') :
    List.Forall₂ (NamesOf R) t.defining t'.defining := by
  have hsite : ∀ {t t' : Tree}, R t t' → (!t.isBindingSite) = !t'.isBindingSite := by
    intro t t' ht
    rw [isBindingSite, isBindingSite, hR.kind ht]
  exact List.rel_filterMap (fun _ _ ht => hR.boundName? ht) (hR.walk h hsite)

/-! ### Whole trees -/

mutual

theorem top (hR : Correspondence R) : ∀ {t t' : Tree}, R t t' → TopsOf R t.top t'.top
  | ⟨k, x, p, cs⟩, ⟨k', x', p', cs'⟩, h => by
      obtain rfl : k = k' := hR.kind h
      have hshape : RefusalsOf R ⟨.shape, p⟩ ⟨.shape, p'⟩ := ⟨rfl, _, _, h, rfl, rfl⟩
      have hfirst := topOfFirst hR hshape (hR.children h)
      cases k
      case cypher | statement | query | regularQuery | singleQuery => exact hfirst
      case singlePartQuery | multiPartQuery | standaloneCall => exact h
      all_goals exact hshape

theorem topOfFirst (hR : Correspondence R) {p p' : Position}
    (hshape : RefusalsOf R ⟨.shape, p⟩ ⟨.shape, p'⟩) : ∀ {cs cs' : List Tree},
      List.Forall₂ R cs cs' → TopsOf R (Tree.topOfFirst p cs) (Tree.topOfFirst p' cs')
  | [], _, .nil => hshape
  | _ :: _, _, .cons h _ => top hR h

end

/-- The same construct keeps corresponding trees from being analyzed. -/
theorem unsupported? (hR : Correspondence R) (h : R t t') :
    Option.Rel (RefusalsOf R) t.unsupported? t'.unsupported? := by
  unfold Tree.unsupported?
  induction unsupportedKinds with
  | nil => exact .none
  | cons row rows ih =>
      have hfind : Option.Rel R (t.find? row.1) (t'.find? row.1) :=
        rel_find? (hR.descendants h) fun ht => hR.is ht row.1
      rw [List.findSome?_cons, List.findSome?_cons]
      exact hfind.casesOn (fun hnode => .some ⟨rfl, _, _, hnode, rfl, rfl⟩) ih

end Correspondence

end Tree

end BindCheck

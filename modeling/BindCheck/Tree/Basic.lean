import BindCheck.Position
import BindCheck.Tree.Kind

/-!
# BindCheck.Tree.Basic

The tree of a query. A node knows the grammar rule it comes from, where it starts, and
its normalized text: its tokens without white space, save for one space between two
adjacent words. **The text is what names an unaliased column**, so `count( n )` and
`count(n)` are the same column.
-/

namespace BindCheck

/-- A node of a query's tree, with its children in the order of the text. -/
structure Tree where
  kind : NodeKind
  text : String
  position : Position
  children : List Tree
  deriving Repr

namespace Tree

/-- Whether a node is of a kind. -/
def is (t : Tree) (k : NodeKind) : Bool := t.kind == k

/-- The first child. -/
def firstChild? (t : Tree) : Option Tree := t.children.head?

/-- The first child of a kind. -/
def child? (t : Tree) (k : NodeKind) : Option Tree := t.children.find? (·.is k)

/-- The children of a kind, in order. -/
def childrenOf (t : Tree) (k : NodeKind) : List Tree := t.children.filter (·.is k)

mutual

/-- The number of nodes. -/
def size : Tree → Nat
  | ⟨_, _, _, cs⟩ => sizeAll cs + 1

/-- The number of nodes of several trees. -/
def sizeAll : List Tree → Nat
  | [] => 0
  | c :: cs => c.size + sizeAll cs

end

theorem is_of_child? {t c : Tree} {k : NodeKind} (h : t.child? k = some c) : c.is k = true := by
  rw [child?] at h
  exact List.find?_some (p := fun n : Tree => n.is k) h

theorem size_pos (t : Tree) : 0 < t.size := by
  cases t; simp [size]

end Tree

end BindCheck

import BindCheck.Tree.Basic

/-!
# BindCheck.Tree.Walk

Going through a tree in the order of the text. A test says at which nodes to go on to
the children; **a node at which the walk does not go on is still visited**.

* `walk` keeps the trees still to be visited on a list, so a deep query needs no deep
  recursion: each visited node is replaced by its children.
* `preorder` is the same order by recursion on the tree.
-/

namespace BindCheck.Tree

/-- Visits the pending trees from the left. Each visit uses up one node of them, so
`fuel` is enough once it is their number of nodes. -/
def walkPending (descend : Tree → Bool) : Nat → List Tree → List Tree
  | 0, _ => []
  | _ + 1, [] => []
  | fuel + 1, t :: pending =>
    t :: walkPending descend fuel (if descend t then t.children ++ pending else pending)

/-- The nodes that a walk from `root` reaches, in the order of the text. -/
def walk (descend : Tree → Bool) (root : Tree) : List Tree :=
  walkPending descend root.size [root]

/-- Every node of a tree. -/
def descendants (root : Tree) : List Tree := root.walk fun _ => true

/-- The first node of a kind. -/
def find? (root : Tree) (k : NodeKind) : Option Tree := root.descendants.find? (·.is k)

mutual

/-- The nodes that a walk reaches: a node, and where the walk goes on those of its
children, from left to right. -/
def preorder (descend : Tree → Bool) : Tree → List Tree
  | ⟨k, x, p, cs⟩ =>
    ⟨k, x, p, cs⟩ :: if descend ⟨k, x, p, cs⟩ then preorderAll descend cs else []

/-- The nodes that walks over several trees reach. -/
def preorderAll (descend : Tree → Bool) : List Tree → List Tree
  | [] => []
  | c :: cs => c.preorder descend ++ preorderAll descend cs

end

end BindCheck.Tree

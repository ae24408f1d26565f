import BindCheck.Resolver

/-!
# BindCheck.Analysis

The analysis of a whole tree: first that it holds nothing that is not analyzed, then the
names. **A tree with such a construct gets no findings at all**, even where a name before
the construct is not bound.
-/

namespace BindCheck

/-- The findings of an analysis, in the order of the text. -/
structure Analysis where
  diagnostics : List Diagnostic
  deriving Repr, DecidableEq

namespace Analysis

/-- The number of findings. -/
def errorCount (a : Analysis) : Nat := a.diagnostics.length

/-- Whether nothing was found. -/
def isClean (a : Analysis) : Bool := a.diagnostics.isEmpty

end Analysis

namespace Tree

/-- The kinds of nodes that are not analyzed, with what they stand for; **the first row that
occurs is the one reported**, wherever the others stand. -/
def unsupportedKinds : List (NodeKind × Construct) :=
  [(.mergeClause, .merge), (.union, .union), (.whereClause, .filter)]

/-- The construct that keeps a tree from being analyzed. -/
def unsupported? (root : Tree) : Option Unsupported :=
  unsupportedKinds.findSome? fun row => (root.find? row.1).map fun t => ⟨row.2, t.position⟩

mutual

/-- The query or the call at the top of a tree, below the nodes that only wrap it. -/
def top : Tree → Except Unsupported Tree
  | ⟨k, x, p, cs⟩ =>
    match k with
    | .cypher | .statement | .query | .regularQuery | .singleQuery => topOfFirst p cs
    | .singlePartQuery | .multiPartQuery | .standaloneCall => .ok ⟨k, x, p, cs⟩
    | _ => .error ⟨.shape, p⟩

/-- The top of the first of some trees under a node at a place. -/
def topOfFirst (p : Position) : List Tree → Except Unsupported Tree
  | [] => .error ⟨.shape, p⟩
  | c :: _ => c.top

end

/-- Resolves the top of a tree. -/
def resolveTop (t : Tree) (s : State) : State × Nat :=
  if t.is .standaloneCall then t.resolveStandaloneCall s else t.resolveQuery s

/-- Analyzes a tree. -/
def analyze (root : Tree) : Except Unsupported Analysis :=
  match root.unsupported? with
  | some u => .error u
  | none =>
    match root.top with
    | .error u => .error u
    | .ok t => .ok ⟨(t.resolveTop State.initial).1.diagnostics⟩

end Tree

end BindCheck

import BindCheck.Scope
import BindCheck.Tree.Walk

/-!
# BindCheck.Occurrence

Where a part of a query binds names and where it reads them, in the order of the text.

* `defining` stops at every place that introduces a name: columns, targets of `UNWIND`
  and `YIELD`, nodes and relationships of patterns, and path variables. It looks into no
  expression.
* `referencing` depends on the scope, because **an expression whose whole text is a bound
  name is one reference to that column**: after `WITH count(n)` the expression
  `count(n)` reads the column and not `n`.
-/

namespace BindCheck.Tree

/-! ### Bindings -/

/-- Whether a node introduces a name, or can hold no node that does. -/
def isBindingSite (t : Tree) : Bool :=
  match t.kind with
  | .projectionItem | .unwindClause | .yieldItem | .nodePattern | .relationshipDetail
  | .variableName => true
  | k => k.isExpression

/-- The name that a binding site introduces. A column without a name of its own is named by
the text of its expression. -/
def boundName? (t : Tree) : Option Variable :=
  match t.kind with
  | .projectionItem =>
    ((t.child? .variableName).or (t.child? .expression)).map Variable.ofTree
  | .unwindClause | .yieldItem | .nodePattern | .relationshipDetail =>
    (t.child? .variableName).map Variable.ofTree
  | .variableName => some (Variable.ofTree t)
  | _ => none

/-- The names that a part of a query binds. -/
def defining (t : Tree) : List Variable :=
  (t.walk fun n => !n.isBindingSite).filterMap boundName?

/-! ### References -/

/-- Whether a node as a whole reads a name: a variable does, and an expression does if its
text is a bound name. -/
def isReference (scope : Scope) (t : Tree) : Bool :=
  t.is .variableName || (t.kind.isExpression && scope.binds t.text)

mutual

/-- The names that a part of a query reads. A column and an `UNWIND` read what their
expression reads; what follows an `AS` and what a procedure yields is no reference. -/
def referencing (scope : Scope) : Tree → List Variable
  | ⟨k, x, p, cs⟩ =>
    match k with
    | .projectionItem | .unwindClause => referencingExpression scope cs
    | .yieldItem => []
    | _ =>
      if isReference scope ⟨k, x, p, cs⟩ then [⟨x, p⟩] else referencingAll scope cs

/-- The names that the first expression among some trees reads. -/
def referencingExpression (scope : Scope) : List Tree → List Variable
  | [] => []
  | c :: cs => if c.is .expression then c.referencing scope else referencingExpression scope cs

/-- The names that several trees read. -/
def referencingAll (scope : Scope) : List Tree → List Variable
  | [] => []
  | c :: cs => c.referencing scope ++ referencingAll scope cs

end

/-- The names that the first child of a kind reads, if there is such a child. -/
def referencingChild (t : Tree) (scope : Scope) (k : NodeKind) : List Variable :=
  match t.child? k with
  | some c => c.referencing scope
  | none => []

/-- The names that the columns of a projection read. -/
def projectionInputs (body : Tree) (scope : Scope) : List Variable :=
  body.referencingChild scope .projectionItems

/-- Whether the columns of a projection begin with `*`, which keeps every bound name. -/
def projectsAll (items : Tree) : Bool :=
  items.is .projectionItems && items.text.toList.head? == some '*'

end BindCheck.Tree

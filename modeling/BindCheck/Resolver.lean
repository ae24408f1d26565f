import BindCheck.Occurrence

/-!
# BindCheck.Resolver

How a query is resolved, clause by clause, in one scope that the clauses hand on.

| Clause                      | Looked up in the scope     | The scope afterwards       |
|-----------------------------|----------------------------|----------------------------|
| `MATCH`, `CREATE`           | nothing                    | and the pattern's names    |
| `UNWIND`                    | the source                 | and the target             |
| `CALL`                      | the arguments              | and the yielded names      |
| `SET`, `DELETE`, `REMOVE`   | every reference            | unchanged                  |
| `WITH`, `RETURN`            | the columns, the modifiers | the columns alone          |

The columns of a projection are looked up in the names before it; its modifiers, which
order and limit the rows, **see both the old names and the new columns**. After `*` the
old names stay. A part of a query that is itself a query goes on in the same scope.
-/

namespace BindCheck

/-- What one clause hands on to the next: the bound names, and the findings so far. -/
structure State where
  scope : Scope
  diagnostics : List Diagnostic
  deriving DecidableEq

namespace State

/-- Nothing is bound and nothing has been found. -/
def initial : State := ⟨Scope.empty, []⟩

/-- Binds names. -/
def bind (s : State) (vs : List Variable) : State := { s with scope := s.scope.add vs }

/-- Looks references up in a scope, and says how many are not bound. -/
def lookUp (s : State) (scope : Scope) (references : List Variable) : State × Nat :=
  let found := scope.check references
  ({ s with diagnostics := s.diagnostics ++ found }, found.length)

/-- Looks references up in the scope of the state. -/
def check (s : State) (references : List Variable) : State × Nat := s.lookUp s.scope references

end State

/-! ### Single clauses -/

namespace Tree

/-- Whether a node is a modifier of a projection. -/
def isModifier (t : Tree) : Bool :=
  t.is .orderClause || t.is .skipClause || t.is .limitClause

/-- Looks up what the modifiers of a projection read. -/
def lookUpModifiers (visible : Scope) : List Tree → State → State × Nat
  | [], s => (s, 0)
  | m :: ms, s =>
    let (s, n) := s.lookUp visible (m.referencing visible)
    let (s, n') := lookUpModifiers visible ms s
    (s, n + n')

/-- Resolves the body of a projection. -/
def resolveProjectionBody (body : Tree) (s : State) : State × Nat :=
  let items := body.child? .projectionItems
  let columns := (items.map defining).getD []
  let visible := s.scope.add columns
  let (s', n) := s.check (body.projectionInputs s.scope)
  let (s', n') := lookUpModifiers visible (body.children.filter isModifier) s'
  let kept := if (items.map projectsAll).getD false then s.scope else Scope.empty
  ({ s' with scope := kept.add columns }, n + n')

/-- Resolves a projection. -/
def resolveProjection (t : Tree) (s : State) : State × Nat :=
  match t.child? .projectionBody with
  | some body => body.resolveProjectionBody s
  | none => (s, 0)

/-- Resolves a call within a query. -/
def resolveCall (t : Tree) (s : State) : State × Nat :=
  let (s, n) := s.check (t.referencingChild s.scope .procedureInvocation)
  match t.child? .yieldItems with
  | some items => (s.bind items.defining, n)
  | none => (s, n)

/-- Resolves a clause that is neither wrapped nor a query. What is no clause changes
nothing. -/
def resolveSimple (t : Tree) (s : State) : State × Nat :=
  match t.kind with
  | .matchClause | .createClause => (s.bind t.defining, 0)
  | .unwindClause =>
    let (s, n) := s.check (t.referencingChild s.scope .expression)
    (s.bind t.defining, n)
  | .inQueryCall => t.resolveCall s
  | .setClause | .deleteClause | .removeClause => s.check (t.referencing s.scope)
  | .withClause | .returnClause => t.resolveProjection s
  | _ => (s, 0)

/-! ### Queries -/

mutual

/-- Resolves a clause, which may stand under a wrapper or be a query itself, and says how
many findings that added. -/
def resolveClause : Tree → State → State × Nat
  | ⟨k, x, p, cs⟩, s =>
    match k with
    | .readingClause | .updatingClause => resolveFirst cs s
    | .singlePartQuery | .multiPartQuery => resolveClauses cs s
    | _ => resolveSimple ⟨k, x, p, cs⟩ s

/-- Resolves the clause under a wrapper, which is its first child. -/
def resolveFirst : List Tree → State → State × Nat
  | [], s => (s, 0)
  | c :: _, s => c.resolveClause s

/-- Resolves clauses one after another. -/
def resolveClauses : List Tree → State → State × Nat
  | [], s => (s, 0)
  | c :: cs, s =>
    let (s, n) := c.resolveClause s
    let (s, n') := resolveClauses cs s
    (s, n + n')

end

/-- Resolves the clauses of a query. -/
def resolveQuery (t : Tree) (s : State) : State × Nat := resolveClauses t.children s

/-- Resolves a call that is a query of its own. Nothing is bound before it, and what it
yields is read by no one. -/
def resolveStandaloneCall (t : Tree) (s : State) : State × Nat :=
  s.check (t.referencingChild s.scope .procedureInvocation)

/-! ### Clauses in a row -/

mutual

/-- The clauses that a child of a query stands for: its own clauses if it is a query, and
itself if it is not. -/
def flatten : Tree → List Tree
  | ⟨k, x, p, cs⟩ =>
    match k with
    | .singlePartQuery | .multiPartQuery => flattenAll cs
    | _ => [⟨k, x, p, cs⟩]

/-- The clauses that several children of a query stand for. -/
def flattenAll : List Tree → List Tree
  | [] => []
  | c :: cs => c.flatten ++ flattenAll cs

end

/-- The clauses of a query, those of queries within it among them, in order. -/
def clauses (t : Tree) : List Tree := flattenAll t.children

/-- A query of a single clause. -/
def ofClause (t : Tree) : Tree := ⟨.singlePartQuery, t.text, t.position, [t]⟩

/-- Whether a node is a query with clauses. -/
def isQuery (t : Tree) : Bool := t.is .singlePartQuery || t.is .multiPartQuery

/-- The first query with clauses in a tree. -/
def firstQuery? (root : Tree) : Option Tree := root.descendants.find? isQuery

end Tree

end BindCheck

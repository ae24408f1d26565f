import BindCheck.Check
import BindCheck.Log.Event

/-!
# BindCheck.Log.Journal

What a check tells while it runs. The journal follows the resolution of a query clause by
clause and **takes every scope and every number from the resolver itself**; it decides
nothing.
-/

namespace BindCheck

/-- The bindings that add nothing because their name is bound already, each behind the first
binding of the name. -/
def Scope.rebound (s : Scope) : List Variable → List (Variable × Variable)
  | [] => []
  | v :: vs =>
    match s.get? v.name with
    | some first => (first, v) :: s.rebound vs
    | none => (s.insert v).rebound vs

namespace Journal

/-- The events of binding names in a scope. -/
def ofBindings (spans : List Span) (s : Scope) (vs : List Variable) : List Event :=
  (s.rebound vs).map fun r =>
    ⟨.trace, spans, "name already bound",
      [("name", .text r.2.name), ("first", .text r.1.position.text),
       ("again", .text r.2.position.text)]⟩

/-- The events of a projection, which binds its columns twice: beside the old names for the
modifiers, and then for good. -/
def ofProjection (spans : List Span) (s : Scope) (t : Tree) : List Event :=
  match (t.child? .projectionBody).bind (·.child? .projectionItems) with
  | none => []
  | some items =>
    let kept := if items.projectsAll then s else Scope.empty
    ofBindings spans s items.defining ++ ofBindings spans kept items.defining

/-- The events of a clause that is neither wrapped nor a query. -/
def ofSimple (spans : List Span) (s : Scope) (t : Tree) : List Event :=
  match t.kind with
  | .matchClause | .createClause | .unwindClause => ofBindings spans s t.defining
  | .inQueryCall =>
    match t.child? .yieldItems with
    | some items => ofBindings spans s items.defining
    | none => []
  | .withClause | .returnClause => ofProjection spans s t
  | _ => []

/-- The span of a query that starts at a place. -/
def querySpan (p : Position) : Span := ⟨"query", [("position", .text p.text)]⟩

mutual

/-- Whether a node is a clause, which may stand under a wrapper or be a query itself. -/
def isClause : Tree → Bool
  | ⟨k, _, _, cs⟩ =>
    match k with
    | .readingClause | .updatingClause => firstIsClause cs
    | .matchClause | .unwindClause | .inQueryCall | .createClause | .setClause | .deleteClause
    | .removeClause | .withClause | .returnClause | .singlePartQuery | .multiPartQuery => true
    | _ => false

/-- Whether the first of some trees is a clause. -/
def firstIsClause : List Tree → Bool
  | [] => false
  | c :: _ => isClause c

end

/-- What is told once a clause is resolved. `errors` counts the findings of its query so
far. -/
def processed (spans : List Span) (c : Tree) (errors : Nat) (scope : Scope) : Event :=
  ⟨.debug, spans, "processed clause",
    [("clause", .text c.kind.name), ("errors", .number errors),
     ("scope", .text (Visible.list scope.names))]⟩

/-- What is told about a node that is no clause. -/
def skipped (spans : List Span) (c : Tree) : Event :=
  ⟨.trace, spans, "not a clause", [("kind", .text c.kind.name)]⟩

mutual

/-- The events within a clause. -/
def ofClause (spans : List Span) : Tree → State → List Event
  | ⟨k, x, p, cs⟩, s =>
    match k with
    | .readingClause | .updatingClause => ofFirst spans cs s
    | .singlePartQuery | .multiPartQuery => ofClauses (spans ++ [querySpan p]) cs s 0
    | _ => ofSimple spans s.scope ⟨k, x, p, cs⟩

/-- The events within the clause under a wrapper. -/
def ofFirst (spans : List Span) : List Tree → State → List Event
  | [], _ => []
  | c :: _, s => ofClause spans c s

/-- The events of clauses one after another, behind those with `errors` findings. -/
def ofClauses (spans : List Span) : List Tree → State → Nat → List Event
  | [], _, _ => []
  | c :: cs, s, errors =>
    if isClause c then
      let (s', n) := c.resolveClause s
      ofClause spans c s ++
        (processed spans c (errors + n) s'.scope :: ofClauses spans cs s' (errors + n))
    else skipped spans c :: ofClauses spans cs s errors

end

/-- The events of a query. -/
def ofQuery (spans : List Span) (t : Tree) (s : State) : List Event :=
  ofClauses (spans ++ [querySpan t.position]) t.children s 0

/-- The events of an analysis. -/
def ofAnalysis (root : Tree) : List Event :=
  let spans : List Span := [⟨"analyze", []⟩]
  match root.unsupported? with
  | some u =>
    [⟨.debug, spans, "rejecting query",
      [("construct", .text u.construct.text), ("position", .text u.position.text)]⟩]
  | none =>
    match root.top with
    | .error _ => []
    | .ok t =>
      let errors := (t.resolveTop State.initial).2
      (if t.is .standaloneCall then [] else ofQuery spans t State.initial) ++
        [⟨.debug, spans, "analysis finished", [("errors", .number errors)]⟩]

end Journal

/-! ### What a program writes -/

/-- What a program writes beside its answer: reports, and events of its log. -/
inductive Entry where
  | report (text : String)
  | event (e : Event)
  deriving Repr, DecidableEq

namespace Journal

/-- The entries of checking a source text. -/
def ofCheck (source : String) (format : Format) : List Entry :=
  match parse source with
  | .error _ => []
  | .ok t =>
    let verdict := Verdict.ofTree t
    let parsed : Event :=
      ⟨.debug, [], "parsed query", [("nodes", .number t.descendants.length)]⟩
    let finished : List Event :=
      match verdict with
      | .analyzed a => [⟨.info, [], "check finished", [("errors", .number a.errorCount)]⟩]
      | _ => []
    Entry.event parsed :: (ofAnalysis t).map Entry.event ++
      (verdict.reports source format).map Entry.report ++ finished.map Entry.event

/-- What is told at the end. An unsupported query has been reported already. -/
def ofAnswer : Except CheckError (List Diagnostic) → List Entry
  | .ok ds => [.event ⟨.debug, [], "done", [("errors", .number ds.length)]⟩]
  | .error (.unsupported _) => []
  | .error e => [.event ⟨.error, [], e.message, []⟩]

/-- The entries that a threshold keeps. Reports are always kept. -/
def keep (t : Threshold) (entries : List Entry) : List Entry :=
  entries.filter fun
    | .report _ => true
    | .event e => t.keeps e.level

end Journal

end BindCheck

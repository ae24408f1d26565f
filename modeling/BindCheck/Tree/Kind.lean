/-!
# BindCheck.Tree.Kind

The grammar rules that leave a node in a query's tree. The names follow the openCypher
grammar. **The operator levels of expressions leave a node only where their operator is
written**, so `a` is a variable name and not a ladder of nested levels.
-/

namespace BindCheck

/-- The grammar rule that a node comes from. -/
inductive NodeKind where
  -- The query as a whole
  | cypher | statement | query | regularQuery | union | singleQuery | singlePartQuery
  | multiPartQuery
  -- Reading clauses
  | readingClause | matchClause | unwindClause | inQueryCall | standaloneCall
  | procedureInvocation | procedureName | yieldItems | yieldItem | procedureResultField
  -- Updating clauses
  | updatingClause | createClause | mergeClause | mergeAction | setClause | setItem
  | deleteClause | removeClause | removeItem
  -- Projections
  | withClause | returnClause | projectionBody | projectionItems | projectionItem | orderClause
  | sortItem | skipClause | limitClause | whereClause
  -- Patterns
  | pattern | patternPart | patternElement | nodePattern | relationshipPattern
  | relationshipDetail | relationshipTypes | rangeLiteral | nodeLabels | nodeLabel | properties
  -- Expressions, from the loosest operator to the tightest
  | expression | orExpression | xorExpression | andExpression | notExpression
  | comparisonExpression | addOrSubtractExpression | multiplyDivideModuloExpression
  | powerOfExpression | unaryAddOrSubtractExpression | predicateExpression | propertyExpression
  | propertyLookup | listOperator | labelsExpression | parenthesizedExpression | caseExpression
  | caseAlternative | functionInvocation | functionName | countStar
  -- Atoms
  | literal | listLiteral | mapLiteral | propertyKeyName | parameter | variableName
  deriving Repr, DecidableEq

namespace NodeKind

/-- Every kind. -/
def all : List NodeKind :=
  [.cypher, .statement, .query, .regularQuery, .union, .singleQuery, .singlePartQuery,
   .multiPartQuery, .readingClause, .matchClause, .unwindClause, .inQueryCall,
   .standaloneCall, .procedureInvocation, .procedureName, .yieldItems, .yieldItem,
   .procedureResultField, .updatingClause, .createClause, .mergeClause, .mergeAction,
   .setClause, .setItem, .deleteClause, .removeClause, .removeItem, .withClause,
   .returnClause, .projectionBody, .projectionItems, .projectionItem, .orderClause,
   .sortItem, .skipClause, .limitClause, .whereClause, .pattern, .patternPart,
   .patternElement, .nodePattern, .relationshipPattern, .relationshipDetail,
   .relationshipTypes, .rangeLiteral, .nodeLabels, .nodeLabel, .properties, .expression,
   .orExpression, .xorExpression, .andExpression, .notExpression, .comparisonExpression,
   .addOrSubtractExpression, .multiplyDivideModuloExpression, .powerOfExpression,
   .unaryAddOrSubtractExpression, .predicateExpression, .propertyExpression, .propertyLookup,
   .listOperator, .labelsExpression, .parenthesizedExpression, .caseExpression,
   .caseAlternative, .functionInvocation, .functionName, .countStar, .literal, .listLiteral,
   .mapLiteral, .propertyKeyName, .parameter, .variableName]

/-- The name of a kind in reports and logs. -/
def name : NodeKind → String
  | .cypher => "Cypher"
  | .statement => "Statement"
  | .query => "Query"
  | .regularQuery => "RegularQuery"
  | .union => "Union"
  | .singleQuery => "SingleQuery"
  | .singlePartQuery => "SinglePartQuery"
  | .multiPartQuery => "MultiPartQuery"
  | .readingClause => "ReadingClause"
  | .matchClause => "Match"
  | .unwindClause => "Unwind"
  | .inQueryCall => "InQueryCall"
  | .standaloneCall => "StandaloneCall"
  | .procedureInvocation => "ProcedureInvocation"
  | .procedureName => "ProcedureName"
  | .yieldItems => "YieldItems"
  | .yieldItem => "YieldItem"
  | .procedureResultField => "ProcedureResultField"
  | .updatingClause => "UpdatingClause"
  | .createClause => "Create"
  | .mergeClause => "Merge"
  | .mergeAction => "MergeAction"
  | .setClause => "Set"
  | .setItem => "SetItem"
  | .deleteClause => "Delete"
  | .removeClause => "Remove"
  | .removeItem => "RemoveItem"
  | .withClause => "With"
  | .returnClause => "Return"
  | .projectionBody => "ProjectionBody"
  | .projectionItems => "ProjectionItems"
  | .projectionItem => "ProjectionItem"
  | .orderClause => "Order"
  | .sortItem => "SortItem"
  | .skipClause => "Skip"
  | .limitClause => "Limit"
  | .whereClause => "Where"
  | .pattern => "Pattern"
  | .patternPart => "PatternPart"
  | .patternElement => "PatternElement"
  | .nodePattern => "NodePattern"
  | .relationshipPattern => "RelationshipPattern"
  | .relationshipDetail => "RelationshipDetail"
  | .relationshipTypes => "RelationshipTypes"
  | .rangeLiteral => "RangeLiteral"
  | .nodeLabels => "NodeLabels"
  | .nodeLabel => "NodeLabel"
  | .properties => "Properties"
  | .expression => "Expression"
  | .orExpression => "OrExpression"
  | .xorExpression => "XorExpression"
  | .andExpression => "AndExpression"
  | .notExpression => "NotExpression"
  | .comparisonExpression => "ComparisonExpression"
  | .addOrSubtractExpression => "AddOrSubtractExpression"
  | .multiplyDivideModuloExpression => "MultiplyDivideModuloExpression"
  | .powerOfExpression => "PowerOfExpression"
  | .unaryAddOrSubtractExpression => "UnaryAddOrSubtractExpression"
  | .predicateExpression => "PredicateExpression"
  | .propertyExpression => "PropertyExpression"
  | .propertyLookup => "PropertyLookup"
  | .listOperator => "ListOperator"
  | .labelsExpression => "LabelsExpression"
  | .parenthesizedExpression => "ParenthesizedExpression"
  | .caseExpression => "CaseExpression"
  | .caseAlternative => "CaseAlternative"
  | .functionInvocation => "FunctionInvocation"
  | .functionName => "FunctionName"
  | .countStar => "CountStar"
  | .literal => "Literal"
  | .listLiteral => "ListLiteral"
  | .mapLiteral => "MapLiteral"
  | .propertyKeyName => "PropertyKeyName"
  | .parameter => "Parameter"
  | .variableName => "Variable"

/-- The kind with a given name. -/
def ofName? (s : String) : Option NodeKind := all.find? (·.name == s)

/-- Whether a node of the kind has a value. The text of such a node may be the name of a
column, so it can be a reference as a whole. A variable name is not among them: it is
a reference in its own right. -/
def isExpression : NodeKind → Bool
  | .expression | .orExpression | .xorExpression | .andExpression | .notExpression
  | .comparisonExpression | .addOrSubtractExpression | .multiplyDivideModuloExpression
  | .powerOfExpression | .unaryAddOrSubtractExpression | .predicateExpression
  | .propertyExpression | .labelsExpression | .parenthesizedExpression | .caseExpression
  | .functionInvocation | .countStar | .literal | .listLiteral | .mapLiteral | .parameter => true
  | _ => false

theorem mem_all (k : NodeKind) : k ∈ all := by
  cases k <;> decide

end NodeKind

end BindCheck

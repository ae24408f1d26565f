import BindCheck.Grammar.Rule

/-!
# BindCheck.Grammar.Query

The grammar of queries. Rules that refer to themselves do so by `call`, and **every call
stands behind a token that has been taken**; so the number of tokens bounds the depth of
calls.

Labels, relationship types, property keys, parameters and the names of procedures and
functions may be reserved words (`someName`); a variable may not.
-/

namespace BindCheck

open Rule

namespace Grammar

/-! ### Names and atoms -/

/-- A name that may be a reserved word. It leaves no node. -/
def someName : Rule := take .name

/-- A name with any number of further names behind dots. -/
def dottedName : Rule :=
  row [someName, many (.next [.symbol .dot]) (row [sign .dot, someName])]

/-- A variable. -/
def variableName : Rule := node .variableName (take .identifier)

/-- Expressions between commas, or none before the closing symbol. -/
def expressionsUpTo (close : Symbol) : Rule :=
  branch (.notNext (.symbol close)) (sepBy (call .expression) (.symbol .comma)) empty

/-- `[a, b]`. A comma may stand behind the last element. -/
def listLiteral : Rule :=
  node .listLiteral <| row
    [sign .leftBracket,
     many (.notNext (.symbol .rightBracket)) <| row
      [call .expression,
       branch (.next [.symbol .rightBracket]) empty
        (token (.symbol .comma) (.terminal (.symbols [.comma, .rightBracket])))],
     sign .rightBracket]

/-- A map from property keys to expressions. A comma may stand behind the last pair. -/
def mapLiteral : Rule :=
  node .mapLiteral <| row
    [sign .leftBrace,
     many (.notNext (.symbol .rightBrace)) <| row
      [node .propertyKeyName someName, sign .colon, call .expression,
       branch (.next [.symbol .rightBrace]) empty
        (token (.symbol .comma) (.terminal (.symbols [.comma, .rightBrace])))],
     sign .rightBrace]

/-- `$name` or `$0`. -/
def parameter : Rule := node .parameter (row [sign .dollar, take .parameterName])

/-- A conditional expression, with or without an expression to compare with. -/
def caseExpression : Rule :=
  node .caseExpression <| row
    [word .CASE,
     branch (.next [.keyword .WHEN]) empty (call .expression),
     demand (.next [.keyword .WHEN]) (.terminal (.keyword .WHEN)),
     many (.next [.keyword .WHEN]) <| node .caseAlternative <| row
      [word .WHEN, call .expression, word .THEN, call .expression],
     whenNext (.keyword .ELSE) (row [word .ELSE, call .expression]),
     word .END]

/-- An expression in parentheses. -/
def parenthesized : Rule :=
  node .parenthesizedExpression (row [sign .leftParen, call .expression, sign .rightParen])

/-- `count(*)`, which counts rows and has no argument. -/
def countStar : Rule :=
  node .countStar (row [take .countWord, sign .leftParen, sign .star, sign .rightParen])

/-- A call of a function. -/
def functionInvocation : Rule :=
  node .functionInvocation <| row
    [node .functionName dottedName, sign .leftParen, optional (.keyword .DISTINCT),
     expressionsUpTo .rightParen, sign .rightParen]

/-- The innermost expressions. A name is a variable unless a call follows. -/
def atom : Rule :=
  branch (.next [.literal]) (node .literal (take .literal)) <|
  branch (.next [.symbol .leftBracket]) listLiteral <|
  branch (.next [.symbol .leftBrace]) mapLiteral <|
  branch (.next [.symbol .dollar]) parameter <|
  branch (.next [.keyword .CASE]) caseExpression <|
  branch (.next [.symbol .leftParen]) parenthesized <|
  branch (.next [.countWord, .symbol .leftParen, .symbol .star, .symbol .rightParen]) countStar <|
  branch .dottedCall functionInvocation <|
  node .variableName (token .identifier .expression)

/-! ### What may follow an atom -/

/-- `.key`. -/
def propertyLookup : Rule :=
  node .propertyLookup (row [sign .dot, node .propertyKeyName someName])

/-- `[index]` or `[low..high]`, where either bound may be left out. -/
def listOperator : Rule :=
  node .listOperator <| row
    [sign .leftBracket,
     branch (.notNext (.symbol .twoDots)) (call .expression) empty,
     whenNext (.symbol .twoDots) <| row
      [sign .twoDots, branch (.notNext (.symbol .rightBracket)) (call .expression) empty],
     sign .rightBracket]

/-- Labels, each behind a colon. -/
def nodeLabels : Rule :=
  node .nodeLabels (many (.next [.symbol .colon]) (node .nodeLabel (row [sign .colon, someName])))

/-- A property or an element. -/
def access : Rule := branch (.next [.symbol .dot]) propertyLookup listOperator

/-- An atom with properties, elements and labels behind it. **One label anywhere makes the
whole a test for labels.** -/
def accessed : Rule :=
  fork
    (seq atom (many (.next [.symbols [.dot, .leftBracket]]) access))
    (.next [.symbol .colon])
    (.node .labelsExpression)
    (many (.next [.symbols [.dot, .leftBracket, .colon]])
      (branch (.next [.symbol .colon]) nodeLabels access))
    (.ifMany .propertyExpression) empty

/-! ### Operators -/

/-- The words that start a test on strings, lists or `NULL`. -/
def predicateWord : Terminal := .keywords [.STARTS, .ENDS, .CONTAINS, .IN, .IS]

/-- One test. A test for `NULL` has no operand of its own. -/
def predicateTail : Rule :=
  branch (.next [.keywords [.STARTS, .ENDS]])
    (row [take (.keywords [.STARTS, .ENDS]), word .WITH, call .sum]) <|
  branch (.next [.keywords [.CONTAINS, .IN]])
    (row [take (.keywords [.CONTAINS, .IN]), call .sum]) <|
  row [word .IS, optional (.keyword .NOT), word .NULL]

/-- An operand with any number of tests behind it. -/
def predicate : Rule :=
  fork accessed (.next [predicateWord]) (.node .predicateExpression)
    (many (.next [predicateWord]) predicateTail) .bare empty

/-- An operand with any number of signs in front, each of which leaves a node. -/
def unary : Rule :=
  branch (.next [.symbols [.plus, .minus]])
    (node .unaryAddOrSubtractExpression (row [take (.symbols [.plus, .minus]), call .unary]))
    predicate

def power : Rule := level .powerOfExpression (.symbol .caret) unary

def product : Rule :=
  level .multiplyDivideModuloExpression (.symbols [.star, .slash, .percent]) power

def sum : Rule := level .addOrSubtractExpression (.symbols [.plus, .minus]) product

def comparison : Rule :=
  level .comparisonExpression
    (.symbols [.equal, .notEqual, .less, .greater, .atMost, .atLeast]) sum

/-- A comparison with any number of `NOT` in front, which leave one node together. -/
def negation : Rule :=
  branch (.next [.keyword .NOT])
    (node .notExpression (row [many (.next [.keyword .NOT]) (word .NOT), call .comparison]))
    comparison

def conjunction : Rule := level .andExpression (.keyword .AND) negation

def exclusive : Rule := level .xorExpression (.keyword .XOR) conjunction

def disjunction : Rule := level .orExpression (.keyword .OR) exclusive

def expression : Rule := node .expression disjunction

/-! ### Patterns -/

/-- A map or a parameter that gives properties. -/
def properties : Rule :=
  whenNext (.symbols [.leftBrace, .dollar])
    (node .properties (branch (.next [.symbol .dollar]) parameter mapLiteral))

/-- `(n:Label)`, where every part between the parentheses may be left out. -/
def nodePattern : Rule :=
  node .nodePattern <| row
    [token (.symbol .leftParen) .nodeStart,
     whenNext .identifier variableName,
     whenNext (.symbol .colon) nodeLabels,
     properties,
     token (.symbol .rightParen) .nodeEnd]

/-- `:A|B|:C`. -/
def relationshipTypes : Rule :=
  node .relationshipTypes <| row
    [sign .colon, someName,
     many (.next [.symbol .bar]) (row [sign .bar, optional (.symbol .colon), someName])]

/-- `*`, `*n` or `*low..high`. -/
def rangeLiteral : Rule :=
  node .rangeLiteral <| row
    [sign .star, optional .integer,
     whenNext (.symbol .twoDots) (row [sign .twoDots, optional .integer])]

/-- What stands in the brackets of a relationship. -/
def relationshipDetail : Rule :=
  node .relationshipDetail <| row
    [sign .leftBracket,
     whenNext .identifier variableName,
     whenNext (.symbol .colon) relationshipTypes,
     whenNext (.symbol .star) rangeLiteral,
     properties,
     sign .rightBracket]

/-- An arrow in either direction, in both or in none. -/
def relationshipPattern : Rule :=
  node .relationshipPattern <| row
    [optional (.symbol .less), sign .minus,
     whenNext (.symbol .leftBracket) relationshipDetail,
     sign .minus, optional (.symbol .greater)]

/-- Nodes with relationships between them, or such a chain in parentheses. -/
def patternElement : Rule :=
  branch (.next [.symbol .leftParen, .symbol .leftParen])
    (node .patternElement (row [sign .leftParen, call .patternElement, sign .rightParen]))
    (node .patternElement (row
      [nodePattern,
       many (.next [.symbols [.minus, .less]]) (row [relationshipPattern, nodePattern])]))

/-- A pattern, with or without a variable for its paths. -/
def patternPart : Rule :=
  node .patternPart <| row
    [branch (.next [.identifier, .symbol .equal]) (row [variableName, sign .equal]) empty,
     call .patternElement]

/-- Patterns between commas. -/
def pattern : Rule := node .pattern (sepBy patternPart (.symbol .comma))

/-! ### Projections -/

/-- A filter. -/
def whereClause : Rule := node .whereClause (row [word .WHERE, call .expression])

/-- An expression, with or without a name for its column. -/
def projectionItem : Rule :=
  node .projectionItem <| row
    [call .expression, whenNext (.keyword .AS) (row [word .AS, variableName])]

/-- The columns of a projection. **A leading `*` leaves no node**: it keeps every name that
is bound, and shows in the text alone. -/
def projectionItems : Rule :=
  node .projectionItems <|
    branch (.next [.symbol .star])
      (row [sign .star,
        whenNext (.symbol .comma)
          (row [sign .comma, sepBy projectionItem (.symbol .comma)])])
      (sepBy projectionItem (.symbol .comma))

/-- A key to sort by and its direction. -/
def sortItem : Rule :=
  node .sortItem
    (row [call .expression, optional (.keywords [.ASCENDING, .ASC, .DESCENDING, .DESC])])

/-- Columns, their order, and how many rows to leave out or to keep. -/
def projectionBody : Rule :=
  node .projectionBody <| row
    [optional (.keyword .DISTINCT),
     projectionItems,
     whenNext (.keyword .ORDER)
      (node .orderClause (row [word .ORDER, word .BY, sepBy sortItem (.symbol .comma)])),
     whenNext (.keyword .SKIP) (node .skipClause (row [word .SKIP, call .expression])),
     whenNext (.keyword .LIMIT) (node .limitClause (row [word .LIMIT, call .expression]))]

def withClause : Rule :=
  node .withClause (row [word .WITH, projectionBody, whenNext (.keyword .WHERE) whereClause])

def returnClause : Rule := node .returnClause (row [word .RETURN, projectionBody])

/-! ### Reading clauses -/

def matchClause : Rule :=
  node .matchClause <| row
    [optional (.keyword .OPTIONAL), word .MATCH, pattern,
     whenNext (.keyword .WHERE) whereClause]

def unwindClause : Rule :=
  node .unwindClause (row [word .UNWIND, call .expression, word .AS, variableName])

/-- A procedure and its arguments, which may be left out with their parentheses. -/
def procedureInvocation : Rule :=
  node .procedureInvocation <| row
    [node .procedureName dottedName,
     whenNext (.symbol .leftParen)
      (row [sign .leftParen, expressionsUpTo .rightParen, sign .rightParen])]

/-- A result of a procedure, with or without a new name. -/
def yieldItem : Rule :=
  node .yieldItem <|
    branch (.next [.anything, .keyword .AS])
      (row [node .procedureResultField someName, word .AS, variableName])
      variableName

/-- The results of a procedure, or all of them. -/
def yieldItems : Rule :=
  node .yieldItems <|
    branch (.next [.symbol .star]) (sign .star) <| row
      [sepBy yieldItem (.symbol .comma), whenNext (.keyword .WHERE) whereClause]

/-- What both forms of a procedure call consist of. -/
def callBody : Rule :=
  row [word .CALL, procedureInvocation,
    whenNext (.keyword .YIELD) (row [word .YIELD, yieldItems])]

/-- The words that start a reading clause. -/
def readingWord : Terminal := .keywords [.MATCH, .OPTIONAL, .UNWIND, .CALL]

def readingClause : Rule :=
  node .readingClause <|
    branch (.next [.keyword .UNWIND]) unwindClause <|
    branch (.next [.keyword .CALL]) (node .inQueryCall callBody) matchClause

/-! ### Updating clauses -/

def createClause : Rule := node .createClause (row [word .CREATE, pattern])

/-- A property, labels, or all properties of a variable. -/
def setItem : Rule :=
  node .setItem <|
    branch (.next [.identifier, .symbol .dot])
      (row [node .propertyExpression
        (row [variableName, many (.next [.symbol .dot]) propertyLookup]),
        sign .equal, call .expression])
      (row [variableName,
        branch (.next [.symbol .colon]) nodeLabels
          (row [take (.symbols [.equal, .plusEqual]), call .expression])])

def setClause : Rule := node .setClause (row [word .SET, sepBy setItem (.symbol .comma)])

def mergeClause : Rule :=
  node .mergeClause <| row
    [word .MERGE, patternPart,
     many (.next [.keyword .ON]) <| node .mergeAction <| row
      [word .ON, branch (.next [.keyword .MATCH]) (word .MATCH) (word .CREATE), setClause]]

def deleteClause : Rule :=
  node .deleteClause <| row
    [optional (.keyword .DETACH), word .DELETE, sepBy (call .expression) (.symbol .comma)]

/-- Labels or a property of a variable. -/
def removeItem : Rule :=
  node .removeItem <|
    branch (.next [.identifier, .symbol .colon])
      (row [variableName, nodeLabels])
      (node .propertyExpression
        (row [variableName, propertyLookup, many (.next [.symbol .dot]) propertyLookup]))

def removeClause : Rule :=
  node .removeClause (row [word .REMOVE, sepBy removeItem (.symbol .comma)])

/-- The words that start an updating clause. -/
def updatingWord : Terminal := .keywords [.CREATE, .MERGE, .SET, .DELETE, .DETACH, .REMOVE]

def updatingClause : Rule :=
  node .updatingClause <|
    branch (.next [.keyword .CREATE]) createClause <|
    branch (.next [.keyword .MERGE]) mergeClause <|
    branch (.next [.keyword .SET]) setClause <|
    branch (.next [.keyword .REMOVE]) removeClause deleteClause

/-! ### Queries -/

/-- The clauses of one part: reading clauses and then updating clauses. A part that
updates nothing has to be closed by a projection. -/
def partClauses : Rule :=
  row [many (.next [readingWord]) readingClause,
    branch (.next [updatingWord])
      (many (.next [updatingWord]) updatingClause)
      (demand (.next [.keywords [.RETURN, .WITH]]) .queryPart)]

/-- The rest of a query. A `WITH` closes a part, whose clauses stay on the level of the
whole; what follows the last `WITH` is a query of one part. -/
def queryTail : Rule :=
  fork partClauses (.next [.keyword .WITH])
    .bare (row [withClause, call .queryTail])
    (.node .singlePartQuery) (whenNext (.keyword .RETURN) returnClause)

/-- A query of one part, or of several under one node. -/
def singleQuery : Rule := node .singleQuery (wrap (.ifMany .multiPartQuery) queryTail)

def regularQuery : Rule :=
  node .regularQuery <| row
    [singleQuery,
     many (.next [.keyword .UNION]) <| node .union <| row
      [word .UNION, optional (.keyword .ALL), call .singleQuery]]

/-- **A call with nothing behind it is a query of its own**; with anything behind it, it is
the first clause of a query. -/
def query : Rule :=
  node .query (attempt (node .standaloneCall callBody) (.next [.queryEnd]) regularQuery)

/-- The whole text: a query, and a semicolon or none. -/
def cypher : Rule :=
  node .cypher <| row
    [node .statement query, optional (.symbol .semicolon),
     demand (.next [.ending]) (.terminal .ending)]

/-- The rule behind a name. -/
def production : Nonterminal → Rule
  | .singleQuery => singleQuery
  | .queryTail => queryTail
  | .patternElement => patternElement
  | .expression => expression
  | .comparison => comparison
  | .sum => sum
  | .unary => unary

end Grammar

end BindCheck

/-!
# Kinds of nodes

Every node of a syntax tree has a `Kind`.  The kinds `file`, `block` and `element` are
composite: their nodes hold children.  All others are kinds of leaves, whose nodes hold
text.
-/

namespace Fettle

/-- What a node of a syntax tree is. -/
inductive Kind where
  | file
  | block
  | element
  | whitespace
  | blockComment
  | eolComment
  | kdoc
  | leftBrace
  | rightBrace
  | leftParen
  | rightParen
  | semicolon
  | comma
  | identifier
  | token
  deriving DecidableEq, Repr

namespace Kind

/-- The kinds of nodes that hold children. -/
def isComposite : Kind → Bool
  | file | block | element => true
  | _ => false

/-- The kinds of comments. -/
def isComment : Kind → Bool
  | blockComment | eolComment | kdoc => true
  | _ => false

/-- The name of a kind, in upper case. -/
def name : Kind → String
  | file => "FILE"
  | block => "BLOCK"
  | element => "ELEMENT"
  | whitespace => "WHITE_SPACE"
  | blockComment => "BLOCK_COMMENT"
  | eolComment => "EOL_COMMENT"
  | kdoc => "KDOC"
  | leftBrace => "LBRACE"
  | rightBrace => "RBRACE"
  | leftParen => "LPAR"
  | rightParen => "RPAR"
  | semicolon => "SEMICOLON"
  | comma => "COMMA"
  | identifier => "IDENTIFIER"
  | token => "TOKEN"

/-- All kinds. -/
def all : List Kind :=
  [file, block, element, whitespace, blockComment, eolComment, kdoc, leftBrace, rightBrace,
    leftParen, rightParen, semicolon, comma, identifier, token]

/-- The kind of a given name. -/
def ofName? (s : String) : Option Kind :=
  all.find? fun k => k.name == s

theorem ofName?_name (k : Kind) :
  ofName? k.name = some k
  := by
  cases k <;> decide

theorem not_isComposite_of_isComment {k : Kind} (h : k.isComment = true) :
  k.isComposite = false
  := by
  cases k <;> simp_all [isComment, isComposite]

end Kind

end Fettle

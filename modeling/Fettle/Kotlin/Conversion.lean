import Fettle.Arena.Builder
import Fettle.Kotlin.Source
import Fettle.Text.Slice

/-!
# From constructs to leaves

A grammar outlines a source: it says what constructs there are, one inside the other, and at which
bytes they start and stop.  `Grammar.parse` makes an arena of a source by its outline.  A construct
that is not taken apart becomes a leaf, any other a branch; text in front of, between and behind
constructs becomes leaves of its own, one for each run of white space and one for each run of
other characters.

A `Conversion` goes over the constructs from left to right.  It holds white space back until a
token or a branch comes, so that a run of white space becomes one leaf even where a construct
ends inside it.

The constructs of the grammar `lexical` are the lexemes of a source.
-/

namespace Fettle.Kotlin

/-! ### Outlines -/

/-- What a grammar says of one construct: its name and the bytes at which it starts and stops.
If it is an error or stands for something missing, the row and column of its start are there
too. -/
structure Construct where
  name : String
  start : Nat
  stop : Nat
  broken : Option (Nat × Nat) := none
  deriving DecidableEq, Repr

/-- Constructs in order, each with those inside it. -/
inductive Constructs where
  | nil
  | cons (first : Construct) (inside rest : Constructs)
  deriving DecidableEq, Repr

/-- What a grammar says of a source. -/
structure Outline where
  root : Construct
  inside : Constructs
  hasError : Bool
  deriving DecidableEq, Repr

/-- A grammar, which may fail to load, and which may give up on a source. -/
structure Grammar where
  fault : Option String
  outline? : String → Option Outline

/-! ### Faults -/

/-- Why a source makes no tree. -/
inductive ParseFault where
  | grammar (message : String)
  | cancelled
  | malformed (line column : Nat) (snippet : String)
  | tree (fault : Fault)
  deriving DecidableEq, Repr

/-- The wording of a fault. -/
def ParseFault.message : ParseFault → String
  | grammar message => "failed to load the Kotlin grammar: " ++ message
  | cancelled => "parsing was cancelled"
  | malformed line column snippet =>
    "Not a valid Kotlin file (" ++ toString line ++ ":" ++ toString column
      ++ " unexpected '" ++ snippet ++ "')"
  | tree fault => "failed to build the syntax tree: " ++ fault.message

/-- The fault of a construct that is broken: its place, with the first line of its text. -/
def Construct.fault? (source : List Char) (k : Construct) : Option ParseFault :=
  k.broken.map fun (row, column) =>
    .malformed (row + 1) (column + 1)
      (String.ofList (Text.firstLine (Text.slice k.start k.stop source)))

/-- The fault of the first construct that is broken, a construct before those inside it. -/
def Constructs.fault? (source : List Char) : Constructs → Option ParseFault
  | nil => none
  | cons k inside rest => (k.fault? source).or ((inside.fault? source).or (rest.fault? source))

/-- The fault of a source with errors. -/
def Outline.fault (o : Outline) (source : List Char) : ParseFault :=
  ((Constructs.cons o.root o.inside .nil).fault? source).getD (.malformed 1 1 "")

/-! ### Kinds of leaves -/

/-- Whether a construct is one leaf: it has no parts, or it is a comment, a literal or a name. -/
def Construct.isLeaf (k : Construct) (inside : Constructs) : Bool :=
  inside == .nil || Text.occurs "comment".toList k.name.toList
    || Text.occurs "string_literal".toList k.name.toList || k.name == "character_literal"
    || k.name == "identifier" || k.name == "simple_identifier"

/-- The kind of a comment. -/
def commentKind (text : List Char) : Kind :=
  if ['/', '*', '*'].isPrefixOf text && 4 < Text.byteLength text then .kdoc
  else if ['/', '*'].isPrefixOf text then .blockComment
  else if ['/', '/'].isPrefixOf text then .eolComment
  else .token

/-- The kind of the leaf of a construct of a given name. -/
def leafKind (name : String) (text : List Char) : Kind :=
  if Text.occurs "comment".toList name.toList || ['/', '/'].isPrefixOf text
      || ['/', '*'].isPrefixOf text then commentKind text
  else match text with
    | ['{'] => .leftBrace
    | ['}'] => .rightBrace
    | ['('] => .leftParen
    | [')'] => .rightParen
    | [';'] => .semicolon
    | [','] => .comma
    | _ => if name == "identifier" || name == "simple_identifier" then .identifier else .token

/-- The kind of the branch of a construct of a given name. -/
def branchKind (name : String) : Kind :=
  if name == "block" then .block else .element

/-! ### The conversion -/

/-- The state of a conversion: the events so far, the offset up to which the source is converted,
and the white space that is held back. -/
structure Conversion where
  events : List Event
  pos : Nat
  space : List Char
  deriving DecidableEq, Repr

namespace Conversion

/-- The state before any construct. -/
def initial : Conversion := ⟨[], 0, []⟩

/-- The state after one more event. -/
def emit (c : Conversion) (e : Event) : Conversion :=
  { c with events := c.events ++ [e] }

/-- The state in which no white space is held back any longer. -/
def flush (c : Conversion) : Conversion :=
  match c.space with
  | [] => c
  | x :: u => { c.emit (.token .whitespace (String.ofList (x :: u))) with space := [] }

/-- The state after a run of characters that are all white space or all something else. -/
def run (c : Conversion) (text : List Char) : Conversion :=
  if text.head?.any Text.isBlank then { c with space := c.space ++ text }
  else c.flush.emit (.token .token (String.ofList text))

/-- The runs of white space and of other characters that a text consists of; a text without
characters is a run. -/
def runs : List Char → List (List Char)
  | [] => [[]]
  | x :: u => (x :: u).splitBy fun y z => Text.isBlank y == Text.isBlank z

/-- The state after the text up to an offset. -/
def gap (source : List Char) (stop : Nat) (c : Conversion) : Conversion :=
  if stop ≤ c.pos then c
  else { (runs (Text.slice c.pos stop source)).foldl run c with pos := stop }

/-- The state after a construct that is one leaf, all text before it being converted. -/
def leaf (source : List Char) (k : Construct) (c : Conversion) : Conversion :=
  let text := Text.slice c.pos k.stop source
  if text.all Text.isBlank then c.gap source k.stop
  else { c.flush.emit (.token (leafKind k.name text) (String.ofList text)) with pos := k.stop }

end Conversion

/-- The state after some constructs.  A construct that does not go on after the text converted is
passed over. -/
def Constructs.convert (source : List Char) : Constructs → Conversion → Conversion
  | .nil, c => c
  | .cons k inside rest, c =>
    rest.convert source <|
      if k.stop ≤ c.pos then c
      else if k.isLeaf inside then (c.gap source k.start).leaf source k
      else
        ((inside.convert source
          ((c.gap source k.start).flush.emit (.start (branchKind k.name) (some k.name)))).gap
            source k.stop).emit .finish

/-- The state after all of a source. -/
def Outline.convert (o : Outline) (source : List Char) : Conversion :=
  ((o.inside.convert source (Conversion.initial.emit (.start .file (some o.root.name)))).gap
    source (Text.byteLength source)).flush.emit .finish

/-- The arena of a source, or why there is none. -/
def Grammar.parse (g : Grammar) (source : String) : Except ParseFault Arena :=
  match g.fault with
  | some message => .error (.grammar message)
  | none =>
    match g.outline? source with
    | none => .error .cancelled
    | some o =>
      if o.hasError then .error (o.fault source.toList)
      else (Arena.ofEvents (o.convert source.toList).events).mapError .tree

/-! ### Lexemes as constructs -/

/-- The name of a lexeme as a construct. -/
def Lexeme.name (l : Lexeme) : String :=
  match l.kind with
  | .identifier => "identifier"
  | .eolComment => "line_comment"
  | .blockComment | .kdoc => "block_comment"
  | _ => "token"

/-- The constructs of lexemes that start at an offset.  White space is no construct. -/
def constructs (start : Nat) : List Lexeme → Constructs
  | [] => .nil
  | l :: ls =>
    let stop := start + Text.byteLength l.text
    if l.kind = .whitespace then constructs stop ls
    else .cons ⟨l.name, start, stop, none⟩ .nil (constructs stop ls)

/-- The outline of a source by its lexemes. -/
def lexicalOutline (source : String) : Outline :=
  let root : Construct := ⟨"source_file", 0, source.utf8ByteSize, none⟩
  match lexemes? source.toList with
  | none => ⟨root, .nil, true⟩
  | some ls =>
    if balanced [] (ls.map Lexeme.text) then ⟨root, constructs 0 ls, false⟩ else ⟨root, .nil, true⟩

/-- The grammar that knows lexemes and brackets only. -/
def lexical : Grammar where
  fault := none
  outline? source := some (lexicalOutline source)

end Fettle.Kotlin

import Fettle.Kotlin.Lexeme
import Fettle.Tree.Event

/-!
# Kotlin source

`Kotlin.parse?` makes a tree of a source, with the lexemes of the source as its leaves.  It
fails if the source has no lexemes or if a bracket has no partner.
-/

namespace Fettle.Kotlin

/-- The closing bracket of an opening one. -/
def closing? : List Char → Option (List Char)
  | ['{'] => some ['}']
  | ['('] => some [')']
  | ['['] => some [']']
  | _ => none

/-- Whether a text is a closing bracket. -/
def isClosing (text : List Char) : Bool :=
  text == ['}'] || text == [')'] || text == [']']

/-- Whether every bracket among some texts has its partner, where the closing brackets in
`expected` are still to come, the next one first. -/
def balanced (expected : List (List Char)) : List (List Char) → Bool
  | [] => expected.isEmpty
  | text :: texts =>
    match closing? text with
    | some close => balanced (close :: expected) texts
    | none =>
      if isClosing text then
        match expected with
        | [] => false
        | close :: outer => close == text && balanced outer texts
      else balanced expected texts

/-- The tree of a source. -/
def parse? (source : String) : Option Tree := do
  let ls ← lexemes? source.toList
  if balanced [] (ls.map Lexeme.text) then
    (Tree.ofLeaves (ls.map fun l => (l.kind, String.ofList l.text))).toOption
  else none

end Fettle.Kotlin

import Fettle.Kotlin.Delimited
import Fettle.Text.Blank
import Fettle.Tree.Kind

/-!
# Lexemes of Kotlin

A `Lexeme` is a leaf of Kotlin source: a run of white space, a comment, a string, a bracket, a
name or another character.  `lexemes?` cuts a source into its lexemes; every character of the
source is in exactly one of them.  It fails if a comment, a string or the like is not closed.
-/

namespace Fettle.Kotlin

/-- A piece of source with its kind. -/
structure Lexeme where
  kind : Kind
  text : List Char
  deriving DecidableEq, Repr

/-- The characters of names, among them all that are not ASCII and not blank. -/
def isNameChar (c : Char) : Bool :=
  c.isAlphanum || c == '_' || (0x80 ≤ c.toNat && !Text.isBlank c)

/-- The kind of a block comment: documentation begins with two stars and is longer than an
empty comment. -/
def blockKind : List Char → Kind
  | '/' :: '*' :: '*' :: s => if 1 < s.length then .kdoc else .blockComment
  | _ => .blockComment

/-- The kind of a character on its own. -/
def charKind : Char → Kind
  | '{' => .leftBrace
  | '}' => .rightBrace
  | '(' => .leftParen
  | ')' => .rightParen
  | ';' => .semicolon
  | ',' => .comma
  | _ => .token

/-- The longest piece at the front of a text whose characters have a property. -/
def run (kind : Kind) (p : Char → Bool) (s : List Char) : Lexeme × List Char :=
  (⟨kind, s.takeWhile p⟩, s.dropWhile p)

/-- The piece at the front of a text up to the end of a context that it opens with a mark. -/
def delimited (kindOf : List Char → Kind) (mark : List Char) (context : Context)
    (s : List Char) : Option (Lexeme × List Char) :=
  (Delimited.scan [context] s).map fun r => (⟨kindOf (mark ++ r.1), mark ++ r.1⟩, r.2)

/-- The lexeme that a text begins with, and what follows it. -/
def next? : List Char → Option (Lexeme × List Char)
  | [] => none
  | '/' :: '/' :: s => some (run .eolComment (· ≠ '\n') ('/' :: '/' :: s))
  | '/' :: '*' :: s => delimited blockKind ['/', '*'] .comment s
  | '"' :: '"' :: '"' :: s => delimited (fun _ => .token) ['"', '"', '"'] .rawString s
  | c :: s =>
    if Text.isBlank c then some (run .whitespace Text.isBlank (c :: s))
    else if isNameChar c then some (run .identifier isNameChar (c :: s))
    else if c = '"' then delimited (fun _ => .token) [c] .string s
    else if c = '\'' then delimited (fun _ => .token) [c] .character s
    else if c = '\x60' then delimited (fun _ => .identifier) [c] .name s
    else some (⟨charKind c, [c]⟩, s)

theorem append_of_run {kind : Kind} {p : Char → Bool} {s : List Char}
    {r : Lexeme × List Char} (h : run kind p s = r) :
  r.1.text ++ r.2 = s
  := by
  obtain rfl := h
  exact List.takeWhile_append_dropWhile

theorem append_of_delimited {kindOf : List Char → Kind} {mark : List Char}
    {context : Context} {s : List Char} {r : Lexeme × List Char}
    (h : delimited kindOf mark context s = some r) :
  r.1.text ++ r.2 = mark ++ s
  := by
  obtain ⟨q, hq, rfl⟩ := Option.map_eq_some_iff.mp h
  simp [Delimited.append_of_scan hq]

/-- A lexeme and what follows it are the text. -/
theorem append_of_next? {s : List Char} {r : Lexeme × List Char} (h : next? s = some r) :
  r.1.text ++ r.2 = s
  := by
  rw [next?.eq_def] at h
  split at h
  · cases h
  · exact append_of_run (Option.some.inj h)
  · exact append_of_delimited h
  · exact append_of_delimited h
  · split at h
    · exact append_of_run (Option.some.inj h)
    · split at h
      · exact append_of_run (Option.some.inj h)
      · split at h
        · exact append_of_delimited h
        · split at h
          · exact append_of_delimited h
          · split at h
            · exact append_of_delimited h
            · obtain rfl := Option.some.inj h
              rfl

theorem text_ne_nil_of_delimited {kindOf : List Char → Kind} {mark : List Char}
    {context : Context} {s : List Char} {r : Lexeme × List Char} (hmark : mark ≠ [])
    (h : delimited kindOf mark context s = some r) :
  r.1.text ≠ []
  := by
  obtain ⟨q, -, rfl⟩ := Option.map_eq_some_iff.mp h
  simp [hmark]

/-- A lexeme has at least one character. -/
theorem text_ne_nil_of_next? {s : List Char} {r : Lexeme × List Char}
    (h : next? s = some r) :
  r.1.text ≠ []
  := by
  rw [next?.eq_def] at h
  split at h
  · cases h
  · obtain rfl := Option.some.inj h
    simp [run]
  · exact text_ne_nil_of_delimited (by simp) h
  · exact text_ne_nil_of_delimited (by simp) h
  · split at h
    · rename_i hc
      obtain rfl := Option.some.inj h
      simp [run, hc]
    · split at h
      · rename_i hc
        obtain rfl := Option.some.inj h
        simp [run, hc]
      · split at h
        · exact text_ne_nil_of_delimited (by simp) h
        · split at h
          · exact text_ne_nil_of_delimited (by simp) h
          · split at h
            · exact text_ne_nil_of_delimited (by simp) h
            · obtain rfl := Option.some.inj h
              simp

theorem length_of_next? {s : List Char} {r : Lexeme × List Char} (h : next? s = some r) :
  r.2.length < s.length
  := by
  have hpos := List.length_pos_iff.mpr (text_ne_nil_of_next? h)
  rw [← append_of_next? h, List.length_append]
  omega

/-- The lexemes of a source. -/
def lexemes? (s : List Char) : Option (List Lexeme) :=
  match s with
  | [] => some []
  | c :: s =>
    match _h : next? (c :: s) with
    | none => none
    | some r => (lexemes? r.2).map (r.1 :: ·)
  termination_by s.length
  decreasing_by exact length_of_next? _h

/-- The lexemes of a source are the source. -/
theorem flatMap_text_of_lexemes? {s : List Char} {ls : List Lexeme}
    (h : lexemes? s = some ls) :
  ls.flatMap Lexeme.text = s
  := by
  induction s using lexemes?.induct generalizing ls with
  | case1 =>
    rw [lexemes?] at h
    obtain rfl := Option.some.inj h
    rfl
  | case2 c s hn =>
    rw [lexemes?] at h
    split at h
    · cases h
    · rename_i r hr
      simp [hn] at hr
  | case3 c s r hr ih =>
    rw [lexemes?] at h
    split at h
    · cases h
    · rename_i r' hr'
      obtain rfl := Option.some.inj (hr.symm.trans hr')
      obtain ⟨q, hq, rfl⟩ := Option.map_eq_some_iff.mp h
      rw [List.flatMap_cons, ih hq]
      exact append_of_next? hr

end Fettle.Kotlin

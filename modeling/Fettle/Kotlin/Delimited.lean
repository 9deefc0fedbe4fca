/-!
# Delimited text of Kotlin

Comments, strings, characters and quoted names begin and end with marks, and code can be
nested in strings, and strings and comments in code.  `Delimited.scan` finds the end of such
a text: it goes over the characters with a stack of the contexts that are open, and stops when
the outermost is closed.  `Delimited.step` says what the next characters do to the innermost
context.
-/

namespace Fettle.Kotlin

/-- A kind of text between marks. -/
inductive Context where
  /-- A block comment. -/
  | comment
  /-- A comment that ends with its line. -/
  | line
  /-- A string between double quotes. -/
  | string
  /-- A string between triple double quotes. -/
  | rawString
  /-- A character between single quotes. -/
  | character
  /-- A name between backticks. -/
  | name
  /-- Code between braces, in a string or in other code. -/
  | code
  deriving DecidableEq, Repr

namespace Delimited

/-- What the first character of a text, together with those after it, does to the innermost
context: the number of further characters that belong to it, and the contexts that take the
place of the innermost one.  The last three of a run of quotes close a raw string. -/
def step : Context → List Char → Nat × List Context
  | .comment, '*' :: '/' :: _ => (1, [])
  | .comment, '/' :: '*' :: _ => (1, [.comment, .comment])
  | .line, '\n' :: _ => (0, [])
  | .string, '\\' :: _ :: _ => (1, [.string])
  | .string, '$' :: '{' :: _ => (1, [.code, .string])
  | .string, '"' :: _ => (0, [])
  | .rawString, '"' :: '"' :: '"' :: '"' :: _ => (0, [.rawString])
  | .rawString, '"' :: '"' :: '"' :: _ => (2, [])
  | .rawString, '$' :: '{' :: _ => (1, [.code, .rawString])
  | .character, '\\' :: _ :: _ => (1, [.character])
  | .character, '\'' :: _ => (0, [])
  | .name, '\x60' :: _ => (0, [])
  | .code, '/' :: '*' :: _ => (1, [.comment, .code])
  | .code, '/' :: '/' :: _ => (1, [.line, .code])
  | .code, '"' :: '"' :: '"' :: _ => (2, [.rawString, .code])
  | .code, '"' :: _ => (0, [.string, .code])
  | .code, '\'' :: _ => (0, [.character, .code])
  | .code, '\x60' :: _ => (0, [.name, .code])
  | .code, '{' :: _ => (0, [.code, .code])
  | .code, '}' :: _ => (0, [])
  | c, _ => (0, [c])

/-- The characters up to the end of the outermost of the open contexts, of which the innermost
comes first, and what follows them. -/
def scan (opened : List Context) (s : List Char) : Option (List Char × List Char) :=
  match opened, s with
  | [], s => some ([], s)
  | _ :: _, [] => none
  | inner :: outer, c :: s =>
    let (more, contexts) := step inner (c :: s)
    (scan (contexts ++ outer) (s.drop more)).map fun r => (c :: s.take more ++ r.1, r.2)
  termination_by s.length

/-- A scan cuts its text in two. -/
theorem append_of_scan {opened : List Context} {s : List Char} {r : List Char × List Char}
    (h : scan opened s = some r) :
  r.1 ++ r.2 = s
  := by
  induction opened, s using scan.induct generalizing r with
  | case1 s =>
    rw [scan] at h
    obtain rfl := Option.some.inj h
    rfl
  | case2 => simp [scan] at h
  | case3 inner outer c s more contexts heq ih =>
    rw [scan, heq] at h
    obtain ⟨q, hq, rfl⟩ := Option.map_eq_some_iff.mp h
    simp [ih hq]

end Delimited

end Fettle.Kotlin

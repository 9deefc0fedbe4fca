/-!
# Path patterns

A `Pattern` describes paths.  `?` stands for any character and `*` for any text, the `/`
between the parts of a path included; `[abc]` stands for one of some characters, with ranges
such as `a-z`, and `[!abc]` for any other.  `**` is a part of a path on its own and stands for
any number of parts.  `Pattern.parse` reads a pattern and `Pattern.covers` tells which paths it
describes.
-/

namespace Fettle

/-- A character or a range of characters between brackets. -/
inductive CharClass where
  | single (c : Char)
  | range (low high : Char)
  deriving DecidableEq, Repr

/-- Whether a character belongs to a class. -/
def CharClass.covers (c : Char) : CharClass → Bool
  | single d => c == d
  | range low high => low ≤ c && c ≤ high

/-- A piece of a pattern. -/
inductive GlobToken where
  | char (c : Char)
  | anyChar
  | oneOf (classes : List CharClass)
  | noneOf (classes : List CharClass)
  | anyText
  | anyParts
  deriving DecidableEq, Repr

/-- What is wrong with a pattern, and the number of characters before that. -/
inductive PatternFault where
  | wildcards (position : Nat)
  | recursiveWildcards (position : Nat)
  | range (position : Nat)
  deriving DecidableEq, Repr

namespace PatternFault

/-- The wording of a fault at a position. -/
def near (position : Nat) (problem : String) : String :=
  "Pattern syntax error near position " ++ toString position ++ ": " ++ problem

/-- The wording of a pattern fault. -/
def message : PatternFault → String
  | wildcards p => near p "wildcards are either regular `*` or recursive `**`"
  | recursiveWildcards p => near p "recursive wildcards must form a single path component"
  | range p => near p "invalid range pattern"

end PatternFault

/-- A description of paths. -/
structure Pattern where
  tokens : List GlobToken
  deriving DecidableEq, Repr

namespace Pattern

/-! ### Reading -/

/-- The classes between brackets. -/
def classes : List Char → List CharClass
  | [] => []
  | low :: '-' :: high :: s => .range low high :: classes s
  | c :: s => .single c :: classes s

/-- The characters up to the next closing bracket, the first one aside, and what follows the
bracket. -/
def bracketed? : List Char → Option (List Char × List Char)
  | [] => none
  | first :: s =>
    match s.dropWhile (· ≠ ']') with
    | [] => none
    | _ :: rest => some (first :: s.takeWhile (· ≠ ']'), rest)

/-- The classes after an opening bracket, as a piece of a pattern, and what follows them. -/
def bracket? : List Char → Option (GlobToken × List Char)
  | '!' :: s => (bracketed? s).map fun r => (.noneOf (classes r.1), r.2)
  | s => (bracketed? s).map fun r => (.oneOf (classes r.1), r.2)

theorem length_dropWhile_le {α : Type} (p : α → Bool) (s : List α) :
  (s.dropWhile p).length ≤ s.length
  := (List.dropWhile_sublist p).length_le

theorem length_of_bracketed? {s : List Char} {r : List Char × List Char}
    (h : bracketed? s = some r) :
  r.2.length ≤ s.length
  := by
  cases s with
  | nil => simp [bracketed?] at h
  | cons first s =>
    rw [bracketed?] at h
    split at h
    · cases h
    · rename_i rest heq
      obtain rfl := Option.some.inj h
      have := length_dropWhile_le (· ≠ ']') s
      rw [heq] at this
      simp only [List.length_cons] at this ⊢
      omega

theorem length_of_bracket? {s : List Char} {r : GlobToken × List Char}
    (h : bracket? s = some r) :
  r.2.length ≤ s.length
  := by
  rw [bracket?.eq_def] at h
  split at h
  all_goals
    obtain ⟨q, hq, rfl⟩ := Option.map_eq_some_iff.mp h
    have := length_of_bracketed? hq
    simp only [List.length_cons]
    omega

/-- The pieces read so far, the latest first, with any number of parts added.  Behind two or
more pieces of which the last is such already, it stays. -/
def addParts : List GlobToken → List GlobToken
  | .anyParts :: t :: ts => .anyParts :: t :: ts
  | ts => .anyParts :: ts

/-- The pieces of a pattern of a given length, of which `read` have been read and end with the
character `prev`.  The latest piece comes first. -/
def readTokens (length : Nat) (prev : Option Char) (read : List GlobToken) :
    List Char → Except PatternFault (List GlobToken)
  | [] => .ok read
  | c :: s =>
    let position := length - (s.length + 1)
    if c = '?' then readTokens length (some c) (.anyChar :: read) s
    else if c = '*' then
      let more := (s.takeWhile (· = '*')).length
      if more = 0 then readTokens length (some c) (.anyText :: read) s
      else if 1 < more then .error (.wildcards (position + 2))
      else if prev.all (· = '/') then
        match s.drop 1 with
        | [] => .ok (addParts read)
        | d :: _ =>
          if d = '/' then readTokens length (some d) (addParts read) (s.drop 2)
          else .error (.recursiveWildcards (position + 2))
      else .error (.recursiveWildcards (position - 1))
    else if c = '[' then
      match _h : bracket? s with
      | none => .error (.range position)
      | some (token, rest) => readTokens length (some ']') (token :: read) rest
    else readTokens length (some c) (.char c :: read) s
  termination_by s => s.length
  decreasing_by
    · exact Nat.lt_succ_self _
    · exact Nat.lt_succ_self _
    · rw [List.length_drop, List.length_cons]
      omega
    · exact Nat.lt_succ_of_le (length_of_bracket? _h)
    · exact Nat.lt_succ_self _

/-- Reading a pattern. -/
def parse (s : String) : Except PatternFault Pattern :=
  (readTokens s.toList.length none [] s.toList).map fun ts => ⟨ts.reverse⟩

/-! ### Matching -/

/-- The parts of a text from each of its characters on, and the empty one. -/
def suffixes : List Char → List (List Char)
  | [] => [[]]
  | c :: s => (c :: s) :: suffixes s

/-- The parts of a text from the character after each `/` on, and the empty one. -/
def laterParts : List Char → List (List Char)
  | [] => [[]]
  | c :: s => if c = '/' then s :: laterParts s else laterParts s

/-- Whether a piece of a pattern that stands for one character stands for a given one. -/
def accepts (c : Char) : GlobToken → Bool
  | .char d => c == d
  | .anyChar => true
  | .oneOf classes => classes.any (·.covers c)
  | .noneOf classes => !classes.any (·.covers c)
  | .anyText | .anyParts => false

/-- Whether a text consists of what the pieces of a pattern stand for, in order. -/
def matchTokens : List GlobToken → List Char → Bool
  | [], s => s.isEmpty
  | .anyText :: ts, s => (suffixes s).any (matchTokens ts)
  | .anyParts :: ts, s => (s :: laterParts s).any (matchTokens ts)
  | _ :: _, [] => false
  | t :: ts, c :: s => accepts c t && matchTokens ts s

/-- Whether a pattern describes a path. -/
def covers (p : Pattern) (path : String) : Bool :=
  matchTokens p.tokens path.toList

end Pattern

/-- Whether a text is a pattern that describes a path. -/
def globCovers (pattern path : String) : Bool :=
  match Pattern.parse pattern with
  | .ok p => p.covers path
  | .error _ => false

end Fettle

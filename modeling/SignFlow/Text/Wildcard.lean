/-! Wildcard patterns for file names.

A star stands for any text, a question mark for one character, a bracketed set for one of its members.
A set that is not closed is a plain bracket. Inside a set a hyphen between two characters makes a range,
`!` in front negates, and `]` in front is a member. -/

namespace SignFlow.Wildcard

inductive Piece
  | star
  | char (c : Char)
  /-- One character that is in one of the ranges, or, if negated, in none. -/
  | oneOf (negated : Bool) (ranges : List (Char × Char))
  deriving DecidableEq, Repr

def Piece.accepts (p : Piece) (x : Char) : Bool :=
  match p with
  | star => true
  | char c => x == c
  | oneOf negated ranges => ranges.any (fun r => decide (r.1 ≤ x ∧ x ≤ r.2)) != negated

def suffixes {α : Type} : List α → List (List α)
  | [] => [[]]
  | a :: rest => (a :: rest) :: suffixes rest

/-- What can be left of a text behind one more piece, given what can be left before it, longest first. -/
def afterPiece (left : List (List Char)) (p : Piece) : List (List Char) :=
  match p, left with
  | _, [] => []
  | .star, longest :: _ => suffixes longest
  | p, left => left.filterMap fun cs =>
    match cs with
    | [] => none
    | c :: rest => if p.accepts c then some rest else none

def matchesPieces (ps : List Piece) (cs : List Char) : Bool :=
  (ps.foldl afterPiece [cs]).any List.isEmpty

def splitSet? (cs : List Char) : Option (List Char × List Char) :=
  let mark := if cs.head? = some '!' then 1 else 0
  let start := if (cs.drop mark).head? = some ']' then mark + 1 else mark
  match (cs.drop start).span (· ≠ ']') with
  | (inside, ']' :: after) => some (cs.take start ++ inside, after)
  | _ => none

/-- Cuts a set at the hyphens that make ranges: each follows at least `skip` characters of its part. -/
def cutRanges : Nat → Nat → List Char → List (List Char)
  | 0, _, cs => [cs]
  | fuel + 1, skip, cs =>
    match (cs.drop skip).span (· ≠ '-') with
    | (before, '-' :: after) => (cs.take skip ++ before) :: cutRanges fuel 2 after
    | _ => [cs]

def closeLast : List (List Char) → List (List Char)
  | [part, []] => [part ++ ['-']]
  | part :: rest => part :: closeLast rest
  | [] => []

def dropEmptyRanges (parts : List (List Char)) : List (List Char) :=
  parts.foldr
    (fun part rest =>
      match part.getLast?, rest with
      | some last, (first :: tail) :: others =>
        if first < last then (part.dropLast ++ tail) :: others else part :: rest
      | _, _ => part :: rest)
    []

/-- The members of a set from its parts, between which the ranges lie; `used` characters of the first
part belong to the range before it. -/
def members (used : Nat) : List (List Char) → List (Char × Char)
  | [] => []
  | [part] => (part.drop used).map fun c => (c, c)
  | part :: next :: rest =>
    let own := (part.drop used).dropLast.map fun c => (c, c)
    let range :=
      match part.getLast?, next.head? with
      | some a, some b => [(a, b)]
      | _, _ => []
    own ++ range ++ members 1 (next :: rest)

def setPiece (cs : List Char) : Piece :=
  let skip := if cs.head? = some '!' then 2 else 1
  match dropEmptyRanges (closeLast (cutRanges cs.length skip cs)) with
  | ('!' :: part) :: rest => .oneOf true (members 0 (part :: rest))
  | parts => .oneOf false (members 0 parts)

/-- The pieces of a pattern; `fuel` is at least its length. -/
def piecesWithin : Nat → List Char → List Piece
  | 0, _ => []
  | _ + 1, [] => []
  | fuel + 1, c :: rest =>
    if c = '*' then .star :: piecesWithin fuel (rest.dropWhile (· = '*'))
    else if c = '?' then .oneOf true [] :: piecesWithin fuel rest
    else if c = '[' then
      match splitSet? rest with
      | some (inside, after) => setPiece inside :: piecesWithin fuel after
      | none => .char c :: piecesWithin fuel rest
    else .char c :: piecesWithin fuel rest

def pieces (pattern : String) : List Piece :=
  piecesWithin pattern.toList.length pattern.toList

def isMatch (pattern text : String) : Bool := matchesPieces (pieces pattern) text.toList

end SignFlow.Wildcard

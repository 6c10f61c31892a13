import SignFlow.Text.Range

/-! The lines of a text.

Line feeds are not the only line ends: tabulators and separators that start a new line, page or record
count too. -/

namespace SignFlow.Text

def lineEnds : Ranges := [(0xa, 0xd), (0x1c, 0x1e), (0x85, 0x85), (0x2028, 0x2029)]

def endsLine (c : Char) : Bool := lineEnds.has c

/-- The lines without their ends. A carriage return and the line feed behind it are one end, and an end
that nothing follows opens no line. -/
def charLines : List Char → List (List Char)
  | [] => []
  | '\r' :: '\n' :: rest => [] :: charLines rest
  | c :: rest =>
    if endsLine c then [] :: charLines rest
    else
      match charLines rest with
      | [] => [[c]]
      | line :: lines => (c :: line) :: lines

def lastLine (text : String) : String :=
  String.ofList ((charLines text.toList).getLast?.getD [])

end SignFlow.Text

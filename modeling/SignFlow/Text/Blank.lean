import SignFlow.Text.Range

/-! Blanks: what may stand around a written number. The four information separators are not among
them. -/

namespace SignFlow.Text

def blanks : Ranges := [
  (0x9, 0xd), (0x20, 0x20), (0x85, 0x85), (0xa0, 0xa0), (0x1680, 0x1680), (0x2000, 0x200a),
  (0x2028, 0x2029), (0x202f, 0x202f), (0x205f, 0x205f), (0x3000, 0x3000)]

def isBlank (c : Char) : Bool := blanks.has c

def dropBlanks (cs : List Char) : List Char := cs.dropWhile isBlank

/-- The text between the blanks at its two ends. -/
def trimBlanks (cs : List Char) : List Char :=
  (dropBlanks (dropBlanks cs).reverse).reverse

end SignFlow.Text

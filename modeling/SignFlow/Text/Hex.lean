/-! Numbers as hexadecimal digits of a fixed width. -/

namespace SignFlow.Text

/-- Lower-case digits, with zeros in front up to the width. -/
def hex (width n : Nat) : List Char :=
  let digits := Nat.toDigits 16 n
  List.replicate (width - digits.length) '0' ++ digits

end SignFlow.Text

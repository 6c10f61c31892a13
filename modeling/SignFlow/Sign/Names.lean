import SignFlow.Sign.Comparison
import SignFlow.Sign.Operator
import SignFlow.Text.Name

/-! Signs, operators and comparisons read from their symbols, and the names reports give them. -/

namespace SignFlow

open Text (NameError)

def Sign.read (text : String) : Except NameError Sign :=
  Text.member "Sign" text (ofSymbol? text)

namespace Operator

def name : Operator → String
  | plus => "PLUS"
  | minus => "MINUS"
  | times => "TIMES"
  | divide => "DIVIDE"
  | mod => "MOD"

def read (text : String) : Except NameError Operator :=
  Text.member "BinaryOperator" text (ofSymbol? text)

/-- Reads an assignment such as `+=`: one character, then the equals sign. -/
def readCompound (text : String) : Except NameError Operator :=
  match text.toList with
  | [c, '='] => read (String.ofList [c])
  | _ => .error (.notCompound text)

end Operator

namespace Comparison

def name : Comparison → String
  | eq => "EQ"
  | ne => "NE"
  | lt => "LT"
  | le => "LE"
  | gt => "GT"
  | ge => "GE"

def read (text : String) : Except NameError Comparison :=
  Text.member "Comparison" text (ofSymbol? text)

end Comparison

end SignFlow

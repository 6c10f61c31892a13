import SignFlow.Text.Quoted

/-! Why a written number cannot be read, or a number not be taken as an integer or a real. -/

namespace SignFlow

inductive Fault
  | notInteger (text : String)
  | notReal (text : String)
  | tooManyDigits (count : Nat)
  | nanToInteger
  | infinityToInteger
  | integerTooLarge
  | noInteger (kind : String)
  | noReal (kind : String)
  deriving DecidableEq, Repr

namespace Fault

/-- A decimal integer with more digits than this is not read. -/
def maxDigits : Nat := 4300

def message : Fault → String
  | notInteger text =>
    "invalid literal for int() with base 10: " ++ String.ofList ((Text.quoted text).toList.take 200)
  | notReal text => "could not convert string to float: " ++ Text.quoted text
  | tooManyDigits count =>
    "Exceeds the limit (" ++ toString maxDigits ++ " digits) for integer string conversion: value has "
      ++ toString count ++ " digits; use sys.set_int_max_str_digits() to increase the limit"
  | nanToInteger => "cannot convert float NaN to integer"
  | infinityToInteger => "cannot convert float infinity to integer"
  | integerTooLarge => "int too large to convert to float"
  | noInteger kind =>
    "int() argument must be a string, a bytes-like object or a real number, not '" ++ kind ++ "'"
  | noReal kind => "float() argument must be a string or a real number, not '" ++ kind ++ "'"

end Fault

end SignFlow

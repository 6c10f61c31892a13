import SignFlow.Text.Hex

/-! Strings in JSON text, in ASCII alone: a character beyond it is written by its UTF-16 units. -/

namespace SignFlow.Text.Json

def unit (n : Nat) : List Char := '\x5c' :: 'u' :: hex 4 n

def escape (c : Char) : List Char :=
  if c = '\x22' ∨ c = '\x5c' then ['\x5c', c]
  else if c = '\n' then ['\x5c', 'n']
  else if c = '\r' then ['\x5c', 'r']
  else if c = '\t' then ['\x5c', 't']
  else if c = '\x08' then ['\x5c', 'b']
  else if c = '\x0c' then ['\x5c', 'f']
  else if ' ' ≤ c ∧ c ≤ '~' then [c]
  else if c.toNat < 0x10000 then unit c.toNat
  else
    let rest := c.toNat - 0x10000
    unit (0xd800 + rest / 0x400) ++ unit (0xdc00 + rest % 0x400)

def string (text : String) : String :=
  String.ofList ('\x22' :: text.toList.flatMap escape ++ ['\x22'])

/-- Keys keep their order; the values are JSON text already. -/
def object (fields : List (String × String)) : String :=
  "\x7b" ++ ", ".intercalate (fields.map fun f => string f.1 ++ ": " ++ f.2) ++ "\x7d"

end SignFlow.Text.Json

import SignFlow.Text.Hex
import SignFlow.Text.Printable

/-! Text between quotes, as messages show it.

Single quotes, unless the text has one of these and no double quote. The quote in use, the backslash
and everything unprintable are escaped. -/

namespace SignFlow.Text

def single : Char := '\x27'

def double : Char := '\x22'

def backslash : Char := '\x5c'

def quoteFor (cs : List Char) : Char :=
  if cs.contains single && !cs.contains double then double else single

def escapeQuoted (quote c : Char) : List Char :=
  if c = quote ∨ c = backslash then [backslash, c]
  else if c = '\n' then [backslash, 'n']
  else if c = '\r' then [backslash, 'r']
  else if c = '\t' then [backslash, 't']
  else if isPrintable c then [c]
  else if c.toNat < 0x100 then backslash :: 'x' :: hex 2 c.toNat
  else if c.toNat < 0x10000 then backslash :: 'u' :: hex 4 c.toNat
  else backslash :: 'U' :: hex 8 c.toNat

def quoted (text : String) : String :=
  let quote := quoteFor text.toList
  String.ofList (quote :: text.toList.flatMap (escapeQuoted quote) ++ [quote])

end SignFlow.Text

import SignFlow.Text.Quoted

/-! Names read as members of a fixed family, and the ways that fails. -/

namespace SignFlow.Text

inductive NameError
  | unknown (text family : String)
  | notCompound (text : String)
  deriving DecidableEq, Repr

def NameError.message : NameError → String
  | unknown text family => quoted text ++ " is not a valid " ++ family
  | notCompound text => quoted text ++ " is not a compound assignment operator"

/-- The member found, or the complaint that the family has none of that name. -/
def member {α : Type} (family text : String) (found : Option α) : Except NameError α :=
  match found with
  | some a => .ok a
  | none => .error (.unknown text family)

end SignFlow.Text

/-! Classes of characters given as ranges of code points. -/

namespace SignFlow.Text

/-- Both ends belong to the range. -/
abbrev Ranges := List (Nat × Nat)

def Ranges.has (ranges : Ranges) (c : Char) : Bool :=
  ranges.any fun r => r.1 ≤ c.toNat && c.toNat ≤ r.2

end SignFlow.Text

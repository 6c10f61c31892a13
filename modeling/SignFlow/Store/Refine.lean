import SignFlow.Sign.Comparison
import SignFlow.Store.Basic

/-! What a comparison's outcome says of a store. -/

namespace SignFlow.Store

def bindAt (s : Store) (k : Option Key) (v : Sign) : Store :=
  match k with
  | some k => s.bind k v
  | none => s

def outcome (s : Store) (leftKey : Option Key) (left : Sign) (rightKey : Option Key) (right : Sign) :
    Store :=
  if left = .bottom ∨ right = .bottom then unreachable
  else (s.bindAt leftKey left).bindAt rightKey right

/-- The stores where `left c right` holds and where it does not. Untracked sides tell nothing. -/
def refine (c : Comparison) (leftKey : Option Key) (left : Fact) (rightKey : Option Key)
    (right : Fact) (s : Store) : Store × Store :=
  match left, right with
  | some l, some r =>
    if s.isReachable then
      let o := c.outcomes l r
      (s.outcome leftKey o.trueLeft rightKey o.trueRight,
        s.outcome leftKey o.falseLeft rightKey o.falseRight)
    else (s, s)
  | _, _ => (s, s)

end SignFlow.Store

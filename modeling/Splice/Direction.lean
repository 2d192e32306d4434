/-!
# Matching directions

Lookbehind bodies are matched backward, so a back reference inside one is
built for that direction. Pieces that hold references carry the direction they
were built in, and pieces of opposite directions do not combine.
-/

namespace Splice

inductive Direction
  | forward
  | backward
  /-- No references, or none tied to a direction. -/
  | neutral
  deriving DecidableEq, Repr

namespace Direction

def opposes : Direction → Direction → Bool
  | .forward, .backward | .backward, .forward => true
  | _, _ => false

def name : Direction → String
  | .forward => "forward"
  | .backward => "backward"
  | .neutral => "neutral"

end Direction

end Splice

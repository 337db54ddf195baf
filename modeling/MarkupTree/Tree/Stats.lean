/-!
# Counts

What is counted while trees are restructured.

## Main definitions

* `Stats` : the counts.
-/

namespace MarkupTree

/-- Counts of what was done. All start at zero and none ever falls. -/
structure Stats where
  /-- Nodes visited. -/
  visited : Nat := 0
  /-- Nodes whose children were rebuilt. -/
  rebuilt : Nat := 0
  /-- Markup nodes lexed. -/
  runs : Nat := 0
  /-- Tokens read from them, each end of input included. -/
  tokens : Nat := 0
  /-- Elements built. -/
  elements : Nat := 0
  /-- Texts of white space dropped at a root. -/
  dropped : Nat := 0
  /-- The most entries that were ever open at once, the root included; zero if no element was
  built. This count alone is kept in 32 bits. -/
  maxDepth : UInt32 := 0
deriving DecidableEq

namespace Stats

/-- One more node visited. -/
def countVisit (s : Stats) : Stats := { s with visited := s.visited + 1 }

/-- One more node rebuilt. -/
def countRebuilt (s : Stats) : Stats := { s with rebuilt := s.rebuilt + 1 }

/-- One more markup node. -/
def countRun (s : Stats) : Stats := { s with runs := s.runs + 1 }

/-- One more token. -/
def countToken (s : Stats) : Stats := { s with tokens := s.tokens + 1 }

/-- One more text dropped. -/
def countDropped (s : Stats) : Stats := { s with dropped := s.dropped + 1 }

/-- One more element, with which `depth` entries are open. Only the last 32 bits of that number
count. -/
def countElement (s : Stats) (depth : Nat) : Stats :=
  { s with elements := s.elements + 1, maxDepth := max s.maxDepth depth.toUInt32 }

end Stats

end MarkupTree

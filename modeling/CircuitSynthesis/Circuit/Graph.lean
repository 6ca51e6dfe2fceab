import CircuitSynthesis.Wire

/-!
# Wire segments as a directed graph

The edges of a circuit join consecutive nodes on a wire. Such a graph has no
cycle exactly when its nodes can be given levels that rise along every edge.
Raising each target above its source, round after round, reaches such levels
within as many rounds as there are nodes if there are any.
-/

namespace CircuitSynthesis

/-- A segment of a wire between two nodes. -/
structure Edge where
  source : Nat
  target : Nat
  wire : Wire
  deriving DecidableEq, Repr

namespace Graph

/-- Raise the target of an edge above its source. -/
def raise (e : Edge) (levels : Array Nat) : Array Nat :=
  levels.setIfInBounds e.target
    (max (levels.getD e.target 0) (levels.getD e.source 0 + 1))

/-- One round over all edges, the last listed first. -/
def raiseAll (edges : List Edge) (levels : Array Nat) : Array Nat := edges.foldr raise levels

/-- The levels rise along every edge. -/
def rising (edges : List Edge) (levels : Array Nat) : Bool :=
  edges.all fun e => levels.getD e.source 0 < levels.getD e.target 0

/-- Rounds until the levels rise along every edge, at most `rounds` of them. -/
def settle (edges : List Edge) : Nat → Array Nat → Array Nat
  | 0, levels => levels
  | rounds + 1, levels =>
    if rising edges levels then levels else settle edges rounds (raiseAll edges levels)

/-- A graph on the nodes below `size` has no cycle. -/
def isAcyclic (size : Nat) (edges : List Edge) : Bool :=
  rising edges (settle edges size (Array.replicate size 0))

end Graph

end CircuitSynthesis

import CircuitSynthesis.Circuit.Basic

/-!
# Structural integrity of a circuit

The check behind `Circuit.integrity`: no cycle; every wire runs from its own
input to its own output through gates that act on it; nodes that follow one
another on a wire are joined by an edge of that wire and there are no other
edges; and every entry of the order of the gates is a gate that stands once on
each of its wires.
-/

namespace CircuitSynthesis.Circuit

/-- An edge of the wire joins the two nodes. -/
def isJoined (c : Circuit) (w : Wire) (before after : Nat) : Bool :=
  c.edges.any fun e => e.source == before && e.target == after && e.wire.sameWire w

/-- The node is a gate that acts on the wire. -/
def actsOn (c : Circuit) (w : Wire) (id : Nat) : Bool := (c.gateAt? id).any (·.touches w)

/-- The pairs of entries that follow one another. -/
def consecutive (path : List Nat) : List (Nat × Nat) := path.zip path.tail

/-- The first fault of a wire. -/
def trackFault? (c : Circuit) (t : Track) : Option StructureFault :=
  let w := t.declared.wire
  if c.nodes[t.input]?.map (·.content) ≠ some (.input w) then some (.start w)
  else if c.nodes[t.output]?.map (·.content) ≠ some (.output w) then some (.finish w)
  else match t.gates.toList.find? (!c.actsOn w ·) with
    | some id => some (.idle id w)
    | none =>
      ((consecutive t.path).find? fun (a, b) => !c.isJoined w a b).map
        fun (a, b) => .broken w a b

/-- Edges needed to join all nodes of all wires. -/
def expectedEdges (c : Circuit) : Nat :=
  (c.tracks.toList.map (·.path.length - 1)).foldr (· + ·) 0

/-- The gate nodes on all wires, one wire after another. -/
def appearances (c : Circuit) : List Nat := c.tracks.toList.flatMap (·.gates.toList)

/-- What is wrong with an entry of the order of the gates: it is not a gate, or
not once on each of its wires. -/
def entryFault? (c : Circuit) (found : List Nat) (id : Nat) : Option StructureFault :=
  match c.gateAt? id with
  | none => some (.notGate id)
  | some g =>
    if found.count id ≠ (g.operands.map Wire.positive).eraseDups.length then
      some (.incomplete id)
    else none

/-- The first fault in the order of the gates. -/
def orderFault? (c : Circuit) : Option StructureFault :=
  let found := c.appearances
  c.gateOrder.toList.findSome? (c.entryFault? found)

/-- The first fault in the structure of the circuit. -/
def fault? (c : Circuit) : Option StructureFault :=
  if !Graph.isAcyclic c.size c.edges then some .cycle
  else match c.tracks.toList.findSome? c.trackFault? with
    | some fault => some fault
    | none =>
      if c.expectedEdges ≠ c.edges.length then
        some (.edgeCount c.expectedEdges c.edges.length)
      else c.orderFault?

/-- Accept a circuit whose structure is sound. -/
def integrity (c : Circuit) : Except CircuitError Unit :=
  match c.fault? with
  | none => .ok ()
  | some fault => .error (.malformed fault)

end CircuitSynthesis.Circuit

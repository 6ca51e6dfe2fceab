import CircuitSynthesis.Circuit.Graph
import CircuitSynthesis.Gate.Basic
import CircuitSynthesis.InPlace

/-!
# Circuits

A circuit is a graph of nodes. Every wire has an input node, an output node
and, between them, the gates that act on it in the order they were appended;
each two nodes that follow one another on a wire are joined by an edge.

Nodes are never removed in place. A node can be marked, and `Circuit.compact`
builds the circuit without its marked gates.

Some of what nodes and wires say is kept a second time, to be at hand: the gate
nodes in order, the wires by label and the number of qubits. Whatever adds a
node or a wire has to enter it there as well.
-/

namespace CircuitSynthesis

/-- What a node stands for. -/
inductive Node.Content where
  | input (wire : Wire)
  | output (wire : Wire)
  | gate (gate : Gate)
  deriving DecidableEq

/-- A node with its tags. -/
structure Node where
  content : Node.Content
  marked : Bool
  visited : Bool
  deriving DecidableEq

namespace Node

/-- An untagged node. -/
def ofContent (content : Content) : Node := ⟨content, false, false⟩

def isInput (n : Node) : Bool :=
  match n.content with
  | .input _ => true
  | _ => false

def isOutput (n : Node) : Bool :=
  match n.content with
  | .output _ => true
  | _ => false

/-- The gate of a gate node. -/
def gate? (n : Node) : Option Gate :=
  match n.content with
  | .gate g => some g
  | _ => none

/-- The gate of a gate node that is not marked. -/
def liveGate? (n : Node) : Option Gate := if n.marked then none else n.gate?

end Node

/-- A wire of a circuit with the numbers of the nodes on it. -/
structure Track where
  declared : DeclaredWire
  input : Nat
  gates : Array Nat
  output : Nat

namespace Track

/-- All nodes on the wire, in order. -/
def path (t : Track) : List Nat := t.input :: (t.gates.toList ++ [t.output])

/-- The node before the output. -/
def last (t : Track) : Nat := t.gates.back?.getD t.input

end Track

/-- Gates on wires. -/
structure Circuit where
  nodes : Array Node
  edges : List Edge
  tracks : Array Track
  /-- The numbers of the gate nodes, in the order they were appended. -/
  gateOrder : Array Nat
  /-- The wires that were declared under a label, the latest first. -/
  labels : List (String × Wire)
  /-- Entry `i` names the wire whose content ends up on wire `i`. -/
  rewiring : List Nat
  qubitCount : Nat
  /-- Only numbers of nodes are listed. -/
  gateOrder_lt : ∀ id ∈ gateOrder, id < nodes.size

namespace Circuit

/-- No wires and no gates. -/
def empty : Circuit where
  nodes := #[]
  edges := []
  tracks := #[]
  gateOrder := #[]
  labels := []
  rewiring := []
  qubitCount := 0
  gateOrder_lt := by simp

instance : Inhabited Circuit := ⟨empty⟩

/-- A change of a circuit in place, which may be refused. -/
abbrev Change := EStateM CircuitError Circuit

/-! ## Wires -/

/-- Number of wires. -/
def wireCount (c : Circuit) : Nat := c.tracks.size

/-- All wires in order of declaration. -/
def wires (c : Circuit) : List Wire := c.tracks.toList.map (·.declared.wire)

/-- All qubits in order of declaration. -/
def qubits (c : Circuit) : List Wire := c.wires.filter (·.isQubit)

def cbitCount (c : Circuit) : Nat := c.wireCount - c.qubitCount

/-- The wire declared under a label. -/
def wireByLabel? (c : Circuit) (label : String) : Option Wire := c.labels.lookup label

/-- Declare a wire. Its index is the number of wires before it. -/
def addWire (c : Circuit) (kind : Wire.Kind) (label : Option String) : Circuit × Wire :=
  let wire := Wire.ofKind kind c.tracks.size
  let input := c.nodes.size
  let output := input + 1
  ({ c with
     nodes := (c.nodes.push (.ofContent (.input wire))).push (.ofContent (.output wire))
     edges := ⟨input, output, wire⟩ :: c.edges
     tracks := c.tracks.push ⟨⟨wire, label⟩, input, #[], output⟩
     labels := (label.map (·, wire)).toList ++ c.labels
     rewiring := c.rewiring ++ [wire.index]
     qubitCount := if kind = .qubit then c.qubitCount + 1 else c.qubitCount
     gateOrder_lt := fun id hid => by
       have := c.gateOrder_lt id hid
       simp only [Array.size_push]
       omega }, wire)

/-- Declare a wire under a label that is still free. -/
def addNamedWire (kind : Wire.Kind) (label : String) : Change Wire := do
  let c ← get
  if (c.wireByLabel? label).isSome then throw (.labelTaken label)
  else
    let added := c.addWire kind (some label)
    set added.1
    return added.2

/-- A circuit of `n` qubits without gates. -/
def ofQubits : Nat → Circuit
  | 0 => empty
  | n + 1 => ((ofQubits n).addWire .qubit none).1

/-- The track of a wire of this circuit, in any polarity. -/
def track? (c : Circuit) (w : Wire) : Option Track :=
  c.tracks[w.index]?.filter (·.declared.wire.kind == w.kind)

/-- The track of a wire, or an error. -/
def track (c : Circuit) (w : Wire) : Except CircuitError Track :=
  match c.track? w with
  | some t => .ok t
  | none => .error (.wireNotFound w none)

/-! ## Appending gates -/

/-- Put node `id` at the end of a wire, just before the output. The edge it
replaces is the first one between the two nodes, whatever its wire. -/
def attach (id : Nat) (c : Circuit) (w : Wire) : Circuit :=
  match c.tracks[w.index]? with
  | none => c
  | some t =>
    let last := t.last
    let output := t.output
    { c with
      edges := ⟨id, output, w⟩ :: ⟨last, id, w⟩ ::
        c.edges.eraseP fun e => e.source == last && e.target == output
      tracks := c.tracks.modify w.index fun t => { t with gates := t.gates.push id } }

/-- A new gate node, not yet on any wire. -/
def pushGate (c : Circuit) (g : Gate) : Circuit :=
  { c with
    nodes := c.nodes.push (.ofContent (.gate g))
    gateOrder := c.gateOrder.push c.nodes.size
    gateOrder_lt := fun id hid => by
      rw [Array.size_push]
      rcases Array.mem_push.mp hid with hid | rfl
      · exact Nat.lt_succ_of_lt (c.gateOrder_lt id hid)
      · exact Nat.lt_succ_self _ }

/-- Append a gate whose operands are known to be distinct wires of the circuit. -/
def place (c : Circuit) (g : Gate) : Circuit :=
  let id := c.nodes.size
  (g.operands.map Wire.positive).foldl (attach id) (c.pushGate g)

/-- Append a valid gate on wires of the circuit, and give the number of the new
node. -/
def append (g : Gate) : Change Nat := do
  g.validate
  let c ← get
  match g.operands.find? fun w => (c.track? w).isNone with
  | some w => throw (.wireNotFound w (some g.name))
  | none =>
    set (c.place g)
    return c.nodes.size

/-- Append a gate built from its parts. -/
def addGate (operation : Operation) (controls targets : List Wire) : Change Nat := do
  let g ← Gate.make operation controls targets
  append g

/-! ## Nodes -/

/-- Number of nodes: an input and an output for each wire, and every gate. -/
def size (c : Circuit) : Nat := c.nodes.size

/-- A node by number. -/
def node (c : Circuit) (id : Nat) : Except CircuitError Node :=
  match c.nodes[id]? with
  | some n => .ok n
  | none => .error .unknownNode

/-- The gate of a gate node, marked or not. -/
def gateAt? (c : Circuit) (id : Nat) : Option Gate := c.nodes[id]?.bind (·.gate?)

/-- The gate of a gate node that is not marked. -/
def liveGateAt? (c : Circuit) (id : Nat) : Option Gate := c.nodes[id]?.bind (·.liveGate?)

/-- The numbers and gates of all gate nodes that are not marked, in the order
they were appended. -/
def gates (c : Circuit) : List (Nat × Gate) :=
  c.gateOrder.toList.filterMap fun id => (c.liveGateAt? id).map (id, ·)

/-- The gates that are not marked, in the order they were appended. -/
def liveGates (c : Circuit) : List Gate := c.gateOrder.toList.filterMap c.liveGateAt?

/-- Number of gate nodes, marked or not. -/
def gateCount (c : Circuit) : Nat := c.gateOrder.size

/-- The node before `id` on a wire. -/
def predecessor? (c : Circuit) (id : Nat) (w : Wire) : Option Nat :=
  (c.edges.find? fun e => e.target == id && e.wire.sameWire w).map (·.source)

/-- The node after `id` on a wire. -/
def successor? (c : Circuit) (id : Nat) (w : Wire) : Option Nat :=
  (c.edges.find? fun e => e.source == id && e.wire.sameWire w).map (·.target)

/-! ## Tags -/

/-- Whether a node is marked; an unknown node is not. -/
def isMarked (c : Circuit) (id : Nat) : Bool := c.nodes[id]?.any (·.marked)

/-- Whether a node is tagged as visited; an unknown node is not. -/
def isVisited (c : Circuit) (id : Nat) : Bool := c.nodes[id]?.any (·.visited)

/-- The circuit with another node under a number that is in use. -/
def replaceNode (c : Circuit) (id : Nat) (n : Node) : Circuit :=
  { c with
    nodes := c.nodes.setIfInBounds id n
    gateOrder_lt := by simpa using c.gateOrder_lt }

/-- Change the tags of a node, and give what was asked about it before. -/
def retag (id : Nat) (update : Node → Node) (previous : Node → Bool) : Change Bool := do
  let c ← get
  let n ← c.node id
  set (c.replaceNode id (update n))
  return previous n

/-- Set the mark of a node, and give the mark it had. -/
def setMarked (id : Nat) (value : Bool) : Change Bool :=
  retag id ({ · with marked := value }) (·.marked)

/-- Set the visited tag of a node, and give the tag it had. -/
def setVisited (id : Nat) (value : Bool) : Change Bool :=
  retag id ({ · with visited := value }) (·.visited)

/-- No node is tagged as visited any more. -/
def clearVisited (c : Circuit) : Circuit :=
  { c with
    nodes := c.nodes.map fun n => { n with visited := false }
    gateOrder_lt := by simpa using c.gateOrder_lt }

/-- The circuit without its marked gates. Wires, labels and the wire
permutation stay, and so does the order of the gates. -/
def compact (c : Circuit) : Circuit :=
  let wires := c.tracks.toList.foldl
    (fun d t => (d.addWire t.declared.wire.kind t.declared.label).1) empty
  { c.liveGates.foldl place wires with rewiring := c.rewiring }

/-! ## The wire permutation -/

/-- Replace the wire permutation. -/
def rewire (map : List Nat) : Change Unit := do
  let c ← get
  if map.length ≠ c.wireCount then throw (.rewiring (.length c.wireCount map.length))
  else match RangePermutation.firstFault c.wireCount map with
    | some fault => throw (.rewiring (.entry fault))
    | none => set { c with rewiring := map }

/-! ## Depth -/

/-- A gate ends one level above the highest of its wires. -/
def depthStep : Array Nat × Nat → Gate → Array Nat × Nat
  | (levels, depth), g =>
    let level := (g.operands.map fun w => levels.getD w.index 0).foldl max 0 + 1
    (g.operands.foldl (fun levels w => levels.setIfInBounds w.index level) levels,
      max depth level)

/-- The greatest number of unmarked gates that must follow one another. -/
def depth (c : Circuit) : Nat :=
  (c.liveGates.foldl depthStep (Array.replicate c.wireCount 0, 0)).2

end Circuit

end CircuitSynthesis

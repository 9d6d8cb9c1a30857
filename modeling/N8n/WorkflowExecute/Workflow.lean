import N8n.Foundations.OrderedMap

/-!
# Workflows

The nodes and `main` connections of a workflow as the execution loop reads them: the connections by
their source, the same connections by their destination, and the nodes before a node.

## Main definitions

* `Workflow`: nodes, connections by source and the execution order
* `mapConnectionsByDestination`: the connections by their destination
* `Workflow.getParentNodes`: the nodes before a node
-/

namespace N8n.WorkflowExecute

/-! ## Objects -/

/-- A name that is a canonical array index: such properties of an object come first, in order. -/
def isArrayIndex (name : String) : Bool :=
  let digits := name.toList
  digits ≠ [] && digits.all Char.isDigit && (digits.head? ≠ some '0' || digits.length = 1) &&
    digits.foldl (fun n c => 10 * n + (c.toNat - '0'.toNat)) 0 < 2 ^ 32 - 1

/-- `Object.keys` of an object whose properties were first set in the order of `names`. -/
def objectKeys (names : List String) : List String :=
  ((names.filter isArrayIndex).insertionSort fun a b =>
    a.length < b.length ∨ (a.length = b.length ∧ a ≤ b)) ++
    names.filter fun name => !isArrayIndex name

/-! ## Connections -/

structure IConnection where
  node : String
  index : ℕ
  deriving DecidableEq

/-- For each node and each of its outputs, or inputs, the connections there. -/
abbrev IConnections := OrderedMap String (List (List IConnection))

/-- Record the connection `info` out of output `index` of `sourceNode` at its destination. -/
def addByDestination (returnConnection : IConnections) (sourceNode : String) (index : ℕ)
    (info : IConnection) : IConnections :=
  let inputs := (returnConnection.get? info.node).getD []
  let inputs := inputs ++ List.replicate (info.index + 1 - inputs.length) []
  returnConnection.set info.node (inputs.modify info.index (· ++ [⟨sourceNode, index⟩]))

def mapConnectionsByDestination (connections : IConnections) : IConnections :=
  (objectKeys connections.keys).foldl (fun returnConnection sourceNode =>
    ((connections.get? sourceNode).getD []).zipIdx.foldl (fun returnConnection output =>
      output.1.foldl (fun returnConnection info =>
        addByDestination returnConnection sourceNode output.2 info) returnConnection)
      returnConnection) .empty

/-- The state of the search for connected nodes: the nodes collected for the current node, and the
results that are known. -/
structure Collected where
  returnNodes : List String
  memo : OrderedMap String (List String)

def moveToFront (nodes : List String) (node : String) : List String := node :: nodes.erase node

/-- `fuel` bounds the length of the current path, on which every node has connections of its own. -/
def collectConnectedNodes (connections : IConnections) :
    ℕ → String → List String → OrderedMap String (List String) → Collected
  | 0, _, _, memo => ⟨[], memo⟩
  | fuel + 1, nodeName, currentPath, memo =>
    match connections.get? nodeName, memo.get? nodeName with
    | none, _ => ⟨[], memo⟩
    | some _, some cached => ⟨cached, memo⟩
    | some byIndex, none =>
      let currentPath := nodeName :: currentPath
      let collected := byIndex.flatten.foldl (fun (acc : Collected) connection =>
        if connection.node ∈ currentPath then acc
        else
          let returnNodes := moveToFront acc.returnNodes connection.node
          let added := collectConnectedNodes connections fuel connection.node currentPath acc.memo
          ⟨added.returnNodes.reverse.foldl moveToFront returnNodes, added.memo⟩) ⟨[], memo⟩
      ⟨collected.returnNodes, collected.memo.set nodeName collected.returnNodes⟩

/-! ## Workflows -/

/-- The inputs a node type requires: a number of inputs, or certain inputs. -/
inductive RequiredInputs
  | amount (n : ℕ)
  | indexes (inputs : List ℕ)

/-- A node with what the loop reads of its type. -/
structure INode where
  name : String
  /-- `nodeType.description.inputs.length` -/
  inputsLength : ℕ
  requiredInputs : Option RequiredInputs

inductive ExecutionOrder
  | v0
  | v1
  deriving DecidableEq

structure Workflow where
  nodes : OrderedMap String INode
  connectionsBySourceNode : IConnections
  executionOrder : Option ExecutionOrder

namespace Workflow

variable (workflow : Workflow)

def isLegacyExecutionOrder : Bool := workflow.executionOrder ≠ some .v1

def connectionsByDestinationNode : IConnections :=
  mapConnectionsByDestination workflow.connectionsBySourceNode

def inputs (node : String) : List (List IConnection) :=
  (workflow.connectionsByDestinationNode.get? node).getD []

def numberOfInputs (node : String) : ℕ := (workflow.inputs node).length

def outputConnections (node : String) (outputIndex : ℕ) : List IConnection :=
  (((workflow.connectionsBySourceNode.get? node).getD [])[outputIndex]?).getD []

def getParentNodes (node : String) : List String :=
  let connections := workflow.connectionsByDestinationNode
  (collectConnectedNodes connections (connections.size + 1) node [] .empty).returnNodes

end Workflow

end N8n.WorkflowExecute

import MerkleSnark.Circuit.HashGadget

/-!
# Merkle tree circuits

A complete binary tree of depth `d` has `2 ^ d` leaf digests and a hash gadget for every inner node.
The root that the tree computes is a digest of its own; one constraint a bit ties it to the public
digest, whose wires are the first of the board.

Digests, nodes and gadgets are kept in lists and refer to one another by their places.  Wires are
allocated in the order public root, leaves, inner root, and then level by level from the leaves up
each inner digest and the wires of its gadget.

## Main definitions

* `TreeNode`, `Binding`, `MerkleCircuit` — the parts of a circuit.
* `MerkleCircuit.build` — lays a circuit out on a board.
* `MerkleCircuit.constrain` — adds its constraints, once.
* `MerkleCircuit.assign` — computes the wires from the leaf digests.
* `MerkleCircuit.rootBits` — the public root.
-/

namespace MerkleSnark

/-- The places of a node in a tree. -/
inductive NodeKind
  /-- At the bottom. -/
  | leaf
  /-- Between the leaves and the root. -/
  | intermediate
  /-- At the top. -/
  | root
  deriving DecidableEq, Repr

/-- The name of a place. -/
def NodeKind.name : NodeKind → String
  | .leaf => "leaf"
  | .intermediate => "intermediate"
  | .root => "root"

/-- A node of the tree. -/
structure TreeNode where
  /-- Where it stands. -/
  kind : NodeKind
  /-- The place of its digest. -/
  digest : Nat
  /-- The places of its left and right child; a leaf has none. -/
  children : Option (Nat × Nat)
  deriving DecidableEq, Repr

/-- A gadget with the places of the digests it connects. -/
structure Binding where
  /-- The place of the left input. -/
  left : Nat
  /-- The place of the right input. -/
  right : Nat
  /-- The place of the output. -/
  output : Nat
  /-- The gadget. -/
  gadget : PlacedGadget

/-- The lists that grow while a circuit is laid out. -/
structure Arena where
  /-- The digests. -/
  digests : Array Digest := #[]
  /-- The nodes. -/
  nodes : Array TreeNode := #[]
  /-- The gadgets, every one after those whose output it reads. -/
  bindings : Array Binding := #[]

namespace Arena

/-- Computations that lay out. -/
abbrev M := StateT Arena BoardM

/-- Allocates a digest and gives its place. -/
def newDigest (size : Nat) (label : String) : M Nat := do
  let digest ← (Digest.allocate size label : BoardM Digest)
  modifyGet fun a => (a.digests.size, { a with digests := a.digests.push digest })

/-- Adds a node and gives its place. -/
def newNode (node : TreeNode) : M Nat :=
  modifyGet fun a => (a.nodes.size, { a with nodes := a.nodes.push node })

/-- The place of the digest of a node. -/
def digestOf (node : Nat) : M Nat :=
  return ((← get).nodes[node]?.map TreeNode.digest).getD 0

/-- The digest at a place. -/
def digestAt (digest : Nat) : M Digest := return (← get).digests.getD digest default

/-- Puts a node above two others and the gadget between their digests. -/
def bind (gadget : HashGadget) (kind : NodeKind) (digest left right : Nat) : M Nat := do
  let l ← digestOf left
  let r ← digestOf right
  let output ← digestAt digest
  let placed ← (gadget.place (← digestAt l) (← digestAt r) output s!"hash_{output.label}" :
    BoardM PlacedGadget)
  modify fun a => { a with bindings := a.bindings.push ⟨l, r, digest, placed⟩ }
  newNode ⟨kind, digest, some (left, right)⟩

/-- Joins the nodes of a level in pairs, the pairs numbered from `i`, at a height above the leaves
that is counted from the root down. -/
def joinPairs (gadget : HashGadget) (rootDigest height : Nat) : Nat → List Nat → M (List Nat)
  | i, left :: right :: rest => do
    let parent ←
      if height = 0 then bind gadget .root rootDigest left right
      else do
        let digest ← newDigest gadget.digestSize s!"intermediate_{height}_{i}"
        bind gadget .intermediate digest left right
    return parent :: (← joinPairs gadget rootDigest height (i + 1) rest)
  | _, _ => return []

/-- Joins levels until one node is left, and gives that node.  A level at height `h` has `2 ^ h`
nodes. -/
def joinLevels (gadget : HashGadget) (rootDigest : Nat) : Nat → List Nat → M Nat
  | 0, level => return level.headD 0
  | height + 1, level => do
    joinLevels gadget rootDigest height (← joinPairs gadget rootDigest height 0 level)

end Arena

/-- A tree on a board. -/
structure MerkleCircuit where
  /-- The number of levels above the leaves. -/
  depth : Nat
  /-- The number of bits of a digest. -/
  digestSize : Nat
  /-- Digests, nodes and gadgets. -/
  arena : Arena
  /-- The places of the leaf nodes, from left to right. -/
  leafNodes : List Nat
  /-- The place of the root node. -/
  rootNode : Nat
  /-- The place of the digest that the tree computes. -/
  rootDigest : Nat
  /-- The place of the public digest. -/
  rootPublic : Nat
  /-- Whether the constraints are on the board. -/
  constrained : Bool := false

namespace MerkleCircuit

/-- The number of leaves. -/
def numLeaves (c : MerkleCircuit) : Nat := 1 <<< c.depth

/-- The digest at a place. -/
def digestAt (c : MerkleCircuit) (i : Nat) : Digest := c.arena.digests.getD i default

/-- The digests of the leaves, from left to right. -/
def leafDigests (c : MerkleCircuit) : List Digest :=
  c.leafNodes.map fun n => c.digestAt ((c.arena.nodes[n]?.map TreeNode.digest).getD 0)

/-- Allocates the digests in their order and joins the levels. -/
def layOut (gadget : HashGadget) (depth : Nat) : Arena.M MerkleCircuit := do
  let size := gadget.digestSize
  let rootPublic ← Arena.newDigest size "root_digest_bits"
  (BoardM.setInputSize size : BoardM Unit)
  let leafNodes ← (List.range (1 <<< depth)).mapM fun i => do
    Arena.newNode ⟨.leaf, ← Arena.newDigest size s!"leaf_{i}", none⟩
  let rootDigest ← Arena.newDigest size "root_digest"
  let rootNode ← Arena.joinLevels gadget rootDigest depth leafNodes
  return { depth, digestSize := size, arena := ← get, leafNodes, rootNode, rootDigest, rootPublic }

/-- Lays a tree of at least one level out on a board. -/
def build (gadget : HashGadget) (depth : Int) : BoardM MerkleCircuit := do
  if depth < 1 then throw (.treeDepth depth)
  return (← StateT.run (layOut gadget depth.toNat) {}).1

/-- The constraint that two digests agree in a bit. -/
def equalBit (i : Nat) (pub root : Nat) : Constraint :=
  ⟨.var pub - .var root, .const 1, 0, s!"root_digest_bits[{i}] == root_digest[{i}]"⟩

/-- The constraints that the computed root is the public one. -/
def rootConstraints (c : MerkleCircuit) : List Constraint :=
  ((c.digestAt c.rootPublic).wires.zip (c.digestAt c.rootDigest).wires).zipIdx.map fun p =>
    equalBit p.2 p.1.1 p.1.2

/-- Adds the constraints: the root, the bits of the leaves, and the gadgets in their order. -/
def constrain (c : MerkleCircuit) : BoardM MerkleCircuit := do
  if c.constrained then throw .alreadyConstrained
  c.rootConstraints.forM BoardM.addConstraint
  c.leafDigests.forM Digest.constrain
  c.arena.bindings.toList.forM fun b => b.gadget.constrain
  return { c with constrained := true }

/-- Checks that every leaf has the right number of bits, counting the leaves from `i`. -/
def checkSizes (size : Nat) : Nat → List (List Int) → BoardM Unit
  | _, [] => return ()
  | i, bits :: rest => do
    if bits.length ≠ size then throw (.leafSize i size bits.length)
    checkSizes size (i + 1) rest

/-- Writes the leaf digests, runs the gadgets from the leaves up, and copies the computed root to
the public digest. -/
def assign (c : MerkleCircuit) (leaves : List (List Int)) : BoardM Unit := do
  if leaves.length ≠ c.numLeaves then throw (.leafCount c.numLeaves leaves.length)
  checkSizes c.digestSize 0 leaves
  (c.leafDigests.zip leaves).forM fun p => p.1.assign p.2
  c.arena.bindings.toList.forM fun b => b.gadget.assign
  (c.digestAt c.rootPublic).assign (← (c.digestAt c.rootDigest).values)

/-- The bits of the public root. -/
def rootBits (c : MerkleCircuit) : BoardM (List Int) := (c.digestAt c.rootPublic).values

end MerkleCircuit

end MerkleSnark

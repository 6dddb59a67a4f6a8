import AlgebraicTerms.Term

/-!
# Walking a term

The nodes of a tree from left to right, children before parents.  `postOrder` lists them by recursion
and `Walk` by a stack: the top node is visited if the last visited node is its last child, and
otherwise its children are put above it.  Nodes are told apart by their address, since a tree may
hold the same subtree twice.
-/

namespace AlgebraicTerms

namespace Term

variable {α : Type}

/-- The nodes of the tree, children before parents. -/
def postOrder : Term α → List (Term α)
  | call k t => t.postOrder ++ [call k t]
  | inv i t => t.postOrder ++ [inv i t]
  | bin op l r => l.postOrder ++ r.postOrder ++ [bin op l r]
  | t => [t]

/-- The way from the root to a node, innermost step first. -/
abbrev Address := List Bool

/-- A node and where it stands. -/
structure Node (α : Type) where
  address : Address
  term : Term α

/-- The children of a node, from left to right. -/
def Node.children (n : Node α) : List (Node α) :=
  match n.term with
  | call _ t | inv _ t => [⟨false :: n.address, t⟩]
  | bin _ l r => [⟨false :: n.address, l⟩, ⟨true :: n.address, r⟩]
  | _ => []

/-- A walk in progress: the nodes still to visit, and the one visited last. -/
structure Walk (α : Type) where
  stack : List (Node α)
  last : Option Address

namespace Walk

def start (t : Term α) : Walk α := ⟨[⟨[], t⟩], none⟩

/-- Whether the children of a node are behind the walk. -/
def isReady (w : Walk α) (n : Node α) : Bool :=
  match n.children.getLast? with
  | none => true
  | some child => w.last == some child.address

/-- The node that the next step visits, if it visits one. -/
def visited? (w : Walk α) : Option (Node α) := w.stack.head?.filter w.isReady

/-- A step either visits the top node or goes down from it. -/
def step (w : Walk α) : Walk α :=
  match w.stack with
  | [] => w
  | n :: below =>
    if w.isReady n then ⟨below, some n.address⟩ else ⟨n.children ++ w.stack, w.last⟩

/-- The nodes that the walk visits in the given number of steps. -/
def visits : Nat → Walk α → List (Node α)
  | 0, _ => []
  | steps + 1, w => w.visited?.toList ++ visits steps w.step

end Walk

/-- The nodes in the order of a walk.  Each is gone down from at most once and visited once. -/
def walk (t : Term α) : List (Term α) :=
  ((Walk.start t).visits (2 * t.nodeCount)).map Node.term

end Term

end AlgebraicTerms

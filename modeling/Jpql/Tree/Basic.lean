import Jpql.Text.Blank
import Jpql.Tree.Kind

/-! # Trees

A tree is a query text with an array of nodes. It grows bottom-up: `TreeBuilder.push` adds a node
after all of its children and makes it their parent, so every child has a smaller id than its
parent.

* `children`, `parent?`, `ancestors`, `descendants` are the ways through a tree, `fold` is a pass
  over it that can end early.
* `text` is the part of the query a node was read from, `parsedText` the same with its blanks
  normalised.
* `TreeBuilder.kind_retag` and `TreeBuilder.size_push` describe the operations of a builder. -/

namespace Jpql

/-- One node: what it is, where it stands, and the node that holds it. -/
structure Node where
  kind : NodeKind
  span : Span
  /-- The parent; none for the root. -/
  parent : Option NodeId

/-- A query read into nodes. -/
structure Tree where
  source : String
  nodes : Array Node
  root : NodeId

namespace Tree

/-- The node with an id. -/
def node (tree : Tree) (id : NodeId) : Node := tree.nodes[id]?.getD ⟨.bad, .point 0, none⟩

/-- The kind of a node. -/
def kind (tree : Tree) (id : NodeId) : NodeKind := (tree.node id).kind

/-- The part of the query a node was read from. -/
def span (tree : Tree) (id : NodeId) : Span := (tree.node id).span

/-- The node that holds a node; none for the root. -/
def parent? (tree : Tree) (id : NodeId) : Option NodeId := (tree.node id).parent

/-- The children of a node, in the order of the query text. -/
def children (tree : Tree) (id : NodeId) : List NodeId := (tree.kind id).children

/-- How many nodes the tree has. -/
def size (tree : Tree) : Nat := tree.nodes.size

/-- **The query text of a node**, exactly as written. -/
def text (tree : Tree) (id : NodeId) : String := Text.slice tree.source (tree.span id)

/-- **The query text of a node with its blanks normalised.** -/
def parsedText (tree : Tree) (id : NodeId) : String := Text.normalizeBlanks (tree.text id)

/-- At most `bound` links of the chain of parents that starts at an optional node. -/
def chain (tree : Tree) : (bound : Nat) → Option NodeId → List NodeId
  | 0, _ | _, none => []
  | bound + 1, some id => id :: chain tree bound (tree.parent? id)

/-- **The nodes that hold a node**, nearest first. A parent has a larger id than its child, so the
chain is not longer than the tree is large. -/
def ancestors (tree : Tree) (id : NodeId) : List NodeId := tree.chain tree.size (tree.parent? id)

/-- The number of nodes at and below a node, down to a depth. -/
def weight (tree : Tree) : (depth : Nat) → NodeId → Nat
  | 0, _ => 0
  | depth + 1, id => 1 + ((tree.children id).map (weight tree depth)).foldr (· + ·) 0

/-- Takes nodes off an agenda and puts their children in front, for a number of steps. -/
def preorder (tree : Tree) : (steps : Nat) → (agenda : List NodeId) → List NodeId
  | 0, _ | _, [] => []
  | steps + 1, id :: agenda => id :: preorder tree steps (tree.children id ++ agenda)

/-- **The nodes at and below a node**, each before its children. Children have smaller ids, so no
node lies deeper below `id` than `id` levels. -/
def descendants (tree : Tree) (id : NodeId) : List NodeId :=
  tree.preorder (tree.weight (id + 1) id) [id]

/-- A pass over a node and what lies below it, down to a depth. -/
def foldTo {σ β : Type} (tree : Tree) (visit : σ → NodeId → Except β σ) :
    (depth : Nat) → σ → NodeId → Except β σ
  | 0, state, _ => .ok state
  | depth + 1, state, id => do
    (tree.children id).foldlM (foldTo tree visit depth) (← visit state id)

/-- **A pass over the nodes at and below a node**, each before its children. The visitor threads a
state through, and ends the pass by an error. -/
def fold {σ β : Type} (tree : Tree) (visit : σ → NodeId → Except β σ) (state : σ) (id : NodeId) :
    Except β σ :=
  tree.foldTo visit (id + 1) state id

end Tree

/-- The nodes of a tree that is not finished yet. -/
structure TreeBuilder where
  nodes : Array Node

namespace TreeBuilder

/-- A builder without nodes. -/
def empty : TreeBuilder := ⟨#[]⟩

/-- Makes `parent` the parent of a list of nodes. -/
def adopt (parent : NodeId) (children : List NodeId) (nodes : Array Node) : Array Node :=
  children.foldl (fun nodes child => nodes.modify child ({ · with parent := some parent })) nodes

/-- **Adds a node and makes it the parent of its children.** -/
def push (builder : TreeBuilder) (kind : NodeKind) (span : Span) : NodeId × TreeBuilder :=
  let id := builder.nodes.size
  (id, ⟨(adopt id kind.children builder.nodes).push ⟨kind, span, none⟩⟩)

/-- Gives a node another kind. Its children keep their parents. -/
def retag (builder : TreeBuilder) (id : NodeId) (kind : NodeKind) : TreeBuilder :=
  ⟨builder.nodes.modify id ({ · with kind })⟩

/-- The kind of a node. -/
def kind (builder : TreeBuilder) (id : NodeId) : NodeKind :=
  (builder.nodes[id]?.map (·.kind)).getD .bad

/-- The span of a node. -/
def span (builder : TreeBuilder) (id : NodeId) : Span :=
  (builder.nodes[id]?.map (·.span)).getD (.point 0)

/-- The finished tree. -/
def finish (builder : TreeBuilder) (source : String) (root : NodeId) : Tree :=
  ⟨source, builder.nodes, root⟩

@[simp] theorem size_adopt (parent : NodeId) (children : List NodeId) (nodes : Array Node) :
    (adopt parent children nodes).size = nodes.size := by
  induction children generalizing nodes with
  | nil => rfl
  | cons child children ih => rw [adopt, List.foldl_cons, ← adopt, ih, Array.size_modify]

@[simp] theorem size_push (builder : TreeBuilder) (kind : NodeKind) (span : Span) :
    (builder.push kind span).2.nodes.size = builder.nodes.size + 1 := by
  simp [push]

@[simp] theorem fst_push (builder : TreeBuilder) (kind : NodeKind) (span : Span) :
    (builder.push kind span).1 = builder.nodes.size := rfl

theorem kind_retag (builder : TreeBuilder) {id : NodeId} (kind : NodeKind)
    (h : id < builder.nodes.size) : (builder.retag id kind).kind id = kind := by
  simp [retag, TreeBuilder.kind, h, Array.getElem_modify]

end TreeBuilder

end Jpql

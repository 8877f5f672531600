import Jpql.Proofs.Layout.Alike

/-! # The nodes of a statement with its alias written out

Read without its alias, a statement has the same nodes as with it, but for one: a bare field is there a
virtual variable with the path that it stands for, and here that path alone. So nodes are numbered
differently in the two trees. `Tree.image` finds the node for a node, and `NodeKind.renamed` says what
its kind is: the same with other ids, and with the alias for the virtual variable of the entity. -/

namespace Jpql

namespace NodeKind

/-- A virtual variable that stands for a bare field. -/
def isField : NodeKind → Bool
  | .identifier _ _ (some _) => true
  | _ => false

/-- The node is a variable. -/
def isVariable : NodeKind → Bool
  | .identifier .. => true
  | _ => false

/-- The node is the name of an entity. -/
def isSchemaName : NodeKind → Bool
  | .schemaName _ => true
  | _ => false

/-- The node is a path or the name of an entity. An alias is written at these. -/
def isAliased (kind : NodeKind) : Bool := kind.isPath || kind.isSchemaName

/-- **A node that may be in a statement without alias**: variables are virtual, none of them is the
character that `TRIM` removes, and there are neither queries, nor clauses of queries, nor constructs
that name variables. -/
def omitsAlias (kindOf : NodeId → NodeKind) : NodeKind → Bool
  | .identifier _ isVirtual _ => isVirtual
  | .trim _ (some character) _ _ => !(kindOf character).isVariable
  | .selectStatement .. | .simpleSelectStatement .. | .fromClause _ | .simpleFromClause _
  | .variableDeclaration .. | .key _ | .value _ | .entry _ | .treat .. | .type _ | .object _ => false
  | _ => true

/-- **The kind of a node where the alias is written out**, with `f` for the ids of nodes. -/
def renamed (v : String) (f : NodeId → NodeId) : NodeKind → NodeKind
  | .query a b => .query (a.map f) (b.map f)
  | .selectStatement a b c d e g =>
    .selectStatement (f a) (b.map f) (c.map f) (d.map f) (e.map f) (g.map f)
  | .simpleSelectStatement a b c d e =>
    .simpleSelectStatement (f a) (b.map f) (c.map f) (d.map f) (e.map f)
  | .updateStatement a b => .updateStatement (f a) (b.map f)
  | .deleteStatement a b => .deleteStatement (f a) (b.map f)
  | .selectClause distinct as => .selectClause distinct (as.map f)
  | .simpleSelectClause distinct as => .simpleSelectClause distinct (as.map f)
  | .fromClause as => .fromClause (as.map f)
  | .simpleFromClause as => .simpleFromClause (as.map f)
  | .whereClause a => .whereClause (f a)
  | .havingClause a => .havingClause (f a)
  | .groupByClause as => .groupByClause (as.map f)
  | .orderByClause as => .orderByClause (as.map f)
  | .orderByItem a order nulls => .orderByItem (f a) order nulls
  | .updateClause a bs => .updateClause (f a) (bs.map f)
  | .updateItem a b => .updateItem (f a) (f b)
  | .deleteClause a => .deleteClause (f a)
  | .onClause a => .onClause (f a)
  | .variableDeclaration a bs => .variableDeclaration (f a) (bs.map f)
  | .rangeDeclaration a hasAs b => .rangeDeclaration (f a) hasAs (b.map f)
  | .collectionDeclaration a hasAs b => .collectionDeclaration (f a) hasAs (b.map f)
  | .join sort fetch a hasAs b c => .join sort fetch (f a) hasAs (b.map f) (c.map f)
  | .schemaName name => .schemaName name
  | .identifier _ true none => .identifier v false none
  | .identifier name isVirtual a => .identifier name isVirtual (a.map f)
  | .resultVariable a hasAs b => .resultVariable (f a) hasAs (f b)
  | .entityType name => .entityType name
  | .constructor name as => .constructor name (as.map f)
  | .object a => .object (f a)
  | .group a => .group (f a)
  | .logical connective a b => .logical connective (f a) (f b)
  | .not a => .not (f a)
  | .comparison a operator b => .comparison (f a) operator (f b)
  | .between a negated b c => .between (f a) negated (f b) (f c)
  | .like a negated b c => .like (f a) negated (f b) (c.map f)
  | .inList a negated bs => .inList (f a) negated (bs.map f)
  | .nullCheck a negated => .nullCheck (f a) negated
  | .emptyCheck a negated => .emptyCheck (f a) negated
  | .member a negated hasOf b => .member (f a) negated hasOf (f b)
  | .existence negated a => .existence negated (f a)
  | .quantified quantifier a => .quantified quantifier (f a)
  | .arithmetic operation a b => .arithmetic operation (f a) (f b)
  | .sign negative a => .sign negative (f a)
  | .basicFunction function a => .basicFunction function (f a)
  | .size a => .size (f a)
  | .index a => .index (f a)
  | .key a => .key (f a)
  | .value a => .value (f a)
  | .entry a => .entry (f a)
  | .type a => .type (f a)
  | .mod a b => .mod (f a) (f b)
  | .locate a b c => .locate (f a) (f b) (c.map f)
  | .substring a b c => .substring (f a) (f b) (c.map f)
  | .concat as => .concat (as.map f)
  | .trim side a hasFrom b => .trim side (a.map f) hasFrom (f b)
  | .aggregate function distinct a => .aggregate function distinct (f a)
  | .coalesce as => .coalesce (as.map f)
  | .nullif a b => .nullif (f a) (f b)
  | .caseOf a bs c => .caseOf (a.map f) (bs.map f) (f c)
  | .when a b => .when (f a) (f b)
  | .treat a hasAs b => .treat (f a) hasAs (f b)
  | .call name as => .call name (as.map f)
  | .path kind a segments dot => .path kind (f a) segments dot
  | .number text => .number text
  | .string text => .string text
  | .wordLiteral literal => .wordLiteral literal
  | .moment word => .moment word
  | .parameter name positional => .parameter name positional
  | .unknown text => .unknown text
  | .bad => .bad

variable (v : String) (f : NodeId → NodeId)

theorem children_renamed (kind : NodeKind) : (kind.renamed v f).children = kind.children.map f := by
  unfold renamed
  split <;> simp [children, Option.toList_map]

theorem isPath_renamed (kind : NodeKind) : (kind.renamed v f).isPath = kind.isPath := by
  unfold renamed
  split <;> rfl

theorem isStatePath_renamed (kind : NodeKind) : (kind.renamed v f).isStatePath = kind.isStatePath := by
  unfold renamed
  split <;> first | rfl | skip
  next kind _ _ _ => cases kind <;> rfl

theorem eq_unknown_of_renamed {kind : NodeKind} {text : String}
    (h : kind.renamed v f = .unknown text) : kind = .unknown text := by
  unfold renamed at h
  split at h <;> cases h
  rfl

theorem asCollection_renamed (kind : NodeKind) :
    (kind.renamed v f).asCollection = kind.asCollection.renamed v f := by
  cases kind with
  | identifier name isVirtual path => cases isVirtual <;> cases path <;> rfl
  | _ => rfl

/-- Kinds other than paths and leftover text agree only if they are the same. -/
theorem Alike.eq_of_solid {kind other : NodeKind} (h : kind.Alike other) (hpath : kind.isPath = false)
    (hunknown : ∀ text, kind ≠ .unknown text) : other = kind := by
  cases h with
  | refl => rfl
  | path => cases hpath
  | unknown text => exact absurd rfl (hunknown text)

end NodeKind

namespace Tree

variable (tree : Tree)

/-- How many of the first nodes are there where the alias is written out. -/
def rank : Nat → Nat
  | 0 => 0
  | n + 1 => if (tree.kind n).isField then rank n else rank n + 1

/-- **The node for a node** where the alias is written out. -/
def image (id : Nat) : Nat := tree.rank (id + 1) - 1

variable {tree} {id other : Nat}

theorem rank_succ (h : (tree.kind id).isField = false) : tree.rank (id + 1) = tree.rank id + 1 := by
  rw [rank, h, if_neg Bool.false_ne_true]

theorem rank_succ_of_isField (h : (tree.kind id).isField = true) :
    tree.rank (id + 1) = tree.rank id := by
  rw [rank, if_pos h]

theorem rank_mono (h : id ≤ other) : tree.rank id ≤ tree.rank other := by
  induction h with
  | refl => exact Nat.le_refl _
  | step h ih =>
    refine Nat.le_trans ih ?_
    rw [rank]
    split <;> omega

theorem image_eq_rank (h : (tree.kind id).isField = false) : tree.image id = tree.rank id := by
  rw [image, rank_succ h, Nat.add_sub_cancel]

/-- A bare field has the node of its path, which comes right before it. -/
theorem image_succ (h : (tree.kind (id + 1)).isField = true) :
    tree.image (id + 1) = tree.image id := by
  rw [image, rank_succ_of_isField h]
  rfl

theorem image_lt_rank (h : (tree.kind id).isField = false) (hlt : id < other) :
    tree.image id < tree.rank other := by
  have hmono : tree.rank (id + 1) ≤ tree.rank other := rank_mono hlt
  rw [rank_succ h] at hmono
  rw [image_eq_rank h]
  omega

/-- **Different nodes have different nodes**, bare fields aside. -/
theorem image_inj (h : (tree.kind id).isField = false) (k : (tree.kind other).isField = false)
    (heq : tree.image id = tree.image other) : id = other := by
  rcases Nat.lt_trichotomy id other with hlt | heq | hlt
  · have hless := image_lt_rank h hlt
    rw [← image_eq_rank k] at hless
    omega
  · exact heq
  · have hless := image_lt_rank k hlt
    rw [← image_eq_rank h] at hless
    omega

end Tree

end Jpql

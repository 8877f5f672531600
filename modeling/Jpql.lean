import Jpql.Check.Basic
import Jpql.Check.NameRule
import Jpql.Check.Node
import Jpql.Check.PathRule
import Jpql.Check.Visit
import Jpql.Grammar.Basic
import Jpql.Grammar.Standard
import Jpql.Grammar.Trigger
import Jpql.Metamodel
import Jpql.Parse.Basic
import Jpql.Parse.Call
import Jpql.Parse.Clause
import Jpql.Parse.Condition
import Jpql.Parse.Declaration
import Jpql.Parse.Operand
import Jpql.Parse.Path
import Jpql.Parse.Primary
import Jpql.Parse.Query
import Jpql.Parse.Recovery
import Jpql.Parse.Statement
import Jpql.Problem.Basic
import Jpql.Problem.Key
import Jpql.Problem.Report
import Jpql.Proofs.Alias.Agreement
import Jpql.Proofs.Alias.Call
import Jpql.Proofs.Alias.Expression
import Jpql.Proofs.Alias.Lockstep
import Jpql.Proofs.Alias.Mirror
import Jpql.Proofs.Alias.Name
import Jpql.Proofs.Alias.Node
import Jpql.Proofs.Alias.Pair
import Jpql.Proofs.Alias.Reading
import Jpql.Proofs.Alias.Resolution
import Jpql.Proofs.Alias.Statement
import Jpql.Proofs.Alias.Step
import Jpql.Proofs.Alias.Text
import Jpql.Proofs.Alias.Token
import Jpql.Proofs.Alias.Visit
import Jpql.Proofs.Chain.Extend
import Jpql.Proofs.Chain.Nested
import Jpql.Proofs.Chain.Node
import Jpql.Proofs.Check.Association
import Jpql.Proofs.Check.Chain
import Jpql.Proofs.Check.Children
import Jpql.Proofs.Check.Collection
import Jpql.Proofs.Check.Constant
import Jpql.Proofs.Check.Dangling
import Jpql.Proofs.Check.Declaration
import Jpql.Proofs.Check.Demand
import Jpql.Proofs.Check.Double
import Jpql.Proofs.Check.Duplicate
import Jpql.Proofs.Check.Effect
import Jpql.Proofs.Check.Exact
import Jpql.Proofs.Check.Finding
import Jpql.Proofs.Check.JoinChain
import Jpql.Proofs.Check.NodeReport
import Jpql.Proofs.Check.Operand
import Jpql.Proofs.Check.OperandReport
import Jpql.Proofs.Check.Order
import Jpql.Proofs.Check.Path
import Jpql.Proofs.Check.PathReport
import Jpql.Proofs.Check.Reach
import Jpql.Proofs.Check.Report
import Jpql.Proofs.Check.Rule
import Jpql.Proofs.Check.Subquery
import Jpql.Proofs.Check.Tally
import Jpql.Proofs.Check.Target
import Jpql.Proofs.Check.TreeReport
import Jpql.Proofs.Check.Undeclared
import Jpql.Proofs.Check.VariableReport
import Jpql.Proofs.Check.Visit
import Jpql.Proofs.Depth.Balance
import Jpql.Proofs.Depth.Cap
import Jpql.Proofs.Depth.Operand
import Jpql.Proofs.Depth.Trace
import Jpql.Proofs.Depth.Track
import Jpql.Proofs.Depth.Visit
import Jpql.Proofs.Elide.Call
import Jpql.Proofs.Elide.Clause
import Jpql.Proofs.Elide.Declaration
import Jpql.Proofs.Elide.Expression
import Jpql.Proofs.Elide.Follow
import Jpql.Proofs.Elide.Step
import Jpql.Proofs.Elide.Text
import Jpql.Proofs.Elide.Token
import Jpql.Proofs.Grammar.DepthFirst
import Jpql.Proofs.Grammar.Dispatch
import Jpql.Proofs.Grammar.Permutation
import Jpql.Proofs.Grammar.Registration
import Jpql.Proofs.Grammar.Table
import Jpql.Proofs.Grammar.Verify
import Jpql.Proofs.Layout.Alike
import Jpql.Proofs.Layout.Check
import Jpql.Proofs.Layout.Expression
import Jpql.Proofs.Layout.Query
import Jpql.Proofs.Layout.Rewrite
import Jpql.Proofs.Layout.Scope
import Jpql.Proofs.Layout.Simulation
import Jpql.Proofs.Layout.Stream
import Jpql.Proofs.Layout.Validate
import Jpql.Proofs.Nesting.Expression
import Jpql.Proofs.Nesting.Level
import Jpql.Proofs.Nesting.Limit
import Jpql.Proofs.Nesting.Query
import Jpql.Proofs.Nesting.Reader
import Jpql.Proofs.Place.Check
import Jpql.Proofs.Place.Declaration
import Jpql.Proofs.Place.Draft
import Jpql.Proofs.Place.Exact
import Jpql.Proofs.Place.Expression
import Jpql.Proofs.Place.Held
import Jpql.Proofs.Place.Query
import Jpql.Proofs.Place.Scope
import Jpql.Proofs.Place.Tree
import Jpql.Proofs.Place.Validate
import Jpql.Proofs.Print.Blank
import Jpql.Proofs.Print.Condition
import Jpql.Proofs.Print.Expression
import Jpql.Proofs.Print.Level
import Jpql.Proofs.Print.Rebuild
import Jpql.Proofs.Print.RoundTrip
import Jpql.Proofs.Progress.Arrival
import Jpql.Proofs.Progress.Expression
import Jpql.Proofs.Progress.Query
import Jpql.Proofs.Reader.Ahead
import Jpql.Proofs.Reader.Call
import Jpql.Proofs.Reader.Condition
import Jpql.Proofs.Reader.Cover
import Jpql.Proofs.Reader.Declaration
import Jpql.Proofs.Reader.Draft
import Jpql.Proofs.Reader.Follow
import Jpql.Proofs.Reader.Join
import Jpql.Proofs.Reader.Make
import Jpql.Proofs.Reader.Move
import Jpql.Proofs.Reader.Name
import Jpql.Proofs.Reader.Nested
import Jpql.Proofs.Reader.Passage
import Jpql.Proofs.Reader.Primary
import Jpql.Proofs.Reader.Query
import Jpql.Proofs.Reader.Run
import Jpql.Proofs.Reader.Select
import Jpql.Proofs.Reader.Statement
import Jpql.Proofs.Reader.Tile
import Jpql.Proofs.Reader.Written
import Jpql.Proofs.Reader.Yield
import Jpql.Proofs.Recovery.Account
import Jpql.Proofs.Recovery.Coverage
import Jpql.Proofs.Recovery.Level
import Jpql.Proofs.Scope.Binding
import Jpql.Proofs.Scope.Cycle
import Jpql.Proofs.Scope.Distinct
import Jpql.Proofs.Scope.Lookup
import Jpql.Proofs.Scope.Names
import Jpql.Proofs.Scope.Order
import Jpql.Proofs.Scope.Table
import Jpql.Proofs.Scope.Use
import Jpql.Proofs.Scope.Visible
import Jpql.Proofs.Token.Alone
import Jpql.Proofs.Token.Boundary
import Jpql.Proofs.Token.Context
import Jpql.Proofs.Token.Cursor
import Jpql.Proofs.Token.Lexeme
import Jpql.Proofs.Token.Order
import Jpql.Proofs.Token.Partition
import Jpql.Proofs.Token.Piece
import Jpql.Proofs.Token.Solid
import Jpql.Proofs.Token.Spelling
import Jpql.Proofs.Tree.Clean
import Jpql.Proofs.Tree.Forest
import Jpql.Proofs.Tree.Order
import Jpql.Proofs.Tree.Precedence
import Jpql.Proofs.Tree.Schema
import Jpql.Proofs.Tree.Shape
import Jpql.Proofs.Tree.Traversal
import Jpql.Proofs.Tree.WellFormed
import Jpql.Proofs.Virtual.Capture
import Jpql.Proofs.Virtual.Place
import Jpql.Scope.Context
import Jpql.Scope.Declaration
import Jpql.Scope.Declared
import Jpql.Text.Blank
import Jpql.Text.Fold
import Jpql.Text.Slice
import Jpql.Text.Span
import Jpql.Text.Template
import Jpql.Text.UpperCase
import Jpql.Token.Basic
import Jpql.Token.Keyword
import Jpql.Token.Scan
import Jpql.Token.Stream
import Jpql.Tree.Basic
import Jpql.Tree.Kind
import Jpql.Validate

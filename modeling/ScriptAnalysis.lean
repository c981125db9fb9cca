import ScriptAnalysis.Proofs.Ast.Laid
import ScriptAnalysis.Proofs.Ast.Severed
import ScriptAnalysis.Proofs.Grammar.Cancellation
import ScriptAnalysis.Proofs.Grammar.Concerns
import ScriptAnalysis.Proofs.Grammar.Contract
import ScriptAnalysis.Proofs.Grammar.DeclarationNodes
import ScriptAnalysis.Proofs.Grammar.Declarations
import ScriptAnalysis.Proofs.Grammar.Derivable
import ScriptAnalysis.Proofs.Grammar.Derives
import ScriptAnalysis.Proofs.Grammar.ExpressionNodes
import ScriptAnalysis.Proofs.Grammar.ExpressionRuns
import ScriptAnalysis.Proofs.Grammar.ExpressionWords
import ScriptAnalysis.Proofs.Grammar.Expressions
import ScriptAnalysis.Proofs.Grammar.Lookahead
import ScriptAnalysis.Proofs.Grammar.Outcome
import ScriptAnalysis.Proofs.Grammar.Paths
import ScriptAnalysis.Proofs.Grammar.Reading
import ScriptAnalysis.Proofs.Grammar.Run
import ScriptAnalysis.Proofs.Grammar.ScriptNodes
import ScriptAnalysis.Proofs.Grammar.ScriptRuns
import ScriptAnalysis.Proofs.Grammar.ScriptWords
import ScriptAnalysis.Proofs.Grammar.Scripts
import ScriptAnalysis.Proofs.Grammar.Single
import ScriptAnalysis.Proofs.Grammar.StatementNodes
import ScriptAnalysis.Proofs.Grammar.StatementRuns
import ScriptAnalysis.Proofs.Grammar.Statements
import ScriptAnalysis.Proofs.Grammar.Takes
import ScriptAnalysis.Proofs.Printing.Facing
import ScriptAnalysis.Proofs.Printing.Identity
import ScriptAnalysis.Proofs.Printing.Lexing
import ScriptAnalysis.Proofs.Printing.Literals
import ScriptAnalysis.Proofs.Printing.Operators
import ScriptAnalysis.Proofs.Printing.Rereading
import ScriptAnalysis.Proofs.Printing.Syntax
import ScriptAnalysis.Proofs.Printing.Unique
import ScriptAnalysis.Proofs.Recording.Announced
import ScriptAnalysis.Proofs.Recording.AnyOrder
import ScriptAnalysis.Proofs.Recording.Balance
import ScriptAnalysis.Proofs.Recording.Bracketed
import ScriptAnalysis.Proofs.Recording.Brackets
import ScriptAnalysis.Proofs.Recording.Framed
import ScriptAnalysis.Proofs.Recording.Growth
import ScriptAnalysis.Proofs.Recording.Limits
import ScriptAnalysis.Proofs.Recording.Marked
import ScriptAnalysis.Proofs.Recording.Naming
import ScriptAnalysis.Proofs.Recording.Nesting
import ScriptAnalysis.Proofs.Recording.Offsets
import ScriptAnalysis.Proofs.Recording.Operations
import ScriptAnalysis.Proofs.Recording.Reported
import ScriptAnalysis.Proofs.Recording.Settled
import ScriptAnalysis.Proofs.Recording.Steps
import ScriptAnalysis.Proofs.Recording.Undone
import ScriptAnalysis.Proofs.Respaced.Classes
import ScriptAnalysis.Proofs.Respaced.Draft
import ScriptAnalysis.Proofs.Respaced.Production
import ScriptAnalysis.Proofs.Respaced.Rules
import ScriptAnalysis.Proofs.Respaced.Scope
import ScriptAnalysis.Proofs.Respaced.Script
import ScriptAnalysis.Proofs.Respaced.Trivia
import ScriptAnalysis.Proofs.Scope.Bases
import ScriptAnalysis.Proofs.Scope.Blocks
import ScriptAnalysis.Proofs.Scope.Chains
import ScriptAnalysis.Proofs.Scope.Classes
import ScriptAnalysis.Proofs.Scope.Contents
import ScriptAnalysis.Proofs.Scope.Declared
import ScriptAnalysis.Proofs.Scope.Described
import ScriptAnalysis.Proofs.Scope.Enclosing
import ScriptAnalysis.Proofs.Scope.FullNames
import ScriptAnalysis.Proofs.Scope.Gaps
import ScriptAnalysis.Proofs.Scope.InBlocks
import ScriptAnalysis.Proofs.Scope.Lexical
import ScriptAnalysis.Proofs.Scope.Offered
import ScriptAnalysis.Proofs.Scope.Openings
import ScriptAnalysis.Proofs.Scope.Paired
import ScriptAnalysis.Proofs.Scope.Redeclared
import ScriptAnalysis.Proofs.Scope.Repeated
import ScriptAnalysis.Proofs.Scope.RepeatedScripts
import ScriptAnalysis.Proofs.Scope.Reports
import ScriptAnalysis.Proofs.Scope.Scripts
import ScriptAnalysis.Proofs.Scope.Shapes
import ScriptAnalysis.Proofs.Scope.Usable
import ScriptAnalysis.Proofs.Token.Blanks
import ScriptAnalysis.Proofs.Token.Cover
import ScriptAnalysis.Proofs.Token.Lines
import ScriptAnalysis.Proofs.Token.Literals
import ScriptAnalysis.Proofs.Token.Longest
import ScriptAnalysis.Proofs.Token.Partition
import ScriptAnalysis.Proofs.Token.Rules
import ScriptAnalysis.Proofs.Token.Spelling
import ScriptAnalysis.Proofs.Tree.Acceptance
import ScriptAnalysis.Proofs.Tree.Anchors
import ScriptAnalysis.Proofs.Tree.Blames
import ScriptAnalysis.Proofs.Tree.Change
import ScriptAnalysis.Proofs.Tree.Coherence
import ScriptAnalysis.Proofs.Tree.DeclaredBefore
import ScriptAnalysis.Proofs.Tree.Enclosure
import ScriptAnalysis.Proofs.Tree.Entries
import ScriptAnalysis.Proofs.Tree.Framing
import ScriptAnalysis.Proofs.Tree.KeyOffsets
import ScriptAnalysis.Proofs.Tree.KeyPlaces
import ScriptAnalysis.Proofs.Tree.Keys
import ScriptAnalysis.Proofs.Tree.Layout
import ScriptAnalysis.Proofs.Tree.Leaves
import ScriptAnalysis.Proofs.Tree.LeftEdge
import ScriptAnalysis.Proofs.Tree.Location
import ScriptAnalysis.Proofs.Tree.Messages
import ScriptAnalysis.Proofs.Tree.NameKeys
import ScriptAnalysis.Proofs.Tree.PointLookup
import ScriptAnalysis.Proofs.Tree.Replay
import ScriptAnalysis.Proofs.Tree.RoundTrip
import ScriptAnalysis.Proofs.Tree.ScriptTree
import ScriptAnalysis.Proofs.Tree.Spans
import ScriptAnalysis.Proofs.Tree.Walk
import ScriptAnalysis.Proofs.Workspace.Cancelled
import ScriptAnalysis.Proofs.Workspace.Completion
import ScriptAnalysis.Proofs.Workspace.Declarations
import ScriptAnalysis.Proofs.Workspace.Faults
import ScriptAnalysis.Proofs.Workspace.ListRuns
import ScriptAnalysis.Proofs.Workspace.OneValue
import ScriptAnalysis.Proofs.Workspace.Queries
import ScriptAnalysis.Proofs.Workspace.Reachable
import ScriptAnalysis.Proofs.Workspace.Recency
import ScriptAnalysis.Proofs.Workspace.Registrations
import ScriptAnalysis.Proofs.Workspace.SharedCache
import ScriptAnalysis.Tree.Outline
import ScriptAnalysis.Workspace.Query

import RueSyntax.Text.Utf8
import RueSyntax.Tree.Layout
import RueSyntax.Tree.SExpr
import RueSyntax.Tree.Cursor
import RueSyntax.Highlight.Capture
import RueSyntax.Session
import RueSyntax.Grammar.Rue
import RueSyntax.Grammar.Symbol
import RueSyntax.Grammar.Description
import RueSyntax.Grammar.Usable
import RueSyntax.Grammar.Regex
import RueSyntax.Loading
import RueSyntax.Build.Script
import RueSyntax.Proofs.State.Map
import RueSyntax.Proofs.State.Tokens
import RueSyntax.Proofs.State.Transition
import RueSyntax.Proofs.State.Under
import RueSyntax.Proofs.Token.Text
import RueSyntax.Proofs.Token.CommentText
import RueSyntax.Proofs.State.Leads
import RueSyntax.Proofs.Reader.Pieces
import RueSyntax.Proofs.Reader.Runs
import RueSyntax.Proofs.Reader.Padding
import RueSyntax.Proofs.Reader.Parse
import RueSyntax.Proofs.Tree.Bare
import RueSyntax.Proofs.Tree.LayoutFree
import RueSyntax.Proofs.State.Completion
import RueSyntax.Proofs.Reader.Stop
import RueSyntax.Proofs.Reader.Under
import RueSyntax.Proofs.Grammar.Derivation
import RueSyntax.Proofs.Grammar.Conformance
import RueSyntax.Proofs.Tree.Under
import RueSyntax.Proofs.Grammar.Phrases
import RueSyntax.Proofs.Grammar.Rules
import RueSyntax.Proofs.Syntax.Proper
import RueSyntax.Proofs.Syntax.Runs
import RueSyntax.Proofs.Grammar.Precedence
import RueSyntax.Proofs.Tree.RoundTrip
import RueSyntax.Proofs.Loading
import RueSyntax.Proofs.Fallible
import RueSyntax.Proofs.Build.Disk
import RueSyntax.Proofs.Build.Stages
import RueSyntax.Proofs.State.Proper
import RueSyntax.Proofs.Tree.Chains
import RueSyntax.Proofs.Tree.Grouping
import RueSyntax.Proofs.Reader.Leaves
import RueSyntax.Proofs.Tree.Fringe
import RueSyntax.Proofs.Tree.Lexing
import RueSyntax.Proofs.Tree.Placement
import RueSyntax.Proofs.Reader.Prefix
import RueSyntax.Proofs.Tree.Prefixes
import RueSyntax.Proofs.State.Finished
import RueSyntax.Proofs.Reader.Renaming
import RueSyntax.Proofs.Tree.Outline
import RueSyntax.Proofs.Tree.Named
import RueSyntax.Proofs.Tree.Renaming
import RueSyntax.Proofs.Reader.Refusal
import RueSyntax.Proofs.Tree.Geometry
import RueSyntax.Proofs.Tree.Preorder
import RueSyntax.Proofs.Tree.Kinds
import RueSyntax.Proofs.Tree.Parts
import RueSyntax.Proofs.Highlight.Captures
import RueSyntax.Proofs.Highlight.Patterns
import RueSyntax.Proofs.Highlight.Coverage
import RueSyntax.Proofs.Build.Repetition
import RueSyntax.Proofs.Token.BlockPattern
import RueSyntax.Proofs.Tree.Boundaries
import RueSyntax.Proofs.Grammar.Place
import RueSyntax.Proofs.Grammar.Expressions
import RueSyntax.Proofs.Reader.Insertion
import RueSyntax.Proofs.Tree.Replacement
import RueSyntax.Proofs.Tree.Enclosed
import RueSyntax.Proofs.Tree.Parenthesized

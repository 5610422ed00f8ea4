import Formulae.Fault
import Formulae.Text.Character
import Formulae.Text.Line
import Formulae.Number.Basic
import Formulae.Number.Shortest
import Formulae.Names
import Formulae.Syntax.Operator
import Formulae.Syntax.Expr
import Formulae.Token
import Formulae.Token.Lexer
import Formulae.Grammar.Expression
import Formulae.Grammar.Block
import Formulae.Render.Plain
import Formulae.Render.Target
import Formulae.Symbolic.Basic
import Formulae.Symbolic.Operations
import Formulae.Symbolic.Text
import Formulae.Symbolic.Simplify
import Formulae.Definition
import Formulae.Grammar.Definition
import Formulae.Inline
import Formulae.Dependencies
import Formulae.Units.Dimension
import Formulae.Units.Context
import Formulae.Environment
import Formulae.Builtins
import Formulae.Analysis
import Formulae.Eval.Interpreter
import Formulae.Eval.Text
import Formulae.Json.Basic
import Formulae.Json.Read
import Formulae.Command.Variables
import Formulae.Command.Usage
import Formulae.Command.Arguments
import Formulae.Command.Basic
import Formulae.Command
import Formulae.Main
import Formulae.Proofs.Grammar.Rules
import Formulae.Proofs.Grammar.Soundness
import Formulae.Proofs.Grammar.Completeness
import Formulae.Proofs.Token.Lexing
import Formulae.Proofs.Token.Numeral
import Formulae.Proofs.Grammar.Recognition
import Formulae.Proofs.Grammar.Written
import Formulae.Proofs.Grammar.Legible
import Formulae.Proofs.Render.Plain
import Formulae.Proofs.Number.Decimal
import Formulae.Proofs.Render.Backend
import Formulae.Proofs.Syntax.Names
import Formulae.Proofs.Eval.Places
import Formulae.Proofs.Eval.Registered
import Formulae.Proofs.Render.Agreement
import Formulae.Proofs.Eval.Refinement
import Formulae.Proofs.Eval.Bodies
import Formulae.Proofs.CallGraph
import Formulae.Proofs.Eval.Nesting
import Formulae.Proofs.Inline.Expansion
import Formulae.Proofs.Inline.Passes
import Formulae.Proofs.Eval.Footprint
import Formulae.Proofs.Inline.Calls
import Formulae.Proofs.Inline.Ending
import Formulae.Proofs.Inline.Accounting
import Formulae.Proofs.Inline.Hygiene
import Formulae.Proofs.Number.Sign
import Formulae.Proofs.Symbolic.Numbers
import Formulae.Proofs.Symbolic.Source
import Formulae.Proofs.Symbolic.Grouping
import Formulae.Proofs.Symbolic.Closure
import Formulae.Proofs.Symbolic.Formed
import Formulae.Proofs.Symbolic.RoundTrip
import Formulae.Proofs.Grammar.Dialects
import Formulae.Proofs.Eval.Connective
import Formulae.Proofs.Analysis.Boolean
import Formulae.Proofs.Eval.Scoping
import Formulae.Proofs.Number.Order
import Formulae.Proofs.Symbolic.Meaning
import Formulae.Proofs.Symbolic.Values
import Formulae.Proofs.Symbolic.Writing
import Formulae.Proofs.Symbolic.Shape
import Formulae.Proofs.Eval.Lookup
import Formulae.Proofs.Number.Nearest
import Formulae.Proofs.Number.Neutral
import Formulae.Proofs.Number.Shortest
import Formulae.Proofs.Symbolic.Reading
import Formulae.Proofs.Symbolic.Equality
import Formulae.Proofs.Symbolic.Gathered
import Formulae.Proofs.Symbolic.Tidy
import Formulae.Proofs.Symbolic.Bases
import Formulae.Proofs.Symbolic.Collected
import Formulae.Proofs.Symbolic.Canonical
import Formulae.Proofs.Symbolic.Factors
import Formulae.Proofs.Symbolic.Divisors
import Formulae.Proofs.Symbolic.Idempotence
import Formulae.Proofs.Eval.Limit
import Formulae.Proofs.Dependencies
import Formulae.Proofs.Analysis.Constant
import Formulae.Proofs.Render.Outline
import Formulae.Proofs.Render.Definition
import Formulae.Proofs.Render.Parentheses
import Formulae.Proofs.Render.Statements
import Formulae.Proofs.Render.Scalar
import Formulae.Proofs.Token.Standing
import Formulae.Proofs.Token.Respelled
import Formulae.Proofs.Grammar.Layout
import Formulae.Proofs.Grammar.Located
import Formulae.Proofs.Grammar.Indentation
import Formulae.Proofs.Units.Lookup
import Formulae.Proofs.Grammar.Roles
import Formulae.Proofs.Analysis.Unit
import Formulae.Proofs.Symbolic.Mentions

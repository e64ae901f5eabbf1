import LuaMinifier.Ast
import LuaMinifier.Ast.Occurrences
import LuaMinifier.Ast.Parser
import LuaMinifier.Bundle
import LuaMinifier.Bundle.File
import LuaMinifier.Bundle.Graph
import LuaMinifier.Bundle.Library
import LuaMinifier.Bundle.Loader
import LuaMinifier.Chunk
import LuaMinifier.CommandLine
import LuaMinifier.CommandLine.Arguments
import LuaMinifier.CommandLine.Problem
import LuaMinifier.Config
import LuaMinifier.Failure
import LuaMinifier.FileTree
import LuaMinifier.Fragment
import LuaMinifier.Fragment.Finalize
import LuaMinifier.Main
import LuaMinifier.Minify
import LuaMinifier.Name.Odometer
import LuaMinifier.Name.Session
import LuaMinifier.Operator
import LuaMinifier.Options
import LuaMinifier.Path
import LuaMinifier.Position
import LuaMinifier.Pragma
import LuaMinifier.Print
import LuaMinifier.Print.Parentheses
import LuaMinifier.Proofs.AcceptExpressions
import LuaMinifier.Proofs.AcceptStatements
import LuaMinifier.Proofs.Arithmetic
import LuaMinifier.Proofs.Binding
import LuaMinifier.Proofs.BundleShape
import LuaMinifier.Proofs.Canonical
import LuaMinifier.Proofs.Capture
import LuaMinifier.Proofs.Climbing
import LuaMinifier.Proofs.Derivations
import LuaMinifier.Proofs.Discovery
import LuaMinifier.Proofs.Environments
import LuaMinifier.Proofs.Essence
import LuaMinifier.Proofs.FailedRuns
import LuaMinifier.Proofs.FileHistory
import LuaMinifier.Proofs.Formed
import LuaMinifier.Proofs.FragmentText
import LuaMinifier.Proofs.FreshNames
import LuaMinifier.Proofs.Grammar
import LuaMinifier.Proofs.Grouping
import LuaMinifier.Proofs.Histories
import LuaMinifier.Proofs.Idempotence
import LuaMinifier.Proofs.Ink
import LuaMinifier.Proofs.ItemViews
import LuaMinifier.Proofs.Items
import LuaMinifier.Proofs.Joining
import LuaMinifier.Proofs.KeptComments
import LuaMinifier.Proofs.Layout
import LuaMinifier.Proofs.Leaves
import LuaMinifier.Proofs.Lifetimes
import LuaMinifier.Proofs.LoaderScope
import LuaMinifier.Proofs.LoaderText
import LuaMinifier.Proofs.LoaderTree
import LuaMinifier.Proofs.Loading
import LuaMinifier.Proofs.MapBuilding
import LuaMinifier.Proofs.MapDecoding
import LuaMinifier.Proofs.MarkedTokens
import LuaMinifier.Proofs.Mirroring
import LuaMinifier.Proofs.ModulePaths
import LuaMinifier.Proofs.NameEnumeration
import LuaMinifier.Proofs.NameOrder
import LuaMinifier.Proofs.Numeral
import LuaMinifier.Proofs.Occurrences
import LuaMinifier.Proofs.Origins
import LuaMinifier.Proofs.OutputFiles
import LuaMinifier.Proofs.PieceTokens
import LuaMinifier.Proofs.Places
import LuaMinifier.Proofs.PlainMode
import LuaMinifier.Proofs.PragmaLines
import LuaMinifier.Proofs.Precedence
import LuaMinifier.Proofs.PrintedLayout
import LuaMinifier.Proofs.Printing
import LuaMinifier.Proofs.Productions
import LuaMinifier.Proofs.QuotedName
import LuaMinifier.Proofs.ReadExpressions
import LuaMinifier.Proofs.ReadItems
import LuaMinifier.Proofs.ReadNumbers
import LuaMinifier.Proofs.ReadStatements
import LuaMinifier.Proofs.ReadWritings
import LuaMinifier.Proofs.Recognition
import LuaMinifier.Proofs.Recording
import LuaMinifier.Proofs.Regrouping
import LuaMinifier.Proofs.Rendering
import LuaMinifier.Proofs.Requests
import LuaMinifier.Proofs.Reread
import LuaMinifier.Proofs.Resolution
import LuaMinifier.Proofs.Respelling
import LuaMinifier.Proofs.RoundTrip
import LuaMinifier.Proofs.Runs
import LuaMinifier.Proofs.ScopeWalk
import LuaMinifier.Proofs.Semicolons
import LuaMinifier.Proofs.Shedding
import LuaMinifier.Proofs.ShortStrings
import LuaMinifier.Proofs.ShortestNames
import LuaMinifier.Proofs.Slices
import LuaMinifier.Proofs.SourceMapping
import LuaMinifier.Proofs.Spacing
import LuaMinifier.Proofs.Stability
import LuaMinifier.Proofs.StaticRequires
import LuaMinifier.Proofs.TokenText
import LuaMinifier.Proofs.View
import LuaMinifier.Proofs.Visibility
import LuaMinifier.Proofs.Writings
import LuaMinifier.Proofs.Yield
import LuaMinifier.Require
import LuaMinifier.Scope
import LuaMinifier.Separator
import LuaMinifier.SourceMap
import LuaMinifier.SourceMap.Vlq
import LuaMinifier.SyntaxError
import LuaMinifier.Text.Base64
import LuaMinifier.Text.Cut
import LuaMinifier.Text.Json
import LuaMinifier.Text.WhiteSpace
import LuaMinifier.Token
import LuaMinifier.Token.Input
import LuaMinifier.Token.Lexeme
import LuaMinifier.Token.Stream
import LuaMinifier.Yaml
import LuaMinifier.Yaml.Token

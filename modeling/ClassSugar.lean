import ClassSugar.Command.Arguments
import ClassSugar.Command.Directory
import ClassSugar.Command.Report
import ClassSugar.Command.Run
import ClassSugar.Desugar.Assembly
import ClassSugar.Desugar.Context
import ClassSugar.Desugar.Naming
import ClassSugar.Desugar.Outcome
import ClassSugar.Desugar.Plan
import ClassSugar.Desugar.Recognition
import ClassSugar.Desugar.Refusal
import ClassSugar.Desugar.Renaming
import ClassSugar.Desugar.Rule
import ClassSugar.Diagnostic
import ClassSugar.Extension
import ClassSugar.Grammar.CompilationUnit
import ClassSugar.Grammar.Cursor
import ClassSugar.Grammar.Declaration
import ClassSugar.Grammar.Error
import ClassSugar.Grammar.Fragment
import ClassSugar.Grammar.Lookahead
import ClassSugar.Grammar.Member
import ClassSugar.Grammar.Parameter
import ClassSugar.Grammar.Reader
import ClassSugar.Grammar.Statement
import ClassSugar.Json.Basic
import ClassSugar.Json.Printer
import ClassSugar.Json.Reader
import ClassSugar.Json.Record
import ClassSugar.Main
import ClassSugar.Options
import ClassSugar.Page.Basic
import ClassSugar.Page.Emit
import ClassSugar.Proofs.AllRules
import ClassSugar.Proofs.BodyParts
import ClassSugar.Proofs.ConstructionPaths
import ClassSugar.Proofs.ConstructorBodies
import ClassSugar.Proofs.Emission
import ClassSugar.Proofs.Idempotence
import ClassSugar.Proofs.Openings
import ClassSugar.Proofs.PageText
import ClassSugar.Proofs.ParameterScope
import ClassSugar.Proofs.RuleOrder
import ClassSugar.Proofs.Settled
import ClassSugar.Proofs.SingletonForm
import ClassSugar.Proofs.TreeInduction
import ClassSugar.Source.Location
import ClassSugar.Source.Place
import ClassSugar.SourceFile
import ClassSugar.Text.Blank
import ClassSugar.Text.Case
import ClassSugar.Text.Cut
import ClassSugar.Text.Letter
import ClassSugar.Text.Lines
import ClassSugar.Text.Quoted
import ClassSugar.Text.Tail
import ClassSugar.Text.Words
import ClassSugar.Token.Basic
import ClassSugar.Token.Error
import ClassSugar.Token.Literal
import ClassSugar.Token.Piece
import ClassSugar.Token.Stream
import ClassSugar.Tree.Basic
import ClassSugar.Tree.Encode
import ClassSugar.Tree.Identifier
import ClassSugar.Tree.Outline
import ClassSugar.Tree.Query
import ClassSugar.Tree.TypeName
import ClassSugar.Tree.Verbatim
import ClassSugar.Proofs.NestedIsolation
import ClassSugar.Proofs.Reports
import ClassSugar.Proofs.NullChecks
import ClassSugar.Proofs.SourceText
import ClassSugar.Proofs.LosslessTokens
import ClassSugar.Proofs.LiteralLocality
import ClassSugar.Proofs.PieceLocality
import ClassSugar.Proofs.TokenRuns
import ClassSugar.Proofs.Layout
import ClassSugar.Proofs.PassedLeaves
import ClassSugar.Proofs.TakenTokens
import ClassSugar.Proofs.HeadLayout
import ClassSugar.Proofs.MemberLayout
import ClassSugar.Proofs.UnitLayout
import ClassSugar.Proofs.BodyCoverage
import ClassSugar.Proofs.CommentsKept
import ClassSugar.Proofs.Baseline
import ClassSugar.Proofs.Shift
import ClassSugar.Proofs.LineComposition
import ClassSugar.Proofs.ShiftedTree
import ClassSugar.Proofs.ShiftedLookahead
import ClassSugar.Proofs.MemberFrame
import ClassSugar.Proofs.LooseStatements
import ClassSugar.Proofs.CheckAgreement
import ClassSugar.Proofs.FilePlaces
import ClassSugar.Proofs.SavedFiles
import ClassSugar.Proofs.ParameterNames
import ClassSugar.Proofs.ComposedScans
import ClassSugar.Proofs.CopiedCode
import ClassSugar.Proofs.SimultaneousRenaming
import ClassSugar.Proofs.InitializerHints
import ClassSugar.Proofs.VerbatimLiterals
import ClassSugar.Proofs.HoleParts
import ClassSugar.Proofs.HoleMentions
import ClassSugar.Proofs.AddedMembers
import ClassSugar.Proofs.RenamedTokens
import ClassSugar.Proofs.StableBlocks
import ClassSugar.Proofs.TokenPlaces
import ClassSugar.Proofs.Reflow
import ClassSugar.Proofs.LineEnds
import ClassSugar.Proofs.ReflowedTokens
import ClassSugar.Proofs.PairedTokens
import ClassSugar.Proofs.TameTree
import ClassSugar.Proofs.TameDesugaring
import ClassSugar.Proofs.InlineTexts
import ClassSugar.Proofs.LineStarts
import ClassSugar.Proofs.LiteralMachine
import ClassSugar.Proofs.LexerProgress
import ClassSugar.Proofs.BracketBalance
import ClassSugar.Proofs.TokenRanges
import ClassSugar.Proofs.SteadyReaders
import ClassSugar.Proofs.SteadyGrammar
import ClassSugar.Proofs.SteadyUnit
import ClassSugar.Proofs.BaseTranslation
import ClassSugar.Proofs.BalancedCode
import ClassSugar.Proofs.ParserProgress
import ClassSugar.Proofs.TypeGrammar
import ClassSugar.Proofs.JoinedTypes
import ClassSugar.Proofs.SlicedCode
import ClassSugar.Proofs.PageTokens
import ClassSugar.Proofs.LaidCode
import ClassSugar.Proofs.PlainPages
import ClassSugar.Proofs.PageReading
import ClassSugar.Proofs.SecondRun

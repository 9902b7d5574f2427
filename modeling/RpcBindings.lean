import RpcBindings.Binding.Codec
import RpcBindings.Binding.Service
import RpcBindings.Binding.Shape
import RpcBindings.Command.Arguments
import RpcBindings.Command.Run
import RpcBindings.Disk.Path
import RpcBindings.Disk.Store
import RpcBindings.Emit.Client
import RpcBindings.Emit.Codec
import RpcBindings.Emit.Manifest
import RpcBindings.Emit.Options
import RpcBindings.Emit.Server
import RpcBindings.Generate.Diagnostic
import RpcBindings.Generate.Policy
import RpcBindings.Generate.Registry
import RpcBindings.Generate.Run
import RpcBindings.Generate.Tour
import RpcBindings.Json.Decimal
import RpcBindings.Json.Reader
import RpcBindings.Json.Token
import RpcBindings.Json.Value
import RpcBindings.Layout.Builder
import RpcBindings.Layout.Fragment
import RpcBindings.Layout.Indent
import RpcBindings.Log
import RpcBindings.Main
import RpcBindings.Name
import RpcBindings.Proto.File
import RpcBindings.Proto.Lexer
import RpcBindings.Proto.Reader
import RpcBindings.Proto.Token
import RpcBindings.Report.Generation
import RpcBindings.Report.Sink
import RpcBindings.Schema.Descriptor
import RpcBindings.Schema.Load
import RpcBindings.Schema.Merge
import RpcBindings.Schema.Problem
import RpcBindings.Schema.Resolve
import RpcBindings.Schema.Tree
import RpcBindings.Settings.Config
import RpcBindings.Settings.Effective
import RpcBindings.Text.Distinct
import RpcBindings.Text.Hex
import RpcBindings.Text.Lines
import RpcBindings.Text.Quoted
import RpcBindings.Text.Split
import RpcBindings.Text.Unseen
import RpcBindings.Text.Utf8
import RpcBindings.Toml.Reader
import RpcBindings.Toml.Scalar
import RpcBindings.Toml.Token
import RpcBindings.Toml.Value
import RpcBindings.TypeScript.Class
import RpcBindings.TypeScript.Import
import RpcBindings.TypeScript.Literal
import RpcBindings.TypeScript.SourceFile
import RpcBindings.Proofs.IdentSearch
import RpcBindings.Proofs.CodecTable
import RpcBindings.Proofs.CodecWiring
import RpcBindings.Proofs.Forest
import RpcBindings.Proofs.TourCoverage
import RpcBindings.Proofs.ClassNames
import RpcBindings.Proofs.Merge
import RpcBindings.Proofs.LoadRuns
import RpcBindings.Proofs.LoadOnce
import RpcBindings.Proofs.PathBound
import RpcBindings.Proofs.DepthFirst
import RpcBindings.Proofs.DottedNames
import RpcBindings.Proofs.SourceNames
import RpcBindings.Proofs.Naming
import RpcBindings.Proofs.ImportClosure
import RpcBindings.Proofs.LoadOrder
import RpcBindings.Proofs.NodePlaces
import RpcBindings.Proofs.SchemaTree
import RpcBindings.Proofs.LexicalScoping
import RpcBindings.Proofs.GeneratorAgreement
import RpcBindings.Proofs.OpenMethods
import RpcBindings.Proofs.OmissionReports
import RpcBindings.Proofs.Lexing
import RpcBindings.Proofs.Positions
import RpcBindings.Proofs.Grammar
import RpcBindings.Proofs.Completeness
import RpcBindings.Proofs.Printing
import RpcBindings.Proofs.RepeatedRoots
import RpcBindings.Proofs.ClassBodies
import RpcBindings.Proofs.EndpointAgreement
import RpcBindings.Proofs.ImportOrder
import RpcBindings.Proofs.DocumentForests
import RpcBindings.Proofs.DescriptorAgreement
import RpcBindings.Proofs.Joins
import RpcBindings.Proofs.MergeOrder
import RpcBindings.Proofs.FlatLoads
import RpcBindings.Proofs.Walks
import RpcBindings.Proofs.DiskEdits
import RpcBindings.Proofs.Delivery
import RpcBindings.Proofs.DocumentNames
import RpcBindings.Proofs.MethodNames
import RpcBindings.Proofs.TextLines
import RpcBindings.Proofs.WrittenText
import RpcBindings.Proofs.CommentLines
import RpcBindings.Proofs.LoadTermination
import RpcBindings.Proofs.Soundness
import RpcBindings.Proofs.Tiling
import RpcBindings.Proofs.PrintedTokens
import RpcBindings.Proofs.ErrorSpans
import RpcBindings.Proofs.LayoutFreedom
import RpcBindings.Proofs.Concatenation
import RpcBindings.Proofs.ScopePaths
import RpcBindings.Proofs.RepeatedResolution
import RpcBindings.Proofs.CodecOrder
import RpcBindings.Proofs.ImportedNames
import RpcBindings.Proofs.DocumentUnion
import RpcBindings.Proofs.LineColumns
import RpcBindings.Proofs.NameForms
import RpcBindings.Proofs.Indentation
import RpcBindings.Proofs.Brackets
import RpcBindings.Proofs.SpelledNames
import RpcBindings.Proofs.Unbracketed
import RpcBindings.Proofs.NestedCode
import RpcBindings.Proofs.BracePlaces
import RpcBindings.Proofs.SkippedBlocks

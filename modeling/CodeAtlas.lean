import CodeAtlas.Header.Brace.Binding
import CodeAtlas.Header.Brace.Export
import CodeAtlas.Header.Indent.Class
import CodeAtlas.Doc.Docstring
import CodeAtlas.Analysis.Body
import CodeAtlas.Label
import CodeAtlas.Scan.Build
import CodeAtlas.Json.Reader
import CodeAtlas.Json.Printer
import CodeAtlas.Outline.Encode
import CodeAtlas.Outline.Decode
import CodeAtlas.Report.Text
import CodeAtlas.Export.Stamp
import CodeAtlas.Export.Profile
import CodeAtlas.Files.Tree
import CodeAtlas.Files.Glob
import CodeAtlas.Corpus
import CodeAtlas.Settings.Reader
import CodeAtlas.Project
import CodeAtlas.Report.Save
import CodeAtlas.Export.Run
import CodeAtlas.Command.Run
import CodeAtlas.Main
import CodeAtlas.Pattern.Lemmas
import CodeAtlas.Proofs.Scan.Progress
import CodeAtlas.Proofs.Scan.Body
import CodeAtlas.Proofs.Scan.Tiling
import CodeAtlas.Proofs.Scan.Depth
import CodeAtlas.Proofs.Scan.Suffix
import CodeAtlas.Proofs.Text.Respace
import CodeAtlas.Proofs.Pattern.Steady
import CodeAtlas.Proofs.Outline.Respace
import CodeAtlas.Proofs.Header.Name
import CodeAtlas.Proofs.Scan.Origin
import CodeAtlas.Proofs.Outline.Location
import CodeAtlas.Proofs.Scan.Membership
import CodeAtlas.Proofs.Outline.Metadata
import CodeAtlas.Proofs.Files.Glob.Meaning
import CodeAtlas.Proofs.Files.Glob.Reading
import CodeAtlas.Proofs.Corpus.Pruning
import CodeAtlas.Proofs.Corpus.Selection
import CodeAtlas.Proofs.Scan.Exports
import CodeAtlas.Proofs.Header.Constant
import CodeAtlas.Proofs.Outline.Shift
import CodeAtlas.Proofs.Scan.Quoted
import CodeAtlas.Proofs.Scan.IndentTiling
import CodeAtlas.Proofs.Doc.Block
import CodeAtlas.Proofs.Doc.Buffer
import CodeAtlas.Proofs.Doc.Docstring
import CodeAtlas.Proofs.Scan.Documentation
import CodeAtlas.Proofs.Json.Spelling
import CodeAtlas.Proofs.Json.Lenient
import CodeAtlas.Proofs.Outline.RoundTrip
import CodeAtlas.Proofs.Text.Search
import CodeAtlas.Proofs.Scan.Comment
import CodeAtlas.Proofs.Command.Overwrite
import CodeAtlas.Proofs.Scan.CommentText
import CodeAtlas.Proofs.Header.InterfaceHeader
import CodeAtlas.Proofs.Header.ImportStatement
import CodeAtlas.Proofs.Header.InterfaceLayout
import CodeAtlas.Proofs.Scan.Imports
import CodeAtlas.Proofs.Header.SignatureComment
import CodeAtlas.Proofs.Pattern.Occurrences
import CodeAtlas.Proofs.Nesting.Nested
import CodeAtlas.Proofs.Header.ParamList
import CodeAtlas.Proofs.Header.BaseList
import CodeAtlas.Proofs.Header.DefParams
import CodeAtlas.Proofs.Report.ShownSignature
import CodeAtlas.Proofs.Scan.OneLineSuite
import CodeAtlas.Proofs.Analysis.Join
import CodeAtlas.Proofs.Analysis.Pace
import CodeAtlas.Proofs.Scan.ExportLists
import CodeAtlas.Proofs.Scan.Decorators
import CodeAtlas.Proofs.Machine.Nesting
import CodeAtlas.Proofs.Machine.Header
import CodeAtlas.Proofs.Machine.Depth
import CodeAtlas.Proofs.Machine.Complexity
import CodeAtlas.Proofs.Machine.Outline
import CodeAtlas.Proofs.Analysis.CallNames
import CodeAtlas.Proofs.Analysis.Declaring
import CodeAtlas.Proofs.Header.Declaring
import CodeAtlas.Proofs.Outline.Called
import CodeAtlas.Proofs.Nesting.Enclosed
import CodeAtlas.Proofs.Report.Grouping
import CodeAtlas.Proofs.Files.PathName
import CodeAtlas.Proofs.Export.Plan
import CodeAtlas.Proofs.Scan.NameLists
import CodeAtlas.Proofs.Extent.FirstReturn
import CodeAtlas.Proofs.Nesting.Literal

import Flowchart.Branch.Closure
import Flowchart.Branch.Group
import Flowchart.Branch.Path
import Flowchart.Document.Basic
import Flowchart.Document.Check
import Flowchart.Document.Compile
import Flowchart.Editor.Event
import Flowchart.Editor.Session
import Flowchart.Editor.Store
import Flowchart.Export.Lenient
import Flowchart.Export.Load
import Flowchart.Export.Metadata
import Flowchart.Export.Problem
import Flowchart.Export.Record
import Flowchart.Export.Spec
import Flowchart.Fault
import Flowchart.Graph.Basic
import Flowchart.Graph.Record
import Flowchart.Graph.Role
import Flowchart.Graph.Settings
import Flowchart.Graph.Subtree
import Flowchart.Join.Ancestor
import Flowchart.Join.Point
import Flowchart.Json.Form
import Flowchart.Json.Reader
import Flowchart.Json.Shared
import Flowchart.Notice
import Flowchart.Number.Decimal
import Flowchart.Number.Double
import Flowchart.Number.Integer
import Flowchart.Number.Shortest
import Flowchart.Text.Basic
import Flowchart.Text.Digit
import Flowchart.Text.Printable
import Flowchart.Text.Quoted
import Flowchart.Text.Space
import Flowchart.Text.Utf8
import Flowchart.Value.Basic
import Flowchart.Value.Calendar
import Flowchart.Value.Display
import Flowchart.Value.Distinct
import Flowchart.Value.Pairs
import Flowchart.Value.Scalar
import Flowchart.Value.Table
import Flowchart.Yaml.Base64
import Flowchart.Yaml.Build
import Flowchart.Yaml.Cursor
import Flowchart.Yaml.Layout
import Flowchart.Yaml.Scalar
import Flowchart.Yaml.Tag
import Flowchart.Yaml.Timestamp
import Flowchart.Yaml.Token
import Flowchart.Yaml.Tree
import Flowchart.Proofs.Lists
import Flowchart.Proofs.Visit
import Flowchart.Proofs.Branch
import Flowchart.Proofs.Closure
import Flowchart.Proofs.Copy
import Flowchart.Proofs.Climb
import Flowchart.Proofs.Owner
import Flowchart.Proofs.Compile
import Flowchart.Proofs.Group
import Flowchart.Proofs.Chain
import Flowchart.Proofs.Join
import Flowchart.Proofs.Schedule
import Flowchart.Proofs.Loaded
import Flowchart.Proofs.Entry
import Flowchart.Proofs.Connection
import Flowchart.Proofs.Reference
import Flowchart.Proofs.Reorder
import Flowchart.Proofs.Nesting
import Flowchart.Proofs.Repeated
import Flowchart.Proofs.Naming
import Flowchart.Proofs.Settings
import Flowchart.Proofs.Recompile
import Flowchart.Proofs.Verdict
import Flowchart.Proofs.Reload
import Flowchart.Proofs.Writable
import Flowchart.Proofs.Writing
import Flowchart.Proofs.Numeral
import Flowchart.Proofs.Scanning
import Flowchart.Proofs.Tokens
import Flowchart.Proofs.FlowTree
import Flowchart.Proofs.Reader
import Flowchart.Proofs.JsonExport
import Flowchart.Proofs.LastWritten
import Flowchart.Proofs.Listing
import Flowchart.Proofs.Unfolding
import Flowchart.Proofs.Direct
import Flowchart.Proofs.Ascent
import Flowchart.Proofs.FirstWay
import Flowchart.Proofs.Subtree
import Flowchart.Proofs.Following
import Flowchart.Proofs.Predecessor
import Flowchart.Proofs.EditorRecord
import Flowchart.Proofs.Identity
import Flowchart.Proofs.Recovery

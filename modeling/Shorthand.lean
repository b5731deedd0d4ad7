import Shorthand.Command.Arguments
import Shorthand.Command.Card
import Shorthand.Command.Check
import Shorthand.Command.Help
import Shorthand.Command.Invocation
import Shorthand.Command.Listing
import Shorthand.Command.Namespaces
import Shorthand.Command.Report
import Shorthand.Command.Run
import Shorthand.Command.Watch
import Shorthand.Config
import Shorthand.Config.Edit
import Shorthand.Config.Settings
import Shorthand.Error
import Shorthand.Error.Report
import Shorthand.Expansion
import Shorthand.FileTree
import Shorthand.Json
import Shorthand.Link
import Shorthand.Link.Occurrence
import Shorthand.Link.Render
import Shorthand.Main
import Shorthand.Namespace.Name
import Shorthand.Namespace.Placement
import Shorthand.Namespace.Table
import Shorthand.Options
import Shorthand.Path
import Shorthand.Path.Normal
import Shorthand.Path.Relative
import Shorthand.Placeholder
import Shorthand.Project
import Shorthand.Registry
import Shorthand.Resolution
import Shorthand.Resolve
import Shorthand.Scheme
import Shorthand.Text
import Shorthand.Text.Blank
import Shorthand.Text.Graphic
import Shorthand.Text.Quoted
import Shorthand.Toml.Assembly
import Shorthand.Toml.Document
import Shorthand.Toml.Fault
import Shorthand.Toml.Number
import Shorthand.Toml.Printer
import Shorthand.Toml.Reader
import Shorthand.Toml.Spelling
import Shorthand.Toml.Statement
import Shorthand.Toml.Strings
import Shorthand.Toml.Value
import Shorthand.Workspace
import Shorthand.Wrapper
import Shorthand.Proofs.Command.Removal
import Shorthand.Proofs.Command.Renaming
import Shorthand.Proofs.Link.Rendering
import Shorthand.Proofs.Link.Selection
import Shorthand.Proofs.Resolve.Canonical
import Shorthand.Proofs.Resolve.Modes
import Shorthand.Proofs.Resolve.Rooted
import Shorthand.Proofs.Command.Check
import Shorthand.Proofs.Command.Watch
import Shorthand.Proofs.Link.Rereading
import Shorthand.Proofs.FileTree.Following
import Shorthand.Proofs.Command.Scanning
import Shorthand.Proofs.Command.Frame
import Shorthand.Proofs.Command.Unconfigured
import Shorthand.Proofs.Path.Walk
import Shorthand.Proofs.Resolve.Plain
import Shorthand.Proofs.Resolve.Landing
import Shorthand.Proofs.Command.Adding
import Shorthand.Proofs.Resolve.Label
import Shorthand.Proofs.Namespace.History
import Shorthand.Proofs.Path.Below
import Shorthand.Proofs.Resolve.Stable
import Shorthand.Proofs.Command.Restoring
import Shorthand.Proofs.Config.Acceptance

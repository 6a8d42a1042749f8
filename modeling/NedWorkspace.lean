import NedWorkspace.Check.Diagnostic
import NedWorkspace.Check.File
import NedWorkspace.Check.Store
import NedWorkspace.Definition.Basic
import NedWorkspace.Definition.Builtin
import NedWorkspace.Definition.Index
import NedWorkspace.Definition.Table
import NedWorkspace.Import
import NedWorkspace.Map.Ordered
import NedWorkspace.Map.Sorted
import NedWorkspace.Name
import NedWorkspace.Path
import NedWorkspace.Pattern
import NedWorkspace.Project.Folders
import NedWorkspace.Project.Registry
import NedWorkspace.Proofs.Check.Conformance
import NedWorkspace.Proofs.Check.Duplicates
import NedWorkspace.Proofs.Check.Endpoint
import NedWorkspace.Proofs.Check.Nodes
import NedWorkspace.Proofs.Check.Published
import NedWorkspace.Proofs.Check.Store
import NedWorkspace.Proofs.Check.Twin
import NedWorkspace.Proofs.Check.Yields
import NedWorkspace.Proofs.Definition.Build
import NedWorkspace.Proofs.Definition.Builtin
import NedWorkspace.Proofs.Definition.Index
import NedWorkspace.Proofs.Definition.Paths
import NedWorkspace.Proofs.Definition.Registration
import NedWorkspace.Proofs.Definition.Table
import NedWorkspace.Proofs.Definition.Twin
import NedWorkspace.Proofs.Definition.Unplaced
import NedWorkspace.Proofs.Import
import NedWorkspace.Proofs.Map.Laws
import NedWorkspace.Proofs.Map.Order
import NedWorkspace.Proofs.Map.Related
import NedWorkspace.Proofs.Name
import NedWorkspace.Proofs.Path
import NedWorkspace.Proofs.Pattern
import NedWorkspace.Proofs.Project.Distinct
import NedWorkspace.Proofs.Project.Folders
import NedWorkspace.Proofs.Project.References
import NedWorkspace.Proofs.Project.Registry
import NedWorkspace.Proofs.Resolve.Declared
import NedWorkspace.Proofs.Resolve.Forgotten
import NedWorkspace.Proofs.Resolve.Inherited
import NedWorkspace.Proofs.Resolve.Inner
import NedWorkspace.Proofs.Resolve.Lineage
import NedWorkspace.Proofs.Resolve.Memory
import NedWorkspace.Proofs.Resolve.Simulation
import NedWorkspace.Proofs.Resolve.TopDown
import NedWorkspace.Proofs.Resolve.Topmost
import NedWorkspace.Proofs.Resolve.Twin
import NedWorkspace.Proofs.Resolve.Visible
import NedWorkspace.Proofs.Syntax.Abreast.Cursor
import NedWorkspace.Proofs.Syntax.Abreast.File
import NedWorkspace.Proofs.Syntax.Abreast.Link
import NedWorkspace.Proofs.Syntax.Abreast.Member
import NedWorkspace.Proofs.Syntax.Abreast.Step
import NedWorkspace.Proofs.Syntax.Abreast.Submodule
import NedWorkspace.Proofs.Syntax.Accept.Declaration
import NedWorkspace.Proofs.Syntax.Accept.File
import NedWorkspace.Proofs.Syntax.Accept.Link
import NedWorkspace.Proofs.Syntax.Accept.Member
import NedWorkspace.Proofs.Syntax.Accept.Stretch
import NedWorkspace.Proofs.Syntax.Arrows
import NedWorkspace.Proofs.Syntax.Behind
import NedWorkspace.Proofs.Syntax.Bracket
import NedWorkspace.Proofs.Syntax.Branch
import NedWorkspace.Proofs.Syntax.Contained.Declaration
import NedWorkspace.Proofs.Syntax.Contained.Link
import NedWorkspace.Proofs.Syntax.Contained.Member
import NedWorkspace.Proofs.Syntax.Contained.Moves
import NedWorkspace.Proofs.Syntax.Contained.Step
import NedWorkspace.Proofs.Syntax.Contained.Submodule
import NedWorkspace.Proofs.Syntax.Echo
import NedWorkspace.Proofs.Syntax.Grammar
import NedWorkspace.Proofs.Syntax.Innermost
import NedWorkspace.Proofs.Syntax.Kept
import NedWorkspace.Proofs.Syntax.Label
import NedWorkspace.Proofs.Syntax.Layout
import NedWorkspace.Proofs.Syntax.Loops
import NedWorkspace.Proofs.Syntax.MergeExact
import NedWorkspace.Proofs.Syntax.Nesting
import NedWorkspace.Proofs.Syntax.NodeIdentity
import NedWorkspace.Proofs.Syntax.Numbering
import NedWorkspace.Proofs.Syntax.Onward
import NedWorkspace.Proofs.Syntax.Progress
import NedWorkspace.Proofs.Syntax.Rounds
import NedWorkspace.Proofs.Syntax.Stamp
import NedWorkspace.Proofs.Syntax.Takes
import NedWorkspace.Proofs.Syntax.Twin
import NedWorkspace.Proofs.Syntax.TypeNames
import NedWorkspace.Proofs.Syntax.Values
import NedWorkspace.Proofs.Text.Lines
import NedWorkspace.Proofs.Text.Position
import NedWorkspace.Proofs.Text.Slice
import NedWorkspace.Proofs.Token.Boundary
import NedWorkspace.Proofs.Token.Classes
import NedWorkspace.Proofs.Token.Fit
import NedWorkspace.Proofs.Token.Longest
import NedWorkspace.Proofs.Token.Slices
import NedWorkspace.Proofs.Token.Spell
import NedWorkspace.Proofs.Workspace.Announced
import NedWorkspace.Proofs.Workspace.Batch
import NedWorkspace.Proofs.Workspace.Brackets
import NedWorkspace.Proofs.Workspace.BulkLoad
import NedWorkspace.Proofs.Workspace.Coherent
import NedWorkspace.Proofs.Workspace.Commands
import NedWorkspace.Proofs.Workspace.Conformance
import NedWorkspace.Proofs.Workspace.Delivery
import NedWorkspace.Proofs.Workspace.Duplicates
import NedWorkspace.Proofs.Workspace.Editors
import NedWorkspace.Proofs.Workspace.Endpoint
import NedWorkspace.Proofs.Workspace.Files
import NedWorkspace.Proofs.Workspace.Fresh
import NedWorkspace.Proofs.Workspace.Heard
import NedWorkspace.Proofs.Workspace.History
import NedWorkspace.Proofs.Workspace.Idempotent
import NedWorkspace.Proofs.Workspace.Identity
import NedWorkspace.Proofs.Workspace.Indexed
import NedWorkspace.Proofs.Workspace.Inherited
import NedWorkspace.Proofs.Workspace.Kept
import NedWorkspace.Proofs.Workspace.Live
import NedWorkspace.Proofs.Workspace.Lockstep
import NedWorkspace.Proofs.Workspace.Lookup
import NedWorkspace.Proofs.Workspace.Operations
import NedWorkspace.Proofs.Workspace.Pass
import NedWorkspace.Proofs.Workspace.Quiet
import NedWorkspace.Proofs.Workspace.Refused
import NedWorkspace.Proofs.Workspace.Repair
import NedWorkspace.Proofs.Workspace.Resync
import NedWorkspace.Proofs.Workspace.Run
import NedWorkspace.Proofs.Workspace.Sections
import NedWorkspace.Proofs.Workspace.Sources
import NedWorkspace.Proofs.Workspace.Step
import NedWorkspace.Proofs.Workspace.Store
import NedWorkspace.Proofs.Workspace.Tables
import NedWorkspace.Proofs.Workspace.Topmost
import NedWorkspace.Proofs.Workspace.Twin
import NedWorkspace.Proofs.Workspace.Unsaved
import NedWorkspace.Proofs.Workspace.Validation
import NedWorkspace.Proofs.Workspace.Visibility
import NedWorkspace.Resolve.Lookup
import NedWorkspace.Resolve.Members
import NedWorkspace.Syntax.Declaration
import NedWorkspace.Syntax.Link
import NedWorkspace.Syntax.Member
import NedWorkspace.Syntax.Merge
import NedWorkspace.Syntax.Parser
import NedWorkspace.Syntax.Stretch
import NedWorkspace.Syntax.Tree
import NedWorkspace.Text.Blank
import NedWorkspace.Text.Position
import NedWorkspace.Token.Basic
import NedWorkspace.Token.Scan
import NedWorkspace.Workspace.Disk
import NedWorkspace.Workspace.Engine
import NedWorkspace.Workspace.Error
import NedWorkspace.Workspace.Event
import NedWorkspace.Workspace.Request
import NedWorkspace.Workspace.Session
import NedWorkspace.Workspace.State
import NedWorkspace.Workspace.Store
import NedWorkspace.Workspace.Sync

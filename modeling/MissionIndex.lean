import MissionIndex.Documentation.Bundled
import MissionIndex.Documentation.Load
import MissionIndex.Main
import MissionIndex.Proofs.Config.Grammar
import MissionIndex.Proofs.Config.Meaning
import MissionIndex.Query.Answers
import MissionIndex.Session.Together
import MissionIndex.Proofs.Config.Objects
import MissionIndex.Proofs.Config.Refinement
import MissionIndex.Proofs.Config.Provenance
import MissionIndex.Proofs.Registry.Reports
import MissionIndex.Proofs.Session.Findings
import MissionIndex.Proofs.CommandLine.Checking
import MissionIndex.Proofs.Schedule.Ledger
import MissionIndex.Session.Interleaving
import MissionIndex.Proofs.Config.Locality
import MissionIndex.Proofs.Session.Jobs
import MissionIndex.Proofs.Session.Refresh
import MissionIndex.Proofs.Text.Utf8
import MissionIndex.Proofs.Uri
import MissionIndex.Proofs.Path.Normal
import MissionIndex.Proofs.Path.Glob
import MissionIndex.Proofs.Path.Exclusion
import MissionIndex.Proofs.Workspace.Discovery
import MissionIndex.Proofs.Session.Editing
import MissionIndex.Proofs.Config.Places
import MissionIndex.Proofs.Config.Splicing
import MissionIndex.Proofs.Config.Inclusion
import MissionIndex.Proofs.Config.Faults
import MissionIndex.Proofs.Registry.Declarations
import MissionIndex.Proofs.Session.Passing
import MissionIndex.Proofs.Session.History
import MissionIndex.Proofs.Schedule.Waiting
import MissionIndex.Proofs.Schedule.Accounts
import MissionIndex.Proofs.Schedule.Gates
import MissionIndex.Proofs.Schedule.Launching
import MissionIndex.Proofs.Schedule.Settling
import MissionIndex.Proofs.Session.Naming
import MissionIndex.Proofs.Schedule.Correspondence
import MissionIndex.Proofs.Config.Blame
import MissionIndex.Proofs.Session.Traffic
import MissionIndex.Proofs.Session.Shelf
import MissionIndex.Proofs.Session.Listing
import MissionIndex.Proofs.Session.Including
import MissionIndex.Proofs.Config.Layout
import MissionIndex.Proofs.Config.Anchors
import MissionIndex.Proofs.Text.Returns
import MissionIndex.Proofs.Config.Returns
import MissionIndex.Proofs.Config.Saving
import MissionIndex.Proofs.Config.Rendering
import MissionIndex.Proofs.Config.RoundTrip
import MissionIndex.Proofs.Session.Indexing
import MissionIndex.Proofs.Session.Answering
import MissionIndex.Proofs.Config.Rows
import MissionIndex.Proofs.Config.Surroundings
import MissionIndex.Proofs.Config.Reopening
import MissionIndex.Proofs.Config.Announcing
import MissionIndex.Config.Parser
import MissionIndex.Proofs.Config.Cuts
import MissionIndex.Proofs.Config.Likeness
import MissionIndex.Proofs.Config.Unstopped
import MissionIndex.Proofs.Config.Comments
import MissionIndex.Proofs.Config.Extents
import MissionIndex.Proofs.Config.Stack
import MissionIndex.Proofs.Config.Nesting
import MissionIndex.Proofs.Config.Reuse
import MissionIndex.Proofs.Registry.Inventory
import MissionIndex.Proofs.Workspace.Walk
import MissionIndex.Proofs.Workspace.Spelling
import MissionIndex.Proofs.Header.Lines
import MissionIndex.Proofs.Text.Words
import MissionIndex.Proofs.Header.Order
import MissionIndex.Proofs.Header.Entries
import MissionIndex.Proofs.Header.EntryLines
import MissionIndex.Proofs.Header.Defaults
import MissionIndex.Proofs.Text.Cutting
import MissionIndex.Proofs.Header.Comment
import MissionIndex.Text.Parts
import MissionIndex.Header.Attempt
import MissionIndex.Proofs.Text.Parts
import MissionIndex.Proofs.Running
import MissionIndex.Proofs.Header.Attempt
import MissionIndex.Proofs.Header.Account
import MissionIndex.Proofs.Header.Description
import MissionIndex.Proofs.Settings.Loading
import MissionIndex.Proofs.Session.Addresses
import MissionIndex.Proofs.Text.Lower
import MissionIndex.Proofs.Workspace.Watching
import MissionIndex.Proofs.Session.Watching
import MissionIndex.Proofs.Schedule.Agenda
import MissionIndex.Proofs.Schedule.Course
import MissionIndex.Proofs.Schedule.Closing
import MissionIndex.Proofs.Schedule.Apart

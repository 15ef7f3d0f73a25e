import ModuleLookup.Cache.Basic
import ModuleLookup.CommandLine.Arguments
import ModuleLookup.CommandLine.Run
import ModuleLookup.Context
import ModuleLookup.Decimal.Binary64
import ModuleLookup.Decimal.Shortest
import ModuleLookup.Digest.Blake3
import ModuleLookup.Digest.Parts
import ModuleLookup.Disk.Change
import ModuleLookup.Disk.Memory
import ModuleLookup.Disk.Node
import ModuleLookup.Disk.Program
import ModuleLookup.Disk.Query
import ModuleLookup.Disk.Tree
import ModuleLookup.Error
import ModuleLookup.Json.Bracket
import ModuleLookup.Json.Fault
import ModuleLookup.Json.Printer
import ModuleLookup.Json.Reader
import ModuleLookup.Json.Record
import ModuleLookup.Json.Scalar
import ModuleLookup.Json.Skip
import ModuleLookup.Json.Value
import ModuleLookup.Lookup.Attempt
import ModuleLookup.Lookup.Find
import ModuleLookup.Lookup.Manifest
import ModuleLookup.Lookup.SearchPath
import ModuleLookup.Lookup.Stages
import ModuleLookup.Main
import ModuleLookup.Path.Basic
import ModuleLookup.Path.Parent
import ModuleLookup.Project.Check
import ModuleLookup.Project.Root
import ModuleLookup.Project.SourceFiles
import ModuleLookup.Report.Listing
import ModuleLookup.Report.Lookup
import ModuleLookup.Report.Output
import ModuleLookup.Report.Project
import ModuleLookup.Settings.Basic
import ModuleLookup.Settings.Load
import ModuleLookup.Settings.RunOptions
import ModuleLookup.Source.Cursor
import ModuleLookup.Source.Lexeme
import ModuleLookup.Source.Reference
import ModuleLookup.Source.Token
import ModuleLookup.Specifier
import ModuleLookup.Table
import ModuleLookup.Text.Blank
import ModuleLookup.Text.ByteLength
import ModuleLookup.Text.Combining
import ModuleLookup.Text.Quoted
import ModuleLookup.Text.Unprintable
import ModuleLookup.Text.Utf8
import ModuleLookup.Trace
import ModuleLookup.Proofs.Lookup.Candidates
import ModuleLookup.Proofs.Lookup.AliasRoots
import ModuleLookup.Proofs.Lookup.BrokenManifest
import ModuleLookup.Proofs.Lookup.SearchPath
import ModuleLookup.Proofs.Lookup.Spelling
import ModuleLookup.Proofs.Lookup.Tracing
import ModuleLookup.Proofs.Lookup.Record
import ModuleLookup.Proofs.Digest.Fingerprint
import ModuleLookup.Proofs.Cache.Transparency
import ModuleLookup.Proofs.Cache.History
import ModuleLookup.Proofs.Cache.Index
import ModuleLookup.Proofs.Path.Normal
import ModuleLookup.Proofs.Path.Split
import ModuleLookup.Proofs.Path.Lead
import ModuleLookup.Proofs.Path.Canonical
import ModuleLookup.Proofs.Path.Ancestors
import ModuleLookup.Proofs.Path.Order
import ModuleLookup.Proofs.Project.Check
import ModuleLookup.Proofs.Project.Errors
import ModuleLookup.Proofs.Project.Root
import ModuleLookup.Proofs.Project.SourceFiles
import ModuleLookup.Proofs.Source.Clause
import ModuleLookup.Proofs.Source.RequireCall
import ModuleLookup.Proofs.Source.Origin
import ModuleLookup.Proofs.Source.Rendering
import ModuleLookup.Proofs.Lookup.Dependence
import ModuleLookup.Proofs.Lookup.AddedFile
import ModuleLookup.Proofs.Json.Printing
import ModuleLookup.Proofs.Json.Reading
import ModuleLookup.Proofs.Settings.Given
import ModuleLookup.Proofs.Settings.Layering
import ModuleLookup.Proofs.Settings.Printed
import ModuleLookup.Proofs.Disk.Dialogue
import ModuleLookup.Proofs.Disk.Place
import ModuleLookup.Proofs.Report.Agreement
import ModuleLookup.Proofs.Source.Separation
import ModuleLookup.Proofs.Source.Span
import ModuleLookup.Proofs.Cursor.Scan
import ModuleLookup.Proofs.Cursor.Progress
import ModuleLookup.Proofs.Lookup.AliasOrder
import ModuleLookup.Proofs.Lookup.FixedPoint
import ModuleLookup.Proofs.Lookup.InPlace
import ModuleLookup.Proofs.Path.EndName

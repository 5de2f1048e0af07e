import NetRanges.Address.Basic
import NetRanges.Address.Bits
import NetRanges.Address.Bytewise
import NetRanges.Address.Text
import NetRanges.Block
import NetRanges.Cli.Args
import NetRanges.Cli.Run
import NetRanges.Coarsen
import NetRanges.Decimal.Shortest
import NetRanges.Describe
import NetRanges.Entry
import NetRanges.Export
import NetRanges.Family
import NetRanges.Fault
import NetRanges.Json.Codec
import NetRanges.Json.Decode
import NetRanges.Json.Read
import NetRanges.Json.Value
import NetRanges.Main
import NetRanges.ParseError
import NetRanges.Policy
import NetRanges.Private
import NetRanges.Proofs.Alignment
import NetRanges.Range
import NetRanges.Range.Cover
import NetRanges.Range.Difference
import NetRanges.Range.Union
import NetRanges.Settings
import NetRanges.Text.Blank
import NetRanges.Text.Cut
import NetRanges.Text.Printable
import NetRanges.Text.Quoted
import NetRanges.Text.Unsigned
import NetRanges.Trace
import NetRanges.Proofs.Cover
import NetRanges.Proofs.Difference
import NetRanges.Proofs.Canonical
import NetRanges.Proofs.Nesting
import NetRanges.Proofs.CheckedPolicy
import NetRanges.Proofs.Coarsen
import NetRanges.Proofs.Export
import NetRanges.Proofs.Retained
import NetRanges.Proofs.Reorder
import NetRanges.Proofs.Merge
import NetRanges.Proofs.AddressText
import NetRanges.Proofs.JsonString
import NetRanges.Proofs.TextForms
import NetRanges.Proofs.Grouping
import NetRanges.Proofs.MergeOutput
import NetRanges.Proofs.CoverLength
import NetRanges.Proofs.Simplest
import NetRanges.Proofs.BlockLaws
import NetRanges.Proofs.StoredForm
import NetRanges.Proofs.StepText
import NetRanges.Proofs.CoverStep
import NetRanges.Proofs.Sweep
import NetRanges.Proofs.Bytewise
import NetRanges.Proofs.ByteScans
import NetRanges.Address.Stored

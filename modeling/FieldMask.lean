import FieldMask.Command.Arguments
import FieldMask.Command.Basic
import FieldMask.Command.Run
import FieldMask.Declaration.Field
import FieldMask.Declaration.Model
import FieldMask.Document
import FieldMask.Files.Path
import FieldMask.Files.Tree
import FieldMask.Files.View
import FieldMask.Json
import FieldMask.Json.Equality
import FieldMask.Json.Printer
import FieldMask.Json.Reader
import FieldMask.Json.Record
import FieldMask.Json.Size
import FieldMask.Json.Syntax
import FieldMask.Keyed
import FieldMask.Lint
import FieldMask.Lint.Report
import FieldMask.Main
import FieldMask.Marshal
import FieldMask.Marshal.Coercion
import FieldMask.Marshal.Path
import FieldMask.Mask
import FieldMask.Mask.Error
import FieldMask.Mask.Header
import FieldMask.Mask.Parser
import FieldMask.Mask.Selection
import FieldMask.Mask.Token
import FieldMask.Model.Ancestry
import FieldMask.Model.Error
import FieldMask.Model.Field
import FieldMask.Model.Flat
import FieldMask.Model.Masked
import FieldMask.Model.Registry
import FieldMask.NameMap
import FieldMask.Number
import FieldMask.Number.Binary64
import FieldMask.Number.Shortest
import FieldMask.Pointer
import FieldMask.Schema.Basic
import FieldMask.Schema.Definition
import FieldMask.Schema.External
import FieldMask.Schema.Reference
import FieldMask.Schema.Rule
import FieldMask.Schema.Type
import FieldMask.Schema.Validation
import FieldMask.Schema.Violation
import FieldMask.Schema.Wellformed
import FieldMask.Text.Blank
import FieldMask.Text.Bytes
import FieldMask.Text.CharRanges
import FieldMask.Text.Digits
import FieldMask.Text.Escaped
import FieldMask.Text.Split
import FieldMask.Text.Word
import FieldMask.Uri
import FieldMask.Uri.Ipv6
import FieldMask.Uri.Octet
import FieldMask.Uri.Reader
import FieldMask.Uri.Resolution
import FieldMask.Proofs.Mask.Grammar
import FieldMask.Proofs.Mask.Reading
import FieldMask.Proofs.Mask.Canonical
import FieldMask.Proofs.Keyed
import FieldMask.Proofs.Model.Flat
import FieldMask.Proofs.Model.Masked
import FieldMask.Proofs.Model.Sound
import FieldMask.Proofs.Declaration.Sound
import FieldMask.Proofs.Marshal.Steps
import FieldMask.Proofs.Marshal.Errors
import FieldMask.Proofs.Loaded
import FieldMask.Proofs.Mask.Selection
import FieldMask.Proofs.Marshal.Masking
import FieldMask.Proofs.Mask.Again
import FieldMask.Proofs.Mask.Paths
import FieldMask.Proofs.Model.Calls
import FieldMask.Proofs.Lint.Loading
import FieldMask.Proofs.Schema.Meaning
import FieldMask.Proofs.Schema.Reading
import FieldMask.Proofs.Schema.Reference
import FieldMask.Proofs.Schema.Checking
import FieldMask.Proofs.Model.Lineage
import FieldMask.Proofs.Schema.Compiled
import FieldMask.Proofs.Schema.Grounding
import FieldMask.Proofs.Model.Conformance
import FieldMask.Proofs.Schema.Conformance
import FieldMask.Proofs.Schema.Wellformed
import FieldMask.Proofs.Schema.Flattening
import FieldMask.Proofs.Schema.Strictness
import FieldMask.Proofs.Mask.Bounded
import FieldMask.Proofs.Marshal.Bounded
import FieldMask.Proofs.Model.Extension
import FieldMask.Proofs.Extension
import FieldMask.Proofs.Declaration.Order
import FieldMask.Proofs.Model.Ancestors
import FieldMask.Proofs.Model.Merging
import FieldMask.Proofs.Declaration.Registered
import FieldMask.Proofs.Declaration.Valid
import FieldMask.Proofs.Schema.Fragment
import FieldMask.Proofs.Schema.Positions
import FieldMask.Proofs.Model.Chains
import FieldMask.Proofs.Model.Composition
import FieldMask.Proofs.Model.Cloning
import FieldMask.Proofs.Mask.Wider
import FieldMask.Proofs.Mask.Reordered
import FieldMask.Proofs.Pointer
import FieldMask.Proofs.Faults
import FieldMask.Proofs.Mask.Clashes
import FieldMask.Proofs.Model.Clashes
import FieldMask.Proofs.Mask.Framing
import FieldMask.Proofs.Mask.Layout
import FieldMask.Proofs.Mask.Offsets
import FieldMask.Proofs.Model.Picking
import FieldMask.Proofs.Schema.Tidy
import FieldMask.Proofs.Schema.Masked
import FieldMask.Proofs.Model.Again
import FieldMask.Proofs.Marshal.Places
import FieldMask.Proofs.Declaration.Places
import FieldMask.Proofs.Json.Roundtrip
import FieldMask.Proofs.Lint.Places
import FieldMask.Proofs.Text.Blank
import FieldMask.Proofs.Marshal.Coercion
import FieldMask.Proofs.Marshal.Tasks
import FieldMask.Proofs.Marshal.Types
import FieldMask.Proofs.Marshal.Pruning
import FieldMask.Proofs.Model.Narrowed
import FieldMask.Proofs.Model.Steady
import FieldMask.Proofs.Marshal.Again
import FieldMask.Proofs.Pointer.Decoding
import FieldMask.Proofs.Mask.Indices
import FieldMask.Proofs.Descent
import FieldMask.Proofs.Command.Arguments
import FieldMask.Proofs.Command.Reports

import WireCodec.Bytes
import WireCodec.Codec.Decode
import WireCodec.Codec.Encode
import WireCodec.Codec.EncodeError
import WireCodec.Codec.JsonError
import WireCodec.Codec.OfJson
import WireCodec.Codec.ToJson
import WireCodec.Command.Arguments
import WireCodec.Command.Directory
import WireCodec.Command.Environment
import WireCodec.Command.Inspect
import WireCodec.Command.Place
import WireCodec.Command.Run
import WireCodec.Floating.Format
import WireCodec.Floating.NonFinite
import WireCodec.Floating.Rounding
import WireCodec.Floating.Shortest
import WireCodec.Json.Basic
import WireCodec.Json.NumberReader
import WireCodec.Json.NumberText
import WireCodec.Json.Printer
import WireCodec.Json.Reader
import WireCodec.Json.StringReader
import WireCodec.Main
import WireCodec.Plan.Basic
import WireCodec.Plan.Build
import WireCodec.Program.Build
import WireCodec.Program.Meaning
import WireCodec.Program.Runtime
import WireCodec.Program.Syntax
import WireCodec.Program.Typed
import WireCodec.Proofs.Codec.Assignments
import WireCodec.Proofs.Codec.Changes
import WireCodec.Proofs.Codec.Concatenation
import WireCodec.Proofs.Codec.Decoded
import WireCodec.Proofs.Codec.Determined
import WireCodec.Proofs.Codec.Encodable
import WireCodec.Proofs.Codec.EndOfMessage
import WireCodec.Proofs.Codec.EnumNumbers
import WireCodec.Proofs.Codec.FieldOrder
import WireCodec.Proofs.Codec.FieldTrees
import WireCodec.Proofs.Codec.Fits
import WireCodec.Proofs.Codec.InPlace
import WireCodec.Proofs.Codec.Injective
import WireCodec.Proofs.Codec.Interchange
import WireCodec.Proofs.Codec.Levels
import WireCodec.Proofs.Codec.MapFields
import WireCodec.Proofs.Codec.MatchedArms
import WireCodec.Proofs.Codec.Merge
import WireCodec.Proofs.Codec.MessageTree
import WireCodec.Proofs.Codec.Normal
import WireCodec.Proofs.Codec.Occurrences
import WireCodec.Proofs.Codec.Progress
import WireCodec.Proofs.Codec.ReadBack
import WireCodec.Proofs.Codec.Reencode
import WireCodec.Proofs.Codec.Reference
import WireCodec.Proofs.Codec.References
import WireCodec.Proofs.Codec.RequiredFields
import WireCodec.Proofs.Codec.RoundTrip
import WireCodec.Proofs.Codec.ScalarWriters
import WireCodec.Proofs.Codec.Sequences
import WireCodec.Proofs.Codec.SpelledChanges
import WireCodec.Proofs.Codec.SpelledDecode
import WireCodec.Proofs.Codec.SpelledEncode
import WireCodec.Proofs.Codec.SpelledValues
import WireCodec.Proofs.Codec.Truncation
import WireCodec.Proofs.Codec.UndeclaredEnums
import WireCodec.Proofs.Codec.UnknownFields
import WireCodec.Proofs.Codec.WritesTree
import WireCodec.Proofs.Floating.Exact
import WireCodec.Proofs.Floating.Overflow
import WireCodec.Proofs.Floating.Reread
import WireCodec.Proofs.Floating.Rounding
import WireCodec.Proofs.Floating.Shortest
import WireCodec.Proofs.Floating.Singles
import WireCodec.Proofs.Json.Encoding
import WireCodec.Proofs.Json.FloatFields
import WireCodec.Proofs.Json.Floats
import WireCodec.Proofs.Json.MapEntries
import WireCodec.Proofs.Json.Numbers
import WireCodec.Proofs.Json.Printed
import WireCodec.Proofs.Json.PrintedMessages
import WireCodec.Proofs.Json.RoundTrip
import WireCodec.Proofs.Json.Strings
import WireCodec.Proofs.Json.Texts
import WireCodec.Proofs.Lists
import WireCodec.Proofs.Outcome
import WireCodec.Proofs.Plan.Closed
import WireCodec.Proofs.Plan.Coherent
import WireCodec.Proofs.Plan.Dispatch
import WireCodec.Proofs.Plan.EntryNames
import WireCodec.Proofs.Plan.Layout
import WireCodec.Proofs.Plan.SpelledBuild
import WireCodec.Proofs.Plan.SpelledOut
import WireCodec.Proofs.Plan.SpelledSchema
import WireCodec.Proofs.Program.Decode
import WireCodec.Proofs.Program.Encode
import WireCodec.Proofs.Program.Text
import WireCodec.Proofs.Program.Typed
import WireCodec.Proofs.Program.Values
import WireCodec.Proofs.Render.Declarations
import WireCodec.Proofs.Render.GeneratedNames
import WireCodec.Proofs.Render.Identifiers
import WireCodec.Proofs.Render.Variants
import WireCodec.Proofs.Schema.Bare
import WireCodec.Proofs.Schema.Grammar
import WireCodec.Proofs.Schema.Lexical
import WireCodec.Proofs.Schema.Names
import WireCodec.Proofs.Schema.Padding
import WireCodec.Proofs.Schema.Parsing
import WireCodec.Proofs.Schema.SourceText
import WireCodec.Proofs.Schema.Spans
import WireCodec.Proofs.Schema.TokenSpans
import WireCodec.Proofs.Schema.Valid
import WireCodec.Proofs.Shapes.Agreement
import WireCodec.Proofs.Shapes.Plans
import WireCodec.Proofs.Shapes.Values
import WireCodec.Proofs.Text.Base64
import WireCodec.Proofs.Text.Decimal
import WireCodec.Proofs.Value.Constituents
import WireCodec.Proofs.Value.Nesting
import WireCodec.Proofs.Value.Sorted
import WireCodec.Proofs.Wire.BufferHistory
import WireCodec.Proofs.Wire.BufferLog
import WireCodec.Proofs.Wire.Charges
import WireCodec.Proofs.Wire.Complete
import WireCodec.Proofs.Wire.Delimiting
import WireCodec.Proofs.Wire.Descent
import WireCodec.Proofs.Wire.Discipline
import WireCodec.Proofs.Wire.Fails
import WireCodec.Proofs.Wire.Local
import WireCodec.Proofs.Wire.Parses
import WireCodec.Proofs.Wire.Programs
import WireCodec.Proofs.Wire.Related
import WireCodec.Proofs.Wire.ScalarForm
import WireCodec.Proofs.Wire.ShortestVarint
import WireCodec.Proofs.Wire.Tree
import WireCodec.Proofs.Wire.Truncation
import WireCodec.Proofs.Wire.Uniform
import WireCodec.Proofs.Wire.VarintReaders
import WireCodec.Proofs.Wire.VarintValue
import WireCodec.Proofs.Wire.Whole
import WireCodec.Proofs.Wire.Yields
import WireCodec.Proofs.Wire.ZigzagWords
import WireCodec.Render.Code
import WireCodec.Render.Enum
import WireCodec.Render.Identifier
import WireCodec.Render.Message
import WireCodec.Render.Source
import WireCodec.Render.TypeText
import WireCodec.Schema.Basic
import WireCodec.Schema.Compile
import WireCodec.Schema.Diagnostic
import WireCodec.Schema.EntryName
import WireCodec.Schema.EnumTable
import WireCodec.Schema.Lexer
import WireCodec.Schema.Parser
import WireCodec.Schema.Plain
import WireCodec.Schema.Token
import WireCodec.Schema.ValueType
import WireCodec.Shapes.Basic
import WireCodec.Shapes.Decode
import WireCodec.Shapes.Encode
import WireCodec.Shapes.Plans
import WireCodec.Text.Base64
import WireCodec.Text.Characters
import WireCodec.Text.Decimal
import WireCodec.Text.Hex
import WireCodec.Value.Basic
import WireCodec.Value.Sorted
import WireCodec.Wire.Buffer
import WireCodec.Wire.BufferPool
import WireCodec.Wire.Cursor
import WireCodec.Wire.Cursor.Packable
import WireCodec.Wire.Cursor.Progress
import WireCodec.Wire.DecodeError
import WireCodec.Wire.ReadOp
import WireCodec.Wire.ScalarType
import WireCodec.Wire.WireType

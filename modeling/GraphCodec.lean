import GraphCodec.Codec.Decode
import GraphCodec.Codec.Encode
import GraphCodec.Example.Kennel
import GraphCodec.Main
import GraphCodec.Proofs.Json.Numbers
import GraphCodec.Proofs.Json.StringScan
import GraphCodec.Proofs.Json.RoundTrip
import GraphCodec.Proofs.Binary.Rounding
import GraphCodec.Proofs.Json.NumberRange
import GraphCodec.Proofs.Codec.Encoding
import GraphCodec.Proofs.Codec.Text
import GraphCodec.Proofs.Generation.Reach
import GraphCodec.Proofs.Generation.Walk
import GraphCodec.Proofs.Generation.Planning
import GraphCodec.Proofs.Schema.Load
import GraphCodec.Proofs.Generation.Generate
import GraphCodec.Proofs.Codec.Closed
import GraphCodec.Proofs.Codec.Linking
import GraphCodec.Proofs.Generation.Closure
import GraphCodec.Proofs.Codec.Leaves
import GraphCodec.Proofs.Codec.ReadBack
import GraphCodec.Proofs.Types.Lineage
import GraphCodec.Proofs.Codec.Objects
import GraphCodec.Proofs.Generation.Inheritance
import GraphCodec.Proofs.Generation.RoundTrip
import GraphCodec.Example.Overlap
import GraphCodec.Proofs.Codec.Decoded
import GraphCodec.Proofs.Generation.Stability
import GraphCodec.Proofs.Generation.Members
import GraphCodec.Proofs.Types.Renaming
import GraphCodec.Proofs.Generation.Renaming
import GraphCodec.Proofs.Types.Terms
import GraphCodec.Proofs.Types.Transfer
import GraphCodec.Proofs.Schema.Meaning
import GraphCodec.Proofs.Schema.Linking
import GraphCodec.Proofs.Schema.Declaring
import GraphCodec.Proofs.Schema.Loading
import GraphCodec.Example.Stock
import GraphCodec.Proofs.Schema.Reordering
import GraphCodec.Example.Network
import GraphCodec.Proofs.Text.Quoted
import GraphCodec.Proofs.Types.Descent
import GraphCodec.Proofs.Generation.Identity
import GraphCodec.Proofs.Emission.Subtypes
import GraphCodec.Proofs.Generation.Dispatch
import GraphCodec.Proofs.Generation.Ancestry
import GraphCodec.Proofs.Generation.Order
import GraphCodec.Proofs.Generation.Identities
import GraphCodec.Proofs.Types.Builder
import GraphCodec.Proofs.Generation.Visits
import GraphCodec.Proofs.Generation.Reports
import GraphCodec.Proofs.Generation.Returns
import GraphCodec.Proofs.Codec.ParsedKeys
import GraphCodec.Proofs.Emission.Slots
import GraphCodec.Proofs.Emission.Lines
import GraphCodec.Proofs.Types.Spelling
import GraphCodec.Proofs.Types.Named
import GraphCodec.Proofs.Types.Names
import GraphCodec.Proofs.Binary.Precision
import GraphCodec.Proofs.Json.NumberPrecision
import GraphCodec.Proofs.Json.ScannedNumber
import GraphCodec.Proofs.Scalar.Integers
import GraphCodec.Proofs.Binary.Overflow
import GraphCodec.Proofs.Scalar.Finiteness
import GraphCodec.Proofs.Calendar.Civil
import GraphCodec.Proofs.Calendar.Padded
import GraphCodec.Proofs.Calendar.Timestamps
import GraphCodec.Proofs.Calendar.Instants
import GraphCodec.Proofs.Codec.Dates
import GraphCodec.Proofs.Types.Grammar
import GraphCodec.Proofs.Json.Nesting
import GraphCodec.Proofs.Json.Pretty
import GraphCodec.Proofs.Json.Lossless
import GraphCodec.Proofs.Json.Reading
import GraphCodec.Proofs.Codec.Written
import GraphCodec.Proofs.Calendar.Fractions
import GraphCodec.Proofs.Calendar.TimestampTexts
import GraphCodec.Proofs.Emission.Handles
import GraphCodec.Proofs.Codec.Lookups
import GraphCodec.Proofs.Codec.PairedMaps
import GraphCodec.Proofs.Codec.PassThrough
import GraphCodec.Proofs.Codec.Relinking
import GraphCodec.Proofs.Diagnostic.Queue
import GraphCodec.Proofs.Diagnostic.Summary
import GraphCodec.Proofs.Generation.RegistryCalls
import GraphCodec.Proofs.Generation.IndexedRegistry
import GraphCodec.Proofs.Generation.Batches
import GraphCodec.Proofs.Diagnostic.Books
import GraphCodec.Proofs.Codec.Refilling

import SchemaJson.Config.Text
import SchemaJson.Dump
import SchemaJson.Proofs.BindingSoundness
import SchemaJson.Proofs.CapturedValues
import SchemaJson.Proofs.CompactText
import SchemaJson.Proofs.CursorBounds
import SchemaJson.Proofs.DecodedLevels
import SchemaJson.Proofs.DecodedRoundTrip
import SchemaJson.Proofs.DecodedShapes
import SchemaJson.Proofs.DecodingInvariants
import SchemaJson.Proofs.DepthLimit
import SchemaJson.Proofs.ElementOrder
import SchemaJson.Proofs.EncodeFailures
import SchemaJson.Proofs.EncodedLevels
import SchemaJson.Proofs.ErrorPlaces
import SchemaJson.Proofs.FixedSequences
import SchemaJson.Proofs.FoundSpans
import SchemaJson.Proofs.IntegerTexts
import SchemaJson.Proofs.MemberPresence
import SchemaJson.Proofs.NestedBinding
import SchemaJson.Proofs.NestedSpans
import SchemaJson.Proofs.NestingChains
import SchemaJson.Proofs.ObjectGrammar
import SchemaJson.Proofs.PairedDecoding
import SchemaJson.Proofs.PrettyLayout
import SchemaJson.Proofs.QuoteParity
import SchemaJson.Proofs.RepeatedNames
import SchemaJson.Proofs.RewrittenObjects
import SchemaJson.Proofs.RootArrays
import SchemaJson.Proofs.RoundTrip
import SchemaJson.Proofs.ScanFailures
import SchemaJson.Proofs.ShiftedTexts
import SchemaJson.Proofs.SignedPrefixes
import SchemaJson.Proofs.SlicedSpans
import SchemaJson.Proofs.StableStrings
import SchemaJson.Proofs.StreamedObjects
import SchemaJson.Proofs.StringLiterals
import SchemaJson.Proofs.WrittenDates
import SchemaJson.Proofs.WrittenLevels
import SchemaJson.Schema.Registry

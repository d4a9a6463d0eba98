import Dockerfile.Document.Span
import Dockerfile.Json.Value

/-!
# Locations in JSON
-/

namespace Dockerfile

namespace Json

def ofPosition (p : Position) : Json :=
  .object [(utf8 "line", ofNat p.line.toNat), (utf8 "character", ofNat p.character.toNat)]

def ofRange (range : Range) : Json :=
  .object [(utf8 "start", ofPosition range.start), (utf8 "end", ofPosition range.stop)]

def ofLocation (location : Location) : Json :=
  .object [(utf8 "uri", .string location.uri), (utf8 "range", ofRange location.range)]

end Json

end Dockerfile

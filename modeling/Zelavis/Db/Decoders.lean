import Zelavis.Db.Collections
import Zelavis.Db.Validation

/-!
# What is written of a document
-/

namespace Zelavis.Db

open Lib

/-- What writing text and reading it back takes from the platform. -/
structure Platform where
  /-- Whether a string is one that `Date.parse` reads. -/
  isDate : Utf16 → Bool
  digits : JsNumber → Utf16

/-- The fields of a document, as `stageWrite` builds it; none is stored of what only an answer has.
Source: `Document`. -/
def Document.fields (d : Document) : List (Utf16 × Option Json) :=
  [(utf16 "id", some (.string d.id)),
    (utf16 "collection", some (.string d.collection)),
    (utf16 "data", some (.object d.data)),
    (utf16 "createdAt", some (.string d.createdAt)),
    (utf16 "updatedAt", some (.string d.updatedAt)),
    (utf16 "version", some (.scalar (.number (.ofNat d.version)))),
    (utf16 "expiresAt", d.expiresAt.map Json.string),
    (utf16 "score", none),
    (utf16 "distance", none),
    (utf16 "highlights", none)]

def Document.json (d : Document) : Json := .object (objectOf d.fields)

end Zelavis.Db

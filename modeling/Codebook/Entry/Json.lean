import Codebook.Entry.Basic
import Codebook.Json

namespace Codebook.Entry

def toJson (e : Entry) : Json :=
  .object [("enum_id", .number e.number.toNat), ("type", .text e.category.text),
    ("title", .text e.title), ("id", .number e.id.toNat)]

def arrayJson (entries : List Entry) : Json :=
  .array (entries.map toJson)

end Codebook.Entry

import PolarCloud.Base.SyncMap
import PolarCloud.Model.Utils

/-! # The key-value database

Records are written as JSON text, except for the hash of the first block, which is stored as it
is. A byte string that the program did not encode is read by the linked decoder.
-/

namespace PolarCloud

inductive Value where
  /-- the text of a tree -/
  | text (value : Json)
  /-- any other byte string -/
  | raw (bytes : Bytes)

namespace Value

def bytes : Value → Bytes
  | text value => value.bytes
  | raw bytes => bytes

def json? (rt : Runtime) : Value → Option Json
  | text value => some value
  | raw bytes => rt.unmarshal bytes

@[simp] theorem json?_text (rt : Runtime) (value : Json) : (text value).json? rt = some value := rfl

end Value

abbrev Db := SyncMap Bytes Value

namespace Db

abbrev find (db : Db) (id : Bytes) : Option Value := db.load id

abbrev save (db : Db) (id : Bytes) (value : Value) : Db := db.store id value

theorem find_save (db : Db) (id other : Bytes) (value : Value) :
    (db.save id value).find other = if other = id then some value else db.find other := rfl

@[simp] theorem find_save_self (db : Db) (id : Bytes) (value : Value) : (db.save id value).find id = some value :=
  if_pos rfl

theorem find_save_ne (db : Db) {id other : Bytes} (value : Value) (ne : other ≠ id) :
    (db.save id value).find other = db.find other := if_neg ne

end Db

end PolarCloud

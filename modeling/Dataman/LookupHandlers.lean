import Dataman.ServerCalls

/-!
# The keys of lookup requests

The text that `get` sends with a record names the cursor, the key, the file and the record pointer; `get_next`,
`get_prior` and `get_current` read them back.
-/

namespace Dataman.Server
open ByteFiles DataFile FieldText FixedWidthFields
open IndexFile (Cursor)

/-- The key with its file number and its record pointer. -/
def systemKey (keylen : ℤ) (key : Bytes) (fileno record : ℤ) : Bytes :=
  (key.take keylen.toNat++List.replicate (keylen.toNat - key.length) 0) ++
    UInt8.ofNat ((fileno+1) % 256).toNat::putLl record

/-- The key, the file and the record of a system key. -/
def systemEntry (slot : Slot) (key : Bytes) : Option (Bytes × ℕ × ℕ) :=
  let file := ((key.drop slot.keylen.toNat).headD 0).toNat
  if file = 0 ∨ slot.fCnt ≤ file - 1 then none
  else some (key.take slot.keylen.toNat,file - 1,getBE (slice key (slot.keylen.toNat+1) 8))

/-- The cursor in front of a key, and the key. -/
def cursorFields (text : Text) : Option (Cursor × Text) := do
  let generation ← nextField text
  let node ← nextField generation
  let entry ← nextField node
  let key ← nextField entry
  return (⟨strtoull generation,strtoull node,strtoull entry % 2 ^ 8⟩,key)

end Dataman.Server

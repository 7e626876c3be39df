import Dataman.BlobNames
import Dataman.ServerCalls

/-!
# Record images with blobs (`transaction_wire.c`, `flush.c`, `put_blobs.c`, `get_blobs.c`)

The image of a record is its bytes and then, for every blob field, a length of four bytes and the
contents. A negative length stands for a blob that is not given. `validate_flush` checks an image,
`flush` takes it apart, and `get_blobs` puts it together.
-/

namespace Dataman.Blobs
open ByteFiles Directories FixedWidthFields
open Server (eNoAlloc eNoBlob eRecWrt)

/-- A record format: the length of its bytes, and the sizes of its fields, with 0 for a blob. -/
structure RFDesc where
  rfLen : ℕ
  fieldSizes : List ℤ
  rfLen_lt : rfLen < 2 ^ 15
deriving DecidableEq,Repr

/-- The number of blob fields, as it is counted when the description is read. -/
def RFDesc.hasBlob (desc : RFDesc) : ℕ := desc.fieldSizes.count 0

/-- The conversion to `int`. -/
def int32 (n : ℤ) : ℤ := n.bmod (2 ^ 32)

def getLong (bytes : Bytes) : ℤ := int32 (getBE bytes)
def putLong (n : ℕ) : Bytes := putBE 4 n

def intMax : ℕ := 2 ^ 31 - 1
def int64Max : ℕ := 2 ^ 63 - 1

inductive Fault
  /-- The function returns an error. -/
  | code (c : ℤ)
  /-- An access outside of a buffer or an array. -/
  | outside
deriving DecidableEq,Repr

/-! ## `validate_flush` -/

/-- One blob field: the place behind it, and the blobs so far. -/
def validateField (image : Bytes) (at' : ℕ × ℕ) : Option (ℕ × ℕ) := do
  guard (¬ image.length - at'.1 < 4)
  let size := getLong (slice image at'.1 4)
  if 0 ≤ size then
    guard (¬ size.toNat > image.length - (at'.1+4))
    return (at'.1+4+size.toNat,at'.2+1)
  else return (at'.1+4,at'.2+1)

def validateFields (image : Bytes) : List ℤ → ℕ × ℕ → Option (ℕ × ℕ)
  | [],at' => some at'
  | size::sizes,at' =>
    if size≠0 then validateFields image sizes at'
    else do
      let at' ← validateField image at'
      validateFields image sizes at'

def validateImage (desc : RFDesc) (image : Bytes) : Bool :=
  if desc.rfLen > image.length then false
  else
    match validateFields image desc.fieldSizes (desc.rfLen,0) with
    | none => false
    | some at' => at'.2 = desc.hasBlob && at'.1 = image.length

/-! ## The walk over the blob fields -/

section Walk

variable {μ : Type → Type} [Monad μ] {α : Type}

/-- `for (i = 0, j = 0; i < has_blob; j++) if (field_sizes[j] == 0) i++, body`, with the blobs that are
left and the number of the next field. -/
def walkFields (outside : μ α) (body : ℕ → α → μ α) : ℕ → List ℤ → ℕ → α → μ α
  | 0,_,_,a => pure a
  | _+1,[],_,_ => outside
  | left+1,size::sizes,j,a =>
    if size = 0 then do
      let a ← body j a
      walkFields outside body left sizes (j+1) a
    else walkFields outside body (left+1) sizes (j+1) a

end Walk

/-! ## `put_blobs` and `flush` -/

/-- What the calls of `flush` give, and the lengths of the names it works with. -/
structure FlushCalls where
  fname : ℕ
  pathName : ℕ
  strdup : Bool
  /-- The file that a failed record write leaves. -/
  record : Option Bytes
  /-- For each field the code of a failed blob write and the blob it leaves. -/
  blob : ℕ → Option (ℤ × Option Bytes)

/-- The bytes of the image that are read. -/
def fetch (image : Bytes) (offs : ℤ) (n : ℕ) : FailState (Dir Text Bytes) Fault Bytes :=
  .ofOption (if 0 ≤ offs then readAt image offs.toNat n else none) .outside

/-- One blob of the image; the result is `offs`. -/
def putBlob (calls : FlushCalls) (o : Owner) (image : Bytes) (j : ℕ) (offs : ℤ) : FailState (Dir Text Bytes) Fault ℤ := do
  let head ← fetch image offs 4
  let len := getLong head
  let offs := int32 (offs+4)
  if 0 ≤ len then
    .ensure (decide (calls.pathName+7+(blobName o j).length < 512)) (.code eNoBlob)
    let data ← fetch image offs len.toNat
    match calls.blob j with
    | some (code,left) => do
      .modify fun dir => Function.update dir (blobName o j) left
      .fail (.code code)
    | none => .modify fun dir => put dir (blobName o j) data
    return int32 (offs+len)
  else return offs

/-- `put_blobs`; the result is `offs` at its end. -/
def putBlobs (calls : FlushCalls) (desc : RFDesc) (o : Owner) (image : Bytes) : FailState (Dir Text Bytes) Fault ℤ := do
  .ensure (decide (calls.fname < 512)) (.code eNoBlob)
  .ensure calls.strdup (.code eNoAlloc)
  walkFields (.fail .outside) (putBlob calls o image) desc.hasBlob desc.fieldSizes 0 desc.rfLen

/-- The data file and its blobs. -/
structure Store where
  file : Bytes
  blobs : Dir Text Bytes

/-- `flush` once the record is named. -/
def flush (calls : FlushCalls) (desc : RFDesc) (o : Owner) (image : Bytes) (s : Store) : Except Fault ℤ × Store :=
  if int64Max - 17 < o.recno then (.error (.code eRecWrt),s)
  else
    match readAt image 0 desc.rfLen with
    | none => (.error .outside,s)
    | some record =>
      match calls.record with
      | some file => (.error (.code eRecWrt),{ s with file := file })
      | none =>
        let s := { s with file := writeAt s.file (o.recno+17) record }
        if desc.hasBlob = 0 then (.ok 4,s)
        else
          match putBlobs calls desc o image s.blobs with
          | (.error e,dir) => (.error e,{ s with blobs := dir })
          | (.ok _,dir) => (.ok 4,{ s with blobs := dir })

/-! ## `get_blobs` -/

/-- The lengths that one blob goes through: the new length of the buffer, and where the length and
the contents of the blob are written. -/
structure Lengths where
  len : ℤ
  lengthAt : ℤ
  contentsAt : ℤ
deriving DecidableEq,Repr

/-- The buffer with its size and `max`, and the running lengths. -/
structure Reading where
  len : ℤ
  offs : ℤ
  size : ℤ
  max : Option ℤ
  image : Bytes
  lengths : List Lengths := []
deriving DecidableEq,Repr

/-- `len` grows, and the buffer if it has to. A size that is negative is too large for `realloc`, and
what is left is no buffer. -/
def Reading.grow (r : Reading) (n : ℤ) : Reading :=
  let len := int32 (r.len+n)
  let lengths := r.lengths++[⟨len,r.offs,int32 (r.offs+4)⟩]
  if r.max.all (len > ·) then { r with len := len,size := len,max := r.max.map fun _ => len,lengths := lengths }
  else { r with len := len,lengths := lengths }

/-- Write into the buffer at `offs`. -/
def Reading.write (r : Reading) (data : Bytes) : Except Fault Reading :=
  if 0 ≤ r.offs ∧ r.offs+data.length ≤ r.size then
    .ok { r with image := writeAt r.image r.offs.toNat data,offs := int32 (r.offs+data.length) }
  else .error .outside

/-- One blob; a blob that cannot be found has size 0. -/
def getBlob (readable : ℕ → Bool) (o : Owner) (dir : Dir Text Bytes) (j : ℕ) (r : Reading) : Except Fault Reading :=
  let contents := (dir (blobName o j)).getD []
  if contents.length = 0 then (r.grow 4).write (putLong 0)
  else if contents.length > intMax then .error (.code eNoBlob)
  else do
    let r ← (r.grow (4+contents.length)).write (putLong contents.length)
    if readable j then r.write contents else .error (.code eNoBlob)

/-- `get_blobs` on a buffer with the bytes of the record; its value is `offs`. -/
def getBlobs (readable : ℕ → Bool) (desc : RFDesc) (o : Owner) (dir : Dir Text Bytes) (max : Option ℤ) (record : Bytes) :
    Except Fault Reading :=
  walkFields (.error .outside) (getBlob readable o dir) desc.hasBlob desc.fieldSizes 0
    { len := desc.rfLen,offs := desc.rfLen,size := (max.map int32).getD desc.rfLen,max := max.map int32,image := record }

end Dataman.Blobs

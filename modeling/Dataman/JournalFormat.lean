import Dataman.Checksum
import Dataman.FixedWidthFields

/-!
# The bytes of the undo journal (`undo_journal.c`)

Little-endian fields, the checksum, names below the root, record frames and the
chunk streams behind blob records.
-/

namespace Dataman
namespace UndoJournal
open ByteFiles FixedWidthFields

def headerSize : ℕ := 56
def maxPath : ℕ := 4095
def recordSize : ℕ := 72
def maxWrite : ℕ := 1024*1024
def maxJournal : ℕ := 64*1024*1024
def maxRecords : ℕ := 128
def blobMeta : ℕ := 16
def blobChunk : ℕ := 64*1024
def int64Max : ℕ := 2 ^ 63 - 1

def put64 (value : ℕ) : Bytes := putLE 8 value
def put32 (value : ℕ) : Bytes := putLE 4 value
def get64 (p : Bytes) (off : ℕ) : ℕ := getLE (slice p off 8)
def get32 (p : Bytes) (off : ℕ) : ℕ := getLE (slice p off 4)

@[simp] theorem length_put64 (value : ℕ) : (put64 value).length = 8 := length_putLE 8 value
@[simp] theorem length_put32 (value : ℕ) : (put32 value).length = 4 := length_putLE 4 value

/-- The inner loop of `crc`, one bit. -/
def crcBit (value : BitVec 32) : BitVec 32 :=
  (value >>> 1) ^^^ (0xedb88320#32 &&& (0#32 - (value &&& 1#32)))

def crc (p : Bytes) : ℕ :=
  (~~~(p.foldl (fun value b => Nat.repeat crcBit 8 (value ^^^ b.toBitVec.setWidth 32)) 0xffffffff#32)).toNat

/-- The masked form of the loop is the one with a branch. -/
theorem crcBit_eq (value : BitVec 32) : crcBit value = Checksum.crcBit value := by
  unfold crcBit Checksum.crcBit
  by_cases h : value.getLsbD 0 = true
  · have hone : value &&& 1#32 = 1#32 := by
      apply BitVec.eq_of_getLsbD_eq
      intro i hi
      cases i with
      | zero => simp [h]
      | succ i => simp
    simp [hone]
  · have hzero : value &&& 1#32 = 0#32 := by
      by_contra hne
      exact h ((Checksum.and_one_ne_zero value).1 hne)
    simp [hzero]

/-- The journal and the index use one checksum. -/
theorem crc_eq (p : Bytes) : crc p = (Checksum.indexV2Crc32 p).toNat := by
  have hbit : crcBit = Checksum.crcBit := funext crcBit_eq
  rw [crc,hbit]
  rfl

theorem crc_lt (p : Bytes) : crc p < 2 ^ 32 := BitVec.isLt _

/-- Both checksums are the same, and strings that differ only in a window of four bytes have different ones. -/
theorem checksums_detect_bursts : (∀ p,crc p = (Checksum.indexV2Crc32 p).toNat) ∧
    ∀ (x y : Bytes) (i : ℕ),x.length = y.length → (∀ j,j < i ∨ i+4 ≤ j → x[j]? = y[j]?) → x≠y →
      Checksum.indexV2Crc32 x≠Checksum.indexV2Crc32 y := by
  refine ⟨crc_eq,?_⟩
  intro x y i hlen hsame hne
  have hpre : x.take i = y.take i := by
    apply List.ext_getElem?
    intro j
    rw [List.getElem?_take,List.getElem?_take]
    split
    · exact hsame j (.inl (by assumption))
    · rfl
  have hpost : x.drop (i+4) = y.drop (i+4) := by
    apply List.ext_getElem?
    intro j
    rw [List.getElem?_drop,List.getElem?_drop]
    exact hsame _ (.inr (Nat.le_add_right _ _))
  have hsplit (z : Bytes) : z.take i++(z.drop i).take 4++z.drop (i+4) = z := by
    rw [List.append_assoc,← List.drop_drop,List.take_append_drop,List.take_append_drop]
  have hwindow : (x.drop i).take 4≠(y.drop i).take 4 := by
    intro heq
    apply hne
    rw [← hsplit x,← hsplit y,hpre,heq,hpost]
  have hburst := Checksum.indexV2Crc32_ne_of_burst (x.take i) (x.drop (i+4)) (by simp [hlen]) (by simp) hwindow
  rwa [hsplit x,hpre,hpost,hsplit y] at hburst

/-- Two bytes of a window are changed. -/
theorem checksums_detect_bursts_pair : Checksum.indexV2Crc32 [1,2,3,4,5,6]≠Checksum.indexV2Crc32 [1,9,3,4,8,6] := by
  refine checksums_detect_bursts.2 [1,2,3,4,5,6] [1,9,3,4,8,6] 1 rfl ?_ (by decide)
  intro j hj
  rcases hj with hj | hj
  · rw [Nat.lt_one_iff.1 hj]
    rfl
  · obtain ⟨k,rfl⟩ := Nat.exists_eq_add_of_le hj
    rw [Nat.add_comm]
    rfl

/-! ## Names -/

/-- A C string: its bytes up to the terminating zero. -/
structure CString where
  bytes : Bytes
  nul_free : (0 : UInt8)∉bytes
deriving DecidableEq

def slash : UInt8 := 47
def dot : UInt8 := 46

/-- One component of a path. -/
def partValid (part : Bytes) : Bool :=
  part≠[] && part.length ≤ 255 && part≠[dot] && part≠[dot,dot]

def nameValid (name : Bytes) : Bool :=
  name≠[] && name.length ≤ maxPath && (name.splitOn slash).all partValid

/-- `blobs/` -/
def blobsPath : Bytes := [98,108,111,98,115,47]

/-- `!strncmp(name, "blobs/", 6)` -/
def underBlobs (name : Bytes) : Bool := name.take 6 == blobsPath

def blobValid (name : Bytes) : Bool := nameValid name && underBlobs name && slash∉name.drop 6

theorem length_le_of_nameValid {name : Bytes} (h : nameValid name = true) : name.length ≤ maxPath := by
  simp only [nameValid,Bool.and_eq_true,decide_eq_true_eq] at h
  exact h.1.2

theorem nameValid_of_blobValid {name : Bytes} (h : blobValid name = true) : nameValid name = true := by
  simp only [blobValid,Bool.and_eq_true] at h
  exact h.1.1

/-! ## Record frames -/

inductive Kind
  | undo
  | resolved
  | blob
  | blobStream
deriving DecidableEq,Repr

def Kind.code : Kind → ℕ
  | .undo => 1
  | .resolved => 2
  | .blob => 3
  | .blobStream => 4

def Kind.ofCode : ℕ → Option Kind
  | 1 => some .undo
  | 2 => some .resolved
  | 3 => some .blob
  | 4 => some .blobStream
  | _ => none

@[simp] theorem Kind.ofCode_code (k : Kind) : Kind.ofCode k.code = some k := by cases k <;> rfl

/-- What is put into a record before `append` seals it. -/
structure Frame where
  kind : Kind
  sequence : ℕ
  name : Bytes
  offset : ℕ
  size : ℕ
  dev : ℕ
  ino : ℕ
  payload : Bytes

namespace Frame

/-- `DMUR` -/
def magic : Bytes := [68,77,85,82]

def length (r : Frame) : ℕ := recordSize+r.name.length+r.payload.length

def body (r : Frame) : Bytes := r.name++r.payload

/-- The first 64 bytes, with the checksum of what follows the fixed part. -/
def sealed (r : Frame) : Bytes :=
  magic++put32 r.kind.code++put64 r.sequence++put32 r.length++put32 r.name.length ++
    put64 r.offset++put64 r.size++put64 r.dev++put64 r.ino++put32 r.payload.length ++
    put32 (crc r.body)

/-- The fixed part. -/
def fixed (r : Frame) : Bytes := r.sealed++put32 (crc r.sealed)++put32 0

/-- A record as `append` writes it. -/
def bytes (r : Frame) : Bytes := r.fixed++r.body

@[simp] theorem length_sealed (r : Frame) : r.sealed.length = 64 := by simp [sealed,magic]

@[simp] theorem length_fixed (r : Frame) : r.fixed.length = recordSize := by simp [fixed,recordSize]

@[simp] theorem length_body (r : Frame) : r.body.length = r.name.length+r.payload.length := by simp [body]

@[simp] theorem length_bytes (r : Frame) : r.bytes.length = r.length := by
  simp [bytes,length,Nat.add_assoc]

end Frame

/-! ## Chunk streams -/

/-- A blob in pieces of at most `blobChunk` bytes, by the loop over the rest. -/
def chunksFrom : ℕ → Bytes → List Bytes
  | 0,_ => []
  | fuel+1,rest => if rest = [] then [] else rest.take blobChunk::chunksFrom fuel (rest.drop blobChunk)

def chunks (content : Bytes) : List Bytes := chunksFrom content.length content

/-- The eight bytes before a chunk. -/
def chunkHeader (chunk : Bytes) : Bytes := put32 chunk.length++put32 (crc chunk)

def streamBytes (cs : List Bytes) : Bytes := cs.flatMap fun chunk => chunkHeader chunk++chunk

/-- The number of chunks of a blob. -/
def chunkCount (size : ℕ) : ℕ := size / blobChunk+(if size % blobChunk≠0 then 1 else 0)

def blobStreamSize (size : ℕ) : Option ℕ :=
  if size ≤ int64Max ∧ chunkCount size ≤ (int64Max - size) / 8 then some (size+chunkCount size*8) else none

/-- Read a chunk stream and check every chunk. -/
def blobStreamFrom (journal : Bytes) : ℕ → ℕ → ℕ → Option (List Bytes)
  | 0,_,rest => if rest = 0 then some [] else none
  | fuel+1,pos,rest =>
    if rest = 0 then some [] else do
      let length := min rest blobChunk
      let header ← readAt journal pos 8
      let buffer ← readAt journal (pos+8) length
      guard (get32 header 0 = length ∧ get32 header 4 = crc buffer)
      let more ← blobStreamFrom journal fuel (pos+8+length) (rest - length)
      return buffer::more

def blobStream (journal : Bytes) (pos size : ℕ) : Option (List Bytes) := blobStreamFrom journal size pos size

end UndoJournal
end Dataman

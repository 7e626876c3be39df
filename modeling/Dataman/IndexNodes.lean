import Dataman.IndexFile
import Dataman.PageTree

/-!
# Index pages

Every node fills one page: a 16-byte header with a checksum over the rest, then the
child offsets of an internal node, then the entries. Pages come from the free list
first and from the end of the file otherwise; a build rewrites its pages in place.
-/

namespace Dataman.IndexFile
open ByteFiles FixedWidthFields Checksum

/-- The fixed part of the insert context; the allocator part is in `IndexState`. -/
structure Context where
  keylen : ℕ
  fileCount : ℕ
  pageSize : ℕ
  inPlace : Bool := false
  deriving DecidableEq,Repr

def Context.entrySize (ctx : Context) : ℕ := ctx.keylen+2+8

def minKeys : ℕ := maxKeys / 2

/-- A node as it is read from disk. -/
structure DiskNode where
  flags : ℕ
  keyCount : ℕ
  payloadLength : ℕ
  crc : ℕ
  payload : Bytes
  deriving DecidableEq,Repr

/-- A node in memory; the source passes the three parts separately. -/
abbrev Node := PageTree.Node Bytes

/-- "DMN2" -/
def nodeMagic : Bytes := [0x44,0x4d,0x4e,0x32]

def indexV2ReadNode (f : Bytes) (offset : ℕ) : Option DiskNode := do
  guard (offset ≤ int64Max)
  let header ← readAt f offset 16
  guard (slice header 0 4 = nodeMagic)
  let flags := (header.getD 4 0).toNat
  let keyCount := (header.getD 5 0).toNat
  let payloadLength := getU32 header 8
  let crc := getU32 header 12
  guard (flags / 2 = 0 ∧ payloadLength ≤ 1024*1024)
  let payload ← readAt f (offset+16) payloadLength
  guard ((indexV2Crc32 (slice header 0 12++payload)).toNat = crc)
  return ⟨flags,keyCount,payloadLength,crc,payload⟩

/-- Cut `n` records of `size` bytes. -/
def chunks : ℕ → ℕ → Bytes → List Bytes
  | 0,_,_ => []
  | n+1,size,bs => bs.take size::chunks n size (bs.drop size)

/-- The payload length of a node with the given kind and key count. -/
def payloadLength (entrySize : ℕ) (leaf : Bool) (keyCount : ℕ) : ℕ :=
  if leaf then keyCount*entrySize else (keyCount+1)*8+keyCount*entrySize

/-- The parts of a disk node, if its key count and payload length agree. -/
def decodeNode (ctx : Context) (disk : DiskNode) : Option Node := do
  guard (disk.keyCount ≤ maxKeys)
  let leaf := disk.flags % 2 = 1
  guard (¬ (¬ leaf ∧ disk.keyCount = 0 ∨
    disk.payloadLength≠payloadLength ctx.entrySize leaf disk.keyCount))
  if leaf then return ⟨true,chunks disk.keyCount ctx.entrySize disk.payload,[]⟩
  else
    let childBytes := (disk.keyCount+1)*8
    return ⟨false,chunks disk.keyCount ctx.entrySize (disk.payload.drop childBytes),
      (chunks (disk.keyCount+1) 8 disk.payload).map getBE⟩

def v2LoadNode (ctx : Context) (f : Bytes) (offset : ℕ) : Option Node := do
  let disk ← indexV2ReadNode f offset
  decodeNode ctx disk

/-! ## Writing a node -/

/-- The first twelve header bytes, all that the checksum covers of the header. -/
def nodeHead (ctx : Context) (n : Node) : Bytes :=
  nodeMagic++[if n.leaf then 1 else 0,UInt8.ofNat n.entries.length,0,0] ++
    putU32 (payloadLength ctx.entrySize n.leaf n.entries.length)

def nodePayload (n : Node) : Bytes :=
  if n.leaf then n.entries.flatten else (n.children.map putU64).flatten++n.entries.flatten

def nodeCrc (ctx : Context) (n : Node) : ℕ := (indexV2Crc32 (nodeHead ctx n++nodePayload n)).toNat

def pageBytes (ctx : Context) (n : Node) : Bytes :=
  nodeHead ctx n++putU32 (nodeCrc ctx n)++nodePayload n ++
    List.replicate (ctx.pageSize - (16+payloadLength ctx.entrySize n.leaf n.entries.length)) 0

/-- The page a node goes to: its own when a build rewrites it, else a free page, else
the next page at the end of the file. -/
def allocatePage (ctx : Context) (offset : ℕ) : IndexM ℕ := fun s =>
  if ctx.inPlace ∧ offset≠0 then (.ok offset,s)
  else match s.freePages.getLast? with
    | some page => (.ok page,{ s with freePages := s.freePages.dropLast })
    | none => (.ok s.nextOffset,{ s with nextOffset := s.nextOffset+ctx.pageSize })

/-- Returns the page offset and the node's checksum. -/
def v2WriteNode (ctx : Context) (n : Node) (offset : ℕ) : IndexM (ℕ × ℕ) := do
  .ensure (decide (n.entries.length ≤ maxKeys)) .keyCount
  .ensure (decide (16+payloadLength ctx.entrySize n.leaf n.entries.length ≤ ctx.pageSize)) .pageOverflow
  let page ← allocatePage ctx offset
  writeFullAt (pageBytes ctx n) page
  return (page,nodeCrc ctx n)

/-- The disk state is read through the file of the current state. -/
def loadNode (ctx : Context) (offset : ℕ) : IndexM Node := do
  let s ← .get
  .ofOption (v2LoadNode ctx s.bytes offset) .badNode

end Dataman.IndexFile

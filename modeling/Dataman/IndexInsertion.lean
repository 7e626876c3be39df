import Dataman.IndexNodes

/-!
# Creating an index and inserting into it

A recursion depth stands in for the C stack: every routine that follows child offsets
takes one, and the entry points start it at one more than the file length, which no
path through distinct pages can exceed.
-/

namespace Dataman.IndexFile
open ByteFiles FixedWidthFields Checksum

/-! ## An empty index -/

/-- The length of the file-name area, one zero byte after each name, within 32 bits. -/
def namesLength : List Bytes → ℕ → Option ℕ
  | [],total => some total
  | name::names,total =>
    if name.length+1 > 2 ^ 32 - 1 - total then none else namesLength names (total+(name.length+1))

def writeNames : List Bytes → ℕ → IndexM ℕ
  | [],offset => pure offset
  | name::names,offset => do
    writeFullAt (name++[0]) offset
    writeNames names (offset+(name.length+1))

def roundUp (n size : ℕ) : ℕ := (n+size - 1) / size*size

/-- The header of a leaf without entries. -/
def emptyLeafHead : Bytes := nodeMagic++[1,0,0,0]++List.replicate 4 0

def creationFlags (building : Bool) : ℕ := if building then flagBuilding else 0

/-- A build keeps its root in the header; a finished index publishes it. -/
def recordRoot (building : Bool) (offset crc : ℕ) : IndexM ℕ :=
  if building then do
    writeFullAt (putU64 offset) 24
    return offset
  else do
    publishRoot ⟨offset,crc,1⟩
    return offset

/-- Returns the root page of the new index. -/
def v2CreateEmpty (keylen : ℕ) (fileNames : List Bytes) (building : Bool) : IndexM ℕ := do
  .ensure (decide (keylen≠0 ∧ keylen ≤ 32 ∧ fileNames.length≠0)) .argument
  let names ← .ofOption (namesLength fileNames 0) .argument
  let pageSize := indexV2PageSize keylen
  writeHeader keylen fileNames.length names pageSize (creationFlags building)
  let last ← writeNames fileNames 128
  let offset := roundUp last pageSize
  let crc := (indexV2Crc32 emptyLeafHead).toNat
  writeFullAt (emptyLeafHead++putU32 crc++List.replicate (pageSize - 16) 0) offset
  recordRoot building offset crc

def indexV2CreateEmpty (keylen : ℕ) (fileNames : List Bytes) : IndexM ℕ :=
  v2CreateEmpty keylen fileNames false

def indexV2BuildBegin (keylen : ℕ) (fileNames : List Bytes) : IndexM ℕ :=
  v2CreateEmpty keylen fileNames true

/-! ## Insertion -/

structure InsertResult where
  offset : ℕ
  crc : ℕ
  /-- The right page and its separator, when the node was split. -/
  split : Option (ℕ × Bytes)
  leafOffset : ℕ
  leafIndex : ℕ
  deriving DecidableEq,Repr

/-- The position of a new entry in a leaf, none if the entry is already there. -/
def leafPosition (entry : Bytes) : List Bytes → Option ℕ
  | [] => some 0
  | e::es => match memcmp entry e with
    | .eq => none
    | .lt => some 0
    | .gt => (leafPosition entry es).map (· + 1)

/-- The child to descend to: equality with a separator goes to its right. -/
def childPosition (entry : Bytes) (keys : List Bytes) : ℕ :=
  keys.findIdx (fun k => memcmp entry k = .lt)

/-- Write the new entries of a leaf, in two pages if they no longer fit one. -/
def writeLeafEntries (ctx : Context) (own : ℕ) (entries : List Bytes) (position : ℕ) : IndexM InsertResult :=
  if entries.length ≤ maxKeys then do
    let (page,crc) ← v2WriteNode ctx ⟨true,entries,[]⟩ own
    return ⟨page,crc,none,page,position⟩
  else do
    let half := maxKeys / 2
    let (page,crc) ← v2WriteNode ctx ⟨true,entries.take half,[]⟩ own
    let (right,_) ← v2WriteNode ctx ⟨true,entries.drop half,[]⟩ 0
    let separator := entries.getD half []
    if position < half then return ⟨page,crc,some (right,separator),page,position⟩
    else return ⟨page,crc,some (right,separator),right,position - half⟩

/-- Write the new keys and children of an internal node. The middle key of a split moves up. -/
def writeInternalEntries (ctx : Context) (own : ℕ) (entries : List Bytes) (children : List ℕ)
    (child : InsertResult) : IndexM InsertResult :=
  if entries.length ≤ maxKeys then do
    let (page,crc) ← v2WriteNode ctx ⟨false,entries,children⟩ own
    return ⟨page,crc,none,child.leafOffset,child.leafIndex⟩
  else do
    let half := maxKeys / 2
    let (page,crc) ← v2WriteNode ctx ⟨false,entries.take half,children.take (half+1)⟩ own
    let (right,_) ← v2WriteNode ctx ⟨false,entries.drop (half+1),children.drop (half+1)⟩ 0
    return ⟨page,crc,some (right,entries.getD half []),child.leafOffset,child.leafIndex⟩

def v2InsertNode (ctx : Context) : ℕ → ℕ → Bytes → IndexM InsertResult
  | 0,_,_ => .fail .depth
  | depth+1,offset,entry => do
    let own := if ctx.inPlace then offset else 0
    let n ← loadNode ctx offset
    if n.leaf then
      let position ← .ofOption (leafPosition entry n.entries) .duplicate
      writeLeafEntries ctx own (n.entries.take position++entry::n.entries.drop position) position
    else
      let position := childPosition entry n.entries
      let child ← v2InsertNode ctx depth (n.children.getD position 0) entry
      let added := child.split.toList
      writeInternalEntries ctx own
        (n.entries.take position++added.map (·.2)++n.entries.drop position)
        (n.children.take position++child.offset::added.map (·.1)++n.children.drop (position+1)) child

/-! ## Free pages -/

/-- Mark every page reachable from `offset`. The mark is set before the page is read. -/
def v2MarkLivePages (f : Bytes) (keylen pageSize firstPage pageCount : ℕ) :
    ℕ → ℕ → List Bool → Option (List Bool)
  | 0,_,_ => none
  | depth+1,offset,live =>
    if offset < firstPage ∨ (offset - firstPage) % pageSize≠0 then none
    else
      let page := (offset - firstPage) / pageSize
      if pageCount ≤ page then none
      else if live.getD page false then some live
      else do
        let node ← indexV2ReadNode f offset
        let leaf := node.flags % 2 = 1
        guard (¬ (maxKeys < node.keyCount ∨
          node.payloadLength≠payloadLength (keylen+2+8) leaf node.keyCount ∨
          ¬ leaf ∧ node.keyCount = 0))
        if leaf then return live.set page true
        else
          ((chunks (node.keyCount+1) 8 node.payload).map getBE).foldlM
            (fun live child => v2MarkLivePages f keylen pageSize firstPage pageCount depth child live)
            (live.set page true)

/-- The first page after the header and the file names. -/
def firstPageOffset (namesLength pageSize : ℕ) : ℕ := roundUp (128+namesLength) pageSize

/-- Mark what a valid slot reaches. -/
def markSlot (mark : ℕ → List Bool → Option (List Bool)) (slot : Option Slot) (live : List Bool) :
    Option (List Bool) :=
  match slot with
  | some root => mark root.rootOffset live
  | none => some live

/-- The pages that neither valid root slot reaches, in ascending order. -/
def v2CollectFreePages (f : Bytes) (keylen pageSize : ℕ) : Option (List ℕ) := do
  let header ← readAt f 0 128
  let firstPage := firstPageOffset (getU32 header 16) pageSize
  guard (¬ (f.length < firstPage ∨ (f.length - firstPage) % pageSize≠0))
  let pageCount := (f.length - firstPage) / pageSize
  let mark := v2MarkLivePages f keylen pageSize firstPage pageCount (pageCount+1)
  let live := List.replicate pageCount false
  let live ← markSlot mark (slot0 header) live
  let live ← markSlot mark (slot1 header) live
  return ((List.range pageCount).filter (fun i => !live.getD i false)).map (fun i => firstPage+i*pageSize)

/-! ## Entry points -/

/-- Key bytes, then file number, then record offset. -/
def composite (keylen : ℕ) (key : Bytes) (fileId recordOffset : ℕ) : Bytes :=
  key.take keylen++putU16 fileId++putU64 recordOffset

structure Cursor where
  generation : ℕ
  nodeOffset : ℕ
  entryIndex : ℕ
  deriving DecidableEq,Repr

/-- Read the header, check the request, and set up the page allocator. -/
def openForUpdate (fileId : ℕ) : IndexM (Header × Context) := do
  let s ← .get
  let hd ← .ofOption (indexV2ReadHeader s.bytes) .header
  .ensure (decide (hd.keylen ≤ 32 ∧ fileId < hd.fileCount)) .argument
  let pageSize ← .ofOption (indexV2ReadPageSize s.bytes hd.keylen) .header
  let free ← .ofOption (v2CollectFreePages s.bytes hd.keylen pageSize) .livePages
  .modify (fun s => { s with nextOffset := roundUp s.bytes.length pageSize,freePages := free })
  return (hd,{ keylen := hd.keylen,fileCount := hd.fileCount,pageSize := pageSize })

/-- A split root gets a new root above it. -/
def growRoot (ctx : Context) (r : InsertResult) (offset : ℕ) : IndexM (ℕ × ℕ) :=
  match r.split with
  | some (right,separator) => v2WriteNode ctx ⟨false,[separator],[r.offset,right]⟩ offset
  | none => pure (r.offset,r.crc)

def nextGeneration (g : ℕ) : ℕ := (g+1) % 2 ^ 64

/-- Returns the cursor of the new entry and the new root. -/
def indexV2Insert (key : Bytes) (fileId recordOffset : ℕ) : IndexM (Cursor × ℕ) := do
  let (hd,ctx) ← openForUpdate fileId
  let s ← .get
  let r ← v2InsertNode ctx (s.bytes.length+1) hd.root.rootOffset
    (composite hd.keylen key fileId recordOffset)
  let (root,crc) ← growRoot ctx r r.offset
  publishRoot ⟨root,crc,nextGeneration hd.root.generation⟩
  return (⟨nextGeneration hd.root.generation,r.leafOffset,r.leafIndex⟩,root)

/-- Insertion into an index under construction; its pages are private and rewritten in place. -/
def indexV2BuildInsert (key : Bytes) (fileId recordOffset : ℕ) : IndexM ℕ := do
  let s ← .get
  let (keylen,fileCount,root) ← .ofOption (v2ReadBuildHeader s.bytes) .header
  .ensure (decide (fileId < fileCount)) .argument
  let pageSize ← .ofOption (indexV2ReadPageSize s.bytes keylen) .header
  .modify (fun s => { s with nextOffset := roundUp s.bytes.length pageSize,freePages := [] })
  let ctx : Context := { keylen := keylen,fileCount := fileCount,pageSize := pageSize,inPlace := true }
  let r ← v2InsertNode ctx (s.bytes.length+1) root (composite keylen key fileId recordOffset)
  match r.split with
  | some _ =>
    let (newRoot,_) ← growRoot ctx r 0
    writeFullAt (putU64 newRoot) 24
    return newRoot
  | none => return root

/-- Publish the build root as generation 1, then clear the building flag and the build root. -/
def indexV2BuildFinish : IndexM ℕ := do
  let s ← .get
  let (_,_,root) ← .ofOption (v2ReadBuildHeader s.bytes) .header
  let node ← .ofOption (indexV2ReadNode s.bytes root) .badNode
  publishRoot ⟨root,node.crc,1⟩
  writeFullAt (List.replicate 10 0) 22
  return root

end Dataman.IndexFile

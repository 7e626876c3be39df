import Dataman.IndexInsertion

/-!
# Removing from an index and looking up an entry

Separators are derived data here: an internal node is always written with the first
entries below its children, read back from the pages.
-/

namespace Dataman.IndexFile
open FixedWidthFields

/-- The first entry of the leftmost leaf below `offset`. -/
def v2FirstEntry (ctx : Context) : ℕ → ℕ → IndexM Bytes
  | 0,_ => .fail .depth
  | depth+1,offset => do
    let n ← loadNode ctx offset
    if n.leaf then .ofOption n.entries.head? .emptyLeaf
    else v2FirstEntry ctx depth (n.children.headD 0)

def firstEntries (ctx : Context) (depth : ℕ) : List ℕ → IndexM (List Bytes)
  | [] => pure []
  | c::cs => do
    let e ← v2FirstEntry ctx depth c
    let es ← firstEntries ctx depth cs
    return e::es

/-- Write an internal node over the given children; its key count is one less. -/
def v2WriteInternal (ctx : Context) (depth : ℕ) (children : List ℕ) (offset : ℕ) : IndexM (ℕ × ℕ) := do
  .ensure (decide (children.length - 1≠0 ∧ children.length - 1 ≤ maxKeys)) .internalCount
  let entries ← firstEntries ctx depth children.tail
  v2WriteNode ctx ⟨false,entries,children⟩ offset

structure RemoveResult where
  offset : ℕ
  crc : ℕ
  keyCount : ℕ
  leaf : Bool
  found : Bool
  deriving DecidableEq,Repr

/-- The children of the node under repair, and the result for its child. -/
abbrev Repair := List ℕ × RemoveResult

def loadSibling (ctx : Context) (offset : ℕ) (leaf : Bool) : IndexM Node := do
  let sibling ← loadNode ctx offset
  .ensure (sibling.leaf == leaf) .siblingKind
  return sibling

/-- Write two neighbouring leaves, the left one first. -/
def writeLeafPair (ctx : Context) (left right : List Bytes) (o o' : ℕ) : IndexM ((ℕ × ℕ) × (ℕ × ℕ)) := do
  let a ← v2WriteNode ctx ⟨true,left,[]⟩ o
  let b ← v2WriteNode ctx ⟨true,right,[]⟩ o'
  return (a,b)

def writeInternalPair (ctx : Context) (depth : ℕ) (left right : List ℕ) (o o' : ℕ) :
    IndexM ((ℕ × ℕ) × (ℕ × ℕ)) := do
  let a ← v2WriteInternal ctx depth left o
  let b ← v2WriteInternal ctx depth right o'
  return (a,b)

/-- Move the last entry or child of the left sibling over. -/
def borrowLeft (ctx : Context) (depth : ℕ) (children : List ℕ) (position : ℕ) (child : RemoveResult)
    (sibling : Node) : IndexM Repair := do
  let n ← loadNode ctx child.offset
  let (left,page) ← (if child.leaf then
      writeLeafPair ctx sibling.entries.dropLast (sibling.entries.getLastD []::n.entries) 0 child.offset
    else writeInternalPair ctx depth sibling.children.dropLast (sibling.children.getLastD 0::n.children) 0
      child.offset)
  return ((children.set (position - 1) left.1).set position page.1,
    { child with offset := page.1,crc := page.2,keyCount := n.entries.length+1 })

/-- Move the first entry or child of the right sibling over. -/
def borrowRight (ctx : Context) (depth : ℕ) (children : List ℕ) (position : ℕ) (child : RemoveResult)
    (sibling : Node) : IndexM Repair := do
  let n ← loadNode ctx child.offset
  let (page,right) ← (if child.leaf then
      writeLeafPair ctx (n.entries++[sibling.entries.headD []]) sibling.entries.tail child.offset 0
    else writeInternalPair ctx depth (n.children++[sibling.children.headD 0]) sibling.children.tail
      child.offset 0)
  return ((children.set position page.1).set (position+1) right.1,
    { child with offset := page.1,crc := page.2,keyCount := n.entries.length+1 })

/-- Write two neighbours as one page, at the place of the left one. -/
def mergeAt (ctx : Context) (depth : ℕ) (children : List ℕ) (position : ℕ) (child : RemoveResult)
    (left right : Node) : IndexM Repair := do
  let page ← (if child.leaf then
      v2WriteNode ctx ⟨true,left.entries++right.entries,[]⟩ child.offset
    else v2WriteInternal ctx depth (left.children++right.children) child.offset)
  return ((children.set position page.1).eraseIdx (position+1),
    { child with offset := page.1,crc := page.2 })

/-- Neither sibling can lend: merge with the left one, or with the right one at the left edge. -/
def mergeSibling (ctx : Context) (depth : ℕ) (children : List ℕ) (position : ℕ) (child : RemoveResult) :
    IndexM Repair :=
  if 0 < position then do
    let sibling ← loadNode ctx (children.getD (position - 1) 0)
    let n ← loadNode ctx child.offset
    .ensure (sibling.leaf == n.leaf) .siblingKind
    mergeAt ctx depth children (position - 1) child sibling n
  else do
    let sibling ← loadNode ctx (children.getD 1 0)
    let n ← loadNode ctx child.offset
    .ensure (sibling.leaf == n.leaf) .siblingKind
    mergeAt ctx depth children 0 child n sibling

def borrowRightOrMerge (ctx : Context) (depth : ℕ) (children : List ℕ) (position : ℕ)
    (child : RemoveResult) : IndexM Repair :=
  if position < children.length - 1 then do
    let sibling ← loadSibling ctx (children.getD (position+1) 0) child.leaf
    if minKeys < sibling.entries.length then borrowRight ctx depth children position child sibling
    else mergeSibling ctx depth children position child
  else mergeSibling ctx depth children position child

/-- Repair a child below the minimum: borrow left, else borrow right, else merge. -/
def rebalance (ctx : Context) (depth : ℕ) (children : List ℕ) (position : ℕ) (child : RemoveResult) :
    IndexM Repair :=
  if 0 < position then do
    let sibling ← loadSibling ctx (children.getD (position - 1) 0) child.leaf
    if minKeys < sibling.entries.length then borrowLeft ctx depth children position child sibling
    else borrowRightOrMerge ctx depth children position child
  else borrowRightOrMerge ctx depth children position child

def v2RemoveNode (ctx : Context) : ℕ → ℕ → Bytes → Bool → IndexM RemoveResult
  | 0,_,_,_ => .fail .depth
  | depth+1,offset,target,root => do
    let n ← loadNode ctx offset
    if n.leaf then
      let position := n.entries.findIdx (fun e => memcmp target e = .eq)
      if position = n.entries.length then return ⟨0,0,0,true,false⟩
      else
        let entries := n.entries.eraseIdx position
        let (page,crc) ← v2WriteNode ctx ⟨true,entries,[]⟩ 0
        return ⟨page,crc,entries.length,true,true⟩
    else
      let position := childPosition target n.entries
      let child ← v2RemoveNode ctx depth (n.children.getD position 0) target false
      if child.found then
        let children := n.children.set position child.offset
        let (children,child) ← (if child.keyCount < minKeys then
            rebalance ctx depth children position child
          else pure (children,child))
        -- a zero-key internal root is represented by its only child
        if root && children.length - 1 == 0 then return { child with found := true }
        else
          let (page,crc) ← v2WriteInternal ctx depth children 0
          return ⟨page,crc,children.length - 1,false,true⟩
      else return ⟨0,0,0,false,false⟩

def indexV2Remove (key : Bytes) (fileId recordOffset : ℕ) : IndexM Unit := do
  let (hd,ctx) ← openForUpdate fileId
  let s ← .get
  let r ← v2RemoveNode ctx (s.bytes.length+1) hd.root.rootOffset
    (composite hd.keylen key fileId recordOffset) true
  .ensure r.found .missing
  publishRoot ⟨r.offset,r.crc,nextGeneration hd.root.generation⟩

/-! ## Lookup -/

/-- A found entry: its bytes and its place. -/
structure Found where
  fileId : ℕ
  recordOffset : ℕ
  key : Bytes
  cursor : Cursor
  deriving DecidableEq,Repr

/-- Search for the target, or for the first entry not below it. With `exact` off the nearest
right subtree is kept in case the lower bound falls between two leaves. -/
def v2FindEntry (ctx : Context) (f : Bytes) (target : Bytes) (exact : Bool) (keyLength : ℕ) :
    ℕ → ℕ → ℕ → Option Found
  | 0,_,_ => none
  | depth+1,offset,nextSubtree => do
    let n ← v2LoadNode ctx f offset
    let position := n.entries.findIdx
      (fun e => memcmp target e = .lt ∨ n.leaf ∧ memcmp target e = .eq)
    if n.leaf then
      if position = n.entries.length then
        if nextSubtree≠0 then v2FindEntry ctx f target exact keyLength depth nextSubtree 0 else none
      else
        let entry := n.entries.getD position []
        guard (¬ (exact ∧ memcmp target entry≠.eq ∨
          ¬ exact ∧ memcmp (target.take keyLength) (entry.take keyLength)≠.eq))
        return ⟨getU16 entry ctx.keylen,getU64 entry (ctx.keylen+2),entry.take ctx.keylen,
          ⟨0,offset,position⟩⟩
    else
      let nextSubtree := if !exact ∧ position < n.entries.length then n.children.getD (position+1) 0
        else nextSubtree
      v2FindEntry ctx f target exact keyLength depth (n.children.getD position 0) nextSubtree

/-- `index_v2_find` with `exact` set. -/
def indexV2FindExact (f : Bytes) (key : Bytes) (fileId recordOffset : ℕ) : Option Found := do
  let hd ← indexV2ReadHeader f
  guard (hd.keylen ≤ 32)
  let target := composite hd.keylen key fileId recordOffset
  guard (fileId < hd.fileCount)
  let ctx : Context := { keylen := hd.keylen,fileCount := hd.fileCount,pageSize := 0 }
  let found ← v2FindEntry ctx f target true ((target.take hd.keylen).findIdx (· = 0)) (f.length+1)
    hd.root.rootOffset 0
  return { found with cursor := { found.cursor with generation := hd.root.generation } }

/-- The entries below a page, left to right. -/
def inorder (ctx : Context) (f : Bytes) : ℕ → ℕ → Option (List Bytes)
  | 0,_ => none
  | depth+1,offset => do
    let n ← v2LoadNode ctx f offset
    if n.leaf then return n.entries
    else return (← n.children.mapM (inorder ctx f depth)).flatten

/-- The in-order walk from the published root. -/
def walk (f : Bytes) : Option (List Bytes) := do
  let hd ← indexV2ReadHeader f
  let pageSize ← indexV2ReadPageSize f hd.keylen
  inorder { keylen := hd.keylen,fileCount := hd.fileCount,pageSize := pageSize } f (f.length+1)
    hd.root.rootOffset

end Dataman.IndexFile

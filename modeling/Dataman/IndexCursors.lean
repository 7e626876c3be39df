import Dataman.IndexRemoval

/-!
# Navigating an index (`index_v2.c`)

Lookups return a cursor: the generation, the leaf page and the position of the entry in
it. The calls for the next and the prior entry take such a cursor as a hint. If the hint
is of the current generation and its page reads as a leaf with the entry at that place
and a neighbour on the right side, the neighbour is returned; otherwise the entry is
searched from the root.
-/

namespace Dataman.IndexFile
open FixedWidthFields

/-- The context of a lookup; it has no page size. -/
def lookupContext (hd : Header) : Context := { keylen := hd.keylen,fileCount := hd.fileCount,pageSize := 0 }

/-- The parts of an entry with its place. -/
def foundEntry (ctx : Context) (cursor : Cursor) (entry : Bytes) : Found :=
  ⟨getU16 entry ctx.keylen,getU64 entry (ctx.keylen+2),entry.take ctx.keylen,cursor⟩

/-! ## Patterns -/

/-- A star stands for one byte other than zero. -/
def v2PatternMatches (entry pattern : Bytes) (length : ℕ) : Bool :=
  (List.range length).all fun i =>
    if pattern.getD i 0 = 0x2a then decide (entry.getD i 0≠0) else decide (entry.getD i 0 = pattern.getD i 0)

inductive FindResult
  | error
  | notFound
  | found (entry : Found)
  deriving DecidableEq,Repr

/-- The first result that is not `notFound`. -/
def firstResult (find : ℕ → FindResult) : List ℕ → FindResult
  | [] => .notFound
  | child::children =>
    match find child with
    | .notFound => firstResult find children
    | result => result

/-- The first matching entry of a leaf. -/
def findInLeaf (ctx : Context) (pattern : Bytes) (length offset : ℕ) (entries : List Bytes) : FindResult :=
  let i := entries.findIdx fun entry => v2PatternMatches entry pattern length
  if i = entries.length then .notFound else .found (foundEntry ctx ⟨0,offset,i⟩ (entries.getD i []))

def v2FindPatternNode (ctx : Context) (f : Bytes) (pattern : Bytes) (length : ℕ) : ℕ → ℕ → FindResult
  | 0,_ => .error
  | depth+1,offset =>
    match v2LoadNode ctx f offset with
    | none => .error
    | some n =>
      if n.leaf then findInLeaf ctx pattern length offset n.entries
      else firstResult (v2FindPatternNode ctx f pattern length depth) n.children

def FindResult.found? : FindResult → Option Found
  | found entry => some entry
  | _ => none

/-- The search of `index_v2_find` below the root. -/
def findTarget (ctx : Context) (f : Bytes) (root : ℕ) (target : Bytes) (exact : Bool) (keyLength : ℕ) : Option Found :=
  if exact = false ∧ (0x2a : UInt8)∈target.take keyLength then
    (v2FindPatternNode ctx f target keyLength (f.length+1) root).found?
  else v2FindEntry ctx f target exact keyLength (f.length+1) root 0

/-- `index_v2_find` -/
def indexV2Find (f : Bytes) (key : Bytes) (exact : Bool) (fileId recordOffset : ℕ) : Option Found := do
  let hd ← indexV2ReadHeader f
  guard (hd.keylen ≤ 32)
  let target := composite hd.keylen key (if exact then fileId else 0) (if exact then recordOffset else 0)
  guard (exact = true → fileId < hd.fileCount)
  let found ← findTarget (lookupContext hd) f hd.root.rootOffset target exact
    ((target.take hd.keylen).findIdx (· = 0))
  return { found with cursor := { found.cursor with generation := hd.root.generation } }

/-! ## The ends -/

/-- Follow the first or the last child down to a leaf. -/
def descendEdge (ctx : Context) (f : Bytes) (last : Bool) : ℕ → ℕ → Option (ℕ × Node)
  | 0,_ => none
  | depth+1,offset => do
    let n ← v2LoadNode ctx f offset
    if n.leaf then return (offset,n)
    else descendEdge ctx f last depth (n.children.getD (if last then n.entries.length else 0) 0)

def v2DescendTree (last : Bool) (f : Bytes) : Option Found := do
  let hd ← indexV2ReadHeader f
  let ctx := lookupContext hd
  let (offset,n) ← descendEdge ctx f last (f.length+1) hd.root.rootOffset
  guard (n.entries.length≠0)
  let i := if last then n.entries.length - 1 else 0
  return foundEntry ctx ⟨hd.root.generation,offset,i⟩ (n.entries.getD i [])

def indexV2First (f : Bytes) : Option Found := v2DescendTree false f

def indexV2Last (f : Bytes) : Option Found := v2DescendTree true f

/-! ## Neighbours -/

def v2SetCursorEntry (ctx : Context) (cursor : Cursor) (entry : Bytes) : Option Found := do
  guard (getU16 entry ctx.keylen < ctx.fileCount)
  return foundEntry ctx cursor entry

/-- The position next to one in a leaf, if the leaf has it. -/
def besideIndex (forward : Bool) (count position : ℕ) : Option ℕ :=
  if forward then
    if position+1 < count then some (position+1) else none
  else if 0 < position then some (position - 1) else none

/-- What the hint alone gives. -/
def hintedEntry (ctx : Context) (f : Bytes) (generation : ℕ) (target : Bytes) (hint : Cursor) (forward : Bool) :
    Option Found := do
  guard (hint.generation = generation)
  let n ← v2LoadNode ctx f hint.nodeOffset
  guard (n.leaf = true ∧ hint.entryIndex < n.entries.length ∧
    memcmp (n.entries.getD hint.entryIndex []) target = .eq)
  let selected ← besideIndex forward n.entries.length hint.entryIndex
  v2SetCursorEntry ctx ⟨generation,hint.nodeOffset,selected⟩ (n.entries.getD selected [])

structure PathEntry where
  offset : ℕ
  childIndex : ℕ
  deriving DecidableEq,Repr

/-- Descend to the leaf for the target. The innermost node of the path comes first. -/
def descendPath (ctx : Context) (f : Bytes) (target : Bytes) :
    ℕ → ℕ → List PathEntry → Option (List PathEntry × ℕ × Node × ℕ)
  | 0,_,_ => none
  | depth+1,offset,path => do
    let n ← v2LoadNode ctx f offset
    let position := n.entries.findIdx
      (fun e => memcmp target e = .lt ∨ n.leaf ∧ memcmp target e = .eq)
    if n.leaf then return (path,offset,n,position)
    else descendPath ctx f target depth (n.children.getD position 0) (⟨offset,position⟩::path)

/-- Climb to the first node with a further child, and go down its near edge. -/
def climbPath (ctx : Context) (f : Bytes) (forward : Bool) (depth : ℕ) : List PathEntry → Option (ℕ × Node)
  | [] => none
  | parent::path => do
    let n ← v2LoadNode ctx f parent.offset
    if forward = true ∧ parent.childIndex < n.entries.length ∨ forward = false ∧ 0 < parent.childIndex then
      descendEdge ctx f (!forward) depth
        (n.children.getD (if forward then parent.childIndex+1 else parent.childIndex - 1) 0)
    else climbPath ctx f forward depth path

/-- The edge entry of the leaf that the climb reaches. -/
def climbedEntry (ctx : Context) (f : Bytes) (generation : ℕ) (forward : Bool) (path : List PathEntry) :
    Option Found := do
  let (offset,n) ← climbPath ctx f forward (f.length+1) path
  guard (n.entries.length≠0)
  let selected := if forward then 0 else n.entries.length - 1
  v2SetCursorEntry ctx ⟨generation,offset,selected⟩ (n.entries.getD selected [])

/-- What the search from the root gives. -/
def searchedEntry (ctx : Context) (f : Bytes) (generation root : ℕ) (target : Bytes) (forward : Bool) :
    Option Found := do
  let (path,offset,n,position) ← descendPath ctx f target (f.length+1) root []
  guard (position≠n.entries.length ∧ memcmp target (n.entries.getD position []) = .eq)
  match besideIndex forward n.entries.length position with
  | some selected => v2SetCursorEntry ctx ⟨generation,offset,selected⟩ (n.entries.getD selected [])
  | none => climbedEntry ctx f generation forward path

def v2FindAdjacent (f : Bytes) (key : Bytes) (fileId recordOffset : ℕ) (hint : Cursor) (forward : Bool) :
    Option Found := do
  let hd ← indexV2ReadHeader f
  guard (hd.keylen ≤ 32 ∧ fileId < hd.fileCount)
  let target := composite hd.keylen key fileId recordOffset
  (hintedEntry (lookupContext hd) f hd.root.generation target hint forward).or
    (searchedEntry (lookupContext hd) f hd.root.generation hd.root.rootOffset target forward)

def indexV2Next (f : Bytes) (key : Bytes) (fileId recordOffset : ℕ) (hint : Cursor) : Option Found :=
  v2FindAdjacent f key fileId recordOffset hint true

def indexV2Prior (f : Bytes) (key : Bytes) (fileId recordOffset : ℕ) (hint : Cursor) : Option Found :=
  v2FindAdjacent f key fileId recordOffset hint false

end Dataman.IndexFile

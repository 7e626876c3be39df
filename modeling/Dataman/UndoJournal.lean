import Dataman.FailState
import Dataman.JournalFormat
import Dataman.UndoLog

/-!
# The undo journal (`undo_journal.c`)

The journal, the target files and the blob directory change by single effects: the
writes, truncations, creations, renames and removals that the code issues. An
effect may fail, and a write may fail or be cut by a crash after any part of its
bytes; the code then issues nothing more. `fsync` adds no effect.
-/

namespace Dataman
namespace UndoJournal
open ByteFiles FixedWidthFields FailState UndoLog

/-! ## The disk -/

/-- Device and inode number of a file. -/
structure Ident where
  dev : ℕ
  ino : ℕ
  dev_lt : dev < 2 ^ 64
  ino_lt : ino < 2 ^ 64
deriving DecidableEq

/-- Permission bits and owners. -/
structure Meta where
  mode : ℕ
  uid : ℕ
  gid : ℕ
  mode_le : mode ≤ 0o7777
  uid_lt : uid < 2 ^ 32
  gid_lt : gid < 2 ^ 32
deriving DecidableEq

structure BlobFile where
  bytes : Bytes
  attr : Meta
deriving DecidableEq

/-- A name in the blob directory: a private regular file, or something that
`blob_current` or `basic_metadata` turns down (no regular file, more than one link,
extended attributes). -/
inductive BlobEntry
  | own (file : BlobFile)
  | foreign
deriving DecidableEq

theorem BlobEntry.none_ne_foreign : none≠some BlobEntry.foreign := Option.some_ne_none _ |>.symm

theorem BlobEntry.own_ne_foreign (file : BlobFile) : some (BlobEntry.own file)≠some .foreign := by simp

/-- The regular files below the root by identity, and the blob directory by name. -/
abbrev Files := Store Ident Bytes (Option BlobEntry)

structure World where
  journal : Option Bytes
  files : Files

inductive Effect
  | journalCreate
  | journalWrite (off : ℕ) (data : Bytes)
  | journalTruncate (size : ℕ)
  | journalUnlink
  | fileWrite (file : Ident) (off : ℕ) (data : Bytes)
  | fileTruncate (file : Ident) (size : ℕ)
  | blobCreate (name : Bytes) (attr : Meta)
  | blobWrite (name : Bytes) (off : ℕ) (data : Bytes)
  | blobTruncate (name : Bytes) (size : ℕ)
  | blobChown (name : Bytes) (attr : Meta)
  | blobChmod (name : Bytes) (attr : Meta)
  | blobUnlink (name : Bytes)
  | blobRename (name dest : Bytes)

namespace World

def setFile (w : World) (file : Ident) (f : Bytes) : World := { w with files := w.files.setFile file f }

def setBlob (w : World) (name : Bytes) (b : Option BlobEntry) : World :=
  { w with files := w.files.setSlot name b }

/-- Change a private blob. -/
def onBlob (w : World) (name : Bytes) (f : BlobFile → BlobFile) : World :=
  match w.files.slots name with
  | some (.own b) => w.setBlob name (some (.own (f b)))
  | _ => w

end World

namespace Effect

def apply (w : World) : Effect → World
  | journalCreate => { w with journal := some [] }
  | journalWrite off data => { w with journal := w.journal.map (writeAt · off data) }
  | journalTruncate size => { w with journal := w.journal.map (truncateTo · size) }
  | journalUnlink => { w with journal := none }
  | fileWrite file off data => w.setFile file (writeAt (w.files.files file) off data)
  | fileTruncate file size => w.setFile file (truncateTo (w.files.files file) size)
  | blobCreate name attr => w.setBlob name (some (.own ⟨[],attr⟩))
  | blobWrite name off data => w.onBlob name fun b => { b with bytes := writeAt b.bytes off data }
  | blobTruncate name size => w.onBlob name fun b => { b with bytes := truncateTo b.bytes size }
  | blobChown name attr => w.onBlob name fun b =>
      { b with attr := { b.attr with uid := attr.uid,gid := attr.gid,uid_lt := attr.uid_lt,gid_lt := attr.gid_lt } }
  | blobChmod name attr => w.onBlob name fun b =>
      { b with attr := { b.attr with mode := attr.mode,mode_le := attr.mode_le } }
  | blobUnlink name => w.setBlob name none
  | blobRename name dest =>
      if name = dest then w else (w.setBlob dest (w.files.slots name)).setBlob name none

/-- The effect cut short: `n` bytes of a write, and of anything else all or nothing. -/
def cut (w : World) (n : ℕ) : Effect → World
  | journalWrite off data => (journalWrite off (data.take n)).apply w
  | fileWrite file off data => (fileWrite file off (data.take n)).apply w
  | blobWrite name off data => (blobWrite name off (data.take n)).apply w
  | e => if n = 0 then w else e.apply w

end Effect

/-! ## The process -/

inductive State
  | active
  | abortOnly
  | finished
deriving DecidableEq

/-- `struct dm_undo` without its descriptors. -/
structure Tx where
  state : State
  sequence : ℕ
  endAt : ℕ
  blobs : List Bytes

/-- `budget = some (n, k)`: effect number `n` from here is cut after `k`. -/
structure Machine where
  world : World
  tx : Tx
  budget : Option (ℕ × ℕ)

inductive Fault
  | invalid
  | corrupt
  | io
  | notSupported
  | stale
  | tooBig
deriving DecidableEq

abbrev JournalM := FailState Machine Fault

/-- What the directories hold throughout: the code never creates, renames or removes
anything but the journal and blobs. -/
structure Env where
  journalDir : Ident
  rootPath : CString
  rootPath_abs : rootPath.bytes.head? = some slash
  root : Ident
  /-- `open_root` -/
  openRoot : Bytes → Option Ident
  openRoot_rootPath : openRoot rootPath.bytes = some root
  /-- The regular file, other than the journal, that `open_beneath` opens for a name. -/
  target : Bytes → Option Ident
  /-- The directory `blobs`. -/
  blobsDir : Option Ident
  /-- The directory `blobs` has no extended attributes. -/
  blobsBasic : Bool
  /-- Permission bits and owners of a file created with the given bits. -/
  created : ℕ → Meta

def emit (e : Effect) : JournalM Unit := fun m =>
  match m.budget with
  | none => (.ok (),{ m with world := e.apply m.world })
  | some (0,k) => (.error .io,{ m with world := e.cut m.world k })
  | some (n+1,k) => (.ok (),{ m with world := e.apply m.world,budget := some (n,k) })

def setState (state : State) : JournalM Unit := modify fun m => { m with tx := { m.tx with state := state } }

/-! ## Opening a transaction -/

/-- `DMUNDO04` -/
def magic4 : Bytes := [68,77,85,78,68,79,48,52]
/-- `DMUNDO03` -/
def magic3 : Bytes := [68,77,85,78,68,79,48,51]
/-- `DMUNDO02` -/
def magic2 : Bytes := [68,77,85,78,68,79,48,50]

def headerFields (env : Env) : Bytes :=
  magic4++put64 env.journalDir.dev++put64 env.journalDir.ino++put64 env.root.dev ++
    put64 env.root.ino++put32 env.rootPath.bytes.length++put32 (crc env.rootPath.bytes)

def header (env : Env) : Bytes := headerFields env++put32 (crc (headerFields env))++put32 0

/-- `dm_undo_begin` -/
def dmUndoBegin (env : Env) : JournalM Unit := do
  ensure (env.rootPath.bytes.length ≤ maxPath) .invalid
  let m ← get
  ensure m.world.journal.isNone .io
  emit .journalCreate
  emit (.journalWrite 0 (header env))
  emit (.journalWrite headerSize env.rootPath.bytes)
  modify fun m => { m with tx := ⟨.active,0,headerSize+env.rootPath.bytes.length,[]⟩ }

/-! ## Byte writes -/

def append (record : Frame) : JournalM Unit := do
  let m ← get
  emit (.journalWrite m.tx.endAt record.bytes)
  modify fun m => { m with
    tx := { m.tx with endAt := m.tx.endAt+record.length,sequence := m.tx.sequence+1 } }

/-- An open descriptor that the caller has for the target. -/
structure Descriptor where
  readWrite : Bool
  append : Bool
  /-- The regular file behind it. -/
  file : Option Ident

/-- The checks of `dm_undo_write_fd` on the caller's descriptor. -/
def checkDescriptor (file : Ident) : Option Descriptor → JournalM Unit
  | none => pure ()
  | some d => do
    let expected ← ofOption d.file .invalid
    ensure (d.readWrite && !d.append) .invalid
    ensure (file = expected) .stale

/-- The record of a range of a file. -/
def undoFrame (sequence : ℕ) (name : Bytes) (file : Ident) (im : Image) : Frame :=
  ⟨.undo,sequence,name,im.offset,im.size,file.dev,file.ino,im.before⟩

def writeTarget (env : Env) (name : CString) (check : Option Descriptor) (data : Bytes) (offset : ℤ) :
    JournalM Unit := do
  let m ← get
  ensure (m.tx.state = .active) .invalid
  setState .abortOnly
  ensure (nameValid name.bytes && !underBlobs name.bytes && 0 ≤ offset && data.length ≤ maxWrite &&
    offset+data.length ≤ int64Max) .invalid
  if data = [] ∧ check.isNone then setState .active
  else do
    let file ← ofOption (env.target name.bytes) .io
    checkDescriptor file check
    if data = [] then setState .active
    else do
      let m ← get
      let im := Image.ofFile (m.world.files.files file) offset.toNat data.length
      let record := undoFrame (m.tx.sequence+1) name.bytes file im
      ensure (m.tx.endAt+record.length+recordSize ≤ int64Max && m.tx.sequence < 2 ^ 64 - 2) .tooBig
      append record
      emit (.fileWrite file offset.toNat data)
      setState .active

/-- `dm_undo_write` -/
def dmUndoWrite (env : Env) (name : CString) (data : Bytes) (offset : ℤ) : JournalM Unit :=
  writeTarget env name none data offset

/-- `dm_undo_write_fd` -/
def dmUndoWriteFd (env : Env) (name : CString) (fd : Descriptor) (data : Bytes) (offset : ℤ) : JournalM Unit :=
  writeTarget env name (some fd) data offset

/-! ## Blob operations -/

/-- `blob_current`: the private blob of a name, if there is one. -/
def blobCurrent (name : Bytes) : JournalM (Option BlobFile) := do
  let m ← get
  match m.world.files.slots name with
  | none => pure none
  | some (.own b) => pure (some b)
  | some .foreign => fail .invalid

/-- The sixteen bytes of metadata in a blob record. -/
def Meta.bytes (attr : Meta) : Bytes := put32 attr.mode++put32 attr.uid++put32 attr.gid++put32 0

/-- The record of a blob; its contents follow as a chunk stream. -/
def blobFrame (sequence : ℕ) (name : Bytes) (parent : Ident) (old : Option BlobFile) : Frame :=
  match old with
  | none => ⟨.blobStream,sequence,name,0,0,parent.dev,parent.ino,[]⟩
  | some b => ⟨.blobStream,sequence,name,1,b.bytes.length,parent.dev,parent.ino,b.attr.bytes⟩

/-- The contents of a blob that may be absent. -/
def contentOf (old : Option BlobFile) : Bytes := (old.map BlobFile.bytes).getD []

def appendChunks : ℕ → List Bytes → JournalM Unit
  | _,[] => pure ()
  | pos,chunk::rest => do
    emit (.journalWrite pos (chunkHeader chunk))
    emit (.journalWrite (pos+8) chunk)
    appendChunks (pos+8+chunk.length) rest

def appendBlob (record : Frame) (content : Bytes) : JournalM Unit := do
  let m ← get
  let encoded ← ofOption (blobStreamSize content.length) .invalid
  ensure (m.tx.endAt+record.length+recordSize+encoded ≤ int64Max) .invalid
  emit (.journalWrite m.tx.endAt record.bytes)
  appendChunks (m.tx.endAt+record.length) (chunks content)
  modify fun m => { m with
    tx := { m.tx with
      endAt := m.tx.endAt+record.length+(streamBytes (chunks content)).length
      sequence := m.tx.sequence+1 } }

def snapshotBlob (env : Env) (name : CString) : JournalM Unit := do
  ensure (blobValid name.bytes) .invalid
  let m ← get
  if name.bytes∈m.tx.blobs then pure ()
  else do
    let parent ← ofOption env.blobsDir .io
    ensure env.blobsBasic .notSupported
    let old ← blobCurrent (name.bytes.drop 6)
    let record := blobFrame (m.tx.sequence+1) name.bytes parent old
    ensure (m.tx.sequence < 2 ^ 64 - 2 && m.tx.endAt+record.length+recordSize ≤ int64Max) .tooBig
    appendBlob record (contentOf old)
    modify fun m => { m with tx := { m.tx with blobs := name.bytes::m.tx.blobs } }

inductive BlobOp
  | replace (data : Bytes)
  | remove
  | rename (dest : CString)

/-- Create a blob if `blob_current` found none. -/
def createMissing (env : Env) (name : Bytes) (bits : ℕ) : JournalM Unit := do
  let current ← blobCurrent name
  if current.isSome then pure () else emit (.blobCreate name (env.created bits))

/-- The change of the directory itself, after the snapshots. -/
def BlobOp.mutate (env : Env) (name : Bytes) : BlobOp → JournalM Unit
  | .replace data => do
    createMissing env name 0o666
    emit (.blobWrite name 0 data)
    emit (.blobTruncate name data.length)
  | .remove => do
    let current ← blobCurrent name
    ensure current.isSome .io
    emit (.blobUnlink name)
  | .rename dest => do
    let current ← blobCurrent name
    let _ ← blobCurrent (dest.bytes.drop 6)
    ensure current.isSome .io
    emit (.blobRename name (dest.bytes.drop 6))

def BlobOp.argumentsValid : BlobOp → Bool
  | .replace data => data.length ≤ int64Max
  | .remove => true
  | .rename dest => blobValid dest.bytes

/-- The second name that an operation changes. -/
def BlobOp.snapshotDest (env : Env) : BlobOp → JournalM Unit
  | .rename dest => snapshotBlob env dest
  | _ => pure ()

/-- `dm_undo_blob` -/
def dmUndoBlob (env : Env) (op : BlobOp) (name : CString) : JournalM Unit := do
  let m ← get
  ensure (m.tx.state = .active) .invalid
  setState .abortOnly
  ensure (blobValid name.bytes && op.argumentsValid) .invalid
  snapshotBlob env name
  op.snapshotDest env
  let _ ← ofOption env.blobsDir .io
  op.mutate env (name.bytes.drop 6)
  setState .active

end UndoJournal
end Dataman

import Dataman.UndoJournal

/-!
# Reading and finishing a journal (`undo_journal.c`)

`scan` checks the whole journal before anything is touched; a record that is not
wholly there ends it. `finish` undoes the records from the last to the first, or
keeps their effects, marks the journal resolved and removes it.
-/

namespace Dataman
namespace UndoJournal
open ByteFiles FixedWidthFields FailState UndoLog

/-! ## The header -/

inductive Version
  | two
  | three
  | four
deriving DecidableEq

def readVersion (header : Bytes) : Option Version :=
  if header.take 8 = magic2 then some .two
  else if header.take 8 = magic3 then some .three
  else if header.take 8 = magic4 then some .four
  else none

/-- Check the header and the root; the version and where the records start. -/
def readHeader (env : Env) (journal : Bytes) : Option (Version × ℕ) := do
  let header ← readAt journal 0 headerSize
  let version ← readVersion header
  guard (get64 header 8 = env.journalDir.dev ∧ get64 header 16 = env.journalDir.ino ∧
    get32 header 48 = crc (header.take 48) ∧ get32 header 52 = 0)
  guard (version = .four ∨ journal.length ≤ maxJournal)
  let pathLength := get32 header 40
  guard (pathLength≠0 ∧ pathLength ≤ maxPath)
  let path ← readAt journal headerSize pathLength
  guard ((0 : UInt8)∉path ∧ path.head? = some slash ∧ get32 header 44 = crc path)
  let root ← env.openRoot path
  guard (get64 header 24 = root.dev ∧ get64 header 32 = root.ino)
  return (version,headerSize+pathLength)

/-! ## Records -/

/-- The fixed part of a record, checked. -/
structure Fixed where
  kind : Kind
  total : ℕ
  nameSize : ℕ
  length : ℕ
  offset : ℕ
  size : ℕ
  dev : ℕ
  ino : ℕ
  checksum : ℕ

def readFixed (version : Version) (seq : ℕ) (fixed : Bytes) : Option Fixed := do
  let kind ← Kind.ofCode (get32 fixed 4)
  let total := get32 fixed 16
  let nameSize := get32 fixed 20
  let length := get32 fixed 56
  guard (get32 fixed 64 = crc (fixed.take 64) ∧ get32 fixed 68 = 0 ∧ fixed.take 4 = Frame.magic)
  guard (get64 fixed 8 = (seq+1) % 2 ^ 64 ∧ seq≠2 ^ 64 - 1)
  guard (nameSize ≤ maxPath ∧ length ≤ maxWrite+(if kind = .blob then blobMeta else 0) ∧
    total = recordSize+nameSize+length)
  guard ((kind = .blob → version = .three) ∧ (kind = .blobStream → version = .four) ∧
    (kind≠.resolved → version≠.four → seq < maxRecords))
  return ⟨kind,total,nameSize,length,get64 fixed 24,get64 fixed 32,get64 fixed 40,get64 fixed 48,
    get32 fixed 60⟩

/-- The bytes that follow a record as its chunk stream. -/
def Fixed.extra (h : Fixed) : Option ℕ := if h.kind = .blobStream then blobStreamSize h.size else some 0

/-- A blob as a record remembers it. -/
structure BlobImage where
  chunks : List Bytes
  size : ℕ
  attr : Meta

/-- An entry that `scan` returns. -/
inductive Saved
  | undo (name : Bytes) (file : Ident) (im : Image)
  | blob (name : Bytes) (old : Option BlobImage)

def Saved.blobName : Saved → Option Bytes
  | .undo _ _ _ => none
  | .blob name _ => some name

theorem get32_lt (p : Bytes) (off : ℕ) : get32 p off < 2 ^ 32 := by
  have hlen : (slice p off 4).reverse.length ≤ 4 := by
    rw [List.length_reverse,length_slice]
    omega
  calc get32 p off < 256 ^ (slice p off 4).reverse.length := getBE_lt _
    _ ≤ 256 ^ 4 := Nat.pow_le_pow_right (by omega) hlen

def readMeta (bytes : Bytes) : Option Meta :=
  if h : get32 bytes 0 ≤ 0o7777 ∧ get32 bytes 12 = 0 then
    some ⟨get32 bytes 0,get32 bytes 4,get32 bytes 8,h.1,get32_lt _ _,get32_lt _ _⟩
  else none

/-- The contents in a blob record: behind the record, or before version 4 inside it. -/
def readContent (h : Fixed) (payload journal : Bytes) (stream : ℕ) : Option (List Bytes) :=
  if h.kind = .blobStream then blobStream journal stream h.size else some [slice payload blobMeta h.size]

/-- The contents and metadata in a blob record that says the blob was present. -/
def readBlobImage (h : Fixed) (payload journal : Bytes) (stream : ℕ) : Option BlobImage := do
  guard (h.length = blobMeta+(if h.kind = .blob then h.size else 0))
  let attr ← readMeta payload
  let cs ← readContent h payload journal stream
  return ⟨cs,h.size,attr⟩

def readBlobOld (h : Fixed) (payload journal : Bytes) (stream : ℕ) : Option (Option BlobImage) :=
  if h.offset = 0 then if h.length = 0 ∧ h.size = 0 then some none else none
  else if h.offset = 1 then (readBlobImage h payload journal stream).map some
  else none

/-- A blob record, its place in the directory included. -/
def readBlob (env : Env) (w : World) (h : Fixed) (record journal : Bytes) (stream : ℕ)
    (entries : List Saved) : Option Saved := do
  let name := slice record recordSize h.nameSize
  guard (blobValid name ∧ (0 : UInt8)∉name)
  guard (h.kind = .blob → h.size ≤ maxWrite)
  let old ← readBlobOld h (record.drop (recordSize+h.nameSize)) journal stream
  guard (∀ e∈entries,e.blobName≠some (name.drop 6))
  let parent ← env.blobsDir
  guard (parent.dev = h.dev ∧ parent.ino = h.ino)
  guard (w.files.slots (name.drop 6)≠some .foreign)
  return .blob (name.drop 6) old

/-- A byte record, its target included. -/
def readUndo (env : Env) (version : Version) (h : Fixed) (record : Bytes) : Option Saved := do
  let name := slice record recordSize h.nameSize
  guard (nameValid name ∧ (version≠.two → underBlobs name = false) ∧ (0 : UInt8)∉name)
  guard (h.offset ≤ int64Max ∧ h.size ≤ int64Max ∧ (h.length≠0 → h.offset+h.length ≤ h.size))
  let file ← env.target name
  guard (file.dev = h.dev ∧ file.ino = h.ino)
  return .undo name file ⟨h.offset,record.drop (recordSize+h.nameSize),h.size⟩

/-- What `scan` returns, oldest entry first. -/
structure Scan where
  entries : List Saved
  resolved : Bool
  endAt : ℕ
  sequence : ℕ

/-- One complete record: an entry, or nothing for the RESOLVED record at the very end. -/
def readRecord (env : Env) (w : World) (version : Version) (journal : Bytes) (pos : ℕ) (h : Fixed)
    (entries : List Saved) : Option (Option Saved) := do
  let record := slice journal pos h.total
  guard (h.checksum = crc (record.drop recordSize))
  match h.kind with
  | .resolved =>
    guard (h.total = recordSize ∧ slice record 20 36 = List.replicate 36 0 ∧ h.length = 0 ∧
      pos+h.total = journal.length)
    return none
  | .undo => (readUndo env version h record).map some
  | _ => (readBlob env w h record journal (pos+h.total) entries).map some

def scanFrom (env : Env) (w : World) (version : Version) (journal : Bytes) :
    ℕ → ℕ → ℕ → List Saved → Option Scan
  | 0,pos,seq,entries => if journal.length - pos < recordSize then some ⟨entries,false,pos,seq⟩ else none
  | fuel+1,pos,seq,entries =>
    if journal.length - pos < recordSize then some ⟨entries,false,pos,seq⟩
    else do
      let h ← readFixed version seq (slice journal pos recordSize)
      let extra ← h.extra
      if journal.length - pos < h.total+extra then some ⟨entries,false,pos,seq⟩
      else do
        let e ← readRecord env w version journal pos h entries
        match e with
        | none => some ⟨entries,true,pos+h.total,seq+1⟩
        | some e => scanFrom env w version journal fuel (pos+h.total+extra) (seq+1) (entries++[e])

def scan (env : Env) (w : World) (journal : Bytes) : Option Scan := do
  let start ← readHeader env journal
  scanFrom env w start.1 journal journal.length start.2 0 []

/-! ## Undoing -/

def writeChunks (name : Bytes) : ℕ → List Bytes → JournalM Unit
  | _,[] => pure ()
  | off,chunk::rest => do
    emit (.blobWrite name off chunk)
    writeChunks name (off+chunk.length) rest

/-- Give a blob its owners back if they differ. -/
def chownChanged (name : Bytes) (attr : Meta) : JournalM Unit := do
  let current ← blobCurrent name
  match current with
  | none => fail .io
  | some b =>
    if b.attr.uid≠attr.uid ∨ b.attr.gid≠attr.gid then emit (.blobChown name attr) else pure ()

def restoreBlob (env : Env) (name : Bytes) : Option BlobImage → JournalM Unit
  | none => do
    let m ← get
    if m.world.files.slots name = none then pure () else emit (.blobUnlink name)
  | some old => do
    createMissing env name 0o600
    writeChunks name 0 old.chunks
    emit (.blobTruncate name old.size)
    chownChanged name old.attr
    emit (.blobChmod name old.attr)

def undoEntry (env : Env) : Saved → JournalM Unit
  | .undo _ file im => do
    emit (.fileWrite file im.offset im.before)
    emit (.fileTruncate file im.size)
  | .blob name old => restoreBlob env name old

/-- Undo entries in the order given. -/
def undoEntries (env : Env) : List Saved → JournalM Unit
  | [] => pure ()
  | e::rest => do
    undoEntry env e
    undoEntries env rest

/-- Restore the old files, newest entry first, or keep the new ones. -/
def replay (env : Env) (undo : Bool) (entries : List Saved) : JournalM Unit :=
  if undo then undoEntries env entries.reverse else pure ()

/-! ## Finishing -/

def resolvedFrame (sequence : ℕ) : Frame := ⟨.resolved,sequence,[],0,0,0,0,[]⟩

def retire : JournalM Unit := emit .journalUnlink

def resolve : JournalM Unit := do
  let m ← get
  append (resolvedFrame (m.tx.sequence+1))
  retire

def finish (env : Env) (undo : Bool) : JournalM Unit := do
  let m ← get
  let journal ← ofOption m.world.journal .io
  let s ← ofOption (scan env m.world journal) .corrupt
  modify fun m => { m with tx := { m.tx with endAt := s.endAt,sequence := s.sequence } }
  if s.resolved then retire
  else do
    replay env undo s.entries
    emit (.journalTruncate s.endAt)
    resolve

/-- `dm_undo_commit` -/
def dmUndoCommit (env : Env) : JournalM Unit := do
  let m ← get
  ensure (m.tx.state = .active) .invalid
  setState .finished
  finish env false

/-- `dm_undo_abort` -/
def dmUndoAbort (env : Env) : JournalM Unit := do
  let m ← get
  ensure (m.tx.state≠.finished) .invalid
  setState .finished
  finish env true

/-- `dm_undo_recover` -/
def dmUndoRecover (env : Env) : JournalM Unit := do
  let m ← get
  if m.world.journal.isNone then pure () else finish env true

end UndoJournal
end Dataman

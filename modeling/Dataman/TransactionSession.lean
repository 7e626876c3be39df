import Dataman.IndexFile
import Dataman.JournalReplay

/-!
# The transaction manager (`transaction_session.c`)

One transaction at a time, for the session that owns it. Each function is its critical
section under `tx_mutex`, on the state of the process and of the thread that calls it.
A direct write leaves the mutex in the middle and is three sections.
-/

namespace Dataman.TransactionSession
open ByteFiles UndoJournal

/-! ## Codes -/

def eNoLock : ℤ := -8
def eNoAlloc : ℤ := -11
def eRecWrt : ℤ := -19
def eIdxNoO : ℤ := -28
def eNoConn : ℤ := -36
def eInvMsg : ℤ := -39
def eInXact : ℤ := -46
def eNoXact : ℤ := -47
def eRollback : ℤ := -48
def eMultiple : ℤ := -51

inductive Errno
  | io
  | busy
  | inval
  /-- From a direct write. -/
  | storage
  /-- From the journal. -/
  | undo (fault : Fault)
deriving DecidableEq

/-- A value returned; -1 with `errno` set; or a direct write that goes on without the mutex. -/
inductive Result
  | value (v : ℤ)
  | errno (e : Errno)
  | pending
deriving DecidableEq

/-- The value that the caller gets. -/
def Result.code : Result → ℤ
  | .value v => v
  | .errno _ => -1
  | .pending => 0

/-! ## The process -/

/-- `dm_tx_target` -/
structure Target where
  fd : ℤ
  path : CString
deriving DecidableEq

structure Scope where
  active : Bool := false
  shmid : ℤ := 0
  generation : ℕ := 0
  targets : List Target := []
deriving DecidableEq

/-- A direct write, and whether it succeeded once that is known. -/
structure DirectWrite where
  fd : ℤ
  data : Bytes
  offset : ℤ
  done : Option Bool := none
deriving DecidableEq

/-- The variables of a thread. -/
structure Thread where
  requestActive : Bool := false
  scope : Scope := {}
  direct : Option DirectWrite := none
deriving DecidableEq

/-- The fields of `INDEX` that the manager uses. -/
structure Index where
  idxchan : ℤ
  keylen : ℕ
  fCnt : ℕ
  rootpos : ℕ
  generation : ℕ

structure CachedIndex where
  index : ℕ
  fd : ℤ
  file : Ident
deriving DecidableEq

structure Manager where
  /-- `journal_directory` is set. -/
  configured : Bool := true
  databaseRoot : Option CString := none
  /-- The open journal, with the directories it works on. -/
  journal : Option (Env × Tx) := none
  owner : ℤ := -1
  failed : Bool := false
  blocked : Bool := false
  generation : ℕ := 0
  directWriters : ℕ := 0
  activeRequests : ℕ := 0
  ownerRequest : Bool := false
  cachedIndices : List CachedIndex := []

/-- The journal, the regular files by identity, and the blobs by root and name. -/
structure Disk where
  journal : Option Bytes
  files : Ident → Bytes
  blobs : Ident → Bytes → Option BlobEntry

/-- What a journal below one root is about. -/
def Disk.world (d : Disk) (env : Env) : World := ⟨d.journal,⟨d.files,d.blobs env.root⟩⟩

def Disk.setWorld (d : Disk) (env : Env) (w : World) : Disk :=
  ⟨w.journal,w.files.files,Function.update d.blobs env.root w.files.slots⟩

/-- What a thread sees in a critical section. -/
structure View where
  manager : Manager
  disk : Disk
  indices : ℕ → Index
  thread : Thread

/-- The open files of the process. -/
abbrev Descriptors := ℤ → Descriptor

/-- Where effects fail. -/
abbrev Budget := Option (ℕ × ℕ)

/-- Run a function of the journal that is open. -/
def View.undo (v : View) (p : Env → JournalM Unit) (budget : Budget) : Except Fault Unit × View :=
  match v.manager.journal with
  | none => (.error .invalid,v)
  | some (env,tx) =>
    let out := p env ⟨v.disk.world env,tx,budget⟩
    (out.1,
      { v with
        disk := v.disk.setWorld env out.2.world
        manager := { v.manager with journal := some (env,out.2.tx) } })

def View.fail (v : View) : View := { v with manager := { v.manager with failed := true } }

/-- The scope of the thread is one of the current transaction. -/
def View.inScope (v : View) : Bool :=
  v.thread.scope.active && v.thread.scope.shmid = v.manager.owner &&
    v.thread.scope.generation = v.manager.generation

/-! ## Requests without a transaction -/

def dmTxRequestEnter (v : View) : Result × View :=
  if v.thread.requestActive then (.value eInvMsg,v)
  else if v.manager.blocked then (.value eRollback,v)
  else if 0 ≤ v.manager.owner then (.value eNoLock,v)
  else
    (.value 0,
      { v with
        manager := { v.manager with activeRequests := v.manager.activeRequests+1 }
        thread := { v.thread with requestActive := true } })

def dmTxRequestLeave (v : View) : Result × View :=
  if v.thread.requestActive then
    (.value 0,
      { v with
        manager := { v.manager with activeRequests := v.manager.activeRequests - 1 }
        thread := { v.thread with requestActive := false } })
  else (.value 0,v)

/-! ## Routed changes -/

def routeWrite (os : Descriptors) (fd : ℤ) (data : Bytes) (offset : ℤ) (budget : Budget) (v : View) : Result × View :=
  if v.manager.blocked then (.errno .io,v)
  else if v.manager.owner < 0 ∧ ¬ v.thread.scope.active then
    (.pending,
      { v with
        manager := { v.manager with directWriters := v.manager.directWriters+1 }
        thread := { v.thread with direct := some { fd := fd,data := data,offset := offset } } })
  else if ¬ v.inScope then (.errno .busy,v)
  else if v.manager.failed then (.errno .io,v)
  else
    match v.thread.scope.targets.find? (·.fd = fd) with
    | none => (.errno .inval,v.fail)
    | some target =>
      match v.undo (dmUndoWriteFd · target.path (os fd) data offset) budget with
      | (.ok (),v) => (.value 0,v)
      | (.error e,v) => (.errno (.undo e),v.fail)

/-- The write itself, without the mutex; `n` bytes get to the file. -/
def transfer (os : Descriptors) (n : ℕ) (v : View) : Result × View :=
  match v.thread.direct with
  | none => (.pending,v)
  | some w =>
    match (os w.fd).file with
    | none => (.errno .storage,{ v with thread := { v.thread with direct := some { w with done := some false } } })
    | some file =>
      if w.offset < 0 ∨ (int64Max : ℤ) < w.offset+w.data.length then
        (.errno .storage,{ v with thread := { v.thread with direct := some { w with done := some false } } })
      else
        let whole : Bool := w.data.length ≤ n
        (if whole then .value 0 else .errno .storage,
          { v with
            disk :=
              { v.disk with
                files := Function.update v.disk.files file
                  (writeAt (v.disk.files file) w.offset.toNat (w.data.take n)) }
            thread := { v.thread with direct := some { w with done := some whole } } })

/-- The second half of a direct write. -/
def leaveWrite (v : View) : Result × View :=
  match v.thread.direct with
  | none => (.pending,v)
  | some w =>
    (if w.done = some true then .value 0 else .errno .storage,
      { v with
        manager := { v.manager with directWriters := v.manager.directWriters - 1 }
        thread := { v.thread with direct := none } })

def CString.drop (c : CString) (n : ℕ) : CString := ⟨c.bytes.drop n,fun h => c.nul_free (List.mem_of_mem_drop h)⟩

def relativeBlob (root path : CString) : Option CString :=
  if path.bytes.head? = some slash ∧ path.bytes.take root.bytes.length = root.bytes then
    if root.bytes.length = 1 then some (CString.drop path 1)
    else if (path.bytes.drop root.bytes.length).head? = some slash then
      some (CString.drop path (root.bytes.length+1))
    else none
  else none

/-- The operation with the name of its destination below the root. -/
def relativeOp (root : CString) : BlobOp → Option BlobOp
  | .rename dest => (relativeBlob root dest).map .rename
  | op => some op

def routeBlob (op : BlobOp) (path : CString) (budget : Budget) (v : View) : Result × View :=
  if v.manager.blocked then (.errno .io,v)
  else if v.manager.owner < 0 ∧ ¬ v.thread.scope.active then (.value 0,v)
  else if ¬ v.inScope then (.errno .busy,v)
  else if v.manager.failed then (.errno .io,v)
  else
    match v.manager.databaseRoot.bind (relativeBlob · path),v.manager.databaseRoot.bind (relativeOp · op) with
    | some name,some op =>
      match v.undo (dmUndoBlob · op name) budget with
      | (.ok (),v) => (.value 1,v)
      | (.error e,v) => (.errno (.undo e),v.fail)
    | _,_ => (.errno .inval,v.fail)

def namespaceCheck (v : View) : Result × View :=
  if v.manager.blocked ∨ 0 ≤ v.manager.owner then
    (.errno (if v.manager.blocked then .io else .busy),
      if v.thread.scope.active ∧ v.thread.scope.shmid = v.manager.owner then v.fail else v)
  else (.value 0,v)

/-! ## Scopes -/

def targetsValid (targets : List Target) : Bool :=
  targets.all (fun t => 0 ≤ t.fd && t.path.bytes≠[]) && (targets.map Target.fd).Nodup

def dmTxEnter (shmid : ℤ) (targets : List Target) (v : View) : Result × View :=
  if v.thread.scope.active ∨ ¬ targetsValid targets then (.value eInvMsg,v)
  else if v.manager.blocked then (.value eRollback,v)
  else if v.manager.owner < 0 ∨ v.manager.owner≠shmid then (.value eNoXact,v)
  else if v.manager.failed then (.value eRecWrt,v)
  else if v.manager.ownerRequest then (.value eNoLock,v)
  else
    (.value 0,
      { v with
        manager := { v.manager with ownerRequest := true }
        thread := { v.thread with scope := ⟨true,shmid,v.manager.generation,targets⟩ } })

def dmTxBind (targets : List Target) (v : View) : Result × View :=
  if ¬ v.thread.scope.active ∨ ¬ targetsValid targets then (.value eInvMsg,v)
  else (.value 0,{ v with thread := { v.thread with scope := { v.thread.scope with targets := targets } } })

def dmTxComplete (result : ℤ) (v : View) : Result × View :=
  if v.thread.scope.active then
    (.value 0,
      { v with
        manager := { v.manager with failed := v.manager.failed || result < 0,ownerRequest := false }
        thread := { v.thread with scope := {} } })
  else (.value 0,v)

def dmTxTrackIndex (os : Descriptors) (alloc : Bool) (index : Option ℕ) (v : View) : Result × View :=
  if v.manager.blocked then (.value eRollback,v)
  else if v.manager.owner < 0 then (.value (if v.thread.scope.active then eNoXact else 0),v)
  else if ¬ v.inScope then (.value eNoLock,v)
  else if v.manager.failed then (.value eRecWrt,v)
  else
    match index.bind fun i => (os (v.indices i).idxchan).file.map fun file => CachedIndex.mk i (v.indices i).idxchan file with
    | none => (.value eIdxNoO,v.fail)
    | some entry =>
      match v.manager.cachedIndices.find? (·.index = entry.index) with
      | some cached => if cached = entry then (.value 0,v) else (.value eIdxNoO,v.fail)
      | none =>
        if ¬ alloc then (.value eNoAlloc,v.fail)
        else (.value 0,{ v with manager := { v.manager with cachedIndices := entry::v.manager.cachedIndices } })

/-! ## Transactions -/

/-- A journal that is not open. -/
def closedTx : Tx := ⟨.finished,0,0,[]⟩

/-- `begin_registered`, for a session that is registered with a root; `alloc` tells whether
there is memory. -/
def dmTxBegin (shmid : ℤ) (env : Env) (alloc : Bool) (budget : Budget) (v : View) : Result × View :=
  if v.manager.blocked then (.value eRollback,v)
  else if ¬ v.manager.configured ∨ shmid < 0 then (.value eInvMsg,v)
  else if v.manager.owner = shmid then (.value eInXact,v)
  else if 0 ≤ v.manager.owner ∨ v.manager.directWriters≠0 ∨ v.manager.activeRequests≠0 then (.value eNoLock,v)
  else if v.manager.generation = 2 ^ 64 - 1 then (.value eInvMsg,v)
  else if ¬ alloc then (.value eNoAlloc,v)
  else
    match dmUndoBegin env ⟨v.disk.world env,closedTx,budget⟩ with
    | (.ok (),out) =>
      (.value 0,
        { v with
          disk := v.disk.setWorld env out.world
          manager :=
            { v.manager with
              databaseRoot := some env.rootPath
              journal := some (env,out.tx)
              owner := shmid
              failed := false
              generation := v.manager.generation+1 } })
    | (.error _,out) =>
      (.value eRollback,
        { v with
          disk := v.disk.setWorld env out.world
          manager := { v.manager with databaseRoot := some env.rootPath,owner := shmid,blocked := true } })

/-- `dm_tx_write`, and with a descriptor `dm_tx_write_fd`. -/
def writeTarget (shmid : ℤ) (path : CString) (check : Option Descriptor) (data : Bytes) (offset : ℤ) (budget : Budget)
    (v : View) : Result × View :=
  if v.manager.blocked then (.value eRollback,v)
  else if v.manager.owner < 0 ∨ v.manager.owner≠shmid then (.value eNoXact,v)
  else if v.manager.ownerRequest ∧ ¬ v.thread.scope.active then (.value eNoLock,v)
  else if v.manager.failed then (.value eRecWrt,v)
  else
    match v.undo (UndoJournal.writeTarget · path check data offset) budget with
    | (.ok (),v) => (.value 0,v)
    | (.error _,v) => (.value eRecWrt,v.fail)

/-- The root and the generation in the header of an index that has not changed otherwise. -/
def refreshed (os : Descriptors) (v : View) (entry : CachedIndex) : Option IndexFile.Slot := do
  let index := v.indices entry.index
  guard (index.idxchan = entry.fd ∧ (os entry.fd).file = some entry.file)
  let header ← IndexFile.indexV2ReadHeader (v.disk.files entry.file)
  guard (header.keylen = index.keylen ∧ header.fileCount = index.fCnt ∧ header.root.rootOffset ≤ int64Max)
  return header.root

/-- Every index is checked before the first is changed. -/
def refreshIndices (os : Descriptors) (v : View) : Option View :=
  if v.manager.cachedIndices.all fun entry => (refreshed os v entry).isSome then
    let publish := fun (indices : ℕ → Index) entry =>
      match refreshed os v entry with
      | none => indices
      | some root =>
        Function.update indices entry.index
          { indices entry.index with rootpos := root.rootOffset,generation := root.generation }
    some
      { v with
        indices := v.manager.cachedIndices.foldl publish v.indices
        manager := { v.manager with cachedIndices := [] } }
  else none

/-- Commit or abort the journal. -/
def endJournal (commit : Bool) (env : Env) : JournalM Unit := if commit then dmUndoCommit env else dmUndoAbort env

/-- After that, the journal is closed. -/
def View.close (v : View) (commit : Bool) (budget : Budget) : View :=
  let out := (v.undo (endJournal commit) budget).2
  { out with manager := { out.manager with journal := none } }

def finish (os : Descriptors) (shmid : ℤ) (commit disconnect : Bool) (budget : Budget) (v : View) : Result × View :=
  if v.manager.blocked then (.value eRollback,v)
  else if v.manager.owner < 0 ∨ v.manager.owner≠shmid then (.value (if disconnect then 0 else eNoXact),v)
  else if v.manager.ownerRequest then (.value eNoLock,v)
  else if commit ∧ v.manager.failed then (.value eRecWrt,v)
  else
    let closed := v.close commit budget
    match (v.undo (endJournal commit) budget).1,refreshIndices os closed with
    | .ok (),some v =>
      (.value 0,{ v with manager := { v.manager with owner := -1,failed := false,databaseRoot := none } })
    | _,_ =>
      (.value (if commit then eMultiple else eRollback),
        { closed with manager := { closed.manager with blocked := true } })

def dmTxCommit (os : Descriptors) (shmid : ℤ) (budget : Budget) : View → Result × View := finish os shmid true false budget
def dmTxAbort (os : Descriptors) (shmid : ℤ) (budget : Budget) : View → Result × View := finish os shmid false false budget
def dmTxDisconnect (os : Descriptors) (shmid : ℤ) (budget : Budget) : View → Result × View :=
  finish os shmid false true budget

end Dataman.TransactionSession

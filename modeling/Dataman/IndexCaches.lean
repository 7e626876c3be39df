import Dataman.StandaloneCommands

/-!
# Cached roots of indices

Every slot of an open index caches the root and the generation of its file. The handlers
change the slot they work on; other slots that are open on the same file are found by the
scan of `execute` (`transaction_wire.c`), and all of them are refreshed when the
transaction ends.
-/

namespace Dataman.IndexCaches
open UndoJournal TransactionSession SessionRoot
open TransactionWire (Refusal Answers beginSession commitSession abortSession finishImplicit dmTxDispatch answer)

def eNotOpen : ℤ := -17

/-! ## The scan for aliases -/

/-- What is behind the descriptors: for the journal, and for `fstat`. -/
structure System where
  os : Descriptors
  stat : ℤ → Option Ident
  regular : ∀ fd file,(os fd).file = some file → stat fd = some file

/-- What stays as it is in `_indices` while a transaction runs; no slot is opened or closed. -/
structure Table where
  idxCnt : ℕ
  refcnt : ℕ → ℤ

/-- A slot in use. -/
def Table.Open (table : Table) (i : ℕ) : Prop := i < table.idxCnt ∧ table.refcnt i≠0

/-- Whether one of the files that are bound is this one; none if `fstat` fails before it is found. -/
def aliased (sys : System) (file : Ident) : List Target → Option Bool
  | [] => some false
  | target::targets =>
    match sys.stat target.fd with
    | none => none
    | some other => if other = file then some true else aliased sys file targets

/-- The slots that are open on a bound file are registered, up to a failure. -/
def scan (sys : System) (table : Table) (alloc : ℕ → Bool) (targets : List Target) : List ℕ → View → ℤ × View
  | [],v => (0,v)
  | i::is,v =>
    if table.refcnt i = 0 then scan sys table alloc targets is v
    else
      match sys.stat (v.indices i).idxchan with
      | none => scan sys table alloc targets is v
      | some file =>
        match aliased sys file targets with
        | none => (eNotOpen,v)
        | some false => scan sys table alloc targets is v
        | some true =>
          let out := dmTxTrackIndex sys.os (alloc i) (some i) v
          if out.1.code < 0 then (out.1.code,out.2) else scan sys table alloc targets is out.2

/-! ## Handlers -/

structure Write where
  fd : ℤ
  data : Bytes
  offset : ℤ
  budget : Budget

def Write.run (sys : System) (w : Write) (v : View) : View := (routeWrite sys.os w.fd w.data w.offset w.budget v).2

def publish (i root generation : ℕ) (v : View) : View :=
  { v with indices := Function.update v.indices i { v.indices i with rootpos := root,generation := generation } }

/-- What INCLUDE and `rm_key` do to an index: the slot is registered, `index_v2_insert` or
`index_v2_remove` writes, and if that succeeds the slot gets the root and the generation. -/
def maintain (sys : System) (i : ℕ) (alloc : Bool) (writes : List Write) (root : Option (ℕ × ℕ)) (v : View) : View :=
  let out := dmTxTrackIndex sys.os alloc (some i) v
  if out.1.code < 0 then out.2
  else
    let written := writes.foldl (fun v w => w.run sys v) out.2
    match root with
    | none => written
    | some root => publish i root.1 root.2 written

/-- What handlers do. A lookup maintains its index for every entry that it prunes. -/
inductive Op
  | write (w : Write)
  | blob (op : BlobOp) (path : CString) (budget : Budget)
  | check
  | maintain (i : ℕ) (alloc : Bool) (writes : List Write) (root : Option (ℕ × ℕ))

def Op.run (sys : System) : Op → View → View
  | write w,v => w.run sys v
  | blob op path budget,v => (routeBlob op path budget v).2
  | check,v => (namespaceCheck v).2
  | maintain i alloc writes root,v => IndexCaches.maintain sys i alloc writes root v

def runAll (sys : System) (ops : List Op) (v : View) : View := ops.foldl (fun v op => op.run sys v) v

variable {μ : Type}

/-- What a handler does, what it returns, and its memory afterwards. -/
structure Handling (μ : Type) where
  ops : List Op
  value : ℤ
  memory : μ

/-! ## Commands -/

/-- A request: the files that `bind_index` binds for its message, or that it is not valid; a handler
decides by the server that it finds. -/
structure Request (μ : Type) where
  copy : Probe
  bound : Server μ → Except Refusal (List Target)
  alloc : ℕ → Bool
  handler : Server μ → Handling μ

def execute (sys : System) (table : Table) (shmid : ℤ) (r : Request μ) (s : Server μ) : ℤ × Server μ :=
  let copied := sessionRootCopy r.copy shmid s
  if ¬ copied.1 then (eNoConn,copied.2)
  else
    match r.bound copied.2 with
    | .error e => (e.code,copied.2)
    | .ok targets =>
      let scanned := scan sys table r.alloc targets (List.range table.idxCnt) copied.2.view
      if scanned.1 < 0 then (scanned.1,{ copied.2 with view := scanned.2 })
      else
        let bound := dmTxBind targets scanned.2
        let ready := { copied.2 with view := bound.2 }
        if bound.1.code < 0 then (bound.1.code,ready)
        else
          ((r.handler ready).value,
            { ready with view := runAll sys (r.handler ready).ops ready.view,memory := (r.handler ready).memory })

/-- A command with a handler: a transaction of its own unless the session has one. -/
def request (sys : System) (table : Table) (a : Answers) (shmid : ℤ) (r : Request μ) (s : Server μ) : ℤ × Server μ :=
  let begun := beginSession a shmid s
  if begun.1 < 0 ∧ begun.1≠eInXact then begun
  else
    let out := dmTxDispatch a.dispatch shmid (execute sys table shmid r) begun.2
    if begun.1 = 0 then finishImplicit a shmid out.1 out.2 else out

/-- The commands of `dm_tx_wire` that do not manage objects. -/
inductive Wire (μ : Type)
  | startXact (a : Answers) (shmid : ℤ)
  | commit (a : Answers) (shmid : ℤ)
  | rollback (a : Answers) (shmid : ℤ)
  | request (a : Answers) (shmid : ℤ) (r : Request μ)

def Wire.run (sys : System) (table : Table) : Wire μ → Server μ → ℤ × Server μ
  | startXact a shmid,s => answer (beginSession a shmid s)
  | commit a shmid,s => answer (commitSession a shmid s)
  | rollback a shmid,s => answer (abortSession a.os a.finishBudget shmid s)
  | request a shmid r,s => IndexCaches.request sys table a shmid r s

/-- Commands one after the other. -/
def serve (sys : System) (table : Table) (cmds : List (Wire μ)) (s : Server μ) : Server μ :=
  cmds.foldl (fun s cmd => (cmd.run sys table s).2) s

end Dataman.IndexCaches

import Dataman.SessionRoot

/-!
# Commands as transactions (`transaction_dispatch.c`, `transaction_wire.c`)

A command outside of a transaction is a transaction of its own: it is begun, its handler
runs in a scope, and it is committed or aborted by what the handler returns.
-/

namespace Dataman.TransactionWire
open UndoJournal TransactionSession SessionRoot

/-! ## Codes -/

def rollback : ℤ := -3
def commit : ℤ := -2
def startXact : ℤ := -1
def protect : ℤ := 8
def initDat : ℤ := 10
def release : ℤ := 11
def mkIdx : ℤ := 12
def clear : ℤ := 18
def iOpen : ℤ := 19
def iClose : ℤ := 20
def sort : ℤ := 21
def defRoot : ℤ := 22

/-- The commands that manage objects. -/
def maintenance : List ℤ := [initDat,defRoot,mkIdx,iOpen,iClose,sort,release]

/-! ## Handlers -/

/-- What a handler does to the database. -/
inductive Routed
  | write (os : Descriptors) (fd : ℤ) (data : Bytes) (offset : ℤ) (budget : Budget)
  | blob (op : BlobOp) (path : CString) (budget : Budget)
  | track (os : Descriptors) (alloc : Bool) (index : Option ℕ)
  | check

def Routed.run : Routed → View → Result × View
  | write os fd data offset budget => routeWrite os fd data offset budget
  | blob op path budget => routeBlob op path budget
  | track os alloc index => dmTxTrackIndex os alloc index
  | check => namespaceCheck

/-- Operations one after the other. -/
def runAll (ops : List Routed) (v : View) : View := ops.foldl (fun v op => (op.run v).2) v

/-- What a handler does, what it returns, and its memory afterwards. -/
structure Handling (μ : Type) where
  ops : List Routed
  value : ℤ
  memory : μ

variable {μ : Type}

/-- A handler decides by the server that it finds. -/
abbrev Handler (μ : Type) := Server μ → Handling μ

def runHandler (h : Handler μ) (s : Server μ) : ℤ × Server μ :=
  ((h s).value,{ s with view := runAll (h s).ops s.view,memory := (h s).memory })

/-- An error code. -/
structure Refusal where
  code : ℤ
  negative : code < 0

/-! ## Requests -/

/-- `struct request`: the answers of the system to it, and what its message says: the files
it is about and the indices on them, or that it is not valid. -/
structure Request (μ : Type) where
  copy : Probe
  message : Server μ → Except Refusal (List Target × List ℕ)
  os : Descriptors
  alloc : Bool
  handler : Handler μ

/-- The indices that are registered before the handler runs, up to a failure. -/
def trackAll (os : Descriptors) (alloc : Bool) : List ℕ → View → ℤ × View
  | [],v => (0,v)
  | i::is,v =>
    let out := dmTxTrackIndex os alloc (some i) v
    if out.1.code < 0 then (out.1.code,out.2) else trackAll os alloc is out.2

/-- `execute` up to the handler. -/
def prepare (shmid : ℤ) (r : Request μ) (s : Server μ) : Except (ℤ × Server μ) (Server μ) :=
  let copied := sessionRootCopy r.copy shmid s
  if ¬ copied.1 then .error (eNoConn,copied.2)
  else
    match r.message copied.2 with
    | .error e => .error (e.code,copied.2)
    | .ok (targets,indices) =>
      let tracked := trackAll r.os r.alloc indices copied.2.view
      if tracked.1 < 0 then .error (tracked.1,{ copied.2 with view := tracked.2 })
      else
        let bound := dmTxBind targets tracked.2
        if bound.1.code < 0 then .error (bound.1.code,{ copied.2 with view := bound.2 })
        else .ok { copied.2 with view := bound.2 }

def execute (shmid : ℤ) (r : Request μ) (s : Server μ) : ℤ × Server μ :=
  match prepare shmid r s with
  | .error out => out
  | .ok s => runHandler r.handler s

/-- `dm_tx_dispatch` with no files of its own. -/
def dmTxDispatch (p : Probe) (shmid : ℤ) (handler : Server μ → ℤ × Server μ) (s : Server μ) : ℤ × Server μ :=
  let entered := sessionRootUse p shmid (fun _ => dmTxEnter shmid []) s
  if entered.1 = 0 then
    let out := handler entered.2
    (out.1,{ out.2 with view := (dmTxComplete out.1 out.2.view).2 })
  else entered

/-! ## Commands -/

/-- The answers of the system to a command. -/
structure Answers where
  begin : Probe
  alloc : Bool
  beginBudget : Budget
  dispatch : Probe
  os : Descriptors
  finishBudget : Budget
  abortBudget : Budget

/-- `dm_tx_begin` -/
def beginSession (a : Answers) (shmid : ℤ) (s : Server μ) : ℤ × Server μ :=
  sessionRootUse a.begin shmid (fun env => dmTxBegin shmid env a.alloc a.beginBudget) s

def commitSession (a : Answers) (shmid : ℤ) (s : Server μ) : ℤ × Server μ :=
  let out := dmTxCommit a.os shmid a.finishBudget s.view
  (out.1.code,{ s with view := out.2 })

def abortSession (os : Descriptors) (budget : Budget) (shmid : ℤ) (s : Server μ) : ℤ × Server μ :=
  let out := dmTxAbort os shmid budget s.view
  (out.1.code,{ s with view := out.2 })

/-- The end of a command with a transaction of its own. -/
def finishImplicit (a : Answers) (shmid result : ℤ) (s : Server μ) : ℤ × Server μ :=
  let ended := if result < 0 then abortSession a.os a.finishBudget shmid s else commitSession a shmid s
  if ended.1 = eRecWrt then
    let aborted := abortSession a.os a.abortBudget shmid ended.2
    if aborted.1 < 0 then aborted else (ended.1,aborted.2)
  else if ended.1 < 0 then ended
  else (result,ended.2)

/-- A command with a handler that routes its changes. -/
def standalone (a : Answers) (shmid : ℤ) (r : Request μ) (s : Server μ) : ℤ × Server μ :=
  let begun := beginSession a shmid s
  if begun.1 < 0 ∧ begun.1≠eInXact then begun
  else
    let out := dmTxDispatch a.dispatch shmid (execute shmid r) begun.2
    if begun.1 = 0 then finishImplicit a shmid out.1 out.2 else out

/-- The length of the answer `0|1|`. -/
def answer (out : ℤ × Server μ) : ℤ × Server μ := if out.1 < 0 then out else (4,out.2)

/-- A command that the server takes from its queue, and the thread that takes it. -/
structure Job (μ : Type) where
  thread : Thread
  shmid : ℤ
  command : ℤ
  /-- The message goes on after the command. -/
  trailing : Bool
  answers : Answers
  request : Request μ
  /-- The handler of a command that manages objects. -/
  manage : Server μ → ℤ × Server μ

def dmTxWire (j : Job μ) (s : Server μ) : ℤ × Server μ :=
  if j.command < 0 then
    if j.trailing then (eInvMsg,s)
    else if j.command = startXact then answer (beginSession j.answers j.shmid s)
    else if j.command = commit then answer (commitSession j.answers j.shmid s)
    else if j.command = rollback then
      answer (abortSession j.answers.os j.answers.finishBudget j.shmid s)
    else (eInvMsg,s)
  else if j.command∈maintenance then
    let out := dmTxRequestEnter s.view
    if out.1.code < 0 then (out.1.code,s)
    else
      let managed := j.manage { s with view := out.2 }
      (managed.1,{ managed.2 with view := (dmTxRequestLeave managed.2.view).2 })
  else standalone j.answers j.shmid j.request s

/-- A job, with the variables of the thread that does it. -/
def Job.run (j : Job μ) (s : Server μ) : ℤ × Server μ := dmTxWire j { s with view := { s.view with thread := j.thread } }

end Dataman.TransactionWire

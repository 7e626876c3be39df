import Dataman.Admission
import Dataman.LabelledRuns
import Dataman.TransactionMoves

/-!
# Threads and sessions of the transaction manager

Any number of threads call the manager for any number of sessions. What one section does
is said once, as a move, and the invariants of the manager are read off the moves.
-/

namespace Dataman.TransactionSession
open ByteFiles UndoJournal

/-! ## Calls -/

/-- The sections a thread can be in, with what the environment has for them. -/
inductive Call
  | requestEnter
  | requestLeave
  | routeWrite (os : Descriptors) (fd : ℤ) (data : Bytes) (offset : ℤ) (budget : Budget)
  | transfer (os : Descriptors) (n : ℕ)
  | leaveWrite
  | routeBlob (op : BlobOp) (path : CString) (budget : Budget)
  | namespaceCheck
  | enter (shmid : ℤ) (targets : List Target)
  | bind (targets : List Target)
  | complete (result : ℤ)
  | trackIndex (os : Descriptors) (alloc : Bool) (index : Option ℕ)
  | begin (shmid : ℤ) (env : Env) (alloc : Bool) (budget : Budget)
  | write (shmid : ℤ) (path : CString) (check : Option Descriptor) (data : Bytes) (offset : ℤ) (budget : Budget)
  | commit (os : Descriptors) (shmid : ℤ) (budget : Budget)
  | abort (os : Descriptors) (shmid : ℤ) (budget : Budget)
  | disconnect (os : Descriptors) (shmid : ℤ) (budget : Budget)

def Call.run : Call → View → Result × View
  | requestEnter => dmTxRequestEnter
  | requestLeave => dmTxRequestLeave
  | routeWrite os fd data offset budget => TransactionSession.routeWrite os fd data offset budget
  | transfer os n => TransactionSession.transfer os n
  | leaveWrite => TransactionSession.leaveWrite
  | routeBlob op path budget => TransactionSession.routeBlob op path budget
  | namespaceCheck => TransactionSession.namespaceCheck
  | enter shmid targets => dmTxEnter shmid targets
  | bind targets => dmTxBind targets
  | complete result => dmTxComplete result
  | trackIndex os alloc index => dmTxTrackIndex os alloc index
  | begin shmid env alloc budget => dmTxBegin shmid env alloc budget
  | write shmid path check data offset budget => writeTarget shmid path check data offset budget
  | commit os shmid budget => dmTxCommit os shmid budget
  | abort os shmid budget => dmTxAbort os shmid budget
  | disconnect os shmid budget => dmTxDisconnect os shmid budget

/-- A thread in a direct write does nothing else before it has left it. -/
def Call.Enabled (th : Thread) : Call → Prop
  | transfer _ _ => ∃ w,th.direct = some w ∧ w.done = none
  | leaveWrite => ∃ w,th.direct = some w ∧ w.done≠none
  | _ => th.direct = none

variable {τ : Type} [DecidableEq τ]

structure State (τ : Type) where
  manager : Manager
  disk : Disk
  indices : ℕ → Index
  threads : τ → Thread

def State.view (s : State τ) (t : τ) : View := ⟨s.manager,s.disk,s.indices,s.threads t⟩

def State.set (s : State τ) (t : τ) (v : View) : State τ :=
  ⟨v.manager,v.disk,v.indices,Function.update s.threads t v.thread⟩

/-- A section with its thread, its result, and whether the thread had a scope. -/
structure Event (τ : Type) where
  thread : τ
  inScope : Bool
  call : Call
  result : Result

def State.event (s : State τ) (t : τ) (c : Call) : Event τ :=
  ⟨t,(s.threads t).scope.active,c,(c.run (s.view t)).1⟩

def State.next (s : State τ) (t : τ) (c : Call) : State τ := s.set t (c.run (s.view t)).2

inductive Step (s : State τ) : Event τ → State τ → Prop
  | call (t : τ) (c : Call) (enabled : c.Enabled (s.threads t)) : Step s (s.event t c) (s.next t c)

/-- The process after startup: no journal, and `off_t` bounds the lengths of files. -/
structure Initial (s : State τ) : Prop where
  manager : s.manager = { configured := s.manager.configured }
  threads : s.threads = fun _ => {}
  journal : s.disk.journal = none
  sized : ∀ file,(s.disk.files file).length ≤ int64Max

/-! ## Sections as changes of the admission -/

def Manager.core (m : Manager) : Admission.Core :=
  ⟨m.owner,m.blocked,m.generation,m.directWriters,m.activeRequests,m.ownerRequest,m.journal.isSome⟩

def Thread.local (th : Thread) : Admission.Local :=
  ⟨th.requestActive,th.direct.isSome,if th.scope.active then some (th.scope.shmid,th.scope.generation) else none⟩

variable {v : View} {c : Call}

@[simp] theorem undo_core (p : Env → JournalM Unit) (budget : Budget) :
    (v.undo p budget).2.manager.core = v.manager.core := by
  unfold View.undo
  split
  · rfl
  · rename_i hj
    simp [Manager.core,hj]

@[simp] theorem undo_thread (p : Env → JournalM Unit) (budget : Budget) :
    (v.undo p budget).2.thread = v.thread := by
  unfold View.undo
  split <;> rfl

@[simp] theorem fail_thread : v.fail.thread = v.thread := rfl

/-- From one view to another by a change of the admission. -/
def Changes (v v' : View) : Prop :=
  Admission.Change v.manager.core v.thread.local v'.manager.core v'.thread.local

theorem changes_refl : Changes v v := .same

/-- Owner, counters and scope stay as they are. -/
theorem changes_of_eq {v' : View} (hm : v'.manager.core = v.manager.core) (ht : v'.thread.local = v.thread.local) :
    Changes v v' := by
  rw [Changes,hm,ht]
  exact .same

theorem changes_fail : Changes v v.fail := changes_of_eq rfl rfl

theorem changes_requestEnter : Changes v (dmTxRequestEnter v).2 := by
  unfold dmTxRequestEnter
  split
  · exact changes_refl
  split
  · exact changes_refl
  split
  · exact changes_refl
  · rename_i hidle _ hfree
    exact .enterRequest (by simpa [Thread.local] using hidle) (by simpa [Manager.core] using hfree)

theorem changes_requestLeave : Changes v (dmTxRequestLeave v).2 := by
  unfold dmTxRequestLeave
  split
  · rename_i hactive
    exact .leaveRequest hactive
  · exact changes_refl

theorem Performs.changes {call : UndoJournal.Call} {budget : Budget} {good : Result} {bad : Fault → Result}
    {out : Result × View} (h : Performs v call budget good bad out) : Changes v out.2 := by
  cases h with
  | done ok => exact changes_of_eq (undo_core _ budget) (by rw [undo_thread])
  | broken e error => exact changes_of_eq (undo_core _ budget) (by rw [fail_thread,undo_thread])

theorem Acts.changes {v' : View} (h : Acts v v') (hdirect : v.thread.direct = none) : Changes v v' := by
  cases h with
  | same => exact changes_refl
  | fails => exact changes_fail
  | admits free w => exact .admitWrite (by simp [Thread.local,hdirect]) free
  | tracks indices => exact changes_of_eq rfl rfl
  | performs serving run => exact run.changes

theorem changes_transfer {os : Descriptors} {n : ℕ} : Changes v (transfer os n v).2 := by
  unfold transfer
  split
  · exact changes_refl
  · rename_i hdirect
    split
    · exact changes_of_eq rfl (by simp [Thread.local,hdirect])
    split <;> exact changes_of_eq rfl (by simp [Thread.local,hdirect])

theorem changes_leaveWrite : Changes v (leaveWrite v).2 := by
  unfold leaveWrite
  split
  · exact changes_refl
  · rename_i hdirect
    exact .leaveWrite (by simp [Thread.local,hdirect])

theorem changes_enter {shmid : ℤ} {targets : List Target} : Changes v (dmTxEnter shmid targets v).2 := by
  unfold dmTxEnter
  split
  · exact changes_refl
  split
  · exact changes_refl
  split
  · exact changes_refl
  split
  · exact changes_refl
  split
  · exact changes_refl
  · rename_i hidle hblocked howner _ halone
    rw [not_or] at hidle howner
    have howned : v.manager.owner = shmid := by simpa using howner.2
    subst howned
    exact .enter (by simpa [Thread.local] using hidle.1) (by simpa [Manager.core] using howner.1)
      (by simpa [Manager.core] using hblocked) (by simpa [Manager.core] using halone)

theorem changes_bind {targets : List Target} : Changes v (dmTxBind targets v).2 := by
  unfold dmTxBind
  split
  · exact changes_refl
  · exact changes_of_eq rfl rfl

theorem changes_complete {result : ℤ} : Changes v (dmTxComplete result v).2 := by
  unfold dmTxComplete
  split
  · rename_i hactive
    exact .complete (by simp [Thread.local,hactive])
  · exact changes_refl

theorem changes_begin {shmid : ℤ} {env : Env} {alloc : Bool} {budget : Budget} :
    Changes v (dmTxBegin shmid env alloc budget v).2 := by
  have hcases := begin_cases shmid env alloc budget v
  generalize dmTxBegin shmid env alloc budget v = out at hcases
  cases hcases with
  | refused r negative => exact changes_refl
  | begun start out run => exact .begin shmid start.valid start.free start.running start.quiet
  | failed start e out run => exact .beginFailed shmid start.valid start.free start.running start.quiet

theorem close_core (commit : Bool) (budget : Budget) :
    (v.close commit budget).manager.core = { v.manager.core with journal := false } := by
  have hundo := @undo_core v (endJournal commit) budget
  simp only [Manager.core,Admission.Core.mk.injEq] at hundo
  obtain ⟨h1,h2,h3,h4,h5,h6,-⟩ := hundo
  simp [Manager.core,View.close,h1,h2,h3,h4,h5,h6]

theorem close_thread (commit : Bool) (budget : Budget) : (v.close commit budget).thread = v.thread := undo_thread _ _

theorem changes_finish {os : Descriptors} {shmid : ℤ} {commit disconnect : Bool} {budget : Budget} :
    Changes v (finish os shmid commit disconnect budget v).2 := by
  obtain ⟨r,_,heq⟩ | ⟨hfin,⟨v',_,hfresh,heq⟩ | heq⟩ := finish_cases os shmid commit disconnect budget v
  · rw [heq]
    exact changes_refl
  · obtain ⟨hmanager,_,hthread⟩ := refreshIndices_eq hfresh
    have hcore : ({ v'.manager with owner := -1,failed := false,databaseRoot := none } : Manager).core =
        { v.manager.core with owner := -1,journal := false } := by
      have hclose := @close_core v commit budget
      simp only [Manager.core,Admission.Core.mk.injEq] at hclose
      simp [hmanager,Manager.core,hclose]
    rw [heq,Changes,hcore,hthread,close_thread]
    exact .finish hfin.owned hfin.running hfin.alone
  · have hcore : ({ (v.close commit budget).manager with blocked := true } : Manager).core =
        { v.manager.core with blocked := true,journal := false } := by
      have hclose := @close_core v commit budget
      simp only [Manager.core,Admission.Core.mk.injEq] at hclose
      simp [Manager.core,hclose]
    rw [heq,Changes,hcore,close_thread]
    exact .finishFailed hfin.owned hfin.running hfin.alone

theorem Call.changes (hs : Owned v) (henabled : c.Enabled v.thread) : Changes v (c.run v).2 := by
  cases c with
  | requestEnter => exact changes_requestEnter
  | requestLeave => exact changes_requestLeave
  | routeWrite os fd data offset budget => exact (acts_routeWrite os fd data offset budget hs).changes henabled
  | transfer os n => exact changes_transfer
  | leaveWrite => exact changes_leaveWrite
  | routeBlob op path budget => exact (acts_routeBlob op path budget hs).changes henabled
  | namespaceCheck => exact (acts_namespaceCheck v).changes henabled
  | enter shmid targets => exact changes_enter
  | bind targets => exact changes_bind
  | complete result => exact changes_complete
  | trackIndex os alloc index => exact (acts_trackIndex os alloc index v).changes henabled
  | begin shmid env alloc budget => exact changes_begin
  | write shmid path check data offset budget => exact (acts_write shmid path check data offset budget v).changes henabled
  | commit os shmid budget => exact changes_finish
  | abort os shmid budget => exact changes_finish
  | disconnect os shmid budget => exact changes_finish

end Dataman.TransactionSession

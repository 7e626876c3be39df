import Dataman.TransactionSession
import Dataman.UndoSessions

/-!
# What the sections of the transaction manager do

Each section that has more than a few ways to go is inverted once: why it refuses, and
what it does when it goes on.
-/

namespace Dataman.TransactionSession
open UndoJournal

variable {v : View} {budget : Budget}

theorem undo_eq {env : Env} {tx : Tx} (hj : v.manager.journal = some (env,tx)) (p : Env → JournalM Unit)
    (budget : Budget) :
    v.undo p budget =
      ((p env ⟨v.disk.world env,tx,budget⟩).1,
        { v with
          disk := v.disk.setWorld env (p env ⟨v.disk.world env,tx,budget⟩).2.world
          manager := { v.manager with journal := some (env,(p env ⟨v.disk.world env,tx,budget⟩).2.tx) } }) := by
  simp only [View.undo,hj]

/-! ## Changes for the owner -/

/-- A transaction that takes changes. -/
structure Serving (v : View) : Prop where
  owned : 0 ≤ v.manager.owner
  running : v.manager.blocked = false
  clean : v.manager.failed = false

/-- A call of the journal with its answer. -/
inductive Performs (v : View) (c : UndoJournal.Call) (budget : Budget) (good : Result) (bad : Fault → Result) :
    Result × View → Prop
  | done (ok : (v.undo (c.run ·) budget).1 = .ok ()) : Performs v c budget good bad (good,(v.undo (c.run ·) budget).2)
  | broken (e : Fault) (error : (v.undo (c.run ·) budget).1 = .error e) :
      Performs v c budget good bad (bad e,(v.undo (c.run ·) budget).2.fail)

theorem performs_match (v : View) (c : UndoJournal.Call) (budget : Budget) (good : Result) (bad : Fault → Result) :
    Performs v c budget good bad
      (match v.undo (c.run ·) budget with
        | (.ok (),v) => (good,v)
        | (.error e,v) => (bad e,v.fail)) := by
  obtain ⟨r,v',hundo⟩ : ∃ r v',v.undo (c.run ·) budget = (r,v') := ⟨_,_,rfl⟩
  have hfirst : (v.undo (c.run ·) budget).1 = r := by rw [hundo]
  have hsecond : (v.undo (c.run ·) budget).2 = v' := by rw [hundo]
  rw [hundo]
  cases r with
  | ok u =>
    rw [← hsecond]
    exact .done hfirst
  | error e =>
    rw [← hsecond]
    exact .broken e hfirst

/-- Scopes are of an owner. -/
def Owned (v : View) : Prop := v.thread.scope.active = true → 0 ≤ v.manager.owner

theorem serving_of_scope (hs : Owned v) (hblocked : ¬ v.manager.blocked = true) (hscope : ¬¬ v.inScope = true)
    (hfailed : ¬ v.manager.failed = true) : Serving v := by
  refine ⟨hs ?_,by simpa using hblocked,by simpa using hfailed⟩
  simp only [View.inScope,Bool.and_eq_true,not_not] at hscope
  exact hscope.1.1

/-- What a routed write does. -/
inductive RouteWrite (os : Descriptors) (fd : ℤ) (data : Bytes) (offset : ℤ) (budget : Budget) (v : View) :
    Result × View → Prop
  | refused (e : Errno) (why : v.manager.blocked = true ∨ (v.inScope = false ∧ e = .busy) ∨
      (v.inScope = true ∧ v.manager.failed = true)) : RouteWrite os fd data offset budget v (.errno e,v)
  | admitted (free : v.manager.owner < 0) (running : v.manager.blocked = false) (plain : v.thread.scope.active = false) :
      RouteWrite os fd data offset budget v
        (.pending,
          { v with
            manager := { v.manager with directWriters := v.manager.directWriters+1 }
            thread := { v.thread with direct := some { fd := fd,data := data,offset := offset } } })
  | unknown (serving : Serving v) (scope : v.inScope = true)
      (missing : v.thread.scope.targets.find? (·.fd = fd) = none) :
      RouteWrite os fd data offset budget v (.errno .inval,v.fail)
  | performs (serving : Serving v) (scope : v.inScope = true) (target : Target) (out : Result × View)
      (found : v.thread.scope.targets.find? (·.fd = fd) = some target)
      (run : Performs v (.writeFd target.path (os fd) data offset) budget (.value 0) (fun e => .errno (.undo e)) out) :
      RouteWrite os fd data offset budget v out

theorem routeWrite_cases (os : Descriptors) (fd : ℤ) (data : Bytes) (offset : ℤ) (budget : Budget) (hs : Owned v) :
    RouteWrite os fd data offset budget v (routeWrite os fd data offset budget v) := by
  unfold routeWrite
  split
  · rename_i hblocked
    exact .refused _ (.inl hblocked)
  rename_i hblocked
  split
  · rename_i hfree
    exact .admitted hfree.1 (by simpa using hblocked) (by simpa using hfree.2)
  split
  · rename_i hscope
    exact .refused _ (.inr (.inl ⟨by simpa using hscope,rfl⟩))
  rename_i hscope
  split
  · rename_i hfailed
    exact .refused _ (.inr (.inr ⟨by simpa using hscope,hfailed⟩))
  rename_i hfailed
  have hserving := serving_of_scope hs hblocked hscope hfailed
  have hin : v.inScope = true := by simpa using hscope
  split
  · rename_i hmissing
    exact .unknown hserving hin hmissing
  · rename_i target hfound
    exact .performs hserving hin target _ hfound (performs_match v (.writeFd target.path (os fd) data offset) budget _ _)

/-- What a routed operation on blobs does. -/
inductive RouteBlob (op : BlobOp) (path : CString) (budget : Budget) (v : View) : Result × View → Prop
  | refused (e : Errno) (why : v.manager.blocked = true ∨ (v.inScope = false ∧ e = .busy) ∨
      (v.inScope = true ∧ v.manager.failed = true)) : RouteBlob op path budget v (.errno e,v)
  | plain (free : v.manager.owner < 0) (running : v.manager.blocked = false) : RouteBlob op path budget v (.value 0,v)
  | unknown (serving : Serving v) (scope : v.inScope = true) : RouteBlob op path budget v (.errno .inval,v.fail)
  | performs (serving : Serving v) (scope : v.inScope = true) (name : CString) (op' : BlobOp) (out : Result × View)
      (run : Performs v (.blob op' name) budget (.value 1) (fun e => .errno (.undo e)) out) :
      RouteBlob op path budget v out

theorem routeBlob_cases (op : BlobOp) (path : CString) (budget : Budget) (hs : Owned v) :
    RouteBlob op path budget v (routeBlob op path budget v) := by
  unfold routeBlob
  split
  · rename_i hblocked
    exact .refused _ (.inl hblocked)
  rename_i hblocked
  split
  · rename_i hfree
    exact .plain hfree.1 (by simpa using hblocked)
  split
  · rename_i hscope
    exact .refused _ (.inr (.inl ⟨by simpa using hscope,rfl⟩))
  rename_i hscope
  split
  · rename_i hfailed
    exact .refused _ (.inr (.inr ⟨by simpa using hscope,hfailed⟩))
  rename_i hfailed
  have hserving := serving_of_scope hs hblocked hscope hfailed
  have hin : v.inScope = true := by simpa using hscope
  split
  · rename_i name op' _ _
    exact .performs hserving hin name op' _ (performs_match v (.blob op' name) budget _ _)
  · exact .unknown hserving hin

/-- What `dm_tx_write` and `dm_tx_write_fd` do. -/
inductive WriteTarget (shmid : ℤ) (path : CString) (check : Option Descriptor) (data : Bytes) (offset : ℤ)
    (budget : Budget) (v : View) : Result × View → Prop
  | refused (r : ℤ) (why : v.manager.blocked = true ∨
      ((v.manager.owner < 0 ∨ v.manager.owner≠shmid) ∧ r = eNoXact) ∨
      ((v.manager.ownerRequest = true ∧ v.thread.scope.active = false) ∧ r = eNoLock) ∨
      (0 ≤ v.manager.owner ∧ v.manager.owner = shmid ∧ v.manager.failed = true)) (negative : r < 0) :
      WriteTarget shmid path check data offset budget v (.value r,v)
  | performs (serving : Serving v) (owner : v.manager.owner = shmid)
      (alone : v.manager.ownerRequest = true → v.thread.scope.active = true) (c : UndoJournal.Call) (out : Result × View)
      (write : (c.run ·) = (UndoJournal.writeTarget · path check data offset))
      (run : Performs v c budget (.value 0) (fun _ => .value eRecWrt) out) :
      WriteTarget shmid path check data offset budget v out

theorem exists_writeCall (path : CString) (check : Option Descriptor) (data : Bytes) (offset : ℤ) :
    ∃ c : UndoJournal.Call,(c.run ·) = (UndoJournal.writeTarget · path check data offset) := by
  cases check with
  | none => exact ⟨.write path data offset,rfl⟩
  | some fd => exact ⟨.writeFd path fd data offset,rfl⟩

theorem writeTarget_cases (shmid : ℤ) (path : CString) (check : Option Descriptor) (data : Bytes) (offset : ℤ)
    (budget : Budget) (v : View) :
    WriteTarget shmid path check data offset budget v (writeTarget shmid path check data offset budget v) := by
  unfold writeTarget
  split
  · rename_i hblocked
    exact .refused _ (.inl hblocked) (by decide)
  rename_i hblocked
  split
  · rename_i howner
    exact .refused _ (.inr (.inl ⟨howner,rfl⟩)) (by decide)
  rename_i howner
  rw [not_or,not_lt,not_not] at howner
  split
  · rename_i halone
    exact .refused _ (.inr (.inr (.inl ⟨by simpa using halone,rfl⟩))) (by decide)
  rename_i halone
  split
  · rename_i hfailed
    exact .refused _ (.inr (.inr (.inr ⟨howner.1,howner.2,hfailed⟩))) (by decide)
  rename_i hfailed
  obtain ⟨c,hc⟩ := exists_writeCall path check data offset
  rw [← hc]
  exact .performs ⟨howner.1,by simpa using hblocked,by simpa using hfailed⟩ howner.2
    (by simpa using halone) c _ hc (performs_match v c budget _ _)

/-- What `dm_tx_track_index` does. -/
inductive TrackIndex (v : View) : Result × View → Prop
  | refused (r : ℤ) (why : v.manager.blocked = true ∨ r∈[eNoXact,eNoLock,0] ∨
      (0 ≤ v.manager.owner ∧ v.manager.failed = true)) (blocked : v.manager.blocked = true → r < 0) :
      TrackIndex v (.value r,v)
  | unknown (serving : Serving v) (r : ℤ) (why : r = eIdxNoO ∨ r = eNoAlloc) : TrackIndex v (.value r,v.fail)
  | tracked (serving : Serving v) (indices : List CachedIndex) :
      TrackIndex v (.value 0,{ v with manager := { v.manager with cachedIndices := indices } })

theorem trackIndex_cases (os : Descriptors) (alloc : Bool) (index : Option ℕ) (v : View) :
    TrackIndex v (dmTxTrackIndex os alloc index v) := by
  unfold dmTxTrackIndex
  split
  · rename_i hblocked
    exact .refused _ (.inl hblocked) fun _ => by decide
  rename_i hblocked
  split
  · apply TrackIndex.refused _ (.inr (.inl _)) fun hb => absurd hb hblocked
    split <;> simp
  rename_i howner
  split
  · exact .refused _ (.inr (.inl (by simp))) fun hb => absurd hb hblocked
  split
  · rename_i hfailed
    exact .refused _ (.inr (.inr ⟨not_lt.1 howner,hfailed⟩)) fun hb => absurd hb hblocked
  rename_i hfailed
  have hserving : Serving v := ⟨not_lt.1 howner,by simpa using hblocked,by simpa using hfailed⟩
  split
  · exact .unknown hserving _ (.inl rfl)
  split
  · split
    · exact .tracked hserving v.manager.cachedIndices
    · exact .unknown hserving _ (.inl rfl)
  · split
    · exact .unknown hserving _ (.inr rfl)
    · exact .tracked hserving _

/-- What a change for the owner does to the view, or a section that has none to make. -/
inductive Acts (v : View) : View → Prop
  | same : Acts v v
  | fails : Acts v v.fail
  | admits (free : v.manager.owner < 0) (w : DirectWrite) :
      Acts v
        { v with
          manager := { v.manager with directWriters := v.manager.directWriters+1 }
          thread := { v.thread with direct := some w } }
  | tracks (indices : List CachedIndex) : Acts v { v with manager := { v.manager with cachedIndices := indices } }
  | performs (serving : Serving v) {c : UndoJournal.Call} {budget : Budget} {good : Result} {bad : Fault → Result}
      {out : Result × View} (run : Performs v c budget good bad out) : Acts v out.2

theorem acts_routeWrite (os : Descriptors) (fd : ℤ) (data : Bytes) (offset : ℤ) (budget : Budget) (hs : Owned v) :
    Acts v (routeWrite os fd data offset budget v).2 := by
  have hcases := routeWrite_cases os fd data offset budget hs
  generalize routeWrite os fd data offset budget v = out at hcases
  cases hcases with
  | refused e why => exact .same
  | admitted free running plain => exact .admits free _
  | unknown serving scope missing => exact .fails
  | performs serving scope target out found run => exact .performs serving run

theorem acts_routeBlob (op : BlobOp) (path : CString) (budget : Budget) (hs : Owned v) :
    Acts v (routeBlob op path budget v).2 := by
  have hcases := routeBlob_cases op path budget hs
  generalize routeBlob op path budget v = out at hcases
  cases hcases with
  | refused e why => exact .same
  | plain free running => exact .same
  | unknown serving scope => exact .fails
  | performs serving scope name op' out run => exact .performs serving run

theorem acts_write (shmid : ℤ) (path : CString) (check : Option Descriptor) (data : Bytes) (offset : ℤ) (budget : Budget)
    (v : View) : Acts v (writeTarget shmid path check data offset budget v).2 := by
  have hcases := writeTarget_cases shmid path check data offset budget v
  generalize writeTarget shmid path check data offset budget v = out at hcases
  cases hcases with
  | refused r why negative => exact .same
  | performs serving owner alone call out write run => exact .performs serving run

theorem acts_trackIndex (os : Descriptors) (alloc : Bool) (index : Option ℕ) (v : View) :
    Acts v (dmTxTrackIndex os alloc index v).2 := by
  have hcases := trackIndex_cases os alloc index v
  generalize dmTxTrackIndex os alloc index v = out at hcases
  cases hcases with
  | refused r why blocked => exact .same
  | unknown serving r why => exact .fails
  | tracked serving indices => exact .tracks indices

theorem acts_namespaceCheck (v : View) : Acts v (namespaceCheck v).2 := by
  unfold namespaceCheck
  split
  · dsimp only
    split
    · exact .fails
    · exact .same
  · exact .same

/-! ## The beginning of a transaction -/

/-- The state in which `dm_tx_begin` goes on to the journal. -/
structure Beginning (v : View) (shmid : ℤ) : Prop where
  running : v.manager.blocked = false
  valid : 0 ≤ shmid
  free : v.manager.owner < 0
  quiet : v.manager.directWriters = 0 ∧ v.manager.activeRequests = 0

/-- What `dm_tx_begin` does. -/
inductive Begin (shmid : ℤ) (env : Env) (budget : Budget) (v : View) : Result × View → Prop
  | refused (r : ℤ) (negative : r < 0) : Begin shmid env budget v (.value r,v)
  | begun (start : Beginning v shmid) (out : Machine)
      (run : dmUndoBegin env ⟨v.disk.world env,closedTx,budget⟩ = (.ok (),out)) :
      Begin shmid env budget v
        (.value 0,
          { v with
            disk := v.disk.setWorld env out.world
            manager :=
              { v.manager with
                databaseRoot := some env.rootPath
                journal := some (env,out.tx)
                owner := shmid
                failed := false
                generation := v.manager.generation+1 } })
  | failed (start : Beginning v shmid) (e : Fault) (out : Machine)
      (run : dmUndoBegin env ⟨v.disk.world env,closedTx,budget⟩ = (.error e,out)) :
      Begin shmid env budget v
        (.value eRollback,
          { v with
            disk := v.disk.setWorld env out.world
            manager := { v.manager with databaseRoot := some env.rootPath,owner := shmid,blocked := true } })

theorem begin_cases (shmid : ℤ) (env : Env) (alloc : Bool) (budget : Budget) (v : View) :
    Begin shmid env budget v (dmTxBegin shmid env alloc budget v) := by
  unfold dmTxBegin
  split
  · exact .refused _ (by decide)
  rename_i hblocked
  split
  · exact .refused _ (by decide)
  rename_i hvalid
  split
  · exact .refused _ (by decide)
  split
  · exact .refused _ (by decide)
  rename_i hquiet
  split
  · exact .refused _ (by decide)
  split
  · exact .refused _ (by decide)
  rw [not_or,not_lt] at hvalid
  rw [not_or,not_or,not_not,not_not,not_le] at hquiet
  have hstart : Beginning v shmid := ⟨by simpa using hblocked,hvalid.2,hquiet.1,hquiet.2⟩
  split
  · rename_i out hrun
    exact .begun hstart out hrun
  · rename_i e out hrun
    exact .failed hstart e out hrun

/-! ## The end of a transaction -/

theorem refreshIndices_eq {os : Descriptors} {v v' : View} (h : refreshIndices os v = some v') :
    v'.manager = { v.manager with cachedIndices := [] } ∧ v'.disk = v.disk ∧ v'.thread = v.thread := by
  unfold refreshIndices at h
  split at h
  · obtain rfl := Option.some.inj h
    exact ⟨rfl,rfl,rfl⟩
  · cases h

/-- The state in which `finish` goes on to the journal. -/
structure Finishing (v : View) (shmid : ℤ) (commit : Bool) : Prop where
  running : v.manager.blocked = false
  owner : v.manager.owner = shmid
  owned : 0 ≤ v.manager.owner
  alone : v.manager.ownerRequest = false
  clean : commit = true → v.manager.failed = false

/-- Why `finish` refuses, with its answer. -/
def FinishRefused (v : View) (shmid : ℤ) (commit disconnect : Bool) (r : ℤ) : Prop :=
  (v.manager.blocked = true ∧ r = eRollback) ∨
  (v.manager.blocked = false ∧ (v.manager.owner < 0 ∨ v.manager.owner≠shmid) ∧
    r = if disconnect then 0 else eNoXact) ∨
  (v.manager.ownerRequest = true ∧ r = eNoLock) ∨ (commit = true ∧ v.manager.failed = true ∧ r = eRecWrt)

theorem finish_cases (os : Descriptors) (shmid : ℤ) (commit disconnect : Bool) (budget : Budget) (v : View) :
    (∃ r,FinishRefused v shmid commit disconnect r ∧ finish os shmid commit disconnect budget v = (.value r,v)) ∨
    (Finishing v shmid commit ∧
      ((∃ v',(v.undo (endJournal commit) budget).1 = .ok () ∧
          refreshIndices os (v.close commit budget) = some v' ∧
          finish os shmid commit disconnect budget v =
            (.value 0,{ v' with manager := { v'.manager with owner := -1,failed := false,databaseRoot := none } })) ∨
        finish os shmid commit disconnect budget v =
          (.value (if commit then eMultiple else eRollback),
            { v.close commit budget with manager := { (v.close commit budget).manager with blocked := true } }))) := by
  unfold finish
  split
  · rename_i hb
    exact .inl ⟨_,.inl ⟨hb,rfl⟩,rfl⟩
  rename_i hb
  have hrunning : v.manager.blocked = false := by simpa using hb
  split
  · rename_i ho
    exact .inl ⟨_,.inr (.inl ⟨hrunning,ho,rfl⟩),rfl⟩
  rename_i ho
  rw [not_or,not_lt,not_not] at ho
  split
  · rename_i hr
    exact .inl ⟨_,.inr (.inr (.inl ⟨hr,rfl⟩)),rfl⟩
  rename_i hr
  split
  · rename_i hf
    exact .inl ⟨_,.inr (.inr (.inr ⟨hf.1,hf.2,rfl⟩)),rfl⟩
  rename_i hf
  refine .inr ⟨⟨hrunning,ho.2,ho.1,by simpa using hr,by simpa using hf⟩,?_⟩
  dsimp only
  cases hout : (v.undo (endJournal commit) budget).1 with
  | error e => exact .inr rfl
  | ok u =>
    cases hfresh : refreshIndices os (v.close commit budget) with
    | none => exact .inr rfl
    | some v' => exact .inl ⟨v',rfl,rfl,rfl⟩

end Dataman.TransactionSession

import Dataman.CommandPhases

/-!
# A command of its own is atomic

Outside of a transaction a command is done with all its changes, or refused with none, or
it leaves the manager blocked.
-/

namespace Dataman.TransactionWire
open FailState UndoJournal TransactionSession SessionRoot

variable {μ : Type} {v : View} {s : Server μ} {p : Probe} {shmid : ℤ} {budget : Budget} {os : Descriptors}
  {env : Env} {d : Disk} {r : Request μ}

/-! ## A command from beginning to end -/

variable {a : Answers}

/-- The command runs its handler, on the server `s1`. -/
def Starts (a : Answers) (shmid : ℤ) (r : Request μ) (s s1 : Server μ) : Prop :=
  (beginSession a shmid s).1 = 0 ∧
    ∃ s',sessionRootUse a.dispatch shmid (fun _ => dmTxEnter shmid []) (beginSession a shmid s).2 = (0,s') ∧
      prepare shmid r s' = .ok s1

/-- The state after `dm_tx_dispatch`. -/
inductive Dispatched (shmid : ℤ) (env : Env) (d : Disk) (p : Probe) (r : Request μ) (s : Server μ) : ℤ × Server μ → Prop
  | refused (out : ℤ × Server μ) (negative : out.1 < 0)
      (state : Closing shmid env d out.2.view ∨ (Idle out.2.view ∧ out.2.view.disk = d) ∨
        Jammed out.2.view) : Dispatched shmid env d p r s out
  | handled (s' s1 : Server μ) (out : ℤ × Server μ)
      (entered : sessionRootUse p shmid (fun _ => dmTxEnter shmid []) s = (0,s'))
      (ready : prepare shmid r s' = .ok s1) (disk : s1.view.disk = s.view.disk) (working : Working shmid env d s1.view)
      (value : out.1 = (r.handler s1).value)
      (left : out.2.view = (dmTxComplete out.1 (runAll (r.handler s1).ops s1.view)).2) : Dispatched shmid env d p r s out

theorem Closing.reap (h : Closing shmid env d s.view) :
    ((reap p s).1 = 0 ∧ (reap p s).2.view = s.view) ∨
    ((reap p s).1 = 0 ∧ Idle (reap p s).2.view ∧ (reap p s).2.view.disk = d) ∨
    ((reap p s).1 < 0 ∧ Jammed (reap p s).2.view) := h.reapFrom 0 s.roots

theorem dispatch_refused {handler : Server μ → ℤ × Server μ}
    (hneg : (sessionRootUse p shmid (fun _ => dmTxEnter shmid []) s).1 < 0) :
    dmTxDispatch p shmid handler s = sessionRootUse p shmid (fun _ => dmTxEnter shmid []) s :=
  if_neg (ne_of_lt hneg)

variable {s' : Server μ}

/-- The handler runs when the thread has entered. -/
theorem Working.dispatch (h : Working shmid env d s'.view) (hd : d.journal = none)
    (hdisk : s'.view.disk = s.view.disk)
    (hentered : sessionRootUse p shmid (fun _ => dmTxEnter shmid []) s = (0,s')) (r : Request μ) :
    Dispatched shmid env d p r s (dmTxDispatch p shmid (execute shmid r) s) := by
  have hrun : dmTxDispatch p shmid (execute shmid r) s =
      ((execute shmid r s').1,
        { (execute shmid r s').2 with
          view := (dmTxComplete (execute shmid r s').1 (execute shmid r s').2.view).2 }) := by
    rw [dmTxDispatch,hentered]
    rfl
  have hprepared := h.prepare r
  rw [hrun]
  unfold execute
  generalize hready : TransactionWire.prepare shmid r s' = out at hprepared
  cases hprepared with
  | refused code s'' negative working => exact .refused _ negative (.inl (working.complete hd code).1)
  | ready s1 working disk => exact .handled s' s1 _ hentered hready (disk.trans hdisk) working rfl rfl

theorem Closing.dispatch (h : Closing shmid env d s.view) (hclean : s.view.manager.failed = false) (p : Probe)
    (r : Request μ) : Dispatched shmid env d p r s (dmTxDispatch p shmid (execute shmid r) s) := by
  have hcases := sessionRootUse_cases p shmid (fun _ => dmTxEnter shmid []) s
  generalize hused : sessionRootUse p shmid (fun _ => dmTxEnter shmid []) s = used at hcases
  have hrefused : used.1 < 0 → dmTxDispatch p shmid (execute shmid r) s = used := by
    subst hused
    exact dispatch_refused
  cases hcases with
  | reaped negative =>
    rw [hrefused negative]
    obtain ⟨hzero,_⟩ | ⟨hzero,_⟩ | ⟨_,hblocked⟩ := h.reap (p := p)
    · omega
    · omega
    · exact .refused _ negative (.inr (.inr hblocked))
  | absent fine =>
    rw [hrefused eNoConn_neg]
    obtain ⟨_,hview⟩ | ⟨_,hidle⟩ | ⟨hneg,_⟩ := h.reap (p := p)
    · exact .refused _ eNoConn_neg (.inl (by rwa [hview]))
    · exact .refused _ eNoConn_neg (.inr (.inl hidle))
    · exact absurd hneg fine
  | applied fine e found =>
    obtain ⟨_,hview⟩ | ⟨_,hidle,hdisk⟩ | ⟨hneg,_⟩ := h.reap (p := p)
    · obtain ⟨hok,hworking,hdisk,_⟩ := h.enter hclean
      rw [hview,hok] at hused
      refine Working.dispatch ?_ h.start ?_ hused r
      · exact hworking
      · exact hdisk
    · -- the session was closed in between, so there is nothing to enter
      have henter : dmTxEnter shmid [] (SessionRoot.reap p s).2.view = (.value eNoXact,(SessionRoot.reap p s).2.view) := by
        simp [dmTxEnter,hidle.scope,hidle.running,hidle.free,targetsValid]
      rw [henter] at hrefused
      rw [hrefused eNoXact_neg]
      exact .refused _ eNoXact_neg (.inr (.inl ⟨hidle,hdisk⟩))
    · exact absurd hneg fine

/-- The command is done: its value and its changes are those of the handler, all of whose
operations succeeded. -/
structure Done (a : Answers) (shmid : ℤ) (r : Request μ) (s : Server μ) (out : ℤ × Server μ) : Prop where
  value : 0 ≤ out.1
  handled : ∃ s1,Starts a shmid r s s1 ∧ s1.view.disk.files = s.view.disk.files ∧
    s1.view.disk.blobs = s.view.disk.blobs ∧ out.1 = (r.handler s1).value ∧
    out.2.view.disk.files = (runAll (r.handler s1).ops s1.view).disk.files ∧
    out.2.view.disk.blobs = (runAll (r.handler s1).ops s1.view).disk.blobs ∧
    ∀ pre op post,(r.handler s1).ops = pre++op::post → ¬ (op.run (runAll pre s1.view)).1.Refused
  journal : out.2.view.disk.journal = none
  free : out.2.view.manager.owner < 0

/-- The command is refused: files and blobs are as before. -/
structure Restored (s : Server μ) (out : ℤ × Server μ) : Prop where
  value : out.1 < 0
  files : out.2.view.disk.files = s.view.disk.files
  blobs : out.2.view.disk.blobs = s.view.disk.blobs
  journal : out.2.view.disk.journal = none
  free : out.2.view.manager.owner < 0

/-- Whatever comes, it is answered with an error. -/
def RefusesAll (s : Server μ) : Prop :=
  ∀ (jobs : List (Job μ)) (j : Job μ),(j.run (jobs.foldl (fun s j => (j.run s).2) s)).1 < 0

/-- The manager is blocked. -/
structure Stuck (out : ℤ × Server μ) : Prop where
  value : out.1 = eRollback ∨ out.1 = eMultiple
  blocked : out.2.view.manager.blocked = true
  refuses : RefusesAll out.2

/-! ### A blocked manager -/

theorem closeSlot_blocked (hb : v.manager.blocked = true) (i : ℕ) (e : SessionRoot.Session) :
    closeSlot p i e v = (eRollback,v) := by
  rw [closeSlot,dmTxDisconnect,finish_blocked _ _ _ _ _ hb]
  rfl

theorem reapFrom_blocked (hb : v.manager.blocked = true) (i : ℕ) (roots : List (Option SessionRoot.Session)) :
    (reapFrom p i roots v).1 = 0 ∨ (reapFrom p i roots v).1 = eRollback := by
  induction roots generalizing i with
  | nil => exact .inl rfl
  | cons slot roots ih =>
    cases slot with
    | none => exact ih (i+1)
    | some e =>
      simp only [reapFrom]
      split
      · rw [closeSlot_blocked hb,if_pos eRollback_neg]
        exact .inr rfl
      · exact ih (i+1)

theorem begin_blocked (a : Answers) (shmid : ℤ) (hb : s.view.manager.blocked = true) :
    ((beginSession a shmid s).1 = eRollback ∨ (beginSession a shmid s).1 = eNoConn) ∧
      (beginSession a shmid s).2.view = s.view := by
  have hview : (reap a.begin s).2.view = s.view :=
    reapFrom_same (fun i e => by rw [closeSlot_blocked hb]) 0 s.roots
  have hcode : (reap a.begin s).1 = 0 ∨ (reap a.begin s).1 = eRollback := reapFrom_blocked hb 0 s.roots
  have hcases := sessionRootUse_cases a.begin shmid (fun env => dmTxBegin shmid env a.alloc a.beginBudget) s
  unfold beginSession
  generalize sessionRootUse a.begin shmid (fun env => dmTxBegin shmid env a.alloc a.beginBudget) s = out at hcases
  cases hcases with
  | reaped negative => exact ⟨.inl (hcode.resolve_left (ne_of_lt negative)),hview⟩
  | absent fine => exact ⟨.inr rfl,hview⟩
  | applied fine e found =>
    have hrun : dmTxBegin shmid e.env a.alloc a.beginBudget s.view = (.value eRollback,s.view) := by
      simp [dmTxBegin,hb]
    rw [hview,hrun]
    exact ⟨.inl rfl,rfl⟩

theorem standalone_blocked (hb : s.view.manager.blocked = true) (r : Request μ) :
    (standalone a shmid r s).1 < 0 ∧ (standalone a shmid r s).2.view = s.view := by
  obtain ⟨hcode,hview⟩ := begin_blocked a shmid hb
  have hneg : (beginSession a shmid s).1 < 0 ∧ (beginSession a shmid s).1≠eInXact := by
    obtain hcode | hcode := hcode
    · rw [hcode]
      decide
    · rw [hcode]
      decide
  rw [standalone,if_pos hneg]
  exact ⟨hneg.1,hview⟩

theorem answer_of_neg {out : ℤ × Server μ} (hneg : out.1 < 0) : answer out = out := if_pos hneg

theorem wire_blocked (j : Job μ) (hb : s.view.manager.blocked = true) :
    (dmTxWire j s).1 < 0 ∧ (dmTxWire j s).2.view = s.view := by
  have hfinish : ∀ (os : Descriptors) (commit : Bool) (budget : Budget),
      TransactionSession.finish os j.shmid commit false budget s.view = (.value eRollback,s.view) :=
    fun os commit budget => finish_blocked os j.shmid commit false budget hb
  unfold dmTxWire
  split
  · split
    · exact ⟨eInvMsg_neg,rfl⟩
    split
    · obtain ⟨hcode,hview⟩ := begin_blocked j.answers j.shmid hb
      have hneg : (beginSession j.answers j.shmid s).1 < 0 := by
        obtain hcode | hcode := hcode
        · exact hcode ▸ eRollback_neg
        · exact hcode ▸ eNoConn_neg
      rw [answer_of_neg hneg]
      exact ⟨hneg,hview⟩
    split
    · rw [commitSession,dmTxCommit,hfinish,answer_of_neg eRollback_neg]
      exact ⟨eRollback_neg,rfl⟩
    split
    · rw [abortSession,dmTxAbort,hfinish,answer_of_neg eRollback_neg]
      exact ⟨eRollback_neg,rfl⟩
    · exact ⟨eInvMsg_neg,rfl⟩
  split
  · have hneg : (dmTxRequestEnter s.view).1.code < 0 := by
      unfold dmTxRequestEnter
      split
      · exact eInvMsg_neg
      · exact eRollback_neg
    dsimp only
    rw [if_pos hneg]
    exact ⟨hneg,rfl⟩
  · exact standalone_blocked hb j.request

theorem run_blocked (j : Job μ) (hb : s.view.manager.blocked = true) :
    (j.run s).1 < 0 ∧ (j.run s).2.view.manager.blocked = true := by
  unfold Job.run
  obtain ⟨hneg,hview⟩ := wire_blocked (s := { s with view := { s.view with thread := j.thread } }) j hb
  rw [hview]
  exact ⟨hneg,hb⟩

theorem refusesAll_of_blocked (hb : s.view.manager.blocked = true) : RefusesAll s := by
  intro jobs
  induction jobs generalizing s with
  | nil => exact fun j => (run_blocked j hb).1
  | cons j jobs ih => exact ih (run_blocked j hb).2

/-! ### The end of the command -/

theorem abort_idle (h : Idle s.view) : abortSession os budget shmid s = (eNoXact,s) := by
  simp [abortSession,dmTxAbort,TransactionSession.finish,h.running,h.free,Result.code]

theorem Closing.abort (h : Closing shmid env d s.view) (os : Descriptors) (budget : Budget) :
    (∃ s',abortSession os budget shmid s = (0,s') ∧ Idle s'.view ∧ s'.view.disk = d) ∨
    (∃ s',abortSession os budget shmid s = (eRollback,s') ∧ Jammed s'.view) := by
  obtain ⟨v',heq,hidle,hdisk⟩ | ⟨v',heq,hblocked⟩ :=
    h.finish h.alone h.scope h.start false false (fun hc => absurd hc (by decide)) os budget
  · refine .inl ⟨{ s with view := v' },?_,hidle,hdisk⟩
    rw [abortSession,dmTxAbort,heq]
    rfl
  · refine .inr ⟨{ s with view := v' },?_,hblocked⟩
    rw [abortSession,dmTxAbort,heq]
    rfl

theorem Closing.commit (h : Closing shmid env d s.view) (hclean : s.view.manager.failed = false) (a : Answers) :
    (∃ s',commitSession a shmid s = (0,s') ∧ Idle s'.view ∧ s'.view.disk = { s.view.disk with journal := none }) ∨
    (∃ s',commitSession a shmid s = (eMultiple,s') ∧ Jammed s'.view) := by
  obtain ⟨v',heq,hidle,hdisk⟩ | ⟨v',heq,hblocked⟩ :=
    h.finish h.alone h.scope h.start true false (fun _ => hclean) a.os a.finishBudget
  · refine .inl ⟨{ s with view := v' },?_,hidle,hdisk⟩
    rw [commitSession,dmTxCommit,heq]
    rfl
  · refine .inr ⟨{ s with view := v' },?_,hblocked⟩
    rw [commitSession,dmTxCommit,heq]
    rfl

theorem Closing.commit_failed (h : Closing shmid env d s.view) (hfailed : s.view.manager.failed = true) (a : Answers) :
    commitSession a shmid s = (eRecWrt,s) := by
  have hfree : ¬ (s.view.manager.owner < 0 ∨ s.view.manager.owner≠shmid) := by
    simp only [h.owner,ne_eq,not_true_eq_false,or_false]
    exact not_lt.2 h.owned
  simp [commitSession,dmTxCommit,TransactionSession.finish,h.running,hfree,h.alone,hfailed,Result.code]

variable {code : ℤ}

theorem restored_of_idle (hneg : code < 0) (h : Idle s'.view)
    (hdisk : s'.view.disk = s.view.disk) : Restored s (code,s') ∧ Idle s'.view :=
  ⟨⟨hneg,congrArg Disk.files hdisk,congrArg Disk.blobs hdisk,h.journal,h.free⟩,h⟩

theorem stuck_of_blocked (hcode : code = eRollback ∨ code = eMultiple)
    (hb : Jammed s'.view) : Stuck (code,s') ∧ Jammed s'.view :=
  ⟨⟨hcode,hb.blocked,refusesAll_of_blocked hb.blocked⟩,hb⟩

variable {result : ℤ}

/-- The end of a command whose handler returned an error. -/
theorem finish_negative (hneg : result < 0)
    (hstate : Closing shmid env s.view.disk s'.view ∨ (Idle s'.view ∧ s'.view.disk = s.view.disk) ∨
      Jammed s'.view) (a : Answers) :
    (Restored s (finishImplicit a shmid result s') ∧ Idle (finishImplicit a shmid result s').2.view) ∨
    (Stuck (finishImplicit a shmid result s') ∧ Jammed (finishImplicit a shmid result s').2.view) := by
  unfold finishImplicit
  rw [if_pos hneg]
  obtain h | ⟨h,hdisk⟩ | hb := hstate
  · obtain ⟨s2,heq,hidle,hdisk⟩ | ⟨s2,heq,hblocked⟩ := h.abort a.os a.finishBudget
    · rw [heq]
      exact .inl (restored_of_idle hneg hidle hdisk)
    · rw [heq]
      exact .inr (stuck_of_blocked (.inl rfl) hblocked)
  · rw [abort_idle h]
    exact .inl (restored_of_idle eNoXact_neg h hdisk)
  · rw [abortSession,dmTxAbort,finish_blocked _ _ _ _ _ hb.blocked]
    exact .inr (stuck_of_blocked (.inl rfl) hb)

/-- The end of a command whose handler succeeded but one of its operations did not. -/
theorem finish_failed (hresult : 0 ≤ result)
    (h : Closing shmid env s.view.disk s'.view) (hfailed : s'.view.manager.failed = true) (a : Answers) :
    (Restored s (finishImplicit a shmid result s') ∧ Idle (finishImplicit a shmid result s').2.view) ∨
    ((finishImplicit a shmid result s').1 = eRollback ∧ Stuck (finishImplicit a shmid result s') ∧
      Jammed (finishImplicit a shmid result s').2.view) := by
  unfold finishImplicit
  rw [if_neg (not_lt.2 hresult),h.commit_failed hfailed]
  obtain ⟨s2,heq,hidle,hdisk⟩ | ⟨s2,heq,hblocked⟩ := h.abort a.os a.abortBudget
  · rw [if_pos rfl,heq]
    exact .inl (restored_of_idle eRecWrt_neg hidle hdisk)
  · rw [if_pos rfl,heq]
    exact .inr ⟨rfl,stuck_of_blocked (.inl rfl) hblocked⟩

/-- The end of a command of which everything succeeded. -/
theorem finish_clean (hresult : 0 ≤ result) (h : Closing shmid env d s'.view)
    (hclean : s'.view.manager.failed = false) (a : Answers) :
    (∃ s2,finishImplicit a shmid result s' = (result,s2) ∧ Idle s2.view ∧
      s2.view.disk = { s'.view.disk with journal := none }) ∨
    (Stuck (finishImplicit a shmid result s') ∧ Jammed (finishImplicit a shmid result s').2.view) := by
  unfold finishImplicit
  rw [if_neg (not_lt.2 hresult)]
  obtain ⟨s2,heq,hidle,hdisk⟩ | ⟨s2,heq,hblocked⟩ := h.commit hclean a
  · rw [heq]
    exact .inl ⟨s2,rfl,hidle,hdisk⟩
  · rw [heq]
    exact .inr (stuck_of_blocked (.inr rfl) hblocked)

/-! ### The beginning of the command -/

variable {out : Machine}

theorem begun_files {budget : Budget} (hjournal : v.disk.journal = none)
    (hrun : dmUndoBegin env ⟨v.disk.world env,closedTx,budget⟩ = (.ok (),out)) :
    out.world.files = (v.disk.world env).files := by
  have hworld : v.disk.world env = ⟨none,(v.disk.world env).files⟩ := by simp [Disk.world,hjournal]
  have hspec : wp (dmUndoBegin env) ⟨⟨none,(v.disk.world env).files⟩,closedTx,budget⟩
      (fun _ m => m.world.files = (v.disk.world env).files) (fun _ _ => True) := by
    apply wp_dmUndoBegin
    · intro b' _
      rfl
    · intros
      trivial
  rw [hworld] at hrun
  exact (wp_of_ok hrun).1 hspec

theorem begin_ne_eInXact (hfree : v.manager.owner < 0) (alloc : Bool) :
    (dmTxBegin shmid env alloc budget v).1≠.value eInXact := by
  unfold dmTxBegin
  split
  · simp [eRollback,eInXact]
  split
  · simp [eInvMsg,eInXact]
  rename_i hvalid
  rw [not_or,not_lt] at hvalid
  rw [if_neg (by omega)]
  split
  · simp [eNoLock,eInXact]
  split
  · simp [eInvMsg,eInXact]
  split
  · simp [eNoAlloc,eInXact]
  split
  · simp [eInXact]
  · simp [eRollback,eInXact]

/-- The transaction begins on the disk there is. -/
theorem Idle.begun (h : Idle v) (hstart : Beginning v shmid)
    (hrun : dmUndoBegin env ⟨v.disk.world env,closedTx,budget⟩ = (.ok (),out)) :
    Closing shmid env v.disk
        { v with
          disk := v.disk.setWorld env out.world
          manager :=
            { v.manager with
              databaseRoot := some env.rootPath
              journal := some (env,out.tx)
              owner := shmid
              failed := false
              generation := v.manager.generation+1 } } ∧
      (v.disk.setWorld env out.world).files = v.disk.files ∧ (v.disk.setWorld env out.world).blobs = v.disk.blobs := by
  obtain ⟨db,hdb,hholds,hactive⟩ := journaling_begun h.journaling h.free hrun
  have hfiles := begun_files h.journal hrun
  have hblobs : (v.disk.setWorld env out.world).blobs = v.disk.blobs := by
    simp [Disk.setWorld,hfiles,Disk.world]
  refine ⟨⟨⟨hstart.valid,rfl,hstart.running,⟨db,hdb,out.tx,rfl,?_,fun _ => hactive⟩,?_⟩,
    h.alone,h.scope,h.journal⟩,congrArg (·.files) hfiles,hblobs⟩
  · rwa [world_setWorld]
  · intro root _
    exact congrFun hblobs root

/-- How a command begins. -/
inductive Begun (a : Answers) (shmid : ℤ) (s : Server μ) : ℤ × Server μ → Prop
  | refused (code : ℤ) (s' : Server μ) (negative : code < 0) (ordinary : code≠eInXact)
      (view : s'.view = s.view) : Begun a shmid s (code,s')
  | broken (s' : Server μ) (blocked : Jammed s'.view) : Begun a shmid s (eRollback,s')
  | begun (s' : Server μ) (env : Env) (closing : Closing shmid env s.view.disk s'.view)
      (clean : s'.view.manager.failed = false) (files : s'.view.disk.files = s.view.disk.files)
      (blobs : s'.view.disk.blobs = s.view.disk.blobs) : Begun a shmid s (0,s')

theorem Idle.begin (h : Idle s.view) (a : Answers) (shmid : ℤ) : Begun a shmid s (beginSession a shmid s) := by
  obtain ⟨hzero,hview⟩ := h.reap (p := a.begin)
  have hcases := sessionRootUse_cases a.begin shmid (fun env => dmTxBegin shmid env a.alloc a.beginBudget) s
  unfold beginSession
  generalize sessionRootUse a.begin shmid (fun env => dmTxBegin shmid env a.alloc a.beginBudget) s = out at hcases
  cases hcases with
  | reaped negative => omega
  | absent fine => exact .refused _ _ eNoConn_neg (by decide) hview
  | applied fine e found =>
    rw [hview]
    have hother := @begin_ne_eInXact s.view shmid a.beginBudget e.env h.free a.alloc
    have hbegin := begin_cases shmid e.env a.alloc a.beginBudget s.view
    generalize dmTxBegin shmid e.env a.alloc a.beginBudget s.view = out at hbegin hother
    cases hbegin with
    | refused r negative =>
      refine .refused _ _ negative ?_ rfl
      intro hr
      exact hother (congrArg Result.value hr)
    | failed start fault out run => exact .broken _ ⟨rfl,start.valid⟩
    | begun start out run =>
      obtain ⟨hclosing,hfiles,hblobs⟩ := h.begun start run
      exact .begun _ e.env hclosing rfl hfiles hblobs

/-! ### Every command -/

theorem standalone_begun (hbegun : (beginSession a shmid s).1 = 0) :
    standalone a shmid r s =
      finishImplicit a shmid (dmTxDispatch a.dispatch shmid (execute shmid r) (beginSession a shmid s).2).1
        (dmTxDispatch a.dispatch shmid (execute shmid r) (beginSession a shmid s).2).2 := by
  rw [standalone,if_neg (by rw [hbegun]; decide),if_pos hbegun]

/-- The ways of a command that has begun. -/
theorem Closing.command (hbegin : beginSession a shmid s = (0,s'))
    (h : Closing shmid env s.view.disk s'.view) (hclean : s'.view.manager.failed = false)
    (hfiles : s'.view.disk.files = s.view.disk.files) (hblobs : s'.view.disk.blobs = s.view.disk.blobs)
    (r : Request μ) :
    (Done a shmid r s (standalone a shmid r s) ∧ Idle (standalone a shmid r s).2.view) ∨
    (Restored s (standalone a shmid r s) ∧ Idle (standalone a shmid r s).2.view) ∨
    (Stuck (standalone a shmid r s) ∧ Jammed (standalone a shmid r s).2.view) := by
  rw [standalone_begun (by rw [hbegin]),hbegin]
  have hdispatched := h.dispatch hclean a.dispatch r
  generalize dmTxDispatch a.dispatch shmid (execute shmid r) s' = out at hdispatched
  cases hdispatched with
  | refused out negative state => exact .inr (finish_negative negative state a)
  | handled s2 s1 out entered ready disk working value left =>
    have hworked := working.runAll (r.handler s1).ops
    obtain ⟨hclosing,hdisk,hfailed⟩ := hworked.complete h.start out.1
    rw [← left] at hclosing hdisk hfailed
    by_cases hneg : out.1 < 0
    · exact .inr (finish_negative hneg (.inl hclosing) a)
    by_cases hf : out.2.view.manager.failed = true
    · obtain hrestored | ⟨_,hstuck⟩ := finish_failed (not_lt.1 hneg) hclosing hf a
      · exact .inr (.inl hrestored)
      · exact .inr (.inr hstuck)
    · have hf' : out.2.view.manager.failed = false := by simpa using hf
      obtain ⟨s3,heq,hidle,hkept⟩ | hstuck := finish_clean (not_lt.1 hneg) hclosing hf' a
      · refine .inl ⟨⟨?_,⟨s1,⟨by rw [hbegin],s2,?_,ready⟩,?_,?_,?_,?_,?_,?_⟩,?_,?_⟩,?_⟩
        · rw [heq]
          exact not_lt.1 hneg
        · rw [hbegin]
          exact entered
        · rw [disk,hfiles]
        · rw [disk,hblobs]
        · rw [heq]
          exact value
        · rw [heq]
          dsimp only
          rw [hkept,hdisk]
        · rw [heq]
          dsimp only
          rw [hkept,hdisk]
        · intro pre op post hops hop
          have hfail := working.runAll_refused pre post op hop
          rw [← hops,(hfailed.1 hf').1] at hfail
          cases hfail
        · rw [heq]
          exact hidle.journal
        · rw [heq]
          exact hidle.free
        · rwa [heq]
      · exact .inr (.inr hstuck)

theorem Idle.command (h : Idle s.view) (a : Answers) (shmid : ℤ) (r : Request μ) :
    (Done a shmid r s (standalone a shmid r s) ∧ Idle (standalone a shmid r s).2.view) ∨
    (Restored s (standalone a shmid r s) ∧ Idle (standalone a shmid r s).2.view) ∨
    (Stuck (standalone a shmid r s) ∧ Jammed (standalone a shmid r s).2.view) := by
  have hbegun := h.begin a shmid
  generalize hbegin : beginSession a shmid s = out at hbegun
  cases hbegun with
  | refused code s' negative ordinary view =>
    rw [standalone,hbegin,if_pos ⟨negative,ordinary⟩]
    exact .inr (.inl (restored_of_idle negative (view ▸ h) (congrArg View.disk view)))
  | broken s' blocked =>
    rw [standalone,hbegin,if_pos ⟨eRollback_neg,eRollback_ne⟩]
    exact .inr (.inr (stuck_of_blocked (.inl rfl) blocked))
  | begun s' env closing clean files blobs => exact closing.command hbegin clean files blobs r

/-- With a failure in its handler a command is not done. -/
theorem Idle.command_failed {s1 : Server μ} (h : Idle s.view) (hstarts : Starts a shmid r s s1)
    (hvalue : 0 ≤ (r.handler s1).value) {pre post : List Routed} {op : Routed}
    (hops : (r.handler s1).ops = pre++op::post) (hop : (op.run (runAll pre s1.view)).1.Refused) :
    Restored s (standalone a shmid r s) ∨
      ((standalone a shmid r s).1 = eRollback ∧ Stuck (standalone a shmid r s)) := by
  obtain ⟨hzero,s2,hentered,hready⟩ := hstarts
  have hbegun := h.begin a shmid
  generalize hbegin : beginSession a shmid s = out at hbegun hzero hentered
  cases hbegun with
  | refused code s' negative ordinary view => exact absurd hzero (ne_of_lt negative)
  | broken s' blocked => exact absurd hzero (ne_of_lt eRollback_neg)
  | begun s' env closing clean files blobs =>
    rw [standalone_begun (by rw [hbegin]),hbegin]
    have hdispatched := closing.dispatch clean a.dispatch r
    have hresult : (dmTxDispatch a.dispatch shmid (execute shmid r) s').1 = (r.handler s1).value := by
      rw [dmTxDispatch,hentered,if_pos rfl,execute,hready]
      rfl
    generalize dmTxDispatch a.dispatch shmid (execute shmid r) s' = out at hdispatched hresult
    cases hdispatched with
    | refused out negative state => omega
    | handled s2' s1' out entered ready disk working value left =>
      obtain rfl : s2 = s2' := congrArg Prod.snd (hentered.symm.trans entered)
      obtain rfl : s1 = s1' := Except.ok.inj (hready.symm.trans ready)
      have hfail := working.runAll_refused pre post op hop
      rw [← hops] at hfail
      obtain ⟨hclosing,_,hfailed⟩ := (working.runAll (r.handler s1).ops).complete closing.start out.1
      rw [← left] at hclosing hfailed
      have hf : out.2.view.manager.failed = true := by
        by_contra hclean
        rw [(hfailed.1 (by simpa using hclean)).1] at hfail
        cases hfail
      obtain ⟨hrestored,_⟩ | ⟨hcode,hstuck,_⟩ := finish_failed (hresult ▸ hvalue) hclosing hf a
      · exact .inl hrestored
      · exact .inr ⟨hcode,hstuck⟩

theorem wire_standalone (j : Job μ) (hcommand : 0 ≤ j.command) (hordinary : j.command∉maintenance) :
    dmTxWire j s = standalone j.answers j.shmid j.request s := by
  rw [dmTxWire,if_neg (not_lt.2 hcommand),if_neg hordinary]

/-- **Atomic commands.** A command outside of a transaction ends in exactly one way: done
with the changes of its handler, refused with files and blobs as before, or with a blocked
manager; and with a handler that returns a success although one of its operations failed
it is not done. -/
theorem standalone_atomic (h : Idle s.view) (j : Job μ) (hcommand : 0 ≤ j.command)
    (hordinary : j.command∉maintenance) :
    (Done j.answers j.shmid j.request s (dmTxWire j s) ∨ Restored s (dmTxWire j s) ∨ Stuck (dmTxWire j s)) ∧
    ¬ (Done j.answers j.shmid j.request s (dmTxWire j s) ∧ Restored s (dmTxWire j s)) ∧
    ¬ (Done j.answers j.shmid j.request s (dmTxWire j s) ∧ Stuck (dmTxWire j s)) ∧
    ¬ (Restored s (dmTxWire j s) ∧ Stuck (dmTxWire j s)) ∧
    ∀ s1 pre op post,Starts j.answers j.shmid j.request s s1 → 0 ≤ (j.request.handler s1).value →
      (j.request.handler s1).ops = pre++op::post → (op.run (runAll pre s1.view)).1.Refused →
      Restored s (dmTxWire j s) ∨ ((dmTxWire j s).1 = eRollback ∧ Stuck (dmTxWire j s)) := by
  rw [wire_standalone j hcommand hordinary]
  have hcases := h.command j.answers j.shmid j.request
  refine ⟨?_,?_,?_,?_,?_⟩
  · obtain ⟨hdone,_⟩ | ⟨hrestored,_⟩ | ⟨hstuck,_⟩ := hcases
    · exact .inl hdone
    · exact .inr (.inl hrestored)
    · exact .inr (.inr hstuck)
  · intro hboth
    exact absurd hboth.1.value (not_le.2 hboth.2.value)
  · intro hboth
    have hvalue := hboth.1.value
    obtain hcode | hcode := hboth.2.value
    · rw [hcode] at hvalue
      cases hvalue
    · rw [hcode] at hvalue
      cases hvalue
  · intro hboth
    obtain ⟨_,hidle⟩ | ⟨_,hidle⟩ | ⟨_,hjammed⟩ := hcases
    · have hb := hboth.2.blocked
      simp [hidle.running] at hb
    · have hb := hboth.2.blocked
      simp [hidle.running] at hb
    · exact absurd hboth.1.free (not_lt.2 hjammed.owned)
  · intro s1 pre op post hstarts hvalue hops hop
    exact h.command_failed hstarts hvalue hops hop

/-- Session 7 is registered. -/
def sampleServer : Server Unit := ⟨[some ⟨7,sampleEnv⟩],sampleStart.view true,()⟩

def sampleProbe : Probe := ⟨fun _ => false,true,sampleDescriptors,fun _ => none⟩

/-- A command that writes to a descriptor; its abort fails at its first effect. -/
def sampleJob (fd : ℤ) : Job Unit where
  thread := {}
  shmid := 7
  command := 23
  trailing := false
  answers := ⟨sampleProbe,true,none,sampleProbe,sampleDescriptors,none,some (0,0)⟩
  request :=
    { copy := sampleProbe
      message := fun _ => .ok ([⟨3,sampleName⟩],[])
      os := sampleDescriptors
      alloc := true
      handler := fun _ => ⟨[.write sampleDescriptors fd [8,9] 2 none],1,()⟩ }
  manage := fun s => (0,s)

theorem sampleServer_idle : Idle sampleServer.view where
  free := by decide
  running := rfl
  alone := rfl
  scope := rfl
  journal := rfl
  sized := by simp [sampleServer,sampleStart,State.view,int64Max]

theorem standalone_atomic_sample : (dmTxWire (sampleJob 3) sampleServer).1 = 1 ∧
    Done (sampleJob 3).answers 7 (sampleJob 3).request sampleServer (dmTxWire (sampleJob 3) sampleServer) := by
  have hvalue : (dmTxWire (sampleJob 3) sampleServer).1 = 1 := by decide +kernel
  obtain ⟨hdone | hrestored | hstuck,_⟩ := standalone_atomic sampleServer_idle (sampleJob 3) (by decide) (by decide)
  · exact ⟨hvalue,hdone⟩
  · have hneg := hrestored.value
    rw [hvalue] at hneg
    cases hneg
  · have hcode := hstuck.value
    rw [hvalue] at hcode
    exact absurd hcode (by decide)

/-- The server when the handler of the command starts. -/
def sampleReady (fd : ℤ) : Except (ℤ × Server Unit) (Server Unit) :=
  prepare 7 (sampleJob fd).request
    (sessionRootUse sampleProbe 7 (fun _ => dmTxEnter 7 []) (beginSession (sampleJob fd).answers 7 sampleServer).2).2

/-- The handler returns 1 although its write failed, and then the abort fails too. -/
theorem failed_write_blocks : ∃ s1,Starts (sampleJob 4).answers 7 (sampleJob 4).request sampleServer s1 ∧
    0 ≤ ((sampleJob 4).request.handler s1).value ∧
    ((sampleJob 4).request.handler s1).ops = [.write sampleDescriptors 4 [8,9] 2 none] ∧
    ((Routed.write sampleDescriptors 4 [8,9] 2 none).run s1.view).1.Refused ∧
    ¬ Restored sampleServer (dmTxWire (sampleJob 4) sampleServer) := by
  have hbegun : (beginSession (sampleJob 4).answers 7 sampleServer).1 = 0 := by decide +kernel
  have hentered : (sessionRootUse sampleProbe 7 (fun _ => dmTxEnter 7 [])
      (beginSession (sampleJob 4).answers 7 sampleServer).2).1 = 0 := by decide +kernel
  have howner : (dmTxWire (sampleJob 4) sampleServer).2.view.manager.owner = 7 := by decide +kernel
  have hwrite : (sampleReady 4).toOption.map
      (fun s1 => ((Routed.write sampleDescriptors 4 [8,9] 2 none).run s1.view).1) = some (.errno .inval) := by
    decide +kernel
  cases hready : sampleReady 4 with
  | error out => simp [hready,Except.toOption] at hwrite
  | ok s1 =>
    rw [hready,Except.toOption,Option.map_some,Option.some.injEq] at hwrite
    refine ⟨s1,⟨hbegun,_,Prod.ext hentered rfl,hready⟩,(zero_le_one : (0 : ℤ) ≤ 1),rfl,?_,?_⟩
    · rw [hwrite]
      trivial
    · intro hrestored
      have hfree := hrestored.free
      rw [howner] at hfree
      cases hfree

end Dataman.TransactionWire

import Dataman.TransactionFailures
import Dataman.TransactionWire

/-!
# The phases of a command

A command outside of a transaction goes from an idle manager into a transaction of its
own, works in a scope, and comes to an end. Each phase is an invariant, and each section
of the command leads from one phase to the next.
-/

namespace Dataman.TransactionWire
open UndoJournal TransactionSession SessionRoot

variable {μ : Type} {v : View} {s : Server μ} {p : Probe} {shmid : ℤ} {budget : Budget} {os : Descriptors}

/-! ## Phases -/

/-- Nobody owns a transaction. -/
structure Idle (v : View) : Prop where
  free : v.manager.owner < 0
  running : v.manager.blocked = false
  alone : v.manager.ownerRequest = false
  scope : v.thread.scope.active = false
  journal : v.disk.journal = none
  sized : ∀ file,(v.disk.files file).length ≤ int64Max

/-- The manager is blocked, and the owner keeps its transaction. -/
structure Jammed (v : View) : Prop where
  blocked : v.manager.blocked = true
  owned : 0 ≤ v.manager.owner

theorem Idle.journaling (h : Idle v) : Journaling v.manager v.disk := by
  constructor
  · exact fun _ => ⟨h.journal,h.sized⟩
  · intro howned
    exact absurd h.free (not_lt.2 howned)

/-- The transaction of a command that began on the disk `d`. -/
structure Within (shmid : ℤ) (env : Env) (d : Disk) (v : View) : Prop where
  owned : 0 ≤ shmid
  owner : v.manager.owner = shmid
  running : v.manager.blocked = false
  opened : ∃ db : Database,db.files = (d.world env).files ∧ Opened env db v
  frame : ∀ root,root≠env.root → v.disk.blobs root = d.blobs root

variable {env : Env} {d : Disk}

theorem Within.fail (h : Within shmid env d v) : Within shmid env d v.fail := by
  obtain ⟨db,hdb,hopened⟩ := h.opened
  exact ⟨h.owned,h.owner,h.running,⟨db,hdb,hopened.fail⟩,h.frame⟩

theorem setWorld_frame {w : World} {root : Ident} (hne : root≠env.root) :
    (d.setWorld env w).blobs root = d.blobs root := Function.update_of_ne hne _ _

theorem undo_frame {db : Database} {root : Ident} (h : Opened env db v) (q : Env → JournalM Unit)
    (hne : root≠env.root) : (v.undo q budget).2.disk.blobs root = v.disk.blobs root := by
  obtain ⟨tx,hj,_⟩ := h
  rw [undo_eq hj]
  exact setWorld_frame hne

theorem undo_blocked (q : Env → JournalM Unit) (budget : Budget) :
    (v.undo q budget).2.manager.blocked = v.manager.blocked := congrArg Admission.Core.blocked (undo_core q budget)

theorem within_performs {call : UndoJournal.Call} {good : Result} {bad : Fault → Result} {out : Result × View}
    (hp : Performs v call budget good bad out) (h : Within shmid env d v) : Within shmid env d out.2 := by
  obtain ⟨db,hdb,hopened⟩ := h.opened
  obtain ⟨hok,hfail⟩ := hopened.undo call budget
  have howner := (undo_owner (v := v) (call.run ·) budget).trans h.owner
  have hrunning := (undo_blocked (v := v) (call.run ·) budget).trans h.running
  have hframe : ∀ root,root≠env.root → (v.undo (call.run ·) budget).2.disk.blobs root = d.blobs root :=
    fun root hne => (undo_frame hopened _ hne).trans (h.frame root hne)
  cases hp with
  | done ok => exact ⟨h.owned,howner,hrunning,⟨db,hdb,hok ok⟩,hframe⟩
  | broken e error => exact ⟨h.owned,howner,hrunning,⟨db,hdb,hfail⟩,hframe⟩

theorem Within.aside {v' : View} (h : Within shmid env d v) (ha : Aside v v') : Within shmid env d v' := by
  obtain ⟨db,hdb,tx,hj,hholds,hactive⟩ := h.opened
  refine ⟨h.owned,ha.owner.trans h.owner,ha.blocked.trans h.running,⟨db,hdb,tx,ha.journal.trans hj,?_,?_⟩,?_⟩
  · rwa [ha.disk]
  · intro hclean
    apply hactive
    by_contra hfailed
    rw [ha.failed (by simpa using hfailed)] at hclean
    cases hclean
  · rw [ha.disk]
    exact h.frame

/-! ## The handler -/

/-- The thread works for the transaction. -/
structure Working (shmid : ℤ) (env : Env) (d : Disk) (v : View) : Prop extends Within shmid env d v where
  request : v.manager.ownerRequest = true
  scope : v.inScope = true

theorem Working.nonneg (h : Working shmid env d v) : 0 ≤ v.manager.owner := h.owner ▸ h.owned

theorem Working.owns (h : Working shmid env d v) : Owned v := fun _ => h.nonneg

/-- What an operation of a handler does. -/
inductive Worked (v : View) : Result × View → Prop
  | refused (r : Result) (failed : v.manager.failed = true) : Worked v (r,v)
  | fails (r : Result) : Worked v (r,v.fail)
  | tracks (indices : List CachedIndex) :
      Worked v (.value 0,{ v with manager := { v.manager with cachedIndices := indices } })
  | performs {call : UndoJournal.Call} {budget : Budget} {good : Result} {bad : Fault → Result} {out : Result × View}
      (fine : ¬ good.Refused) (run : Performs v call budget good bad out) : Worked v out

theorem Working.routeWrite (h : Working shmid env d v) (os : Descriptors) (fd : ℤ) (data : Bytes) (offset : ℤ)
    (budget : Budget) : Worked v (routeWrite os fd data offset budget v) := by
  have hcases := routeWrite_cases os fd data offset budget h.owns
  generalize TransactionSession.routeWrite os fd data offset budget v = out at hcases
  cases hcases with
  | refused e why =>
    obtain hb | ⟨hscope,_⟩ | ⟨_,hfailed⟩ := why
    · simp [h.running] at hb
    · simp [h.scope] at hscope
    · exact .refused _ hfailed
  | admitted free running plain => exact absurd free (not_lt.2 h.nonneg)
  | unknown serving scope missing => exact .fails _
  | performs serving scope target out found run => exact .performs (by simp [Result.Refused]) run

theorem Working.routeBlob (h : Working shmid env d v) (op : BlobOp) (path : CString) (budget : Budget) :
    Worked v (routeBlob op path budget v) := by
  have hcases := routeBlob_cases op path budget h.owns
  generalize TransactionSession.routeBlob op path budget v = out at hcases
  cases hcases with
  | refused e why =>
    obtain hb | ⟨hscope,_⟩ | ⟨_,hfailed⟩ := why
    · simp [h.running] at hb
    · simp [h.scope] at hscope
    · exact .refused _ hfailed
  | plain free running => exact absurd free (not_lt.2 h.nonneg)
  | unknown serving scope => exact .fails _
  | performs serving scope name op' out run => exact .performs (by simp [Result.Refused]) run

theorem Working.trackIndex (h : Working shmid env d v) (os : Descriptors) (alloc : Bool) (index : Option ℕ) :
    Worked v (dmTxTrackIndex os alloc index v) := by
  have hb : ¬ v.manager.blocked = true := by simp [h.running]
  have ho : ¬ v.manager.owner < 0 := not_lt.2 h.nonneg
  rw [dmTxTrackIndex,if_neg hb,if_neg ho,if_neg (not_not.2 h.scope)]
  split
  · rename_i hfailed
    exact .refused _ hfailed
  split
  · exact .fails _
  split
  · split
    · exact .tracks v.manager.cachedIndices
    · exact .fails _
  · split
    · exact .fails _
    · exact .tracks _

theorem Working.namespaceCheck (h : Working shmid env d v) : Worked v (namespaceCheck v) := by
  have hscope := h.scope
  simp only [View.inScope,Bool.and_eq_true,decide_eq_true_eq] at hscope
  rw [TransactionSession.namespaceCheck,if_pos (.inr h.nonneg),if_pos hscope.1]
  exact .fails _

theorem Working.op (h : Working shmid env d v) (op : Routed) : Worked v (op.run v) := by
  cases op with
  | write os fd data offset budget => exact h.routeWrite os fd data offset budget
  | blob op path budget => exact h.routeBlob op path budget
  | track os alloc index => exact h.trackIndex os alloc index
  | check => exact h.namespaceCheck

/-- A working thread goes on working as long as owner, generation and scope are the same. -/
theorem Working.of_same {v' : View} (h : Working shmid env d v) (hw : Within shmid env d v')
    (hcore : v'.manager.core = v.manager.core) (hthread : v'.thread = v.thread) : Working shmid env d v' := by
  simp only [Manager.core,Admission.Core.mk.injEq] at hcore
  obtain ⟨howner,_,hgeneration,_,_,hrequest,_⟩ := hcore
  refine ⟨hw,hrequest.trans h.request,?_⟩
  rw [View.inScope,hthread,howner,hgeneration]
  exact h.scope

theorem Worked.keeps {out : Result × View} (hw : Worked v out) (h : Working shmid env d v) :
    Working shmid env d out.2 := by
  cases hw with
  | refused r failed => exact h
  | fails r => exact h.of_same h.toWithin.fail rfl rfl
  | tracks indices => exact h.of_same (h.toWithin.aside ⟨rfl,rfl,rfl,rfl,id⟩) rfl rfl
  | performs fine run =>
    apply h.of_same (within_performs run h.toWithin)
    · cases run with
      | done ok => exact undo_core _ _
      | broken e error => exact undo_core _ _
    · cases run with
      | done ok => exact undo_thread _ _
      | broken e error => exact undo_thread _ _

theorem undo_failed (q : Env → JournalM Unit) : (v.undo q budget).2.manager.failed = v.manager.failed := by
  unfold View.undo
  split <;> rfl

theorem Worked.failed {out : Result × View} (hw : Worked v out)
    (h : v.manager.failed = true ∨ out.1.Refused) : out.2.manager.failed = true := by
  cases hw with
  | refused r failed => exact failed
  | fails r => rfl
  | tracks indices => exact h.resolve_right (by simp [Result.Refused])
  | performs fine run =>
    cases run with
    | done ok =>
      rw [undo_failed]
      exact h.resolve_right fine
    | broken e error => rfl

theorem Working.runAll (h : Working shmid env d v) (ops : List Routed) : Working shmid env d (runAll ops v) := by
  induction ops generalizing v with
  | nil => exact h
  | cons op ops ih => exact ih ((h.op op).keeps h)

theorem Working.runAll_failed (h : Working shmid env d v) (ops : List Routed) (hfailed : v.manager.failed = true) :
    (TransactionWire.runAll ops v).manager.failed = true := by
  induction ops generalizing v with
  | nil => exact hfailed
  | cons op ops ih => exact ih ((h.op op).keeps h) ((h.op op).failed (.inl hfailed))

/-- An operation that fails is remembered to the end. -/
theorem Working.runAll_refused (h : Working shmid env d v) (pre post : List Routed) (op : Routed)
    (hop : (op.run (TransactionWire.runAll pre v)).1.Refused) :
    (TransactionWire.runAll (pre++op::post) v).manager.failed = true := by
  have hpre := h.runAll pre
  rw [TransactionWire.runAll,List.foldl_append,List.foldl_cons]
  exact ((hpre.op op).keeps hpre).runAll_failed post ((hpre.op op).failed (.inr hop))

/-! ## The end -/

theorem setWorld_world (d' : Disk) (hframe : ∀ root,root≠env.root → d'.blobs root = d.blobs root)
    (hjournal : d.journal = none) : d'.setWorld env ⟨none,(d.world env).files⟩ = d := by
  have hblobs : Function.update d'.blobs env.root (d.blobs env.root) = d.blobs := by
    funext root
    by_cases hroot : root = env.root
    · rw [hroot,Function.update_self]
    · rw [Function.update_of_ne hroot,hframe root hroot]
  simp only [Disk.setWorld,Disk.world,hblobs]
  rw [← hjournal]

/-- The end of a transaction that began on `d`: the changes stay or `d` is back, or the
manager is blocked. -/
theorem Within.finish (h : Within shmid env d v) (halone : v.manager.ownerRequest = false)
    (hscope : v.thread.scope.active = false) (hd : d.journal = none) (commit disconnect : Bool)
    (hclean : commit = true → v.manager.failed = false) (os : Descriptors) (budget : Budget) :
    (∃ v',finish os shmid commit disconnect budget v = (.value 0,v') ∧ Idle v' ∧
      v'.disk = if commit then { v.disk with journal := none } else d) ∨
    (∃ v',finish os shmid commit disconnect budget v = (.value (if commit then eMultiple else eRollback),v') ∧
      Jammed v') := by
  have howned : 0 ≤ v.manager.owner := h.owner ▸ h.owned
  obtain ⟨db,hdb,hopened⟩ := h.opened
  obtain ⟨tx,hj,hholds,hactive⟩ := id hopened
  obtain ⟨r,hrefused,_⟩ | ⟨_,⟨v',hok,hfresh,heq⟩ | heq⟩ := finish_cases os shmid commit disconnect budget v
  · exfalso
    obtain ⟨hb,_⟩ | ⟨_,hfree | hother,_⟩ | ⟨hreq,_⟩ | ⟨hc,hf,_⟩ := hrefused
    · simp [h.running] at hb
    · exact absurd howned (not_le.2 hfree)
    · exact hother h.owner
    · simp [halone] at hreq
    · simp [hclean hc] at hf
  · have hkeeps := @keeps_finish v budget os shmid commit disconnect (hopened.journaling howned)
    rw [heq] at hkeeps
    have hfree : (-1 : ℤ) < 0 := by decide
    obtain ⟨hjournal,hsized⟩ := hkeeps.closed hfree
    obtain ⟨hmanager,hdisk,hthread⟩ := refreshIndices_eq hfresh
    have hcore := @close_core v commit budget
    simp only [Manager.core,Admission.Core.mk.injEq] at hcore
    obtain ⟨_,hblocked,_,_,_,hrequest,_⟩ := hcore
    refine .inl ⟨_,heq,⟨hfree,?_,?_,?_,hjournal,hsized⟩,?_⟩
    · dsimp only
      rw [hmanager]
      exact hblocked.trans h.running
    · dsimp only
      rw [hmanager]
      exact hrequest.trans halone
    · dsimp only
      rw [hthread,close_thread]
      exact hscope
    · dsimp only
      rw [hdisk,close_disk hj hholds (fun hc => hactive (hclean hc)) hok]
      cases commit with
      | false =>
        rw [if_neg (by decide),if_neg (by decide),hdb]
        exact setWorld_world v.disk h.frame hd
      | true =>
        rw [if_pos rfl,if_pos rfl]
        exact setWorld_world (d := { v.disk with journal := none }) v.disk (fun _ _ => rfl) rfl
  · refine .inr ⟨_,heq,rfl,?_⟩
    have hcore := congrArg Admission.Core.owner (@close_core v commit budget)
    exact howned.trans_eq hcore.symm

/-! ## Uses of the registry -/

theorem reapFrom_same (hclose : ∀ i e,(closeSlot p i e v).2 = v) (i : ℕ) (roots : List (Option Session)) :
    (reapFrom p i roots v).2.2 = v := by
  induction roots generalizing i with
  | nil => rfl
  | cons slot roots ih =>
    cases slot with
    | none => exact ih (i+1)
    | some e =>
      simp only [reapFrom]
      split
      · split
        · exact hclose i e
        · rw [hclose i e]
          exact ih (i+1)
      · exact ih (i+1)

theorem reapFrom_zero (hclose : ∀ i e,closeSlot p i e v = (0,v)) (i : ℕ) (roots : List (Option Session)) :
    (reapFrom p i roots v).1 = 0 := by
  induction roots generalizing i with
  | nil => rfl
  | cons slot roots ih =>
    cases slot with
    | none => exact ih (i+1)
    | some e =>
      simp only [reapFrom]
      split
      · rw [hclose i e,if_neg (lt_irrefl (0 : ℤ))]
        exact ih (i+1)
      · exact ih (i+1)

/-- A session that owns nothing is just forgotten. -/
theorem closeSlot_other {e : Session} (hrunning : v.manager.blocked = false)
    (hother : v.manager.owner < 0 ∨ v.manager.owner≠e.shmid) (i : ℕ) : closeSlot p i e v = (0,v) := by
  simp [closeSlot,dmTxDisconnect,TransactionSession.finish,hrunning,hother,Result.code]

theorem Idle.closeSlot (h : Idle v) (i : ℕ) (e : Session) : closeSlot p i e v = (0,v) :=
  closeSlot_other h.running (.inl h.free) i

theorem Idle.reap (h : Idle s.view) : (reap p s).1 = 0 ∧ (reap p s).2.view = s.view :=
  ⟨reapFrom_zero h.closeSlot 0 s.roots,reapFrom_same (fun i e => by rw [h.closeSlot i e]) 0 s.roots⟩

/-- The session of a handler is not closed. -/
theorem Working.closeSlot (h : Working shmid env d v) (i : ℕ) (e : Session) : (closeSlot p i e v).2 = v := by
  by_cases howner : v.manager.owner = e.shmid
  · have hfree : ¬ (v.manager.owner < 0 ∨ v.manager.owner≠e.shmid) := by
      simp only [howner,ne_eq,not_true_eq_false,or_false]
      rw [← howner]
      exact not_lt.2 h.nonneg
    simp [SessionRoot.closeSlot,dmTxDisconnect,TransactionSession.finish,h.running,hfree,h.request]
  · rw [closeSlot_other h.running (.inr howner)]

theorem Working.reap (h : Working shmid env d s.view) : (reap p s).2.view = s.view := reapFrom_same h.closeSlot 0 s.roots

/-- A transaction of the session, with no thread at work. -/
structure Closing (shmid : ℤ) (env : Env) (d : Disk) (v : View) : Prop extends Within shmid env d v where
  alone : v.manager.ownerRequest = false
  scope : v.thread.scope.active = false
  start : d.journal = none

theorem eRollback_neg : eRollback < 0 := by decide

/-- What reaping can do to a transaction between its beginning and its handler. -/
theorem Closing.reapFrom (h : Closing shmid env d v) (i : ℕ) (roots : List (Option Session)) :
    ((reapFrom p i roots v).1 = 0 ∧ (reapFrom p i roots v).2.2 = v) ∨
    ((reapFrom p i roots v).1 = 0 ∧ Idle (reapFrom p i roots v).2.2 ∧ (reapFrom p i roots v).2.2.disk = d) ∨
    ((reapFrom p i roots v).1 < 0 ∧ Jammed (reapFrom p i roots v).2.2) := by
  induction roots generalizing i with
  | nil => exact .inl ⟨rfl,rfl⟩
  | cons slot roots ih =>
    cases slot with
    | none => exact ih (i+1)
    | some e =>
      simp only [SessionRoot.reapFrom]
      split
      case isFalse => exact ih (i+1)
      case isTrue =>
        by_cases howner : v.manager.owner = e.shmid
        · have hshmid : shmid = e.shmid := h.owner.symm.trans howner
          obtain ⟨v',heq,hidle,hdisk⟩ | ⟨v',heq,hblocked⟩ :=
            h.finish h.alone h.scope h.start false true (fun hc => absurd hc (by decide)) p.os (p.budget i)
          · have hclosed : closeSlot p i e v = (0,v') := by
              rw [SessionRoot.closeSlot,dmTxDisconnect,← hshmid,heq]
              rfl
            rw [hclosed,if_neg (lt_irrefl (0 : ℤ))]
            dsimp only
            rw [reapFrom_zero hidle.closeSlot,reapFrom_same (fun i e => by rw [hidle.closeSlot i e])]
            exact .inr (.inl ⟨rfl,hidle,hdisk⟩)
          · have hclosed : closeSlot p i e v = (eRollback,v') := by
              rw [SessionRoot.closeSlot,dmTxDisconnect,← hshmid,heq]
              rfl
            rw [hclosed,if_pos eRollback_neg]
            exact .inr (.inr ⟨eRollback_neg,hblocked⟩)
        · rw [closeSlot_other h.running (.inr howner),if_neg (lt_irrefl (0 : ℤ))]
          exact ih (i+1)

/-! ## Entering and leaving the handler -/

theorem Closing.enter_eq (h : Closing shmid env d v) (hclean : v.manager.failed = false) :
    dmTxEnter shmid [] v =
      (.value 0,
        { v with
          manager := { v.manager with ownerRequest := true }
          thread := { v.thread with scope := ⟨true,shmid,v.manager.generation,[]⟩ } }) := by
  have hfree : ¬ (v.manager.owner < 0 ∨ v.manager.owner≠shmid) := by
    simp only [h.owner,ne_eq,not_true_eq_false,or_false]
    exact not_lt.2 h.owned
  simp [dmTxEnter,h.scope,h.running,hfree,hclean,h.alone,targetsValid]

theorem Closing.enter (h : Closing shmid env d v) (hclean : v.manager.failed = false) :
    (dmTxEnter shmid [] v).1 = .value 0 ∧ Working shmid env d (dmTxEnter shmid [] v).2 ∧
      (dmTxEnter shmid [] v).2.disk = v.disk ∧ (dmTxEnter shmid [] v).2.manager.failed = false := by
  have hwithin := h.toWithin.aside (@aside_enter v shmid [])
  rw [h.enter_eq hclean] at hwithin ⊢
  exact ⟨rfl,⟨hwithin,rfl,by simp [View.inScope,h.owner]⟩,rfl,hclean⟩

theorem Working.complete (h : Working shmid env d v) (hd : d.journal = none) (result : ℤ) :
    Closing shmid env d (dmTxComplete result v).2 ∧ (dmTxComplete result v).2.disk = v.disk ∧
      ((dmTxComplete result v).2.manager.failed = false ↔ v.manager.failed = false ∧ 0 ≤ result) := by
  have hactive : v.thread.scope.active = true := by
    have hscope := h.scope
    simp only [View.inScope,Bool.and_eq_true] at hscope
    exact hscope.1.1
  have hwithin := h.toWithin.aside (@aside_complete v result)
  simp only [dmTxComplete,hactive,if_true] at hwithin ⊢
  exact ⟨⟨hwithin,rfl,rfl,hd⟩,trivial,by simp⟩

theorem trackIndex_disk (alloc : Bool) (index : Option ℕ) : (dmTxTrackIndex os alloc index v).2.disk = v.disk := by
  have hcases := trackIndex_cases os alloc index v
  generalize dmTxTrackIndex os alloc index v = out at hcases
  cases hcases with
  | refused r why blocked => rfl
  | unknown serving r why => rfl
  | tracked serving indices => rfl

theorem trackAll_disk (alloc : Bool) (indices : List ℕ) : (trackAll os alloc indices v).2.disk = v.disk := by
  induction indices generalizing v with
  | nil => rfl
  | cons i indices ih =>
    simp only [trackAll]
    split
    · exact trackIndex_disk alloc (some i)
    · rw [ih,trackIndex_disk]

theorem Working.trackAll (h : Working shmid env d v) (os : Descriptors) (alloc : Bool) (indices : List ℕ) :
    Working shmid env d (trackAll os alloc indices v).2 := by
  induction indices generalizing v with
  | nil => exact h
  | cons i indices ih =>
    have hnext := (h.trackIndex os alloc (some i)).keeps h
    simp only [TransactionWire.trackAll]
    split
    · exact hnext
    · exact ih hnext

theorem Working.bind (h : Working shmid env d v) (targets : List Target) :
    Working shmid env d (dmTxBind targets v).2 := by
  have hwithin := h.toWithin.aside (@aside_bind v targets)
  have hcore : (dmTxBind targets v).2.manager = v.manager := by
    unfold dmTxBind
    split <;> rfl
  have hscope : (dmTxBind targets v).2.inScope = v.inScope := by
    unfold dmTxBind
    split <;> rfl
  refine ⟨hwithin,?_,?_⟩
  · rw [hcore]
    exact h.request
  · rw [hscope]
    exact h.scope

/-- Up to the handler the thread is at work and the disk as it was. -/
inductive Prepared (shmid : ℤ) (env : Env) (d : Disk) (s : Server μ) : Except (ℤ × Server μ) (Server μ) → Prop
  | refused (code : ℤ) (s' : Server μ) (negative : code < 0) (working : Working shmid env d s'.view) :
      Prepared shmid env d s (.error (code,s'))
  | ready (s' : Server μ) (working : Working shmid env d s'.view) (disk : s'.view.disk = s.view.disk) :
      Prepared shmid env d s (.ok s')

theorem eNoConn_neg : eNoConn < 0 := by decide

theorem eRollback_ne : eRollback≠eInXact := by decide

theorem eRecWrt_neg : eRecWrt < 0 := by decide

theorem eInvMsg_neg : eInvMsg < 0 := by decide

theorem eNoXact_neg : eNoXact < 0 := by decide

theorem Working.prepare (h : Working shmid env d s.view) (r : Request μ) :
    Prepared shmid env d s (prepare shmid r s) := by
  have hview : (sessionRootCopy r.copy shmid s).2.view = s.view := h.reap
  have hcopied : Working shmid env d (sessionRootCopy r.copy shmid s).2.view := by rwa [hview]
  unfold TransactionWire.prepare
  dsimp only
  split
  · exact .refused _ _ eNoConn_neg hcopied
  cases r.message (sessionRootCopy r.copy shmid s).2 with
  | error e => exact .refused _ _ e.negative hcopied
  | ok msg =>
    have htracked := hcopied.trackAll r.os r.alloc msg.2
    dsimp only
    split
    · rename_i hneg
      exact .refused _ _ hneg htracked
    split
    · rename_i hneg
      exact .refused _ _ hneg (htracked.bind msg.1)
    · apply Prepared.ready _ (htracked.bind msg.1)
      dsimp only
      rw [(@aside_bind _ msg.1).disk,trackAll_disk,hview]

end Dataman.TransactionWire

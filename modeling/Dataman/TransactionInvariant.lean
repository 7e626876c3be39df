import Dataman.TransactionSteps

/-!
# The journal of the owner

Without an owner there is no journal; while a session owns a transaction, its journal
leads back to the database at the beginning, also after changes that failed.
-/

namespace Dataman.TransactionSession
open ByteFiles FailState LabelledRuns UndoJournal

variable {v : View} {m : Manager} {d : Disk} {env : Env} {tx : Tx} {budget : Budget}

@[simp] theorem world_setWorld (w : World) : (d.setWorld env w).world env = w := by
  simp [Disk.setWorld,Disk.world]

/-- The journal is right for the owner there is. -/
structure Journaling (m : Manager) (d : Disk) : Prop where
  closed : m.owner < 0 → d.journal = none ∧ ∀ file,(d.files file).length ≤ int64Max
  opened : 0 ≤ m.owner → m.blocked = false → ∃ env tx,∃ db : Database,
    m.journal = some (env,tx) ∧ Holds env db.files (d.world env) tx ∧ (m.failed = false → tx.state = .active)

theorem Journaling.blocked (howned : 0 ≤ m.owner) (hblocked : m.blocked = true) : Journaling m d := by
  constructor
  · omega
  · intro _ hrunning
    rw [hblocked] at hrunning
    cases hrunning

/-- Only owner, `blocked`, `failed` and the journal matter. -/
theorem Journaling.congr {m' : Manager} (h : Journaling m d) (howner : m'.owner = m.owner)
    (hblocked : m'.blocked = m.blocked) (hjournal : m'.journal = m.journal)
    (hfailed : m'.failed = false → m.failed = false) : Journaling m' d := by
  constructor
  · rw [howner]
    exact h.closed
  · rw [howner,hblocked,hjournal]
    intro howned hrunning
    obtain ⟨env,tx,db,hj,hholds,hactive⟩ := h.opened howned hrunning
    exact ⟨env,tx,db,hj,hholds,fun hf => hactive (hfailed hf)⟩

theorem Journaling.fail (h : Journaling v.manager v.disk) : Journaling v.fail.manager v.fail.disk :=
  h.congr rfl rfl rfl fun hf => by cases hf

/-! ## Changes through the journal -/

/-- The journal that is open leads back to a database. -/
def Opened (env : Env) (db : Database) (v : View) : Prop :=
  ∃ tx,v.manager.journal = some (env,tx) ∧ Holds env db.files (v.disk.world env) tx ∧
    (v.manager.failed = false → tx.state = .active)

theorem Opened.fail {db : Database} (h : Opened env db v) : Opened env db v.fail := by
  obtain ⟨tx,hj,hholds,-⟩ := h
  refine ⟨tx,hj,hholds,?_⟩
  intro hf
  cases hf

/-- A call of the journal; if it fails, the transaction has failed. -/
theorem Opened.undo {db : Database} (h : Opened env db v) (c : UndoJournal.Call) (budget : Budget) :
    ((v.undo (c.run ·) budget).1 = .ok () → Opened env db (v.undo (c.run ·) budget).2) ∧
    Opened env db (v.undo (c.run ·) budget).2.fail := by
  obtain ⟨tx,hj,hholds,-⟩ := h
  obtain ⟨r,mach,hrun⟩ : ∃ r mach,c.run env ⟨v.disk.world env,tx,budget⟩ = (r,mach) := ⟨_,_,rfl⟩
  have hnext : Holds env db.files ((v.disk.setWorld env mach.world).world env) mach.tx := by
    rw [world_setWorld]
    exact hholds.call c hrun
  rw [undo_eq hj,hrun]
  constructor
  · rintro rfl
    exact ⟨mach.tx,rfl,hnext,fun _ => hholds.call_ok c hrun⟩
  · exact ⟨mach.tx,rfl,hnext,fun hf => by cases hf⟩

theorem Opened.journaling {db : Database} (h : Opened env db v) (howned : 0 ≤ v.manager.owner) :
    Journaling v.manager v.disk := by
  obtain ⟨tx,hj,hholds,hactive⟩ := h
  constructor
  · intro hfree
    exact absurd howned (not_le.2 hfree)
  · exact fun _ _ => ⟨env,tx,db,hj,hholds,hactive⟩

theorem undo_owner (p : Env → JournalM Unit) (budget : Budget) :
    (v.undo p budget).2.manager.owner = v.manager.owner := congrArg Admission.Core.owner (undo_core p budget)

theorem Journaling.undo (h : Journaling v.manager v.disk) (howned : 0 ≤ v.manager.owner)
    (hrunning : v.manager.blocked = false) (c : UndoJournal.Call) (budget : Budget) :
    ((v.undo (c.run ·) budget).1 = .ok () →
      Journaling (v.undo (c.run ·) budget).2.manager (v.undo (c.run ·) budget).2.disk) ∧
    Journaling (v.undo (c.run ·) budget).2.fail.manager (v.undo (c.run ·) budget).2.fail.disk := by
  obtain ⟨env,tx,db,hj,hholds,hactive⟩ := h.opened howned hrunning
  have hopened : Opened env db v := ⟨tx,hj,hholds,hactive⟩
  obtain ⟨hok,hfail⟩ := hopened.undo c budget
  have howner : 0 ≤ (v.undo (c.run ·) budget).2.manager.owner := by rwa [undo_owner]
  constructor
  · intro hrun
    exact (hok hrun).journaling howner
  · exact hfail.journaling howner

/-! ## Every section -/

/-- A section keeps the journal right. -/
def Keeps (v v' : View) : Prop := Journaling v.manager v.disk → Journaling v'.manager v'.disk

theorem keeps_refl : Keeps v v := id

theorem keeps_fail : Keeps v v.fail := Journaling.fail

theorem Performs.keeps {c : UndoJournal.Call} {good : Result} {bad : Fault → Result} {out : Result × View}
    (h : Performs v c budget good bad out) (hserving : Serving v) : Keeps v out.2 := by
  intro hj
  obtain ⟨hok,hfail⟩ := hj.undo hserving.owned hserving.running c budget
  cases h with
  | done ok => exact hok ok
  | broken e error => exact hfail

theorem Acts.keeps {v' : View} (h : Acts v v') : Keeps v v' := by
  cases h with
  | same => exact keeps_refl
  | fails => exact keeps_fail
  | admits free w => exact fun h => h.congr rfl rfl rfl id
  | tracks indices => exact fun h => h.congr rfl rfl rfl id
  | performs serving run => exact run.keeps serving

/-- A plain write goes on only without an owner. -/
theorem keeps_transfer {os : Descriptors} {n : ℕ} (hw : v.thread.direct≠none → v.manager.owner < 0) :
    Keeps v (transfer os n v).2 := by
  unfold transfer
  split
  · exact keeps_refl
  · rename_i w hdirect
    split
    · exact keeps_refl
    split
    · exact keeps_refl
    · rename_i file _ hrange
      rw [not_or] at hrange
      intro h
      have hfree := hw (by simp [hdirect])
      obtain ⟨hjournal,hsized⟩ := h.closed hfree
      constructor
      · refine fun _ => ⟨hjournal,?_⟩
        intro other
        dsimp only
        by_cases ho : other = file
        · subst ho
          rw [Function.update_self]
          apply length_writeAt_le (hsized other)
          have htake := List.length_take_le' n w.data
          omega
        · rw [Function.update_of_ne ho]
          exact hsized other
      · exact fun howned => absurd hfree (not_lt.2 howned)

/-- A transaction begins on the database there is. -/
theorem journaling_begun {out : Machine} (h : Journaling v.manager v.disk) (hfree : v.manager.owner < 0)
    (hrun : dmUndoBegin env ⟨v.disk.world env,closedTx,budget⟩ = (.ok (),out)) :
    ∃ db : Database,db.files = (v.disk.world env).files ∧ Holds env db.files out.world out.tx ∧
      out.tx.state = .active := by
  obtain ⟨hjournal,hsized⟩ := h.closed hfree
  let db : Database := ⟨(v.disk.world env).files,hsized⟩
  have hworld : v.disk.world env = ⟨none,db.files⟩ := by simp [db,Disk.world,hjournal]
  have hspec : wp (dmUndoBegin env) ⟨⟨none,db.files⟩,closedTx,budget⟩
      (fun _ mach => Holds env db.files mach.world mach.tx ∧ mach.tx.state = .active) (fun _ _ => True) := by
    apply wp_dmUndoBegin
    · intro b' hpath
      exact ⟨.inl ⟨rfl,[],db.active hpath⟩,rfl⟩
    · intros
      trivial
  rw [hworld] at hrun
  exact ⟨db,rfl,(wp_of_ok hrun).1 hspec⟩

theorem keeps_begin {shmid : ℤ} {alloc : Bool} : Keeps v (dmTxBegin shmid env alloc budget v).2 := by
  have hcases := begin_cases shmid env alloc budget v
  generalize dmTxBegin shmid env alloc budget v = out at hcases
  cases hcases with
  | refused r negative => exact keeps_refl
  | failed start e out run => exact fun _ => .blocked start.valid rfl
  | begun start out run =>
    intro h
    obtain ⟨db,_,hholds,hactive⟩ := journaling_begun h start.free run
    constructor
    · intro hneg
      exact absurd start.valid (not_le.2 hneg)
    · intro _ _
      exact ⟨env,out.tx,db,rfl,by rwa [world_setWorld],fun _ => hactive⟩

/-- A commit keeps the files, an abort gives those of the beginning back. -/
theorem close_disk {db : Database} {commit : Bool} (hj : v.manager.journal = some (env,tx))
    (hholds : Holds env db.files (v.disk.world env) tx) (hactive : commit = true → tx.state = .active)
    (hok : (v.undo (endJournal commit) budget).1 = .ok ()) :
    (v.close commit budget).disk =
      v.disk.setWorld env ⟨none,if commit then (v.disk.world env).files else db.files⟩ := by
  obtain ⟨r,mach,hrun⟩ : ∃ r mach,endJournal commit env ⟨v.disk.world env,tx,budget⟩ = (r,mach) := ⟨_,_,rfl⟩
  rw [undo_eq hj,hrun] at hok
  obtain rfl : r = .ok () := hok
  have hworld : mach.world = ⟨none,if commit then (v.disk.world env).files else db.files⟩ := by
    cases commit with
    | false => exact (wp_of_ok hrun).1 hholds.abort
    | true =>
      obtain ⟨hs,rs,hact⟩ | ⟨hs,_⟩ := hholds
      · exact (wp_of_ok hrun).1 (hact.commit hs)
      · rw [hactive rfl] at hs
        cases hs
  rw [View.close,undo_eq hj,hrun,← hworld]

theorem Holds.sized {db : Database} {w : World} (h : Holds env db.files w tx) (file : Ident) :
    (w.files.files file).length ≤ int64Max := by
  obtain ⟨_,rs,hact⟩ | ⟨_,rs,tail,hj⟩ := h
  · exact hact.covered.sized file
  · exact hj.covered.sized file

theorem keeps_finish {os : Descriptors} {shmid : ℤ} {commit disconnect : Bool} :
    Keeps v (finish os shmid commit disconnect budget v).2 := by
  intro h
  obtain ⟨r,_,heq⟩ | ⟨hfin,⟨v',hok,hfresh,heq⟩ | heq⟩ := finish_cases os shmid commit disconnect budget v
  · rw [heq]
    exact h
  · rw [heq]
    obtain ⟨env,tx,db,hj,hholds,hactive⟩ := h.opened hfin.owned hfin.running
    have hdisk := close_disk hj hholds (fun hc => hactive (hfin.clean hc)) hok
    obtain ⟨_,hsame,_⟩ := refreshIndices_eq hfresh
    constructor
    · intro _
      dsimp only
      rw [hsame,hdisk]
      refine ⟨rfl,fun file => ?_⟩
      cases commit with
      | false => exact db.sized file
      | true => exact Holds.sized hholds file
    · intro howned
      cases howned
  · rw [heq]
    apply Journaling.blocked
    · have hcore := congrArg Admission.Core.owner (@close_core v commit budget)
      dsimp only
      rw [show (v.close commit budget).manager.owner = v.manager.owner from hcore]
      exact hfin.owned
    · rfl

/-- A section that leaves the disk, the owner and the journal alone. -/
structure Aside (v v' : View) : Prop where
  disk : v'.disk = v.disk
  owner : v'.manager.owner = v.manager.owner
  blocked : v'.manager.blocked = v.manager.blocked
  journal : v'.manager.journal = v.manager.journal
  failed : v.manager.failed = true → v'.manager.failed = true

theorem Aside.keeps {v' : View} (h : Aside v v') : Keeps v v' := by
  intro hj
  rw [h.disk]
  apply hj.congr h.owner h.blocked h.journal
  intro hclean
  by_contra hfailed
  rw [h.failed (by simpa using hfailed)] at hclean
  cases hclean

theorem aside_refl : Aside v v := ⟨rfl,rfl,rfl,rfl,id⟩

theorem aside_requestEnter : Aside v (dmTxRequestEnter v).2 := by
  unfold dmTxRequestEnter
  split
  · exact aside_refl
  split
  · exact aside_refl
  split
  · exact aside_refl
  · exact ⟨rfl,rfl,rfl,rfl,id⟩

theorem aside_requestLeave : Aside v (dmTxRequestLeave v).2 := by
  unfold dmTxRequestLeave
  split
  · exact ⟨rfl,rfl,rfl,rfl,id⟩
  · exact aside_refl

theorem aside_leaveWrite : Aside v (leaveWrite v).2 := by
  unfold leaveWrite
  split
  · exact aside_refl
  · exact ⟨rfl,rfl,rfl,rfl,id⟩

theorem aside_enter {shmid : ℤ} {targets : List Target} : Aside v (dmTxEnter shmid targets v).2 := by
  unfold dmTxEnter
  split
  · exact aside_refl
  split
  · exact aside_refl
  split
  · exact aside_refl
  split
  · exact aside_refl
  split
  · exact aside_refl
  · exact ⟨rfl,rfl,rfl,rfl,id⟩

theorem aside_bind {targets : List Target} : Aside v (dmTxBind targets v).2 := by
  unfold dmTxBind
  split
  · exact aside_refl
  · exact ⟨rfl,rfl,rfl,rfl,id⟩

theorem aside_complete {result : ℤ} : Aside v (dmTxComplete result v).2 := by
  unfold dmTxComplete
  split
  · refine ⟨rfl,rfl,rfl,rfl,fun hf => ?_⟩
    simp [hf]
  · exact aside_refl

theorem Call.keeps {c : Call} (hs : Owned v) (hw : v.thread.direct≠none → v.manager.owner < 0) :
    Keeps v (c.run v).2 := by
  cases c with
  | requestEnter => exact aside_requestEnter.keeps
  | requestLeave => exact aside_requestLeave.keeps
  | routeWrite os fd data offset budget => exact (acts_routeWrite os fd data offset budget hs).keeps
  | transfer os n => exact keeps_transfer hw
  | leaveWrite => exact aside_leaveWrite.keeps
  | routeBlob op path budget => exact (acts_routeBlob op path budget hs).keeps
  | namespaceCheck => exact (acts_namespaceCheck v).keeps
  | enter shmid targets => exact aside_enter.keeps
  | bind targets => exact aside_bind.keeps
  | complete result => exact aside_complete.keeps
  | trackIndex os alloc index => exact (acts_trackIndex os alloc index v).keeps
  | begin shmid env alloc budget => exact keeps_begin
  | write shmid path check data offset budget => exact (acts_write shmid path check data offset budget v).keeps
  | commit os shmid budget => exact keeps_finish
  | abort os shmid budget => exact keeps_finish
  | disconnect os shmid budget => exact keeps_finish

/-! ## Runs -/

variable {τ : Type} {s s' s0 : State τ} {t : τ} {e : Event τ} {log : List (Event τ)}

/-- Admission and journal are right. -/
structure Sound (s : State τ) : Prop where
  admission : Admission.Sound s.manager.core fun t => (s.threads t).local
  journaling : Journaling s.manager s.disk

theorem Sound.scope (h : Sound s) (t : τ) (hactive : (s.threads t).scope.active = true) :
    s.manager.ownerRequest = true ∧ (s.threads t).scope.shmid = s.manager.owner ∧
      (s.threads t).scope.generation = s.manager.generation ∧
      ∀ u,(s.threads u).scope.active = true → u = t := by
  have hlocal : (s.threads t).local.scope = some ((s.threads t).scope.shmid,(s.threads t).scope.generation) := by
    simp [Thread.local,hactive]
  obtain ⟨hreq,hx,honly⟩ := h.admission.scope t _ hlocal
  refine ⟨hreq,congrArg Prod.fst hx,congrArg Prod.snd hx,fun u hu => honly u ?_⟩
  simp [Thread.local,hu]

theorem Sound.owned (h : Sound s) (t : τ) : Owned (s.view t) :=
  fun hactive => (h.admission.request (h.scope t hactive).1).1

theorem Sound.not_writing (h : Sound s) (t : τ) (hdirect : (s.threads t).direct≠none) : s.manager.owner < 0 := by
  by_contra howned
  have := h.admission.not_writing (not_lt.1 howned) t
  simp [Thread.local,hdirect] at this

theorem Initial.sound (h : Initial s0) : Sound s0 := by
  constructor
  · rw [h.manager,h.threads]
    constructor
    · simp [Thread.local,Manager.core]
    · simp [Thread.local,Manager.core]
    · simp [Manager.core]
    · simp [Manager.core]
    · simp [Manager.core]
    · simp [Thread.local]
    · simp [Manager.core]
  · rw [h.manager]
    constructor
    · exact fun _ => ⟨h.journal,h.sized⟩
    · intro howned
      cases howned

variable [DecidableEq τ]

theorem Sound.step (h : Sound s) (hstep : Step s e s') : Sound s' := by
  cases hstep with
  | call t c enabled =>
    constructor
    · have hlocals : (fun u => ((s.next t c).threads u).local) =
          Function.update (fun u => (s.threads u).local) t (c.run (s.view t)).2.thread.local := by
        funext u
        by_cases hu : u = t
        · simp [State.next,State.set,hu]
        · simp [State.next,State.set,hu]
      rw [hlocals]
      exact h.admission.change (Call.changes (h.owned t) enabled)
    · exact Call.keeps (h.owned t) (h.not_writing t) h.journaling

theorem Initial.run (h : Initial s0) (hrun : Run Step s0 log s) : Sound s := hrun.invariant h.sound Sound.step

end Dataman.TransactionSession

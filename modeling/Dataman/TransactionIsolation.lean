import Dataman.TransactionInvariant

/-!
# Isolation

While a session owns a transaction, bytes change for that session only, and not before
the journal has them. A manager that is blocked takes nothing any more.
-/

namespace Dataman.TransactionSession
open FailState LabelledRuns UndoJournal

variable {v : View} {c : Call} {budget : Budget}

/-! ## Writes for the owner -/

/-- Wherever the write is cut, the file has changed only if the journal of the owner has
the bytes before; a write that succeeded has added them. -/
def JournaledFirst (v : View) (name : CString) (data : Bytes) (offset : ℤ) (write : Budget → View → Result × View)
    (budget : Budget) : Prop :=
  ∃ env tx rs,v.manager.journal = some (env,tx) ∧ v.disk.journal = some (journalBytes env rs) ∧
    (write budget v).2.disk.journal =
      some (journalBytes env (rs++writeRecords env (v.disk.world env).files name data offset)) ∧
    ∀ b,Recorded env rs (writeRecords env (v.disk.world env).files name data offset) (v.disk.world env).files
      ((write b v).2.disk.world env)

/-- A thread acts for the owner: in a scope of the transaction, or by the name of the session. -/
inductive OwnerWrite (v : View) : Call → Prop
  | scoped {os : Descriptors} {fd : ℤ} {data : Bytes} {offset : ℤ} {budget : Budget} (target : Target)
      (scope : v.inScope = true) (bound : v.thread.scope.targets.find? (·.fd = fd) = some target)
      (journaled : JournaledFirst v target.path data offset (routeWrite os fd data offset) budget) :
      OwnerWrite v (.routeWrite os fd data offset budget)
  | session {shmid : ℤ} {path : CString} {check : Option Descriptor} {data : Bytes} {offset : ℤ} {budget : Budget}
      (owner : v.manager.owner = shmid) (alone : v.manager.ownerRequest = true → v.thread.scope.active = true)
      (journaled : JournaledFirst v path data offset (writeTarget shmid path check data offset) budget) :
      OwnerWrite v (.write shmid path check data offset budget)

theorem Performs.disk {call : UndoJournal.Call} {good : Result} {bad : Fault → Result} {out : Result × View}
    (h : Performs v call budget good bad out) : out.2.disk = (v.undo (call.run ·) budget).2.disk := by
  cases h with
  | done ok => rfl
  | broken e error => rfl

/-- The journal of an active transaction grows by the record of a write before the file changes. -/
theorem Active.recorded {env : Env} {s0 : Files} {rs : List Record} {w : World} {tx : Tx} (h : Active env s0 rs w tx)
    (hs : tx.state = .active) (name : CString) (check : Option Descriptor) (data : Bytes) (offset : ℤ)
    (budget : Budget) {r : Except Fault Unit} {mach : Machine}
    (hrun : UndoJournal.writeTarget env name check data offset ⟨w,tx,budget⟩ = (r,mach)) :
    Recorded env rs (writeRecords env w.files name data offset) w.files mach.world ∧
      (r = .ok () → mach.world.journal =
        some (journalBytes env (rs++writeRecords env w.files name data offset))) := by
  have hspec : wp (UndoJournal.writeTarget env name check data offset) ⟨w,tx,budget⟩
      (fun _ m => m.world.journal = some (journalBytes env (rs++writeRecords env w.files name data offset)))
      (fun _ m => Recorded env rs (writeRecords env w.files name data offset) w.files m.world) :=
    wp_writeTarget h hs (fun _ _ _ hact _ => hact.journal) fun _ _ _ hrec => hrec
  cases r with
  | ok u =>
    have hjournal := (wp_of_ok hrun).1 hspec
    exact ⟨.inr hjournal,fun _ => hjournal⟩
  | error e =>
    apply And.intro ((wp_of_error hrun).1 hspec)
    intro hok
    cases hok

theorem journaledFirst_of_undo {name : CString} {check : Option Descriptor} {data : Bytes} {offset : ℤ}
    {write : Budget → View → Result × View} (hj : Journaling v.manager v.disk) (hserving : Serving v)
    (hdisk : ∀ b,(write b v).2.disk = (v.undo (UndoJournal.writeTarget · name check data offset) b).2.disk)
    (hok : (v.undo (UndoJournal.writeTarget · name check data offset) budget).1 = .ok ()) :
    JournaledFirst v name data offset write budget := by
  obtain ⟨env,tx,db,hjournal,hholds,hactive⟩ := hj.opened hserving.owned hserving.running
  have hs := hactive hserving.clean
  obtain ⟨_,rs,hact⟩ | ⟨hs',_⟩ := hholds
  · have hrec := fun b => Active.recorded hact hs name check data offset b rfl
    rw [undo_eq hjournal] at hok
    refine ⟨env,tx,rs,hjournal,hact.journal,?_,fun b => ?_⟩
    · rw [hdisk,undo_eq hjournal]
      exact (hrec budget).2 hok
    · rw [hdisk,undo_eq hjournal,world_setWorld]
      exact (hrec b).1
  · rw [hs] at hs'
    cases hs'

theorem ownerWrite_routeWrite {os : Descriptors} {fd : ℤ} {data : Bytes} {offset : ℤ}
    (hj : Journaling v.manager v.disk) (hs : Owned v) (hok : (routeWrite os fd data offset budget v).1 = .value 0) :
    OwnerWrite v (.routeWrite os fd data offset budget) := by
  have hcases := routeWrite_cases os fd data offset budget hs
  generalize routeWrite os fd data offset budget v = out at hcases hok
  cases hcases with
  | refused e why => cases hok
  | admitted free running plain => cases hok
  | unknown serving scope missing => cases hok
  | performs serving scope target out found run =>
    cases run with
    | broken e error => cases hok
    | done ok =>
      apply OwnerWrite.scoped target scope found
      apply journaledFirst_of_undo hj serving _ ok
      intro b
      -- the budget does not matter for the way to the journal
      have hcases := routeWrite_cases os fd data offset b hs
      generalize routeWrite os fd data offset b v = out at hcases
      cases hcases with
      | refused e why =>
        obtain h | h | h := why
        · simp [serving.running] at h
        · simp [scope] at h
        · simp [serving.clean] at h
      | admitted free running plain => exact absurd serving.owned (not_le.2 free)
      | unknown serving scope missing => simp [found] at missing
      | performs serving scope other out found' run =>
        obtain rfl := Option.some.inj (found.symm.trans found')
        exact run.disk

theorem ownerWrite_write {shmid : ℤ} {path : CString} {check : Option Descriptor} {data : Bytes} {offset : ℤ}
    (hj : Journaling v.manager v.disk)
    (hok : (writeTarget shmid path check data offset budget v).1 = .value 0) :
    OwnerWrite v (.write shmid path check data offset budget) := by
  have hcases := writeTarget_cases shmid path check data offset budget v
  generalize writeTarget shmid path check data offset budget v = out at hcases hok
  cases hcases with
  | refused r why negative =>
    cases hok
    cases negative
  | performs serving owner alone call out write run =>
    cases run with
    | broken e error => cases hok
    | done ok =>
      rw [write] at ok
      apply OwnerWrite.session owner alone
      apply journaledFirst_of_undo hj serving _ ok
      intro b
      have hcases := writeTarget_cases shmid path check data offset b v
      generalize writeTarget shmid path check data offset b v = out at hcases
      cases hcases with
      | refused r why negative =>
        obtain h | ⟨h | h,_⟩ | ⟨⟨hreq,hidle⟩,_⟩ | ⟨_,_,h⟩ := why
        · simp [serving.running] at h
        · exact absurd serving.owned (not_le.2 h)
        · exact absurd owner h
        · simp [alone hreq] at hidle
        · simp [serving.clean] at h
      | performs _ _ _ other out write' run =>
        rw [← write']
        exact run.disk

/-! ## After a failure that blocks -/

/-- Everything but the end of what was admitted before. -/
def Call.Asks : Call → Prop
  | requestLeave | complete _ => False
  | _ => True

def Result.Refused : Result → Prop
  | .value r => r < 0
  | .errno _ => True
  | .pending => False

/-- A blocked manager without scopes and direct writes refuses. -/
structure Blocks (c : Call) (v : View) : Prop where
  disk : (c.run v).2.disk = v.disk
  blocked : (c.run v).2.manager.blocked = true
  refused : c.Asks → (c.run v).1.Refused

theorem blocks_of_refused (r : Result) (hr : r.Refused) (hb : v.manager.blocked = true) (hrun : c.run v = (r,v)) :
    Blocks c v := by
  constructor
  · rw [hrun]
  · rw [hrun]
    exact hb
  · intro _
    rw [hrun]
    exact hr

theorem blocks_value (r : ℤ) (hr : r < 0) (hb : v.manager.blocked = true) (hrun : c.run v = (.value r,v)) :
    Blocks c v := blocks_of_refused (.value r) hr hb hrun

theorem blocks_errno (e : Errno) (hb : v.manager.blocked = true) (hrun : c.run v = (.errno e,v)) :
    Blocks c v := blocks_of_refused (.errno e) trivial hb hrun

theorem finish_blocked (os : Descriptors) (shmid : ℤ) (commit disconnect : Bool) (budget : Budget)
    (hb : v.manager.blocked = true) : finish os shmid commit disconnect budget v = (.value eRollback,v) := by
  simp [finish,hb]

theorem Call.blocks (hb : v.manager.blocked = true) (hidle : v.thread.scope.active = false)
    (hdirect : v.thread.direct = none) (henabled : c.Enabled v.thread) : Blocks c v := by
  cases c with
  | requestEnter =>
    cases hactive : v.thread.requestActive with
    | true => exact blocks_value eInvMsg (by decide) hb (by simp [Call.run,dmTxRequestEnter,hactive])
    | false => exact blocks_value eRollback (by decide) hb (by simp [Call.run,dmTxRequestEnter,hactive,hb])
  | requestLeave =>
    have haside := @aside_requestLeave v
    exact ⟨haside.disk,haside.blocked.trans hb,False.elim⟩
  | complete result =>
    have haside := @aside_complete v result
    exact ⟨haside.disk,haside.blocked.trans hb,False.elim⟩
  | transfer os n =>
    obtain ⟨w,hw,_⟩ := henabled
    simp [hdirect] at hw
  | leaveWrite =>
    obtain ⟨w,hw,_⟩ := henabled
    simp [hdirect] at hw
  | routeWrite os fd data offset budget =>
    exact blocks_errno .io hb (by simp [Call.run,TransactionSession.routeWrite,hb])
  | routeBlob op path budget => exact blocks_errno .io hb (by simp [Call.run,TransactionSession.routeBlob,hb])
  | namespaceCheck =>
    exact blocks_errno .io hb (by simp [Call.run,TransactionSession.namespaceCheck,hb,hidle])
  | enter shmid targets =>
    by_cases hvalid : targetsValid targets
    · exact blocks_value eRollback (by decide) hb (by simp [Call.run,dmTxEnter,hidle,hvalid,hb])
    · exact blocks_value eInvMsg (by decide) hb (by simp [Call.run,dmTxEnter,hvalid])
  | bind targets => exact blocks_value eInvMsg (by decide) hb (by simp [Call.run,dmTxBind,hidle])
  | trackIndex os alloc index => exact blocks_value eRollback (by decide) hb (by simp [Call.run,dmTxTrackIndex,hb])
  | begin shmid env alloc budget => exact blocks_value eRollback (by decide) hb (by simp [Call.run,dmTxBegin,hb])
  | write shmid path check data offset budget =>
    exact blocks_value eRollback (by decide) hb (by simp [Call.run,writeTarget,hb])
  | commit os shmid budget => exact blocks_value eRollback (by decide) hb (finish_blocked os shmid _ _ budget hb)
  | abort os shmid budget => exact blocks_value eRollback (by decide) hb (finish_blocked os shmid _ _ budget hb)
  | disconnect os shmid budget => exact blocks_value eRollback (by decide) hb (finish_blocked os shmid _ _ budget hb)

variable {τ : Type} {s s' s0 : State τ} {t : τ} {e : Event τ} {log log' : List (Event τ)}

theorem Sound.blocks (h : Sound s) (hb : s.manager.blocked = true) (t : τ) (henabled : c.Enabled (s.threads t)) :
    Blocks c (s.view t) := by
  obtain ⟨howned,halone⟩ := h.admission.blocked hb
  apply Call.blocks hb _ _ henabled
  · by_contra hactive
    have hscope : (s.threads t).scope.active = true := by simpa [State.view] using hactive
    have hreq := (h.scope t hscope).1
    rw [show s.manager.ownerRequest = false from halone] at hreq
    cases hreq
  · by_contra hdirect
    exact absurd (h.not_writing t hdirect) (not_lt.2 howned)

/-! ## Every run -/

/-- The calls that put bytes into files. -/
def Call.WritesBytes : Call → Prop
  | routeWrite .. | transfer .. | leaveWrite | write .. => True
  | _ => False

theorem Sound.ownerWrite (h : Sound s) (howned : 0 ≤ s.manager.owner) (henabled : c.Enabled (s.threads t))
    (hbytes : c.WritesBytes) (hok : (c.run (s.view t)).1 = .value 0) : OwnerWrite (s.view t) c := by
  have hdirect : (s.threads t).direct = none := by
    by_contra hdirect
    exact absurd (h.not_writing t hdirect) (not_lt.2 howned)
  cases c with
  | routeWrite os fd data offset budget => exact ownerWrite_routeWrite h.journaling (h.owned t) hok
  | write shmid path check data offset budget => exact ownerWrite_write h.journaling hok
  | transfer os n =>
    obtain ⟨w,hw,_⟩ := henabled
    simp [hdirect] at hw
  | leaveWrite =>
    obtain ⟨w,hw,_⟩ := henabled
    simp [hdirect] at hw
  | _ => exact hbytes.elim

theorem Sound.ownerRequest (h : Sound s) :
    s.manager.ownerRequest = true ↔ ∃! t,(s.threads t).scope.active = true := by
  constructor
  · intro hreq
    obtain ⟨_,t,ht⟩ := h.admission.request hreq
    have hactive : (s.threads t).scope.active = true := by
      by_contra hidle
      exact ht (by simp [Thread.local,hidle])
    exact ⟨t,hactive,(h.scope t hactive).2.2.2⟩
  · intro hone
    obtain ⟨t,ht,_⟩ := hone
    exact (h.scope t ht).1

variable [DecidableEq τ]

/-- From a blocked state nothing is admitted and the disk stays. -/
theorem Sound.blocked_run (h : Sound s) (hb : s.manager.blocked = true) (hrun : Run Step s log s') :
    Sound s' ∧ s'.manager.blocked = true ∧ s'.disk = s.disk ∧ ∀ e∈log,e.call.Asks → e.result.Refused := by
  induction hrun with
  | nil => exact ⟨h,hb,rfl,by simp⟩
  | snoc run last ih =>
    obtain ⟨hsound,hblocked,hdisk,hrefused⟩ := ih
    refine ⟨hsound.step last,?_⟩
    cases last with
    | call t c enabled =>
      have hblocks := hsound.blocks hblocked t enabled
      refine ⟨hblocks.blocked,hblocks.disk.trans hdisk,?_⟩
      intro e he
      rw [List.mem_append,List.mem_singleton] at he
      obtain he | rfl := he
      · exact hrefused e he
      · exact hblocks.refused

/-- Whatever threads and sessions do: an owner excludes direct writes and requests and has
a journal unless the manager is blocked; `owner_request` tells that one thread has a scope,
which is the owner's; bytes change for the owner only and after the journal has them; and
a blocked manager takes nothing any more. -/
theorem isolation (h0 : Initial s0) (hrun : Run Step s0 log s) :
    (0 ≤ s.manager.owner → s.manager.directWriters = 0 ∧ s.manager.activeRequests = 0 ∧
      (s.manager.blocked = false → s.manager.journal.isSome ∧ s.disk.journal.isSome)) ∧
    (s.manager.ownerRequest = true ↔ ∃! t,(s.threads t).scope.active = true) ∧
    (∀ t,(s.threads t).scope.active = true →
      (s.threads t).scope.shmid = s.manager.owner ∧ (s.threads t).scope.generation = s.manager.generation) ∧
    (0 ≤ s.manager.owner → ∀ t c,c.Enabled (s.threads t) → c.WritesBytes → (c.run (s.view t)).1 = .value 0 →
      OwnerWrite (s.view t) c) ∧
    (s.manager.blocked = true → ∀ log' s',Run Step s log' s' →
      s'.disk = s.disk ∧ ∀ e∈log',e.call.Asks → e.result.Refused) := by
  have h := h0.run hrun
  refine ⟨?_,h.ownerRequest,?_,?_,?_⟩
  · intro howned
    obtain ⟨hwriters,hrequests⟩ := h.admission.owned howned
    refine ⟨hwriters,hrequests,fun hrunning => ?_⟩
    obtain ⟨env,tx,db,hjournal,hholds,_⟩ := h.journaling.opened howned hrunning
    obtain ⟨_,rs,tail,hj⟩ := hholds.journaled
    have hdisk : s.disk.journal = some (journalBytes env rs++tail) := hj.journal
    simp [hjournal,hdisk]
  · intro t hactive
    obtain ⟨_,hshmid,hgeneration,_⟩ := h.scope t hactive
    exact ⟨hshmid,hgeneration⟩
  · intro howned t c henabled hbytes hok
    exact h.ownerWrite howned henabled hbytes hok
  · intro hb log' s' hrun'
    obtain ⟨_,_,hdisk,hrefused⟩ := h.blocked_run hb hrun'
    exact ⟨hdisk,hrefused⟩

/-- Two threads, and files of three bytes. -/
def sampleStart : State Bool where
  manager := {}
  disk := ⟨none,fun _ => [1,2,3],fun _ _ => none⟩
  indices _ := ⟨-1,0,0,0,0⟩
  threads _ := {}

theorem sampleName_nul_free : (0 : UInt8)∉[97] := by decide

def sampleName : CString := ⟨[97],sampleName_nul_free⟩

/-- Session 7 begins, and a thread enters for it with the file `a`. -/
def sampleScoped : State Bool :=
  (sampleStart.next true (.begin 7 sampleEnv true none)).next true (.enter 7 [⟨3,sampleName⟩])

def sampleDescriptors : Descriptors := fun fd =>
  ⟨true,false,if fd = 3 then sampleEnv.target sampleName.bytes else none⟩

theorem isolation_sample : 0 ≤ sampleScoped.manager.owner ∧
    OwnerWrite (sampleScoped.view true) (.routeWrite sampleDescriptors 3 [8,9] 2 none) := by
  have howned : 0 ≤ sampleScoped.manager.owner := by decide +kernel
  have hidle : (sampleScoped.threads true).direct = none := by decide +kernel
  have hbegin : Step sampleStart _ _ := .call true (.begin 7 sampleEnv true none) rfl
  have henter : Step (sampleStart.next true (.begin 7 sampleEnv true none)) _ sampleScoped := .call true (.enter 7 _) rfl
  obtain ⟨_,_,_,hwrite,_⟩ :=
    isolation ⟨rfl,rfl,rfl,by simp [sampleStart,int64Max]⟩ (.snoc (.snoc .nil hbegin) henter)
  exact ⟨howned,hwrite howned true _ hidle trivial (by decide +kernel)⟩

end Dataman.TransactionSession

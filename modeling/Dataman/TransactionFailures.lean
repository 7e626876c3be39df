import Dataman.TransactionIsolation

/-!
# Failures and commits

A step that fails for the owner leaves the transaction with nothing but its abort: no
commit succeeds before that, and so a commit that succeeds had no failure before it.
-/

namespace Dataman.TransactionSession
open LabelledRuns UndoJournal

variable {τ : Type} {s s' s0 : State τ} {t : τ} {e : Event τ} {log : List (Event τ)} {c : Call} {a : ℤ} {v : View}

/-- The codes of refusals up front. -/
def refusals : List ℤ := [eInvMsg,eNoLock,eNoXact]

/-- A step that was admitted for the owner and failed: a handler by its return value, a
write, an operation on blobs or the registration of an index by its answer, and a check
that a handler may not pass. -/
def Event.Fails (e : Event τ) : Prop :=
  match e.call with
  | .complete result => e.inScope = true ∧ result < 0
  | .routeWrite .. | .routeBlob .. => ∃ x,e.result = .errno x ∧ x≠.busy
  | .write .. | .trackIndex .. => ∃ r,e.result = .value r ∧ r < 0 ∧ r∉refusals
  | .namespaceCheck => e.inScope = true ∧ e.result≠.value 0
  | _ => False

def Event.Begins (a : ℤ) (e : Event τ) : Prop :=
  match e.call with
  | .begin shmid .. => shmid = a ∧ e.result = .value 0
  | _ => False

def Event.Commits (a : ℤ) (e : Event τ) : Prop :=
  match e.call with
  | .commit _ shmid _ => shmid = a ∧ e.result = .value 0
  | _ => False

/-- An abort or a disconnect of the session that succeeds. -/
def Event.Ends (a : ℤ) (e : Event τ) : Prop :=
  match e.call with
  | .abort _ shmid _ | .disconnect _ shmid _ => shmid = a ∧ e.result = .value 0
  | _ => False

/-- Blocked, or the transaction of the session with its failure. -/
def Doomed (a : ℤ) (m : Manager) : Prop := m.blocked = true ∨ (0 ≤ a ∧ m.owner = a ∧ m.failed = true)

/-! ## A failure dooms the transaction -/

variable {call : UndoJournal.Call} {budget : Budget} {good : Result} {bad : Fault → Result} {out : Result × View}

theorem Performs.doomed
    (h : Performs v call budget good bad out) (hserving : Serving v) :
    out.1 = good ∨ Doomed v.manager.owner out.2.manager := by
  cases h with
  | done ok => exact .inl rfl
  | broken e error => exact .inr (.inr ⟨hserving.owned,undo_owner _ budget,rfl⟩)

theorem Serving.doomed (h : Serving v) : Doomed v.manager.owner v.fail.manager := .inr ⟨h.owned,rfl,rfl⟩

variable {x : Errno}

/-- A refusal that is not for a foreign thread. -/
theorem doomed_of_refused (hs : Owned v) (hbusy : x≠.busy)
    (why : v.manager.blocked = true ∨ (v.inScope = false ∧ x = .busy) ∨ (v.inScope = true ∧ v.manager.failed = true)) :
    Doomed v.manager.owner v.manager := by
  obtain hb | ⟨_,hx⟩ | ⟨hscope,hfailed⟩ := why
  · exact .inl hb
  · exact absurd hx hbusy
  · simp only [View.inScope,Bool.and_eq_true] at hscope
    exact .inr ⟨hs hscope.1.1,rfl,hfailed⟩

variable {os : Descriptors} {data : Bytes} {offset : ℤ}

theorem routeWrite_doomed {fd : ℤ}
    (hs : Owned v) (hbusy : x≠.busy) (hx : (routeWrite os fd data offset budget v).1 = .errno x) :
    Doomed v.manager.owner (routeWrite os fd data offset budget v).2.manager := by
  have hcases := routeWrite_cases os fd data offset budget hs
  generalize routeWrite os fd data offset budget v = out at hcases hx ⊢
  cases hcases with
  | refused e why =>
    cases hx
    exact doomed_of_refused hs hbusy why
  | admitted free running plain => cases hx
  | unknown serving scope missing => exact serving.doomed
  | performs serving scope target out found run =>
    apply (run.doomed serving).resolve_left
    simp [hx]

variable {path : CString}

theorem routeBlob_doomed {op : BlobOp} (hs : Owned v)
    (hbusy : x≠.busy) (hx : (routeBlob op path budget v).1 = .errno x) :
    Doomed v.manager.owner (routeBlob op path budget v).2.manager := by
  have hcases := routeBlob_cases op path budget hs
  generalize routeBlob op path budget v = out at hcases hx ⊢
  cases hcases with
  | refused e why =>
    cases hx
    exact doomed_of_refused hs hbusy why
  | plain free running => cases hx
  | unknown serving scope => exact serving.doomed
  | performs serving scope name op' out run =>
    apply (run.doomed serving).resolve_left
    simp [hx]

variable {shmid r : ℤ}

theorem write_doomed {check : Option Descriptor}
    (hneg : r < 0) (hnew : r∉refusals)
    (hr : (writeTarget shmid path check data offset budget v).1 = .value r) :
    Doomed v.manager.owner (writeTarget shmid path check data offset budget v).2.manager := by
  have hcases := writeTarget_cases shmid path check data offset budget v
  generalize writeTarget shmid path check data offset budget v = out at hcases hr ⊢
  cases hcases with
  | refused r' why negative =>
    cases hr
    obtain hb | ⟨_,rfl⟩ | ⟨_,rfl⟩ | ⟨howned,_,hfailed⟩ := why
    · exact .inl hb
    · simp [refusals] at hnew
    · simp [refusals] at hnew
    · exact .inr ⟨howned,rfl,hfailed⟩
  | performs serving owner alone call out write run =>
    apply (run.doomed serving).resolve_left
    rw [hr,Result.value.injEq]
    omega

variable {alloc : Bool}

theorem trackIndex_doomed {index : Option ℕ} (hneg : r < 0)
    (hnew : r∉refusals) (hr : (dmTxTrackIndex os alloc index v).1 = .value r) :
    Doomed v.manager.owner (dmTxTrackIndex os alloc index v).2.manager := by
  have hcases := trackIndex_cases os alloc index v
  generalize dmTxTrackIndex os alloc index v = out at hcases hr ⊢
  cases hcases with
  | refused r' why blocked =>
    cases hr
    obtain hb | hcode | ⟨howned,hfailed⟩ := why
    · exact .inl hb
    · simp only [refusals,List.mem_cons,List.not_mem_nil,or_false,not_or] at hnew hcode
      omega
    · exact .inr ⟨howned,rfl,hfailed⟩
  | unknown serving r' why => exact serving.doomed
  | tracked serving indices =>
    cases hr
    cases hneg

/-! ## How a transaction goes on -/

/-- The owner and a failure stay. -/
structure Persists (v v' : View) : Prop where
  owner : v'.manager.owner = v.manager.owner
  failed : v.manager.failed = true → v'.manager.failed = true

theorem persists_refl : Persists v v := ⟨rfl,id⟩

theorem persists_fail : Persists v v.fail := ⟨rfl,fun _ => rfl⟩

variable {v' : View}

theorem Aside.persists (h : Aside v v') : Persists v v' := ⟨h.owner,h.failed⟩

theorem Performs.persists
    (h : Performs v call budget good bad out) (hserving : Serving v) : Persists v out.2 := by
  have hfailed : v.manager.failed = true → out.2.manager.failed = true := by
    intro hf
    rw [hserving.clean] at hf
    cases hf
  cases h with
  | done ok => exact ⟨undo_owner _ budget,hfailed⟩
  | broken e error => exact ⟨undo_owner _ budget,hfailed⟩

theorem Acts.persists (h : Acts v v') : Persists v v' := by
  cases h with
  | same => exact persists_refl
  | fails => exact persists_fail
  | admits free w => exact ⟨rfl,id⟩
  | tracks indices => exact ⟨rfl,id⟩
  | performs serving run => exact run.persists serving

theorem persists_begin {env : Env} (howned : 0 ≤ v.manager.owner) :
    Persists v (dmTxBegin shmid env alloc budget v).2 := by
  have hcases := begin_cases shmid env alloc budget v
  generalize dmTxBegin shmid env alloc budget v = out at hcases
  cases hcases with
  | refused r negative => exact persists_refl
  | begun start out run => exact absurd start.free (not_lt.2 howned)
  | failed start e out run => exact absurd start.free (not_lt.2 howned)

/-- What a step can do to the transaction of an owner. -/
def Stays (v : View) (e : Event τ) (v' : View) : Prop :=
  v'.manager.blocked = true ∨ e.Ends v.manager.owner ∨ (e.Commits v.manager.owner ∧ v.manager.failed = false) ∨
    Persists v v'

theorem Persists.stays (h : Persists v v') (e : Event τ) : Stays v e v' := .inr (.inr (.inr h))

theorem stays_finish {commit disconnect : Bool} {e : Event τ}
    (hend : (finish os shmid commit disconnect budget v).1 = .value 0 → shmid = v.manager.owner →
      (commit = true → v.manager.failed = false) →
      e.Ends v.manager.owner ∨ (e.Commits v.manager.owner ∧ v.manager.failed = false)) :
    Stays v e (finish os shmid commit disconnect budget v).2 := by
  obtain ⟨r,_,heq⟩ | ⟨hfin,⟨v',_,_,heq⟩ | heq⟩ := finish_cases os shmid commit disconnect budget v
  · rw [heq]
    exact persists_refl.stays e
  · obtain hends | hcommits := hend (by rw [heq]) hfin.owner.symm hfin.clean
    · exact .inr (.inl hends)
    · exact .inr (.inr (.inl hcommits))
  · rw [heq]
    exact .inl rfl

theorem Sound.stays (h : Sound s) (howned : 0 ≤ s.manager.owner) (henabled : c.Enabled (s.threads t)) :
    Stays (s.view t) (s.event t c) (c.run (s.view t)).2 := by
  have hs := h.owned t
  cases c with
  | requestEnter => exact aside_requestEnter.persists.stays _
  | requestLeave => exact aside_requestLeave.persists.stays _
  | leaveWrite => exact aside_leaveWrite.persists.stays _
  | namespaceCheck => exact (acts_namespaceCheck _).persists.stays _
  | enter shmid targets => exact aside_enter.persists.stays _
  | bind targets => exact aside_bind.persists.stays _
  | complete result => exact aside_complete.persists.stays _
  | routeWrite os fd data offset budget => exact (acts_routeWrite os fd data offset budget hs).persists.stays _
  | routeBlob op path budget => exact (acts_routeBlob op path budget hs).persists.stays _
  | write shmid path check data offset budget => exact (acts_write shmid path check data offset budget _).persists.stays _
  | trackIndex os alloc index => exact (acts_trackIndex os alloc index _).persists.stays _
  | begin shmid env alloc budget => exact (persists_begin howned).stays _
  | transfer os n =>
    obtain ⟨w,hw,_⟩ := henabled
    exact absurd (h.not_writing t (by simp [hw])) (not_lt.2 howned)
  | commit os shmid budget => exact stays_finish fun hok hshmid hclean => .inr ⟨⟨hshmid,hok⟩,hclean rfl⟩
  | abort os shmid budget => exact stays_finish fun hok hshmid _ => .inl ⟨hshmid,hok⟩
  | disconnect os shmid budget => exact stays_finish fun hok hshmid _ => .inl ⟨hshmid,hok⟩

/-- A doomed transaction is not committed, by whoever asks. -/
theorem Doomed.commit (h : Doomed a v.manager) (os : Descriptors) (shmid : ℤ) (budget : Budget) :
    (dmTxCommit os shmid budget v).1.Refused ∧ (dmTxCommit os shmid budget v).2.disk = v.disk := by
  obtain ⟨r,hrefused,heq⟩ | ⟨hfin,_⟩ := finish_cases os shmid true false budget v
  · have hneg : r < 0 := by
      obtain ⟨_,rfl⟩ | ⟨_,_,rfl⟩ | ⟨_,rfl⟩ | ⟨_,_,rfl⟩ := hrefused <;> decide
    rw [dmTxCommit,heq]
    exact ⟨hneg,rfl⟩
  · obtain hb | ⟨_,_,hfailed⟩ := h
    · simp [hfin.running] at hb
    · simp [hfin.clean rfl] at hfailed

/-! ## Runs -/

variable [DecidableEq τ]

theorem Sound.doomed (h : Sound s) (hfails : (s.event t c).Fails) : Doomed s.manager.owner (s.next t c).manager := by
  have hs := h.owned t
  cases c with
  | complete result =>
    obtain ⟨hactive,hneg⟩ := hfails
    replace hactive : (s.threads t).scope.active = true := hactive
    refine .inr ⟨hs hactive,?_⟩
    simp [State.next,State.set,State.view,Call.run,dmTxComplete,hactive,hneg]
  | namespaceCheck =>
    obtain ⟨hactive,_⟩ := hfails
    replace hactive : (s.threads t).scope.active = true := hactive
    obtain ⟨_,hshmid,_⟩ := h.scope t hactive
    have howned : 0 ≤ s.manager.owner := hs hactive
    refine .inr ⟨howned,?_⟩
    simp [State.next,State.set,State.view,Call.run,namespaceCheck,hactive,hshmid,howned,View.fail]
  | routeWrite os fd data offset budget =>
    obtain ⟨x,hx,hbusy⟩ := hfails
    exact routeWrite_doomed hs hbusy hx
  | routeBlob op path budget =>
    obtain ⟨x,hx,hbusy⟩ := hfails
    exact routeBlob_doomed hs hbusy hx
  | write shmid path check data offset budget =>
    obtain ⟨r,hr,hneg,hnew⟩ := hfails
    exact write_doomed hneg hnew hr
  | trackIndex os alloc index =>
    obtain ⟨r,hr,hneg,hnew⟩ := hfails
    exact trackIndex_doomed hneg hnew hr
  | _ => exact hfails.elim

/-- Only an abort or a disconnect gets a doomed transaction out of the way. -/
theorem Sound.doomed_step (h : Sound s) (hdoomed : Doomed a s.manager) (hstep : Step s e s') :
    e.Ends a ∨ Doomed a s'.manager := by
  cases hstep with
  | call t c enabled =>
    obtain hb | ⟨howned,rfl,hfailed⟩ := hdoomed
    · exact .inr (.inl (h.blocks hb t enabled).blocked)
    · obtain hb | hends | ⟨_,hclean⟩ | hpersists := h.stays howned enabled
      · exact .inr (.inl hb)
      · exact .inl hends
      · rw [show s.manager.failed = false from hclean] at hfailed
        cases hfailed
      · exact .inr (.inr ⟨howned,hpersists.owner,hpersists.failed hfailed⟩)

/-- The session owns the transaction until it ends it. -/
theorem Sound.holding_step (h : Sound s) (howner : s.manager.blocked = true ∨ (0 ≤ a ∧ s.manager.owner = a))
    (hstep : Step s e s') :
    e.Ends a ∨ e.Commits a ∨ s'.manager.blocked = true ∨ (0 ≤ a ∧ s'.manager.owner = a) := by
  cases hstep with
  | call t c enabled =>
    obtain hb | ⟨howned,rfl⟩ := howner
    · exact .inr (.inr (.inl (h.blocks hb t enabled).blocked))
    · obtain hb | hends | ⟨hcommits,_⟩ | hpersists := h.stays howned enabled
      · exact .inr (.inr (.inl hb))
      · exact .inl hends
      · exact .inr (.inl hcommits)
      · exact .inr (.inr (.inr ⟨howned,hpersists.owner⟩))

theorem Sound.doomed_run (h : Sound s) (hdoomed : Doomed a s.manager) (hrun : Run Step s log s')
    (hnot : ∀ x∈log,¬ x.Ends a) : Sound s' ∧ Doomed a s'.manager := by
  induction hrun with
  | nil => exact ⟨h,hdoomed⟩
  | snoc run last ih =>
    obtain ⟨hsound,hd⟩ := ih fun x hx => hnot x (List.mem_append_left _ hx)
    exact ⟨hsound.step last,(hsound.doomed_step hd last).resolve_left (hnot _ (by simp))⟩

theorem Sound.holding_run (h : Sound s) (howner : s.manager.blocked = true ∨ (0 ≤ a ∧ s.manager.owner = a))
    (hrun : Run Step s log s') (hnot : ∀ x∈log,¬ x.Ends a ∧ ¬ x.Commits a) :
    Sound s' ∧ (s'.manager.blocked = true ∨ (0 ≤ a ∧ s'.manager.owner = a)) := by
  induction hrun with
  | nil => exact ⟨h,howner⟩
  | snoc run last ih =>
    obtain ⟨hsound,ho⟩ := ih fun x hx => hnot x (List.mem_append_left _ hx)
    obtain ⟨hends,hcommits⟩ := hnot _ (List.mem_append_right _ (List.mem_singleton_self _))
    exact ⟨hsound.step last,((hsound.holding_step ho last).resolve_left hends).resolve_left hcommits⟩

theorem begins_owner (hstep : Step s e s') (hb : e.Begins a) : 0 ≤ a ∧ s'.manager.owner = a := by
  cases hstep with
  | call t c enabled =>
    cases c with
    | begin shmid env alloc budget =>
      obtain ⟨rfl,hok⟩ := hb
      have hcases := begin_cases shmid env alloc budget (s.view t)
      simp only [State.event,State.next,State.set,Call.run] at hok ⊢
      generalize dmTxBegin shmid env alloc budget (s.view t) = out at hcases hok ⊢
      cases hcases with
      | refused r negative =>
        cases hok
        cases negative
      | begun start out run => exact ⟨start.valid,rfl⟩
      | failed start e out run => cases hok
    | _ => exact hb.elim

theorem Doomed.not_commits (hdoomed : Doomed a s.manager) (hstep : Step s e s') (b : ℤ) : ¬ e.Commits b := by
  intro hc
  cases hstep with
  | call t c enabled =>
    cases c with
    | commit os shmid budget =>
      have hrefused := (Doomed.commit (v := s.view t) hdoomed os shmid budget).1
      rw [show (dmTxCommit os shmid budget (s.view t)).1 = .value 0 from hc.2] at hrefused
      cases hrefused
    | _ => exact hc.elim

/-- Between the beginning of a transaction and its commit nothing failed for the owner;
and after a failure no commit succeeds or writes until the owner aborts or disconnects. -/
theorem commit_after_success (h0 : Initial s0) :
    (∀ pre mid post : List (Event τ),∀ b k a s,Run Step s0 (pre++b::(mid++k::post)) s → b.Begins a →
      k.Commits a → (∀ x∈mid,¬ x.Ends a ∧ ¬ x.Commits a) → ∀ x∈mid,¬ x.Fails) ∧
    (∀ log s x s' log' s'',Run Step s0 log s → Step s x s' → x.Fails → Run Step s' log' s'' →
      (∀ y∈log',¬ y.Ends s.manager.owner) → ∀ t os shmid budget,
        (dmTxCommit os shmid budget (s''.view t)).1.Refused ∧
        (s''.next t (.commit os shmid budget)).disk = s''.disk) := by
  constructor
  · intro pre mid post b k a s hrun hbegins hcommits hquiet x hx hfails
    obtain ⟨m1,m2,rfl⟩ := List.append_of_mem hx
    obtain ⟨s1,hpre,hrun⟩ := hrun.of_append
    obtain ⟨s2,hbegin,hrun⟩ := hrun.of_cons
    rw [List.append_assoc,List.cons_append] at hrun
    obtain ⟨s3,hfirst,hrun⟩ := hrun.of_append
    obtain ⟨s4,hfail,hrun⟩ := hrun.of_cons
    obtain ⟨s5,hsecond,hrun⟩ := hrun.of_append
    obtain ⟨s6,hcommit,_⟩ := hrun.of_cons
    have hsound := (h0.run hpre).step hbegin
    obtain ⟨hsound,howner⟩ := hsound.holding_run (.inr (begins_owner hbegin hbegins)) hfirst
      fun y hy => hquiet y (List.mem_append_left _ hy)
    have hdoomed : Doomed a s4.manager := by
      cases hfail with
      | call t c enabled =>
        obtain hb | ⟨_,rfl⟩ := howner
        · exact .inl (hsound.blocks hb t enabled).blocked
        · exact hsound.doomed hfails
    obtain ⟨_,hd⟩ := (hsound.step hfail).doomed_run hdoomed hsecond fun y hy => (hquiet y (by simp [hy])).1
    exact hd.not_commits hcommit a hcommits
  · intro log s x s' log' s'' hrun hstep hfails hrun' hquiet t os shmid budget
    have hsound := h0.run hrun
    have hdoomed : Doomed s.manager.owner s'.manager := by
      cases hstep with
      | call t c enabled => exact hsound.doomed hfails
    obtain ⟨_,hd⟩ := (hsound.step hstep).doomed_run hdoomed hrun' hquiet
    exact hd.commit os shmid budget

/-- Session 7 has begun. -/
def sampleOwned : State Bool := sampleStart.next true (.begin 7 sampleEnv true none)

def sampleChange : Call := .write 7 sampleName none [8,9] 2 none

def sampleCommit : Call := .commit sampleDescriptors 7 none

/-- A write that is committed; and one to a descriptor without a target, after which nothing is. -/
theorem commit_after_success_sample :
    ((sampleOwned.next true sampleChange).event false sampleCommit).result = .value 0 ∧
    ¬ (sampleOwned.event true sampleChange).Fails ∧
    (sampleScoped.event true (.routeWrite sampleDescriptors 4 [8] 0 none)).Fails ∧
    (dmTxCommit sampleDescriptors 7 none
      ((sampleScoped.next true (.routeWrite sampleDescriptors 4 [8] 0 none)).view false)).1.Refused := by
  have h0 : Initial sampleStart := ⟨rfl,rfl,rfl,by simp [sampleStart,int64Max]⟩
  obtain ⟨hclean,hdoomed⟩ := commit_after_success h0
  have hbegin : Step sampleStart _ sampleOwned := .call true (.begin 7 sampleEnv true none) rfl
  have hchange : Step sampleOwned _ (sampleOwned.next true sampleChange) := .call true sampleChange rfl
  have hcommit : Step (sampleOwned.next true sampleChange) _ _ := .call false sampleCommit rfl
  have henter : Step sampleOwned _ sampleScoped := .call true (.enter 7 _) rfl
  have hwrite : Step sampleScoped _ _ := .call true (.routeWrite sampleDescriptors 4 [8] 0 none) rfl
  have hdone : ((sampleOwned.next true sampleChange).event false sampleCommit).result = .value 0 := by decide +kernel
  have hfails : (sampleScoped.event true (.routeWrite sampleDescriptors 4 [8] 0 none)).Fails :=
    ⟨.inval,by decide +kernel,by decide⟩
  refine ⟨hdone,?_,hfails,?_⟩
  · apply hclean [] [_] [] _ _ 7 _ (.cons hbegin (.cons hchange (.cons hcommit .nil))) ⟨rfl,by decide +kernel⟩
      ⟨rfl,hdone⟩
    · intro x hx
      rw [List.mem_singleton] at hx
      subst hx
      exact ⟨id,id⟩
    · simp
  · exact (hdoomed _ _ _ _ [] _ (.cons hbegin (.cons henter .nil)) hwrite hfails .nil (by simp) false _ 7 none).1

end Dataman.TransactionSession

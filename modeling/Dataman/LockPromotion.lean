import Dataman.FileLockOrder

/-!
# A thread that asks for a lock it holds

`fl_lock` may also be called by a thread that is in the owners chain. Its test for a promotion
looks for the thread in the queue, where a thread that runs never is, so such a call is not
refused: it is granted at once, or the thread sleeps behind itself.
-/

namespace Dataman.FileLock
open LabelledRuns

variable {τ : Type} [DecidableEq τ] {s s' : State τ} {t : τ} {type : LockType}

/-- A section of any thread: of a call, whatever the thread holds, or of a sleeping thread that
wakes up. The label has the state before. -/
inductive Section (s : State τ) : State τ × τ × LockType → State τ → Prop
  | pass (t : τ) (type : LockType) (between : s.asleep t = none ∨ s.asleep t = some type) :
      Section s (s,t,type) (s.pass t type)

/-- No thread of the owners chain is asleep in the queue. -/
def Apart (s : State τ) : Prop := ∀ t∈threads s.lock.owners,s.asleep t = none

/-- An owner asks for an exclusive lock, or for a shared one while the lock is exclusive or while an
exclusive request is queued. -/
def BlocksItself (s : State τ) (t : τ) (type : LockType) : Prop :=
  s.asleep t = none ∧ t∈threads s.lock.owners ∧
    (type = .ex ∨ (type = .sh ∧ (s.lock.value < 0 ∨ ∃ o∈s.lock.queue,o.type = .ex)))

/-! ## One section -/

omit [DecidableEq τ] in
theorem Sound.owners_awake (h : Sound s) : Apart s := by
  intro t ht
  cases hs : s.asleep t with
  | none => rfl
  | some type => exact absurd ht (h.apart t (mem_threads ((h.asleep t type).1 hs)))

omit [DecidableEq τ] in
theorem Sound.value_ne_zero (h : Sound s) (ht : t∈threads s.lock.owners) : s.lock.value≠0 := by
  have hpos : 0 < s.lock.owners.length := by
    rw [← List.length_map Owner.owner]
    exact List.length_pos_of_mem ht
  obtain ⟨hv,_⟩ | ⟨hv,_⟩ := h.held
  · omega
  · omega

/-- An owner's call blocks if its test fails. -/
theorem blocksItself_iff (h : Sound s) (hs : s.asleep t = none) (ht : t∈threads s.lock.owners) (hun : type≠.un) :
    BlocksItself s t type ↔ ¬ Ready s.lock t type := by
  have hahead : ahead s.lock.queue t = s.lock.queue := ahead_of_notMem (h.notMem_queue hs)
  cases type with
  | un => exact absurd rfl hun
  | ex => simp [BlocksItself,Ready,hs,ht,h.value_ne_zero ht]
  | sh =>
    simp only [BlocksItself,Ready,hs,ht,hahead,true_and,reduceCtorEq,false_or,not_and_or]
    simp

theorem pass_blocked (h : Sound s) (hblocks : BlocksItself s t type) :
    t∈threads (s.pass t type).lock.owners ∧ (s.pass t type).asleep t = some type := by
  obtain ⟨hs,ht,htype⟩ := hblocks
  have hun : type≠.un := by
    rintro rfl
    simp at htype
  have hbusy := (blocksItself_iff h hs ht hun).1 ⟨hs,ht,htype⟩
  -- The chain in which the thread is looked for is the queue.
  have hret : (wait s.lock t type).retval = none := by
    simp [wait,addToChain_new (h.notMem_queue hs)]
  rw [State.pass,flLock_busy hbusy]
  exact ⟨ht,by simp [hret]⟩

/-- A shared lock that is granted again changes nothing. -/
theorem pass_again (h : Sound s) (hs : s.asleep t = none) (ht : t∈threads s.lock.owners)
    (hready : Ready s.lock t .sh) : s.pass t .sh = s := by
  have hshared : ∀ o∈s.lock.owners,o.type = .sh := by
    obtain ⟨hv,_⟩ | ⟨_,hsh⟩ := h.held
    · have := hready.1
      omega
    · exact hsh
  have hmem : ⟨t,.sh⟩∈s.lock.owners := by
    obtain ⟨o,ho,rfl⟩ := List.mem_map.1 ht
    rw [← hshared o ho]
    exact ho
  have hleave : leaveQueue s.lock t = s.lock.queue := by
    rw [leaveQueue,removeFromChain_eq h.queue_nodup,without_of_notMem (h.notMem_queue hs),ite_self]
  have hguard : ¬ (s.lock.value < 0 ∨ (s.lock.queue≠[] ∧ ¬ beforeEx s.lock.queue t)) := by
    have hbefore := beforeEx_iff.2 hready.2
    simp [hready.1,hbefore]
  have hpass : flLock s.lock t .sh = { lock := s.lock,retval := some 1 } := by
    rw [flLock,lockShared,if_neg hguard,addToChain_old h.owners_nodup hmem,hleave]
    rfl
  have hasleep : Function.update s.asleep t none = s.asleep := by
    rw [← hs,Function.update_eq_self]
  rw [State.pass,hpass]
  simp [hasleep]

theorem Sound.pass (h : Sound s) (hbetween : s.asleep t = none ∨ s.asleep t = some type)
    (hfree : ¬ BlocksItself s t type) : Sound (s.pass t type) := by
  by_cases hask : Asks s t type
  · exact h.move (pass_move h hask)
  · -- Only an owner that asks for a lock is no thread of the simple protocol.
    simp only [Asks,not_or,not_and,not_forall,not_not] at hask
    have hs := hbetween.resolve_right hask.2
    obtain ⟨hun,ht⟩ := hask.1 hs
    rw [blocksItself_iff h hs ht hun,not_not] at hfree
    cases type with
    | un => exact absurd rfl hun
    | sh => rwa [pass_again h hs ht hfree]
    | ex => exact absurd hfree.1 (h.value_ne_zero ht)

/-! ## Runs -/

theorem sound_of_free {log : List (State τ × τ × LockType)} (hrun : Run Section {} log s)
    (hfree : ∀ x∈log,¬ BlocksItself x.1 x.2.1 x.2.2) : Sound s := by
  induction hrun with
  | nil => exact sound_initial
  | snoc run last ih =>
    have hs := ih fun x hx => hfree x (List.mem_append_left _ hx)
    cases last with
    | pass t type between => exact hs.pass between (hfree (_,t,type) (by simp))

/-- No owner sleeps in any state of a run if and only if no owner makes a call in it that is not
granted at once. -/
theorem no_self_deadlock_iff {log : List (State τ × τ × LockType)} (hrun : Run Section {} log s) :
    ((∀ x∈log,Apart x.1) ∧ Apart s) ↔ ∀ x∈log,¬ BlocksItself x.1 x.2.1 x.2.2 := by
  induction hrun with
  | nil => simp [sound_initial.owners_awake]
  | @snoc s s' log x run last ih =>
    cases last with
    | pass t type between =>
      simp only [List.forall_mem_append,List.forall_mem_singleton]
      rw [ih]
      constructor
      · rintro ⟨hfree,hlast⟩
        refine ⟨hfree,fun hblocks => ?_⟩
        obtain ⟨hmem,hasleep⟩ := pass_blocked (sound_of_free run hfree) hblocks
        rw [hlast t hmem] at hasleep
        cases hasleep
      · rintro ⟨hfree,hlast⟩
        exact ⟨hfree,((sound_of_free run hfree).pass between hlast).owners_awake⟩

theorem no_self_deadlock_iff_shared : Apart (({} : State ℕ).pass 0 .sh) := by
  have hrun : Run Section {} [({},0,.sh)] (({} : State ℕ).pass 0 .sh) := Run.single (.pass 0 .sh (.inl rfl))
  refine ((no_self_deadlock_iff hrun).2 ?_).2
  intro x hx hblocks
  rw [List.mem_singleton.1 hx] at hblocks
  exact absurd hblocks.2.1 (by simp [threads])

/-- A thread asks for a lock, and for another one. -/
def twice (first second : LockType) : State ℕ := (({} : State ℕ).pass 0 first).pass 0 second

theorem twice_run (first second : LockType) (hawake : (({} : State ℕ).pass 0 first).asleep 0 = none) :
    Run Section {} [({},0,first),(({} : State ℕ).pass 0 first,0,second)] (twice first second) :=
  .cons (.pass 0 first (.inl rfl)) (.single (.pass 0 second (.inl hawake)))

/-- The owner of a lock asks for the other type, or for the exclusive lock once more, or for the
shared lock again after another thread asked for the exclusive one: it sleeps and holds the lock. -/
theorem owner_sleeps :
    (∃ log,Run Section {} log (twice .sh .ex) ∧ ¬ Apart (twice .sh .ex)) ∧
    (∃ log,Run Section {} log (twice .ex .sh) ∧ ¬ Apart (twice .ex .sh)) ∧
    (∃ log,Run Section {} log (twice .ex .ex) ∧ ¬ Apart (twice .ex .ex)) ∧
    ∃ log,Run Section {} log (writerWaits.pass 0 .sh) ∧ ¬ Apart (writerWaits.pass 0 .sh) := by
  refine ⟨⟨_,twice_run .sh .ex (by decide),?_⟩,⟨_,twice_run .ex .sh (by decide),?_⟩,
    ⟨_,twice_run .ex .ex (by decide),?_⟩,⟨_,.cons (.pass 0 .sh (.inl rfl))
      (.cons (.pass 1 .ex (.inl (by decide))) (.single (.pass 0 .sh (.inl (by decide))))),?_⟩⟩
  all_goals
    intro hapart
    exact absurd (hapart 0 (by decide)) (by decide)

end Dataman.FileLock

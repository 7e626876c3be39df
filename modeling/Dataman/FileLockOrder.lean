import Dataman.FileLock
import Mathlib.Data.List.Nodup
import Mathlib.Data.List.TakeWhile

/-!
# Safety and order of the file lock

Each section of `fl_lock` is one move of a lock with holders and a queue. The moves keep
the value and the two chains in step, let nobody pass a queued exclusive request, and
leave no sleeping thread behind whose lock has become free without a broadcast.
-/

namespace Dataman.FileLock
open LabelledRuns

variable {τ : Type} {s s' : State τ} {e : Event τ} {t u : τ} {type : LockType} {chain queue : List (Owner τ)}

/-! ## Chains -/

/-- The threads of a chain. -/
def threads (chain : List (Owner τ)) : List τ := chain.map Owner.owner

theorem mem_threads {o : Owner τ} (h : o∈chain) : o.owner∈threads chain := List.mem_map_of_mem h

@[simp] theorem threads_cons (o : Owner τ) : threads (o::chain) = o.owner::threads chain := rfl

/-! ## Sound states -/

/-- The value and the chains fit together, and the sleeping threads are the queued ones. -/
structure Sound (s : State τ) : Prop where
  owners_nodup : (threads s.lock.owners).Nodup
  queue_nodup : (threads s.lock.queue).Nodup
  apart : ∀ t∈threads s.lock.queue,t∉threads s.lock.owners
  asleep : ∀ t type,s.asleep t = some type ↔ ⟨t,type⟩∈s.lock.queue
  asked : ∀ o∈s.lock.queue,o.type≠.un
  held : (s.lock.value = -1 ∧ ∃ t,s.lock.owners = [⟨t,.ex⟩]) ∨
    (s.lock.value = s.lock.owners.length ∧ ∀ o∈s.lock.owners,o.type = .sh)

theorem sound_initial : Sound (τ := τ) {} := by
  constructor <;> simp [threads]

theorem Sound.notMem_queue (h : Sound s) (hs : s.asleep t = none) : t∉threads s.lock.queue := by
  intro hmem
  obtain ⟨o,ho,rfl⟩ := List.mem_map.1 hmem
  rw [(h.asleep _ _).2 ho] at hs
  cases hs

theorem Sound.type_unique (h : Sound s) (hq : ⟨t,type⟩∈s.lock.queue) :
    ∀ o∈s.lock.queue,o.owner = t → o.type = type := by
  intro o ho heq
  have hsome := (h.asleep t type).2 hq
  rw [← heq,(h.asleep o.owner o.type).2 ho] at hsome
  exact Option.some.inj hsome

/-- A thread between two sections: outside of `fl_lock` and asking for a lock only
when it has none, or asleep. -/
def Asks (s : State τ) (t : τ) (type : LockType) : Prop :=
  (s.asleep t = none ∧ (type≠.un → t∉threads s.lock.owners)) ∨ s.asleep t = some type

theorem Asks.free (hask : Asks s t type) (h : Sound s) (hun : type≠.un) : t∉threads s.lock.owners := by
  obtain ⟨_,hfree⟩ | hs := hask
  · exact hfree hun
  · exact h.apart t (mem_threads ((h.asleep t type).1 hs))

theorem Asks.same (hask : Asks s t type) (h : Sound s) : ∀ o∈s.lock.queue,o.owner = t → o.type = type := by
  obtain ⟨hs,_⟩ | hs := hask
  · intro o ho heq
    exact absurd (heq ▸ mem_threads ho) (h.notMem_queue hs)
  · exact h.type_unique ((h.asleep t type).1 hs)

variable [DecidableEq τ]

/-! ## The operations on chains -/

/-- The entries that stand before the entry of a thread; all of them if it has none. -/
def ahead (queue : List (Owner τ)) (t : τ) : List (Owner τ) := queue.takeWhile (·.owner≠t)

/-- The chain without a thread. -/
def without (chain : List (Owner τ)) (t : τ) : List (Owner τ) := chain.filter (·.owner≠t)

@[simp] theorem mem_without {o : Owner τ} : o∈without chain t ↔ o∈chain ∧ o.owner≠t := by
  simp [without]

theorem without_of_notMem (h : t∉threads chain) : without chain t = chain := by
  rw [without,List.filter_eq_self]
  intro o ho
  have hne : o.owner≠t := by
    rintro rfl
    exact h (mem_threads ho)
  simpa using hne

theorem threads_without : threads (without chain t) = (threads chain).filter (· ≠ t) := by
  simp [threads,without,List.filter_map,Function.comp_def]

theorem removeFromChain_eq (hnd : (threads chain).Nodup) :
    removeFromChain chain t = (decide (t∈threads chain),without chain t) := by
  induction chain with
  | nil => rfl
  | cons o rest ih =>
    rw [threads_cons,List.nodup_cons] at hnd
    by_cases ho : o.owner = t
    · subst ho
      simpa [removeFromChain,without] using (without_of_notMem hnd.1).symm
    · have ho' : t≠o.owner := Ne.symm ho
      simp [removeFromChain,ih hnd.2,without,ho,ho']

theorem length_without (hnd : (threads chain).Nodup) (h : t∈threads chain) :
    (without chain t).length+1 = chain.length := by
  induction chain with
  | nil => simp [threads] at h
  | cons o rest ih =>
    rw [threads_cons,List.nodup_cons] at hnd
    by_cases ho : o.owner = t
    · have hrest := without_of_notMem hnd.1
      rw [ho] at hrest
      rw [without,List.filter_cons_of_neg (by simp [ho]),← without,hrest,List.length_cons]
    · have hmem : t∈threads rest := (List.mem_cons.1 h).resolve_left (Ne.symm ho)
      rw [without,List.filter_cons_of_pos (by simp [ho]),← without,List.length_cons,ih hnd.2 hmem,List.length_cons]

theorem addToChain_new (h : t∉threads chain) : addToChain chain t type = (1,chain++[⟨t,type⟩]) := by
  induction chain with
  | nil => rfl
  | cons o rest ih =>
    rw [threads_cons,List.mem_cons,not_or] at h
    have ho : o.owner≠t := Ne.symm h.1
    simp [addToChain,ih h.2,ho]

theorem addToChain_old (hnd : (threads chain).Nodup) (h : ⟨t,type⟩∈chain) : addToChain chain t type = (0,chain) := by
  induction chain with
  | nil => simp at h
  | cons o rest ih =>
    rw [threads_cons,List.nodup_cons] at hnd
    obtain rfl | h := List.mem_cons.1 h
    · simp [addToChain]
    · have ho : o.owner≠t := by
        intro heq
        exact hnd.1 (heq ▸ mem_threads h)
      simp [addToChain,ih hnd.2 h,ho]

theorem beforeEx_iff : beforeEx queue t ↔ ∀ o∈ahead queue t,o.type≠.ex := by
  induction queue with
  | nil => simp [beforeEx,ahead]
  | cons o rest ih =>
    by_cases ho : o.owner = t
    · simp [beforeEx,ahead,ho]
    · by_cases hex : o.type = .ex
      · simp [beforeEx,ahead,ho,hex]
      · simpa [beforeEx,ahead,ho,hex] using ih

theorem ahead_subset : ahead queue t ⊆ queue := (List.takeWhile_sublist _).subset

theorem ahead_of_notMem (h : t∉threads queue) : ahead queue t = queue := by
  rw [ahead,List.takeWhile_eq_self_iff]
  intro o ho
  have hne : o.owner≠t := by
    rintro rfl
    exact h (mem_threads ho)
  simpa using hne

theorem ahead_append (h : t∈threads queue) (more : List (Owner τ)) : ahead (queue++more) t = ahead queue t := by
  induction queue with
  | nil => simp [threads] at h
  | cons o rest ih =>
    by_cases ho : o.owner = t
    · simp [ahead,ho]
    · have hrest : t∈threads rest := (List.mem_cons.1 h).resolve_left (Ne.symm ho)
      simpa [ahead,ho] using ih hrest

theorem ahead_subset_append (more : List (Owner τ)) : ahead queue t ⊆ ahead (queue++more) t := by
  by_cases h : t∈threads queue
  · rw [ahead_append h]
    exact List.Subset.refl _
  · intro o ho
    have hall := List.takeWhile_eq_self_iff.1 (ahead_of_notMem h)
    rw [ahead,List.takeWhile_append_of_pos hall]
    exact List.mem_append_left _ (ahead_subset ho)

theorem ahead_without (hne : t≠u) : ahead (without queue u) t = without (ahead queue t) u := by
  induction queue with
  | nil => rfl
  | cons o rest ih =>
    by_cases hou : o.owner = u
    · have hot : o.owner≠t := hou ▸ Ne.symm hne
      simpa [ahead,without,hou,hot,Ne.symm hne] using ih
    · by_cases hot : o.owner = t
      · simp [ahead,without,hot,hne]
      · simpa [ahead,without,hou,hot] using ih

theorem ahead_eq_nil_iff : ahead queue t = [] ↔ queue = [] ∨ queue.head?.any (·.owner = t) := by
  cases queue with
  | nil => simp [ahead]
  | cons o rest =>
    by_cases ho : o.owner = t
    · simp [ahead,ho]
    · simp [ahead,ho]

/-! ## Moves -/

/-- The test of `fl_lock` before it grants a request. -/
def Ready (lock : PLock τ) (t : τ) : LockType → Prop
  | .un => True
  | .sh => 0 ≤ lock.value ∧ ∀ o∈ahead lock.queue t,o.type≠.ex
  | .ex => lock.value = 0 ∧ ahead lock.queue t = []

/-- The value with one more holder. -/
def granted (lock : PLock τ) : LockType → ℤ
  | .ex => -1
  | _ => lock.value+1

/-- What a section can do. -/
inductive Move (s : State τ) : Event τ → State τ → Prop
  | idle (t : τ) (free : t∉threads s.lock.owners) : Move s (.released t false) s
  | release (t : τ) (value : ℤ) (broadcast : Bool) (holds : t∈threads s.lock.owners)
      (down : (s.lock.value = -1 ∧ value = 0) ∨ (0 < s.lock.value ∧ value = s.lock.value - 1))
      (signal : value = 0 → broadcast = true) :
      Move s (.released t broadcast)
        { s with lock := { s.lock with value := value,owners := without s.lock.owners t } }
  | grant (t : τ) (type : LockType) (asked : type≠.un) (ready : Ready s.lock t type)
      (free : t∉threads s.lock.owners) (same : ∀ o∈s.lock.queue,o.owner = t → o.type = type) :
      Move s (.granted t type)
        { lock :=
            { value := granted s.lock type
              owners := s.lock.owners++[⟨t,type⟩]
              queue := without s.lock.queue t }
          asleep := Function.update s.asleep t none }
  | join (t : τ) (type : LockType) (asked : type≠.un) (busy : ¬ Ready s.lock t type)
      (free : t∉threads s.lock.owners) (new : t∉threads s.lock.queue) :
      Move s (.slept t type)
        { lock := { s.lock with queue := s.lock.queue++[⟨t,type⟩] }
          asleep := Function.update s.asleep t (some type) }
  | stay (t : τ) (type : LockType) (busy : ¬ Ready s.lock t type) (queued : ⟨t,type⟩∈s.lock.queue) :
      Move s (.slept t type) s

/-! ## The sections are moves -/

theorem flLock_ready (h : Sound s) (hun : type≠.un) (hfree : t∉threads s.lock.owners)
    (hready : Ready s.lock t type) :
    flLock s.lock t type =
      { lock := ⟨granted s.lock type,s.lock.owners++[⟨t,type⟩],without s.lock.queue t⟩,retval := some 1 } := by
  have hleave : leaveQueue s.lock t = without s.lock.queue t := by
    rw [leaveQueue,removeFromChain_eq h.queue_nodup]
    cases s.lock.queue <;> rfl
  cases type with
  | un => exact absurd rfl hun
  | sh =>
    have hguard : ¬ (s.lock.value < 0 ∨ (s.lock.queue≠[] ∧ ¬ beforeEx s.lock.queue t)) := by
      have hbefore := beforeEx_iff.2 hready.2
      simp [hready.1,hbefore]
    rw [flLock,lockShared,if_neg hguard,addToChain_new hfree,hleave]
    rfl
  | ex =>
    have hguard : s.lock.value = 0 ∧ (s.lock.queue = [] ∨ s.lock.queue.head?.any (·.owner = t)) :=
      ⟨hready.1,ahead_eq_nil_iff.1 hready.2⟩
    rw [flLock,lockExclusive,if_pos hguard,addToChain_new hfree,hleave,hready.1]
    rfl

theorem flLock_busy (hbusy : ¬ Ready s.lock t type) : flLock s.lock t type = wait s.lock t type := by
  cases type with
  | un => exact absurd trivial hbusy
  | sh =>
    have hguard : s.lock.value < 0 ∨ (s.lock.queue≠[] ∧ ¬ beforeEx s.lock.queue t) := by
      by_contra hnot
      rw [not_or,not_and,not_not] at hnot
      refine hbusy ⟨by omega,?_⟩
      by_cases hq : s.lock.queue = []
      · simp [hq,ahead]
      · exact beforeEx_iff.1 (hnot.2 hq)
    rw [flLock,lockShared,if_pos hguard]
  | ex =>
    have hguard : ¬ (s.lock.value = 0 ∧ (s.lock.queue = [] ∨ s.lock.queue.head?.any (·.owner = t))) := by
      intro hg
      exact hbusy ⟨hg.1,ahead_eq_nil_iff.2 hg.2⟩
    rw [flLock,lockExclusive,if_neg hguard]

theorem wait_retval (h : Sound s) (hask : Asks s t type) : (wait s.lock t type).retval = none := by
  obtain ⟨hs,_⟩ | hs := hask
  · simp [wait,addToChain_new (h.notMem_queue hs)]
  · simp [wait,addToChain_old h.queue_nodup ((h.asleep t type).1 hs)]

theorem event_ready (h : Sound s) (hun : type≠.un) (hfree : t∉threads s.lock.owners)
    (hready : Ready s.lock t type) : s.event t type = .granted t type := by
  rw [State.event,flLock_ready h hun hfree hready]
  cases type with
  | un => exact absurd rfl hun
  | sh => rfl
  | ex => rfl

theorem event_busy (h : Sound s) (hask : Asks s t type) (hbusy : ¬ Ready s.lock t type) :
    s.event t type = .slept t type := by
  have hret := wait_retval h hask
  rw [State.event,flLock_busy hbusy]
  cases type with
  | un => exact absurd trivial hbusy
  | sh => simp only [Pass.event,hret]
  | ex => simp only [Pass.event,hret]

theorem unlock_free (h : Sound s) (hfree : t∉threads s.lock.owners) :
    unlock s.lock t = { lock := s.lock,retval := some 1 } := by
  simp [unlock,removeFromChain_eq h.owners_nodup,hfree]

theorem unlock_holds (h : Sound s) (hmem : t∈threads s.lock.owners) :
    ∃ value broadcast,unlock s.lock t =
        { lock := { s.lock with value := value,owners := without s.lock.owners t }
          broadcast := broadcast
          retval := some 1 } ∧
      ((s.lock.value = -1 ∧ value = 0) ∨ (0 < s.lock.value ∧ value = s.lock.value - 1)) ∧
      (value = 0 → broadcast = true) := by
  obtain ⟨hv,_⟩ | ⟨hv,_⟩ := h.held
  · exact ⟨0,true,by simp [unlock,removeFromChain_eq h.owners_nodup,hmem,hv],.inl ⟨hv,rfl⟩,fun _ => rfl⟩
  · have hlength := length_without h.owners_nodup hmem
    have hpos : 0 < s.lock.value := by omega
    have hnot : ¬ s.lock.value < 0 := by omega
    refine ⟨s.lock.value - 1,s.lock.value - 1 = 0 ∨ s.lock.value - 1≠0 ∧ s.lock.queue.head?.any (·.type = .sh),
      ?_,.inr ⟨hpos,rfl⟩,?_⟩
    · simp [unlock,removeFromChain_eq h.owners_nodup,hmem,hnot,hpos]
    · intro hzero
      simp [hzero]

theorem pass_move (h : Sound s) (hask : Asks s t type) : Move s (s.event t type) (s.pass t type) := by
  have hkeep : s.asleep t = none → Function.update s.asleep t none = s.asleep := by
    intro hs
    rw [← hs,Function.update_eq_self]
  by_cases hun : type = .un
  · subst hun
    have hs : s.asleep t = none := by
      obtain ⟨hs,_⟩ | hs := hask
      · exact hs
      · exact absurd rfl (h.asked _ ((h.asleep t .un).1 hs))
    by_cases hmem : t∈threads s.lock.owners
    · obtain ⟨value,broadcast,heq,hdown,hsignal⟩ := unlock_holds h hmem
      simpa [State.event,State.pass,Pass.event,flLock,heq,hkeep hs] using
        Move.release t value broadcast hmem hdown hsignal
    · simpa [State.event,State.pass,Pass.event,flLock,unlock_free h hmem,hkeep hs] using Move.idle t hmem
  · have hfree := hask.free h hun
    by_cases hready : Ready s.lock t type
    · rw [event_ready h hun hfree hready]
      simpa [State.pass,flLock_ready h hun hfree hready] using Move.grant t type hun hready hfree (hask.same h)
    · rw [event_busy h hask hready,State.pass,flLock_busy hready]
      obtain ⟨hs,_⟩ | hs := hask
      · have hnew := h.notMem_queue hs
        simpa [wait,addToChain_new hnew] using Move.join t type hun hready hfree hnew
      · have hq := (h.asleep t type).1 hs
        have hsame : Function.update s.asleep t (some type) = s.asleep := by
          rw [← hs,Function.update_eq_self]
        simpa [wait,addToChain_old h.queue_nodup hq,hsame] using Move.stay t type hready hq

theorem Step.move (h : Sound s) (hstep : Step s e s') : Move s e s' := by
  cases hstep with
  | call t type awake free => exact pass_move h (.inl ⟨awake,free⟩)
  | wake t type asleep => exact pass_move h (.inr asleep)

/-! ## What the moves keep -/

theorem Sound.move (h : Sound s) (hm : Move s e s') : Sound s' := by
  cases hm with
  | idle t free => exact h
  | stay t type busy queued => exact h
  | release t value broadcast holds down signal =>
    refine ⟨?_,h.queue_nodup,?_,h.asleep,h.asked,.inr ?_⟩
    · rw [threads_without]
      exact h.owners_nodup.filter _
    · intro u hu
      rw [threads_without,List.mem_filter]
      exact fun hmem => h.apart u hu hmem.1
    · have hlength := length_without h.owners_nodup holds
      obtain ⟨hv,t',howners⟩ | ⟨hv,hsh⟩ := h.held
      · have hone : s.lock.owners.length = 1 := by rw [howners,List.length_singleton]
        have hnil : without s.lock.owners t = [] := List.eq_nil_of_length_eq_zero (by omega)
        have hzero : value = 0 := by omega
        simp [hnil,hzero]
      · refine ⟨?_,fun o ho => hsh o (mem_without.1 ho).1⟩
        simp only
        omega
  | grant t type asked ready free same =>
    refine ⟨?_,?_,?_,?_,fun o ho => h.asked o (mem_without.1 ho).1,?_⟩
    · simpa [threads,List.nodup_append] using ⟨h.owners_nodup,by simpa [threads] using free⟩
    · rw [threads_without]
      exact h.queue_nodup.filter _
    · intro u hu
      rw [threads_without,List.mem_filter] at hu
      have hne : u≠t := by simpa using hu.2
      simpa [threads,hne] using h.apart u hu.1
    · intro u type'
      by_cases hu : u = t
      · simp [hu]
      · simpa [hu] using h.asleep u type'
    · cases type with
      | un => exact absurd rfl asked
      | sh =>
        obtain ⟨hv,_⟩ | ⟨hv,hsh⟩ := h.held
        · have := ready.1
          omega
        · refine .inr ⟨by simp [granted,hv],?_⟩
          intro o ho
          obtain ho | ho := List.mem_append.1 ho
          · exact hsh o ho
          · rw [List.mem_singleton.1 ho]
      | ex =>
        obtain ⟨hv,_⟩ | ⟨hv,_⟩ := h.held
        · have := ready.1
          omega
        · have hzero := ready.1
          have hnil : s.lock.owners = [] := List.eq_nil_of_length_eq_zero (by omega)
          exact .inl ⟨rfl,t,by rw [hnil,List.nil_append]⟩
  | join t type asked busy free new =>
    refine ⟨h.owners_nodup,?_,?_,?_,?_,h.held⟩
    · simpa [threads,List.nodup_append] using ⟨h.queue_nodup,by simpa [threads] using new⟩
    · intro u hu
      rw [threads,List.map_append,List.mem_append] at hu
      obtain hu | hu := hu
      · exact h.apart u hu
      · rwa [List.mem_singleton.1 hu]
    · intro u type'
      by_cases hu : u = t
      · subst hu
        have hold : ⟨u,type'⟩∉s.lock.queue := fun hmem => new (mem_threads hmem)
        simp [hold,eq_comm]
      · simpa [hu] using h.asleep u type'
    · intro o ho
      obtain ho | ho := List.mem_append.1 ho
      · exact h.asked o ho
      · rwa [List.mem_singleton.1 ho]

theorem Sound.run {log : List (Event τ)} (h : Sound s) (hrun : Run Step s log s') : Sound s' :=
  hrun.invariant h fun ha hstep => ha.move (hstep.move ha)

/-! ## No overtaking -/

/-- Behind an exclusive request, a thread gets nothing before that request is granted. -/
theorem Move.behind {a b : τ} (hahead : ⟨a,.ex⟩∈ahead s.lock.queue b) (hm : Move s e s') :
    (∀ type,e≠.granted b type) ∧ (e = .granted a .ex ∨ ⟨a,.ex⟩∈ahead s'.lock.queue b) := by
  cases hm with
  | idle t free => exact ⟨fun _ => by simp,.inr hahead⟩
  | stay t type busy queued => exact ⟨fun _ => by simp,.inr hahead⟩
  | release t value broadcast holds down signal => exact ⟨fun _ => by simp,.inr hahead⟩
  | grant t type asked ready free same =>
    have htb : t≠b := by
      rintro rfl
      cases type with
      | un => exact asked rfl
      | sh => exact ready.2 _ hahead rfl
      | ex => simp [ready.2] at hahead
    refine ⟨fun _ => by simp [htb],?_⟩
    by_cases hta : t = a
    · subst hta
      have htype := same _ (ahead_subset hahead) rfl
      exact .inl (by rw [← htype])
    · rw [ahead_without (Ne.symm htb),mem_without]
      exact .inr ⟨hahead,Ne.symm hta⟩
  | join t type asked busy free new =>
    exact ⟨fun _ => by simp,.inr (ahead_subset_append _ hahead)⟩

theorem behind_step {a b : τ} (h : Sound s ∧ ⟨a,.ex⟩∈ahead s.lock.queue b) (hstep : Step s e s') :
    (¬ ∃ type,e = .granted b type) ∧
      (e = .granted a .ex ∨ (Sound s' ∧ ⟨a,.ex⟩∈ahead s'.lock.queue b)) := by
  have hm := hstep.move h.1
  obtain ⟨hnot,hnext⟩ := hm.behind h.2
  exact ⟨fun ⟨type,he⟩ => hnot type he,hnext.imp id fun hahead => ⟨h.1.move hm,hahead⟩⟩

/-! ## No lost wakeup -/

/-- A broadcast stands in the log, and the thread has not gone to sleep after it. -/
def Signalled (t : τ) : List (Event τ) → Prop :=
  Since (fun e => ∃ u,e = .released u true) fun e => ∃ type,e = .slept t type

theorem Ready.of_join {lock : PLock τ} {more : List (Owner τ)}
    (h : Ready { lock with queue := lock.queue++more } t type) : Ready lock t type := by
  cases type with
  | un => trivial
  | sh => exact ⟨h.1,fun o ho => h.2 o (ahead_subset_append more ho)⟩
  | ex => exact ⟨h.1,List.subset_nil.1 (h.2 ▸ ahead_subset_append more)⟩

theorem granted_pos {lock : PLock τ} (asked : type≠.un) (ready : Ready lock t type) :
    granted lock type≠0 ∧ (0 ≤ granted lock type → type = .sh ∧ 0 ≤ lock.value) := by
  cases type with
  | un => exact absurd rfl asked
  | sh =>
    have hv := ready.1
    exact ⟨by simp only [granted]; omega,fun _ => ⟨rfl,hv⟩⟩
  | ex => simp [granted]

/-- A thread that is asleep after a move and could go on: the move broadcasts, or the
thread was asleep and could go on before. -/
theorem Move.ready (h : Sound s) (hm : Move s e s') (hs : s'.asleep t = some type) (hready : Ready s'.lock t type) :
    (∃ u,e = .released u true) ∨
      (s.asleep t = some type ∧ Ready s.lock t type ∧ ∀ type,e≠.slept t type) := by
  cases hm with
  | idle u free => exact .inr ⟨hs,hready,by simp⟩
  | release u value broadcast holds down signal =>
    by_cases hzero : value = 0
    · exact .inl ⟨u,by rw [signal hzero]⟩
    · refine .inr ⟨hs,?_,by simp⟩
      cases type with
      | un => trivial
      | sh => exact ⟨by omega,hready.2⟩
      | ex => exact absurd hready.1 hzero
  | grant u type' asked ready free same =>
    have hne : t≠u := by
      rintro rfl
      simp at hs
    replace hs : s.asleep t = some type := by simpa [Function.update_of_ne hne] using hs
    refine .inr ⟨hs,?_,by simp⟩
    have hpos := granted_pos asked ready
    cases type with
    | un => trivial
    | ex => exact absurd hready.1 hpos.1
    | sh =>
      -- only another shared request can have stood ahead
      obtain ⟨rfl,hv⟩ := hpos.2 hready.1
      refine ⟨hv,?_⟩
      intro o ho
      by_cases hou : o.owner = u
      · simp [same o (ahead_subset ho) hou]
      · apply hready.2 o
        rw [ahead_without hne]
        exact mem_without.2 ⟨ho,hou⟩
  | join u type' asked busy free new =>
    by_cases hne : t = u
    · subst hne
      obtain rfl : type' = type := by simpa using hs
      exact absurd (hready.of_join) busy
    · replace hs : s.asleep t = some type := by simpa [Function.update_of_ne hne] using hs
      exact .inr ⟨hs,hready.of_join,by simp [Ne.symm hne]⟩
  | stay u type' busy queued =>
    by_cases hne : t = u
    · subst hne
      rw [(h.asleep t type').2 queued] at hs
      obtain rfl := Option.some.inj hs
      exact absurd hready busy
    · exact .inr ⟨hs,hready,by simp [Ne.symm hne]⟩

theorem signalled_of_ready {log : List (Event τ)} (h : Sound s) (hfirst : ∀ t,s.asleep t = none)
    (hrun : Run Step s log s') : ∀ {t type},s'.asleep t = some type → Ready s'.lock t type → Signalled t log := by
  induction hrun with
  | nil =>
    intro t type hs
    simp [hfirst t] at hs
  | snoc run last ih =>
    intro t type hs hready
    have hsound := h.run run
    obtain ⟨u,rfl⟩ | ⟨hs',hready',hnot⟩ := (last.move hsound).ready hsound hs hready
    · exact since_last ⟨u,rfl⟩
    · apply (ih hs' hready').snoc
      rintro ⟨type',rfl⟩
      exact hnot type' rfl

/-! ## Runs -/

omit [DecidableEq τ] in
theorem Sound.value_neg_iff (h : Sound s) : s.lock.value = -1 ↔ ∃ t,s.lock.owners = [⟨t,.ex⟩] := by
  constructor
  · intro hneg
    obtain ⟨_,howner⟩ | ⟨hv,_⟩ := h.held
    · exact howner
    · omega
  · rintro ⟨t,howners⟩
    obtain ⟨hv,_⟩ | ⟨_,hsh⟩ := h.held
    · exact hv
    · exact absurd (hsh ⟨t,.ex⟩ (by simp [howners])) (by simp)

omit [DecidableEq τ] in
theorem Sound.value_eq_iff (h : Sound s) (n : ℕ) : s.lock.value = n ↔
    s.lock.owners.length = n ∧ (threads s.lock.owners).Nodup ∧ ∀ o∈s.lock.owners,o.type = .sh := by
  constructor
  · intro hn
    obtain ⟨hv,_⟩ | ⟨hv,hsh⟩ := h.held
    · omega
    · exact ⟨by omega,h.owners_nodup,hsh⟩
  · rintro ⟨rfl,-,hsh⟩
    obtain ⟨_,t,howners⟩ | ⟨hv,_⟩ := h.held
    · exact absurd (hsh ⟨t,.ex⟩ (by simp [howners])) (by simp)
    · exact hv

/-- Thread 0 holds the lock shared and thread 1 waits for it alone. -/
def writerWaits : State ℕ := (({} : State ℕ).pass 0 .sh).pass 1 .ex

theorem writerWaits_run : Run Step {} [.granted 0 .sh,.slept 1 .ex] writerWaits := by
  have hread : Step {} _ _ := .call (s := ({} : State ℕ)) 0 .sh rfl (by decide)
  have hwrite := Step.call (s := ({} : State ℕ).pass 0 .sh) 1 .ex (by decide) (by decide)
  exact .snoc (.single hread) hwrite

/-- **Safety and order.** Over any run of any threads, the value counts the owners, the
chains are proper, unlocking what is not held does nothing, and no later request is
granted before an exclusive request that was queued when it came. -/
theorem lock_safety {log : List (Event τ)} (hrun : Run Step {} log s) :
    (s.lock.value = -1 ↔ ∃ t,s.lock.owners = [⟨t,.ex⟩]) ∧
    (∀ n : ℕ,s.lock.value = n ↔
      s.lock.owners.length = n ∧ (threads s.lock.owners).Nodup ∧ ∀ o∈s.lock.owners,o.type = .sh) ∧
    (∀ t,t∉threads s.lock.owners → flLock s.lock t .un = { lock := s.lock,broadcast := false,retval := some 1 }) ∧
    (threads s.lock.queue).Nodup ∧ (∀ t∈threads s.lock.queue,t∉threads s.lock.owners) ∧
    ∀ a b,⟨a,.ex⟩∈s.lock.queue → s.asleep b = none → ∀ log' s',Run Step s log' s' →
      ∀ pre type post,log' = pre++.granted b type::post → .granted a .ex∈pre := by
  have h : Sound s := sound_initial.run hrun
  refine ⟨h.value_neg_iff,h.value_eq_iff,fun t hfree => unlock_free h hfree,h.queue_nodup,h.apart,?_⟩
  intro a b ha hb log' s' hrun' pre type post hlog
  -- from the start on, the exclusive request stands ahead of whatever `b` asks for
  have hfirst : Sound s ∧ ⟨a,.ex⟩∈ahead s.lock.queue b := ⟨h,by rwa [ahead_of_notMem (h.notMem_queue hb)]⟩
  obtain ⟨g,hg,rfl⟩ := hrun'.good_before (fun s => Sound s ∧ ⟨a,.ex⟩∈ahead s.lock.queue b) (· = .granted a .ex)
    (fun e => ∃ type,e = .granted b type) hfirst behind_step hlog ⟨type,rfl⟩
  exact hg

theorem lock_safety_sample : writerWaits.lock.value = 1 ∧ (threads writerWaits.lock.owners).Nodup ∧
    flLock writerWaits.lock 1 .un = { lock := writerWaits.lock,broadcast := false,retval := some 1 } := by
  obtain ⟨-,hshared,hfree,-⟩ := lock_safety writerWaits_run
  have hvalue : writerWaits.lock.value = 1 := by decide
  exact ⟨hvalue,((hshared 1).1 hvalue).2.1,hfree 1 (by decide)⟩

/-- **No lost wakeup.** A thread asleep in `pthread_cond_wait` would be granted its lock on
waking up exactly when it is ready, and then a broadcast has come since it went to sleep. -/
theorem no_lost_wakeup {log : List (Event τ)} (hrun : Run Step {} log s) (hs : s.asleep t = some type) :
    (s.event t type = .granted t type ↔ Ready s.lock t type) ∧ (Ready s.lock t type → Signalled t log) := by
  have h : Sound s := sound_initial.run hrun
  have hask : Asks s t type := .inr hs
  refine ⟨?_,signalled_of_ready sound_initial (fun _ => rfl) hrun hs⟩
  constructor
  · intro hevent
    by_contra hbusy
    rw [event_busy h hask hbusy] at hevent
    cases hevent
  · have hun : type≠.un := h.asked _ ((h.asleep t type).1 hs)
    exact event_ready h hun (hask.free h hun)

theorem no_lost_wakeup_sample : Signalled 1 [.granted 0 .sh,.slept 1 .ex,.released 0 true] := by
  have hrelease := Step.call (s := writerWaits) 0 .un (by decide) (by decide)
  have hrun := Run.snoc writerWaits_run hrelease
  have hs : (writerWaits.pass 0 .un).asleep 1 = some .ex := by decide
  exact (no_lost_wakeup hrun hs).2 ⟨by decide,by decide⟩

end Dataman.FileLock

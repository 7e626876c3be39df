import Dataman.SessionRoot
import Dataman.TransactionFailures

/-!
# The registry under its mutex

Uses of the registry hold `roots_mutex` while they take `tx_mutex` again and again: for
every session they close, and for the beginning of a transaction. In between other threads
go on with the transaction manager. What an owner needs is never taken away: its slot
stays until its transaction has come to an end.
-/

namespace Dataman.SessionRegistry
open ByteFiles TransactionSession SessionRoot
open UndoJournal (Env Tx JournalM)

/-! ## Steps -/

/-- What a thread uses the registry for. -/
inductive Purpose
  /-- `session_root_reap`, `session_root_copy` -/
  | reap
  /-- `session_root_use` for `dm_tx_begin` -/
  | begin (shmid : ℤ) (same alloc : Bool) (budget : Budget)
  /-- `session_root_use` for `dm_tx_dispatch` -/
  | enter (shmid : ℤ) (same : Bool) (targets : List Target)
  /-- `register_root`, with what `init_dataman` or `mkidx` returns -/
  | register (session : Session) (result : ℤ)

/-- Where the thread that holds `roots_mutex` is. -/
inductive Phase
  /-- Before the slot `i` of the loop in `reap`. -/
  | reaping (i : ℕ) (purpose : Purpose)
  /-- In `session_root_close`. -/
  | closing (shmid : ℤ)
  /-- In `close_slot`, when `dm_tx_disconnect` has succeeded, and what comes then. -/
  | freeing (i : ℕ) (next : Option Purpose)

variable {τ : Type}

structure State (τ : Type) where
  roots : List (Option Session)
  holder : Option (τ × Phase) := none
  process : TransactionSession.State τ

/-- The slot of a session. -/
def slotOf (roots : List (Option Session)) (shmid : ℤ) : Option ℕ := roots.findIdx? (·.any (·.shmid = shmid))

/-- The registration of a session: in its slot if it has one, and then only with the same
root, and in the first free one otherwise. -/
def registerRoot (roots : List (Option Session)) (session : Session) (result : ℤ) : List (Option Session) :=
  match slotOf roots session.shmid with
  | some _ => roots
  | none =>
    match roots.findIdx? (·.isNone) with
    | none => roots
    | some i => if result ≤ 0 then roots else roots.set i (some session)

section
variable [DecidableEq τ]

/-- The transaction manager takes a call of a thread. -/
def State.call (s : State τ) (t : τ) (c : Call) : State τ := { s with process := s.process.next t c }

/-- The value that the thread gets. -/
def State.code (s : State τ) (t : τ) (c : Call) : ℤ := (c.run (s.process.view t)).1.code

/-- What a thread does once every session is alive. -/
def perform (s : State τ) (t : τ) : Purpose → State τ
  | .reap => { s with holder := none }
  | .begin shmid same alloc budget =>
    match (slotOf s.roots shmid).bind (s.roots[·]?.join) with
    | none => { s with holder := none }
    | some e =>
      if same then { s.call t (.begin shmid e.env alloc budget) with holder := none } else { s with holder := none }
  | .enter shmid same targets =>
    if same ∧ (slotOf s.roots shmid).isSome then { s.call t (.enter shmid targets) with holder := none }
    else { s with holder := none }
  | .register session result => { s with roots := registerRoot s.roots session result,holder := none }

/-- `close_slot` up to the disconnect: what follows depends on its value. -/
def disconnectSlot (s : State τ) (t : τ) (i : ℕ) (e : Session) (os : Descriptors) (budget : Budget)
    (next : Option Purpose) : State τ :=
  let c := Call.disconnect os e.shmid budget
  { s.call t c with holder := if s.code t c < 0 then none else some (t,.freeing i next) }

/-- Calls that come from outside of the registry. -/
def Plain : Call → Prop
  | .begin .. => False
  | _ => True

inductive Step (s : State τ) : State τ → Prop
  | call (t : τ) (c : Call) (plain : Plain c) (enabled : c.Enabled (s.process.threads t)) : Step s (s.call t c)
  | lock (t : τ) (purpose : Purpose) (free : s.holder = none) :
      Step s { s with holder := some (t,.reaping 0 purpose) }
  | lockClose (t : τ) (shmid : ℤ) (free : s.holder = none) : Step s { s with holder := some (t,.closing shmid) }
  | alive (t : τ) (i : ℕ) (purpose : Purpose) (here : s.holder = some (t,.reaping i purpose))
      (inside : i < s.roots.length) : Step s { s with holder := some (t,.reaping (i+1) purpose) }
  | gone (t : τ) (i : ℕ) (purpose : Purpose) (e : Session) (os : Descriptors) (budget : Budget)
      (here : s.holder = some (t,.reaping i purpose)) (slot : s.roots[i]? = some (some e))
      (idle : (s.process.threads t).direct = none) :
      Step s (disconnectSlot s t i e os budget (some purpose))
  | done (t : τ) (i : ℕ) (purpose : Purpose) (here : s.holder = some (t,.reaping i purpose))
      (past : s.roots.length ≤ i) (idle : (s.process.threads t).direct = none) : Step s (perform s t purpose)
  | closeNone (t : τ) (shmid : ℤ) (here : s.holder = some (t,.closing shmid)) (absent : slotOf s.roots shmid = none) :
      Step s { s with holder := none }
  | close (t : τ) (shmid : ℤ) (i : ℕ) (e : Session) (os : Descriptors) (budget : Budget)
      (here : s.holder = some (t,.closing shmid)) (slot : slotOf s.roots shmid = some i)
      (entry : s.roots[i]? = some (some e)) (idle : (s.process.threads t).direct = none) :
      Step s (disconnectSlot s t i e os budget none)
  | free (t : τ) (i : ℕ) (next : Option Purpose) (here : s.holder = some (t,.freeing i next)) :
      Step s
        { s with
          roots := s.roots.set i none
          holder := next.map fun purpose => (t,.reaping (i+1) purpose) }

end

/-- The server after startup. -/
structure Initial (s : State τ) : Prop where
  roots : ∀ slot∈s.roots,slot = none
  holder : s.holder = none
  process : TransactionSession.Initial s.process

/-! ## What calls do to the owner's root -/

variable {v v' : View} {budget : Budget}

/-- Owner and journal stay where they are. -/
structure SameRoot (v v' : View) : Prop where
  owner : v'.manager.owner = v.manager.owner
  blocked : v'.manager.blocked = v.manager.blocked
  journal : v'.manager.journal.map Prod.fst = v.manager.journal.map Prod.fst

/-- The transaction has come to an end, or it is still the same. -/
def Rooted (v v' : View) : Prop :=
  (v'.manager.owner = v.manager.owner ∧ v'.manager.blocked = true) ∨ v'.manager.owner < 0 ∨ SameRoot v v'

theorem sameRoot_refl : SameRoot v v := ⟨rfl,rfl,rfl⟩

theorem rooted_refl : Rooted v v := .inr (.inr sameRoot_refl)

theorem rooted_fail : Rooted v v.fail := .inr (.inr ⟨rfl,rfl,rfl⟩)

theorem rooted_of_aside (h : Aside v v') : Rooted v v' :=
  .inr (.inr ⟨h.owner,h.blocked,congrArg (Option.map Prod.fst) h.journal⟩)

theorem sameRoot_undo (q : Env → JournalM Unit) : SameRoot v (v.undo q budget).2 := by
  unfold View.undo
  split
  · exact sameRoot_refl
  · rename_i hj
    exact ⟨rfl,rfl,by simp [hj]⟩

theorem rooted_performs {call : UndoJournal.Call} {good : Result} {bad : UndoJournal.Fault → Result}
    {out : Result × View} (h : Performs v call budget good bad out) : Rooted v out.2 := by
  have hsame := @sameRoot_undo v budget (call.run ·)
  cases h with
  | done ok => exact .inr (.inr hsame)
  | broken e error => exact .inr (.inr ⟨hsame.owner,hsame.blocked,hsame.journal⟩)

theorem rooted_of_acts (h : Acts v v') : Rooted v v' := by
  cases h with
  | same => exact rooted_refl
  | fails => exact rooted_fail
  | admits free w => exact .inr (.inr ⟨rfl,rfl,rfl⟩)
  | tracks indices => exact .inr (.inr ⟨rfl,rfl,rfl⟩)
  | performs serving run => exact rooted_performs run

theorem rooted_transfer {os : Descriptors} {n : ℕ} : Rooted v (transfer os n v).2 := by
  unfold transfer
  split
  · exact rooted_refl
  split
  · exact .inr (.inr ⟨rfl,rfl,rfl⟩)
  split <;> exact .inr (.inr ⟨rfl,rfl,rfl⟩)

theorem rooted_finish {os : Descriptors} {shmid : ℤ} {commit disconnect : Bool} :
    Rooted v (finish os shmid commit disconnect budget v).2 := by
  obtain ⟨r,_,heq⟩ | ⟨_,⟨v',_,_,heq⟩ | heq⟩ := finish_cases os shmid commit disconnect budget v
  · rw [heq]
    exact rooted_refl
  · rw [heq]
    exact .inr (.inl (by decide : (-1 : ℤ) < 0))
  · rw [heq]
    have hcore := congrArg Admission.Core.owner (@close_core v commit budget)
    exact .inl ⟨hcore,rfl⟩

theorem rooted_call {c : Call} (hs : Owned v) (hplain : Plain c) : Rooted v (c.run v).2 := by
  cases c with
  | requestEnter => exact rooted_of_aside aside_requestEnter
  | requestLeave => exact rooted_of_aside aside_requestLeave
  | routeWrite os fd data offset budget => exact rooted_of_acts (acts_routeWrite os fd data offset budget hs)
  | transfer os n => exact rooted_transfer
  | leaveWrite => exact rooted_of_aside aside_leaveWrite
  | routeBlob op path budget => exact rooted_of_acts (acts_routeBlob op path budget hs)
  | namespaceCheck => exact rooted_of_acts (acts_namespaceCheck v)
  | enter shmid targets => exact rooted_of_aside aside_enter
  | bind targets => exact rooted_of_aside aside_bind
  | complete result => exact rooted_of_aside aside_complete
  | trackIndex os alloc index => exact rooted_of_acts (acts_trackIndex os alloc index v)
  | begin shmid env alloc budget => exact hplain.elim
  | write shmid path check data offset budget => exact rooted_of_acts (acts_write shmid path check data offset budget v)
  | commit os shmid budget => exact rooted_finish
  | abort os shmid budget => exact rooted_finish
  | disconnect os shmid budget => exact rooted_finish

/-- A session that has been disconnected does not own a transaction. -/
theorem disconnect_owner {os : Descriptors} {shmid : ℤ} (hok : ¬ (dmTxDisconnect os shmid budget v).1.code < 0)
    (howned : 0 ≤ (dmTxDisconnect os shmid budget v).2.manager.owner) :
    (dmTxDisconnect os shmid budget v).2.manager.owner≠shmid := by
  unfold dmTxDisconnect at hok howned ⊢
  obtain ⟨r,hrefused,heq⟩ | ⟨_,⟨v',_,_,heq⟩ | heq⟩ := finish_cases os shmid false true budget v
  · rw [heq] at hok howned ⊢
    obtain ⟨_,rfl⟩ | ⟨_,hfree | hother,_⟩ | ⟨_,rfl⟩ | ⟨hc,_⟩ := hrefused
    · exact absurd (by decide : eRollback < 0) hok
    · exact absurd howned (not_le.2 hfree)
    · exact hother
    · exact absurd (by decide : eNoLock < 0) hok
    · cases hc
  · rw [heq] at howned
    cases howned
  · rw [heq] at hok
    exact absurd (by decide : eRollback < 0) hok

/-! ## Slots -/

variable {roots : List (Option Session)} {shmid : ℤ} {i : ℕ} {e : Session}

theorem slotOf_none (h : slotOf roots shmid = none) (hslot : roots[i]? = some (some e)) : e.shmid≠shmid := by
  rw [slotOf,List.findIdx?_eq_none_iff] at h
  simpa using h _ (List.mem_of_getElem? hslot)

theorem slotOf_some (h : slotOf roots shmid = some i) (hslot : roots[i]? = some (some e)) : e.shmid = shmid := by
  rw [slotOf,List.findIdx?_eq_some_iff_getElem] at h
  obtain ⟨hi,hp,_⟩ := h
  rw [List.getElem?_eq_getElem hi,Option.some.injEq] at hslot
  simpa [hslot] using hp

/-- Registration leaves the sessions there are, and adds at most the one. -/
theorem registerRoot_cases (roots : List (Option Session)) (session : Session) (result : ℤ) :
    registerRoot roots session result = roots ∨
      ∃ i,roots[i]? = some none ∧ slotOf roots session.shmid = none ∧
        registerRoot roots session result = roots.set i (some session) := by
  unfold registerRoot
  split
  · exact .inl rfl
  rename_i hnone
  split
  · exact .inl rfl
  rename_i i hfree
  split
  · exact .inl rfl
  · refine .inr ⟨i,?_,hnone,rfl⟩
    rw [List.findIdx?_eq_some_iff_getElem] at hfree
    obtain ⟨hi,hp,_⟩ := hfree
    rw [List.getElem?_eq_getElem hi]
    simpa using hp

/-! ## Every run -/

variable {s s' s0 : State τ} {t : τ} {c : Call}

/-- One slot for each session, a slot for the owner, and a slot is given back only when
its session owns nothing. -/
structure Sound (s : State τ) : Prop where
  process : TransactionSession.Sound s.process
  unique : ∀ (i j : ℕ) (e e' : Session),s.roots[i]? = some (some e) → s.roots[j]? = some (some e') → e.shmid = e'.shmid → i = j
  owner : 0 ≤ s.process.manager.owner → s.process.manager.blocked = false →
    ∃ (i : ℕ) (e : Session) (tx : Tx),s.roots[i]? = some (some e) ∧ e.shmid = s.process.manager.owner ∧
      s.process.manager.journal = some (e.env,tx)
  freeing : ∀ t i next,s.holder = some (t,.freeing i next) →
    ∃ e,s.roots[i]? = some (some e) ∧ (0 ≤ s.process.manager.owner → s.process.manager.owner≠e.shmid)

theorem Sound.hold (h : Sound s) (holder : Option (τ × Phase)) (hfreeing : ∀ t i next,
    holder = some (t,.freeing i next) →
      ∃ e,s.roots[i]? = some (some e) ∧ (0 ≤ s.process.manager.owner → s.process.manager.owner≠e.shmid)) :
    Sound { s with holder := holder } := ⟨h.process,h.unique,h.owner,hfreeing⟩

theorem Sound.unlock (h : Sound s) : Sound { s with holder := none } := by
  apply h.hold
  intro t i next hholder
  cases hholder

theorem Sound.reaping (h : Sound s) (t : τ) (i : ℕ) (purpose : Purpose) :
    Sound { s with holder := some (t,.reaping i purpose) } := by
  apply h.hold
  intro t i next hholder
  cases hholder

theorem Sound.register (h : Sound s) (session : Session) (result : ℤ) :
    Sound { s with roots := registerRoot s.roots session result,holder := none } := by
  obtain heq | ⟨i,hfree,hnew,heq⟩ := registerRoot_cases s.roots session result
  · rw [heq]
    exact h.unlock
  · have hbound : i < s.roots.length := (List.getElem?_eq_some_iff.1 hfree).1
    have hold : ∀ (j : ℕ) (e : Session),(s.roots.set i (some session))[j]? = some (some e) →
        (j = i ∧ e = session) ∨ (j≠i ∧ s.roots[j]? = some (some e)) := by
      intro j e hj
      by_cases hij : i = j
      · subst hij
        rw [List.getElem?_set_self hbound] at hj
        cases hj
        exact .inl ⟨rfl,rfl⟩
      · rw [List.getElem?_set_ne hij] at hj
        exact .inr ⟨Ne.symm hij,hj⟩
    rw [heq]
    refine ⟨h.process,?_,?_,fun t i next hholder => by cases hholder⟩
    · intro j k e e' hj hk hshmid
      obtain ⟨hji,hje⟩ | ⟨_,hj'⟩ := hold j e hj
      · obtain ⟨hki,_⟩ | ⟨_,hk'⟩ := hold k e' hk
        · exact hji.trans hki.symm
        · rw [hje] at hshmid
          exact absurd hshmid.symm (slotOf_none hnew hk')
      · obtain ⟨_,hke⟩ | ⟨_,hk'⟩ := hold k e' hk
        · rw [hke] at hshmid
          exact absurd hshmid (slotOf_none hnew hj')
        · exact h.unique j k e e' hj' hk' hshmid
    · intro howned hrunning
      obtain ⟨j,e,tx,hslot,hrest⟩ := h.owner howned hrunning
      refine ⟨j,e,tx,?_,hrest⟩
      have hij : i≠j := by
        rintro rfl
        rw [hfree] at hslot
        cases hslot
      rwa [List.getElem?_set_ne hij]

theorem Sound.free (h : Sound s) {next : Option Purpose} (here : s.holder = some (t,.freeing i next))
    (holder : Option (τ × Phase)) (hholder : ∀ t i next,holder≠some (t,.freeing i next)) :
    Sound { s with roots := s.roots.set i none,holder := holder } := by
  obtain ⟨e,hslot,hother⟩ := h.freeing t i next here
  have hbound : i < s.roots.length := (List.getElem?_eq_some_iff.1 hslot).1
  have hold : ∀ (j : ℕ) (e : Session),(s.roots.set i none)[j]? = some (some e) → s.roots[j]? = some (some e) := by
    intro j e hj
    by_cases hij : i = j
    · subst hij
      rw [List.getElem?_set_self hbound] at hj
      cases hj
    · rwa [List.getElem?_set_ne hij] at hj
  refine ⟨h.process,?_,?_,fun t i next hat => absurd hat (hholder t i next)⟩
  · intro j k e e' hj hk
    exact h.unique j k e e' (hold j e hj) (hold k e' hk)
  · intro howned hrunning
    obtain ⟨j,e',tx,hslot',hshmid,hjournal⟩ := h.owner howned hrunning
    refine ⟨j,e',tx,?_,hshmid,hjournal⟩
    have hij : i≠j := by
      rintro rfl
      obtain rfl : e = e' := by simpa using hslot.symm.trans hslot'
      exact hother howned hshmid.symm
    rwa [List.getElem?_set_ne hij]

theorem Initial.sound (h : Initial s0) : Sound s0 := by
  have hempty : ∀ (i : ℕ) (e : Session),s0.roots[i]?≠some (some e) := by
    intro i e hslot
    cases h.roots _ (List.mem_of_getElem? hslot)
  refine ⟨h.process.sound,fun i j e e' hi => absurd hi (hempty i e),?_,?_⟩
  · intro howned
    rw [h.process.manager] at howned
    cases howned
  · intro t i next hholder
    rw [h.holder] at hholder
    cases hholder

variable [DecidableEq τ]

theorem Sound.call (h : Sound s) (hplain : Plain c) (henabled : c.Enabled (s.process.threads t)) :
    Sound (s.call t c) := by
  have hrooted : Rooted (s.process.view t) (c.run (s.process.view t)).2 := rooted_call (h.process.owned t) hplain
  constructor
  · exact h.process.step (.call t c henabled)
  · exact h.unique
  · intro howned hrunning
    obtain ⟨_,hb⟩ | hfree | hsame := hrooted
    · exact absurd hrunning (by simp [State.call,TransactionSession.State.next,TransactionSession.State.set,hb])
    · exact absurd howned (not_le.2 hfree)
    · obtain ⟨i,e,tx,hslot,hshmid,hjournal⟩ := h.owner (hsame.owner ▸ howned) (hsame.blocked ▸ hrunning)
      have hroot := hsame.journal
      rw [show (s.process.view t).manager.journal = some (e.env,tx) from hjournal] at hroot
      simp only [Option.map_some,Option.map_eq_some_iff,Prod.exists,exists_and_right,exists_eq_right] at hroot
      obtain ⟨tx',hjournal'⟩ := hroot
      exact ⟨i,e,tx',hslot,hshmid.trans hsame.owner.symm,hjournal'⟩
  · intro t' i next hholder
    obtain ⟨e,hslot,hother⟩ := h.freeing t' i next hholder
    refine ⟨e,hslot,fun howned => ?_⟩
    obtain ⟨hsame,_⟩ | hfree | hsame := hrooted
    · rw [show (s.call t c).process.manager.owner = s.process.manager.owner from hsame] at howned ⊢
      exact hother howned
    · exact absurd howned (not_le.2 hfree)
    · rw [show (s.call t c).process.manager.owner = s.process.manager.owner from hsame.owner] at howned ⊢
      exact hother howned

theorem Sound.disconnectSlot (h : Sound s) {os : Descriptors} {budget : Budget} {next : Option Purpose}
    (hslot : s.roots[i]? = some (some e)) (hidle : (s.process.threads t).direct = none) :
    Sound (disconnectSlot s t i e os budget next) := by
  have hcall : Sound (s.call t (.disconnect os e.shmid budget)) := h.call trivial hidle
  apply hcall.hold
  intro t' i' next' hholder
  split at hholder
  · cases hholder
  · rename_i hok
    cases hholder
    exact ⟨e,hslot,disconnect_owner hok⟩

theorem Sound.begin (h : Sound s) {alloc : Bool} {budget : Budget} (hslot : s.roots[i]? = some (some e))
    (hidle : (s.process.threads t).direct = none) :
    Sound { s.call t (.begin e.shmid e.env alloc budget) with holder := none } := by
  have hbegin := begin_cases e.shmid e.env alloc budget (s.process.view t)
  have hprocess : TransactionSession.Sound (s.process.next t (.begin e.shmid e.env alloc budget)) :=
    h.process.step (.call t _ hidle)
  refine ⟨hprocess,h.unique,?_,fun t i next hholder => by cases hholder⟩
  simp only [State.call,TransactionSession.State.next,TransactionSession.State.set,Call.run]
  generalize dmTxBegin e.shmid e.env alloc budget (s.process.view t) = out at hbegin
  cases hbegin with
  | refused r negative => exact h.owner
  | begun start out run => exact fun _ _ => ⟨i,e,out.tx,hslot,rfl,rfl⟩
  | failed start fault out run =>
    intro _ hrunning
    cases hrunning

theorem Sound.perform (h : Sound s) (hidle : (s.process.threads t).direct = none) (purpose : Purpose) :
    Sound (perform s t purpose) := by
  cases purpose with
  | reap => exact h.unlock
  | begin shmid same alloc budget =>
    unfold SessionRegistry.perform
    dsimp only
    split
    · exact h.unlock
    · rename_i e hfind
      obtain ⟨i,hi,he⟩ := Option.bind_eq_some_iff.1 hfind
      have hslot : s.roots[i]? = some (some e) := Option.join_eq_some_iff.1 he
      split
      · rw [← slotOf_some hi hslot]
        exact h.begin hslot hidle
      · exact h.unlock
  | enter shmid same targets =>
    unfold SessionRegistry.perform
    dsimp only
    split
    · exact (h.call (c := .enter shmid targets) trivial hidle).unlock
    · exact h.unlock
  | register session result => exact h.register session result

theorem Sound.step (h : Sound s) (hstep : Step s s') : Sound s' := by
  cases hstep with
  | call t c plain enabled => exact h.call plain enabled
  | lock t purpose free => exact h.reaping t 0 purpose
  | lockClose t shmid free =>
    apply h.hold
    intro t i next hholder
    cases hholder
  | alive t i purpose here inside => exact h.reaping t (i+1) purpose
  | gone t i purpose e os budget here slot idle => exact h.disconnectSlot slot idle
  | done t i purpose here past idle => exact h.perform idle purpose
  | closeNone t shmid here absent => exact h.unlock
  | close t shmid i e os budget here slot entry idle => exact h.disconnectSlot entry idle
  | free t i next here =>
    apply h.free here
    intro t' i' next' hholder
    cases next with
    | none => cases hholder
    | some purpose => cases hholder

/-- A step leaves a session in its slot, or gives the slot back when the session owns nothing. -/
theorem Sound.slot_step (h : Sound s) (hstep : Step s s') (hslot : s.roots[i]? = some (some e)) :
    s'.roots[i]? = some (some e) ∨
      (s'.roots[i]? = some none ∧ (0 ≤ s.process.manager.owner → s.process.manager.owner≠e.shmid)) := by
  cases hstep with
  | free t j next here =>
    obtain ⟨e',hslot',hother⟩ := h.freeing t j next here
    by_cases hij : j = i
    · subst hij
      obtain rfl : e' = e := by simpa using hslot'.symm.trans hslot
      exact .inr ⟨List.getElem?_set_self (List.getElem?_eq_some_iff.1 hslot).1,hother⟩
    · left
      dsimp only
      rwa [List.getElem?_set_ne hij]
  | done t j purpose here past idle =>
    left
    cases purpose with
    | reap => exact hslot
    | begin shmid same alloc budget =>
      unfold SessionRegistry.perform
      dsimp only
      split
      · exact hslot
      split <;> exact hslot
    | enter shmid same targets =>
      unfold SessionRegistry.perform
      dsimp only
      split <;> exact hslot
    | register session result =>
      unfold SessionRegistry.perform
      dsimp only
      obtain heq | ⟨k,hfree,_,heq⟩ := registerRoot_cases s.roots session result
      · rwa [heq]
      · have hki : k≠i := by
          rintro rfl
          rw [hfree] at hslot
          cases hslot
        rwa [heq,List.getElem?_set_ne hki]
  | _ => exact .inl hslot

/-- **The owner is registered.** Whatever registrations, closings, reapings and calls of the
transaction manager come in between: a session has one slot at most; an owner that is not
blocked has a slot, with the root of its journal; and a step leaves a slot as it is or gives
it back, and that only when its session does not own a transaction. -/
theorem owner_registered (h0 : Initial s0) (hrun : Relation.ReflTransGen Step s0 s) :
    (∀ (i j : ℕ) (e e' : Session),s.roots[i]? = some (some e) → s.roots[j]? = some (some e') →
      e.shmid = e'.shmid → i = j) ∧
    (0 ≤ s.process.manager.owner → s.process.manager.blocked = false →
      ∃ (i : ℕ) (e : Session) (tx : Tx),s.roots[i]? = some (some e) ∧ e.shmid = s.process.manager.owner ∧
        s.process.manager.journal = some (e.env,tx)) ∧
    ∀ s',Step s s' → ∀ (i : ℕ) (e : Session),s.roots[i]? = some (some e) →
      s'.roots[i]? = some (some e) ∨
        (s'.roots[i]? = some none ∧ (0 ≤ s.process.manager.owner → s.process.manager.owner≠e.shmid)) := by
  have h : Sound s := by
    induction hrun with
    | refl => exact h0.sound
    | tail _ hstep ih => exact ih.step hstep
  exact ⟨h.unique,h.owner,fun s' hstep i e hslot => h.slot_step hstep hslot⟩

def sampleRegistry : State Bool := { roots := [none],process := sampleStart }

def sampleRegistered : State Bool := { roots := [some ⟨7,UndoJournal.sampleEnv⟩],process := sampleStart }

def sampleRegister : Purpose := .register ⟨7,UndoJournal.sampleEnv⟩ 4

def sampleBegin : Purpose := .begin 7 true true none

/-- Session 7 has begun a transaction. -/
def sampleBegun : State Bool :=
  perform { sampleRegistered with holder := some (true,.reaping 1 sampleBegin) } true sampleBegin

theorem owner_registered_sample : sampleBegun.process.manager.owner = 7 ∧
    ∃ (i : ℕ) (e : Session) (tx : Tx),sampleBegun.roots[i]? = some (some e) ∧ e.shmid = 7 ∧
      sampleBegun.process.manager.journal = some (e.env,tx) := by
  have h0 : Initial sampleRegistry :=
    ⟨by simp [sampleRegistry],rfl,⟨rfl,rfl,rfl,by simp [sampleRegistry,sampleStart,UndoJournal.int64Max]⟩⟩
  have hregister : Relation.ReflTransGen Step sampleRegistry sampleRegistered := by
    have hdone : Step { sampleRegistry with holder := some (true,.reaping 1 sampleRegister) } sampleRegistered :=
      .done true 1 sampleRegister rfl (le_refl 1) rfl
    apply Relation.ReflTransGen.head (.lock true sampleRegister rfl)
    apply Relation.ReflTransGen.head (.alive true 0 sampleRegister rfl Nat.one_pos)
    exact .single hdone
  have hbegin : Relation.ReflTransGen Step sampleRegistered sampleBegun := by
    have hdone : Step { sampleRegistered with holder := some (true,.reaping 1 sampleBegin) } sampleBegun :=
      .done true 1 sampleBegin rfl (le_refl 1) rfl
    apply Relation.ReflTransGen.head (.lock true sampleBegin rfl)
    apply Relation.ReflTransGen.head (.alive true 0 sampleBegin rfl Nat.one_pos)
    exact .single hdone
  have howner : sampleBegun.process.manager.owner = 7 := by decide +kernel
  obtain ⟨_,hslot,_⟩ := owner_registered h0 (hregister.trans hbegin)
  obtain ⟨i,e,tx,hi,hshmid,hjournal⟩ := hslot (by rw [howner]; decide) (by decide +kernel)
  exact ⟨howner,i,e,tx,hi,hshmid.trans howner,hjournal⟩

end Dataman.SessionRegistry

import Mathlib.Data.Set.Card

/-!
# Admission

Many workers share a resource that one owner at a time has for itself. Requests and plain
writes are counted and exclude an owner; work in the name of the owner is done by one
worker at a time and excludes the end of the ownership. When the resource breaks, the
owner keeps it and nothing is admitted any more.
-/

namespace Dataman.Admission

structure Core where
  owner : ℤ
  blocked : Bool
  generation : ℕ
  directWriters : ℕ
  activeRequests : ℕ
  ownerRequest : Bool
  /-- A journal is open. -/
  journal : Bool
deriving DecidableEq

/-- What a worker is in: a request, a plain write, and the work of an owner by its generation. -/
structure Local where
  requestActive : Bool
  writing : Bool
  scope : Option (ℤ × ℕ)
deriving DecidableEq

inductive Change (c : Core) (l : Local) : Core → Local → Prop
  | same : Change c l c l
  | enterRequest (idle : l.requestActive = false) (free : c.owner < 0) :
      Change c l { c with activeRequests := c.activeRequests+1 } { l with requestActive := true }
  | leaveRequest (active : l.requestActive = true) :
      Change c l { c with activeRequests := c.activeRequests - 1 } { l with requestActive := false }
  | admitWrite (idle : l.writing = false) (free : c.owner < 0) :
      Change c l { c with directWriters := c.directWriters+1 } { l with writing := true }
  | leaveWrite (active : l.writing = true) :
      Change c l { c with directWriters := c.directWriters - 1 } { l with writing := false }
  | enter (idle : l.scope = none) (owned : 0 ≤ c.owner) (running : c.blocked = false) (alone : c.ownerRequest = false) :
      Change c l { c with ownerRequest := true } { l with scope := some (c.owner,c.generation) }
  | complete (active : l.scope≠none) : Change c l { c with ownerRequest := false } { l with scope := none }
  | begin (shmid : ℤ) (valid : 0 ≤ shmid) (free : c.owner < 0) (running : c.blocked = false)
      (quiet : c.directWriters = 0 ∧ c.activeRequests = 0) :
      Change c l { c with owner := shmid,generation := c.generation+1,journal := true } l
  | beginFailed (shmid : ℤ) (valid : 0 ≤ shmid) (free : c.owner < 0) (running : c.blocked = false)
      (quiet : c.directWriters = 0 ∧ c.activeRequests = 0) :
      Change c l { c with owner := shmid,blocked := true } l
  | finish (owned : 0 ≤ c.owner) (running : c.blocked = false) (alone : c.ownerRequest = false) :
      Change c l { c with owner := -1,journal := false } l
  | finishFailed (owned : 0 ≤ c.owner) (running : c.blocked = false) (alone : c.ownerRequest = false) :
      Change c l { c with blocked := true,journal := false } l

variable {τ : Type} {c c' : Core} {ls : τ → Local} {l : Local} {t : τ}

/-- The counters are right, an owner excludes what is counted, and one worker at most
works for the owner. -/
structure Sound (c : Core) (ls : τ → Local) : Prop where
  requests : { t | (ls t).requestActive = true }.encard = c.activeRequests
  writers : { t | (ls t).writing = true }.encard = c.directWriters
  owned : 0 ≤ c.owner → c.directWriters = 0 ∧ c.activeRequests = 0
  opened : 0 ≤ c.owner → c.blocked = false → c.journal = true
  blocked : c.blocked = true → 0 ≤ c.owner ∧ c.ownerRequest = false
  scope : ∀ t x,(ls t).scope = some x →
    c.ownerRequest = true ∧ x = (c.owner,c.generation) ∧ ∀ u,(ls u).scope≠none → u = t
  request : c.ownerRequest = true → 0 ≤ c.owner ∧ ∃ t,(ls t).scope≠none

namespace Sound

theorem idle (h : Sound c ls) (halone : c.ownerRequest = false) (t : τ) : (ls t).scope = none := by
  cases hs : (ls t).scope with
  | none => rfl
  | some x =>
    have := (h.scope t x hs).1
    rw [halone] at this
    cases this

theorem not_writing (h : Sound c ls) (howned : 0 ≤ c.owner) (t : τ) : (ls t).writing = false := by
  have hzero := h.writers
  rw [(h.owned howned).1,Nat.cast_zero,Set.encard_eq_zero] at hzero
  by_contra hw
  have hmem : t ∈ { t | (ls t).writing = true } := by simpa using hw
  simp [hzero] at hmem

theorem alone (h : Sound c ls) (hfree : c.owner < 0) : c.ownerRequest = false := by
  by_contra hreq
  have := (h.request (by simpa using hreq)).1
  omega

/-- Changes of the owner while nobody works for it. -/
theorem own (h : Sound c ls) {owner : ℤ} {blocked journal : Bool} {generation : ℕ}
    (halone : c.ownerRequest = false) (howned : 0 ≤ owner → c.directWriters = 0 ∧ c.activeRequests = 0)
    (hopened : 0 ≤ owner → blocked = false → journal = true) (hblocked : blocked = true → 0 ≤ owner) :
    Sound { c with owner := owner,blocked := blocked,generation := generation,journal := journal } ls := by
  refine ⟨h.requests,h.writers,howned,hopened,fun hb => ⟨hblocked hb,halone⟩,?_,?_⟩
  · intro t x hx
    rw [h.idle halone t] at hx
    cases hx
  · intro hreq
    rw [show c.ownerRequest = true from hreq] at halone
    cases halone

end Sound

/-! ## Counting -/

variable [DecidableEq τ] {f : Local → Bool} {n : ℕ}

theorem encard_gain (h : { t | f (ls t) = true }.encard = n) (hold : f (ls t) = false) (hnew : f l = true) :
    { u | f (Function.update ls t l u) = true }.encard = (n+1 : ℕ) := by
  have hset : { u | f (Function.update ls t l u) = true } = insert t { u | f (ls u) = true } := by
    ext u
    by_cases hu : u = t
    · simp [hu,hnew]
    · simp [hu]
  rw [hset,Set.encard_insert_of_notMem (by simp [hold]),h]
  rfl

theorem encard_loss (h : { t | f (ls t) = true }.encard = n) (hold : f (ls t) = true) (hnew : f l = false) :
    { u | f (Function.update ls t l u) = true }.encard = (n - 1 : ℕ) := by
  have hset : { u | f (Function.update ls t l u) = true } = { u | f (ls u) = true } \ {t} := by
    ext u
    by_cases hu : u = t
    · simp [hu,hnew]
    · simp [hu]
  rw [hset,Set.encard_sdiff_singleton_of_mem (by simpa using hold),h]
  rfl

theorem encard_same (h : { t | f (ls t) = true }.encard = n) (heq : f l = f (ls t)) :
    { u | f (Function.update ls t l u) = true }.encard = n := by
  rw [← h]
  congr 1
  ext u
  by_cases hu : u = t
  · simp [hu,heq]
  · simp [hu]

/-! ## Every change keeps a sound state -/

theorem scope_update (hs : l.scope = (ls t).scope) (u : τ) : (Function.update ls t l u).scope = (ls u).scope := by
  by_cases hu : u = t
  · simp [hu,hs]
  · simp [hu]

/-- Changes of the counters. -/
theorem Sound.count (h : Sound c ls) {requests writers : ℕ} (hs : l.scope = (ls t).scope)
    (hrequests : { u | (Function.update ls t l u).requestActive = true }.encard = requests)
    (hwriters : { u | (Function.update ls t l u).writing = true }.encard = writers)
    (howned : 0 ≤ c.owner → writers = 0 ∧ requests = 0) :
    Sound { c with activeRequests := requests,directWriters := writers } (Function.update ls t l) := by
  refine ⟨hrequests,hwriters,howned,h.opened,h.blocked,?_,?_⟩
  · simp only [scope_update hs]
    exact h.scope
  · simp only [scope_update hs]
    exact h.request

theorem Sound.change (h : Sound c ls) (hc : Change c (ls t) c' l) : Sound c' (Function.update ls t l) := by
  have hreq := @encard_same τ ls l t _ Local.requestActive _ h.requests
  have hwri := @encard_same τ ls l t _ Local.writing _ h.writers
  cases hc with
  | same => rwa [Function.update_eq_self]
  | enterRequest idle free =>
    exact h.count rfl (encard_gain (f := Local.requestActive) h.requests idle rfl) (hwri rfl) (by omega)
  | leaveRequest active =>
    refine h.count rfl (encard_loss (f := Local.requestActive) h.requests active rfl) (hwri rfl) ?_
    intro howned
    have := h.owned howned
    omega
  | admitWrite idle free =>
    exact h.count rfl (hreq rfl) (encard_gain (f := Local.writing) h.writers idle rfl) (by omega)
  | leaveWrite active =>
    refine h.count rfl (hreq rfl) (encard_loss (f := Local.writing) h.writers active rfl) ?_
    intro howned
    have := h.owned howned
    omega
  | enter idle owned running alone =>
    refine ⟨hreq rfl,hwri rfl,h.owned,h.opened,fun hb => ?_,?_,?_⟩
    · rw [show c.blocked = true from hb] at running
      cases running
    · intro u x hx
      by_cases hu : u = t
      · subst hu
        refine ⟨rfl,by simpa using hx.symm,?_⟩
        intro v hv
        by_contra hne
        exact hv (by simpa [hne] using h.idle alone v)
      · rw [Function.update_of_ne hu,h.idle alone u] at hx
        cases hx
    · exact fun _ => ⟨owned,t,by simp⟩
  | complete active =>
    obtain ⟨x,hx⟩ := Option.ne_none_iff_exists'.1 active
    refine ⟨hreq rfl,hwri rfl,h.owned,h.opened,fun hb => ⟨(h.blocked hb).1,rfl⟩,?_,?_⟩
    · intro u y hy
      by_cases hu : u = t
      · simp [hu] at hy
      · rw [Function.update_of_ne hu] at hy
        exact absurd ((h.scope t x hx).2.2 u (by simp [hy])) hu
    · intro hfalse
      cases hfalse
  | begin shmid valid free running quiet =>
    rw [Function.update_eq_self]
    exact h.own (h.alone free) (fun _ => quiet) (fun _ _ => rfl) (fun _ => valid)
  | beginFailed shmid valid free running quiet =>
    rw [Function.update_eq_self]
    apply h.own (h.alone free) (fun _ => quiet) _ (fun _ => valid)
    intro _ hfalse
    cases hfalse
  | finish owned running alone =>
    rw [Function.update_eq_self]
    apply h.own alone (by omega) (by omega)
    intro hb
    rw [running] at hb
    cases hb
  | finishFailed owned running alone =>
    rw [Function.update_eq_self]
    apply h.own alone h.owned _ (fun _ => owned)
    intro _ hfalse
    cases hfalse

end Dataman.Admission

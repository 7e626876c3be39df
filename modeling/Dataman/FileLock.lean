import Dataman.LabelledRuns
import Mathlib.Data.Int.Notation
import Mathlib.Logic.Function.Basic

/-!
# The reader and writer lock of a file

`fl_lock` with its two chains. Its steps are the sections that hold the mutex: from the
entry or from waking up in `pthread_cond_wait` to going to sleep there or returning.
-/

namespace Dataman.FileLock

variable {τ : Type} [DecidableEq τ]

inductive LockType
  | un
  | sh
  | ex
deriving DecidableEq,Repr

structure Owner (τ : Type) where
  owner : τ
  type : LockType
deriving DecidableEq,Repr

structure PLock (τ : Type) where
  value : ℤ := 0
  owners : List (Owner τ) := []
  queue : List (Owner τ) := []
deriving DecidableEq,Repr

/-! ## The chains -/

/-- The result and the chain without the first entry of the thread. -/
def removeFromChain : List (Owner τ) → τ → Bool × List (Owner τ)
  | [],_ => (false,[])
  | o::rest,self =>
    if o.owner = self then (true,rest)
    else ((removeFromChain rest self).1,o::(removeFromChain rest self).2)

def addToChain : List (Owner τ) → τ → LockType → ℤ × List (Owner τ)
  | [],self,type => (1,[⟨self,type⟩])
  | o::rest,self,type =>
    if o.owner = self then (if o.type≠type then -1 else 0,o::rest)
    else ((addToChain rest self type).1,o::(addToChain rest self type).2)

def beforeEx : List (Owner τ) → τ → Bool
  | [],_ => true
  | o::rest,self => if o.owner = self then true else if o.type = .ex then false else beforeEx rest self

/-! ## The sections of `fl_lock` -/

/-- The end of a section: the lock, whether the condition was broadcast, and the value
returned, or none if the thread sleeps in `pthread_cond_wait`. -/
structure Pass (τ : Type) where
  lock : PLock τ
  broadcast : Bool := false
  retval : Option ℤ
deriving DecidableEq,Repr

def unlock (lock : PLock τ) (self : τ) : Pass τ :=
  let removed := removeFromChain lock.owners self
  if removed.1 then
    let value := if lock.value < 0 then lock.value+1 else if lock.value > 0 then lock.value - 1 else lock.value
    { lock := { lock with value := value,owners := removed.2 }
      broadcast := value = 0 ∨ (value≠0 ∧ lock.queue.head?.any (·.type = .sh))
      retval := some 1 }
  else { lock := lock,retval := some 1 }

/-- Behind the others in the queue; refused if the thread waits for another type already. -/
def wait (lock : PLock τ) (self : τ) (type : LockType) : Pass τ :=
  let added := addToChain lock.queue self type
  { lock := { lock with queue := added.2 },retval := if added.1 < 0 then some 0 else none }

/-- Out of the queue, if there is one. -/
def leaveQueue (lock : PLock τ) (self : τ) : List (Owner τ) :=
  if lock.queue≠[] then (removeFromChain lock.queue self).2 else lock.queue

def lockShared (lock : PLock τ) (self : τ) : Pass τ :=
  if lock.value < 0 ∨ (lock.queue≠[] ∧ ¬ beforeEx lock.queue self) then wait lock self .sh
  else
    let added := addToChain lock.owners self .sh
    { lock :=
        { value := if added.1≠0 then lock.value+1 else lock.value
          owners := added.2
          queue := leaveQueue lock self }
      retval := some 1 }

def lockExclusive (lock : PLock τ) (self : τ) : Pass τ :=
  if lock.value = 0 ∧ (lock.queue = [] ∨ lock.queue.head?.any (·.owner = self)) then
    { lock :=
        { value := lock.value - 1
          owners := (addToChain lock.owners self .ex).2
          queue := leaveQueue lock self }
      retval := some 1 }
  else wait lock self .ex

/-- One section of `fl_lock`. -/
def flLock (lock : PLock τ) (self : τ) : LockType → Pass τ
  | .un => unlock lock self
  | .sh => lockShared lock self
  | .ex => lockExclusive lock self

/-! ## Threads -/

/-- The lock, and what each thread asleep in `pthread_cond_wait` asked for. -/
structure State (τ : Type) where
  lock : PLock τ := {}
  asleep : τ → Option LockType := fun _ => none

inductive Event (τ : Type)
  | released (t : τ) (broadcast : Bool)
  | granted (t : τ) (type : LockType)
  | refused (t : τ) (type : LockType)
  | slept (t : τ) (type : LockType)
deriving DecidableEq,Repr

def Pass.event (p : Pass τ) (t : τ) : LockType → Event τ
  | .un => .released t p.broadcast
  | type =>
    match p.retval with
    | none => .slept t type
    | some 0 => .refused t type
    | some _ => .granted t type

/-- The next section of a thread. -/
def State.pass (s : State τ) (t : τ) (type : LockType) : State τ :=
  let p := flLock s.lock t type
  { lock := p.lock,asleep := Function.update s.asleep t (if p.retval = none then some type else none) }

def State.event (s : State τ) (t : τ) (type : LockType) : Event τ := (flLock s.lock t type).event t type

/-- A thread calls `fl_lock`, for a lock only when it holds none; or a sleeping thread
wakes up, after a broadcast or without one. -/
inductive Step (s : State τ) : Event τ → State τ → Prop
  | call (t : τ) (type : LockType) (awake : s.asleep t = none)
      (free : type≠.un → t∉s.lock.owners.map Owner.owner) : Step s (s.event t type) (s.pass t type)
  | wake (t : τ) (type : LockType) (asleep : s.asleep t = some type) : Step s (s.event t type) (s.pass t type)

end Dataman.FileLock

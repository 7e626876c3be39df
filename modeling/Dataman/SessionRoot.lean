import Dataman.TransactionIsolation

/-!
# Registered sessions (`session_root.c`)

Sessions are registered with the root of their database. Every use of the registry first
closes the sessions whose connection is gone, and with them a transaction they own.
-/

namespace Dataman.SessionRoot
open UndoJournal TransactionSession

/-- `struct root_entry` -/
structure Session where
  shmid : ℤ
  env : Env

/-- The server: its slots of sessions, the transaction manager as the calling thread sees
it, and the memory of its handlers. -/
structure Server (μ : Type) where
  roots : List (Option Session)
  view : View
  memory : μ

/-- What the system calls of one use of the registry answer: which connections are gone,
whether the root is still the directory that was registered, and where effects fail. -/
structure Probe where
  gone : ℕ → Bool
  same : Bool
  os : Descriptors
  budget : ℕ → Budget

variable {μ : Type}

/-- `close_slot`, up to the slot itself. -/
def closeSlot (p : Probe) (i : ℕ) (e : Session) (v : View) : ℤ × View :=
  let out := dmTxDisconnect p.os e.shmid (p.budget i) v
  (out.1.code,out.2)

def reapFrom (p : Probe) : ℕ → List (Option Session) → View → ℤ × List (Option Session) × View
  | _,[],v => (0,[],v)
  | i,none::roots,v =>
    let out := reapFrom p (i+1) roots v
    (out.1,none::out.2.1,out.2.2)
  | i,some e::roots,v =>
    if p.gone i then
      let closed := closeSlot p i e v
      if closed.1 < 0 then (closed.1,some e::roots,closed.2)
      else
        let out := reapFrom p (i+1) roots closed.2
        (out.1,none::out.2.1,out.2.2)
    else
      let out := reapFrom p (i+1) roots v
      (out.1,some e::out.2.1,out.2.2)

def reap (p : Probe) (s : Server μ) : ℤ × Server μ :=
  let out := reapFrom p 0 s.roots s.view
  (out.1,{ s with roots := out.2.1,view := out.2.2 })

/-- The first slot of a session. -/
def Server.find (s : Server μ) (shmid : ℤ) : Option Session := s.roots.reduceOption.find? (·.shmid = shmid)

def sessionRootUse (p : Probe) (shmid : ℤ) (operation : Env → View → Result × View) (s : Server μ) : ℤ × Server μ :=
  let reaped := reap p s
  if reaped.1 < 0 then reaped
  else
    match reaped.2.find shmid with
    | none => (eNoConn,reaped.2)
    | some e =>
      if p.same then
        let out := operation e.env reaped.2.view
        (out.1.code,{ reaped.2 with view := out.2 })
      else (eNoConn,reaped.2)

/-- `session_root_copy` finds a root. -/
def sessionRootCopy (p : Probe) (shmid : ℤ) (s : Server μ) : Bool × Server μ :=
  let reaped := reap p s
  (0 ≤ reaped.1 && (reaped.2.find shmid).isSome && p.same,reaped.2)

/-! ## What a use does -/

/-- The answers of `session_root_use`. -/
inductive Used (p : Probe) (shmid : ℤ) (operation : Env → View → Result × View) (s : Server μ) : ℤ × Server μ → Prop
  | reaped (negative : (reap p s).1 < 0) : Used p shmid operation s (reap p s)
  | absent (reaped : ¬ (reap p s).1 < 0) : Used p shmid operation s (eNoConn,(reap p s).2)
  | applied (reaped : ¬ (reap p s).1 < 0) (e : Session) (found : (reap p s).2.find shmid = some e) :
      Used p shmid operation s
        ((operation e.env (reap p s).2.view).1.code,
          { (reap p s).2 with view := (operation e.env (reap p s).2.view).2 })

theorem sessionRootUse_cases (p : Probe) (shmid : ℤ) (operation : Env → View → Result × View) (s : Server μ) :
    Used p shmid operation s (sessionRootUse p shmid operation s) := by
  unfold sessionRootUse
  dsimp only
  split
  · rename_i hneg
    exact .reaped hneg
  rename_i hfine
  split
  · exact .absent hfine
  rename_i e hfound
  split
  · exact .applied hfine e hfound
  · exact .absent hfine

end Dataman.SessionRoot

import Mathlib.Logic.Relation

/-!
# Programs that make calls

A program makes calls one after the other, each answered by a value it goes on with, and
ends with a result. What a call does to a state is given apart from the program, so that
one program can be looked at in several ways.
-/

namespace Dataman.Programs

inductive Prog (Call : Type) (Answer : Call → Type) (α : Type)
  | ret (a : α)
  | call (c : Call) (next : Answer c → Prog Call Answer α)

variable {Call : Type} {Answer : Call → Type} {σ α β : Type}

namespace Prog

def bind : Prog Call Answer α → (α → Prog Call Answer β) → Prog Call Answer β
  | ret a,f => f a
  | call c next,f => call c fun r => bind (next r) f

instance : Monad (Prog Call Answer) where
  pure := ret
  bind := bind

/-- One call. -/
def ask (c : Call) : Prog Call Answer (Answer c) := call c ret

end Prog

open Prog

variable {p : Prog Call Answer α} {f : α → Prog Call Answer β} {s s' : σ} {a : α}

/-! ## Calls with one answer -/

/-- The run of a program whose calls are answered by a function; it stops at a call without an answer. -/
def run (step : σ → (c : Call) → Option (Answer c × σ)) : Prog Call Answer α → σ → Option (α × σ)
  | ret a,s => some (a,s)
  | call c next,s =>
    match step s c with
    | none => none
    | some out => run step (next out.1) out.2

variable {step : σ → (c : Call) → Option (Answer c × σ)}

@[simp] theorem run_pure (a : α) : run step (pure a : Prog Call Answer α) s = some (a,s) := rfl

theorem run_ask {c : Call} {r : Answer c} (h : step s c = some (r,s')) : run step (ask c) s = some (r,s') := by
  simp only [ask,run,h]

theorem run_bind (h : run step p s = some (a,s')) : run step (p >>= f) s = run step (f a) s' := by
  induction p generalizing s with
  | ret b =>
    obtain ⟨rfl,rfl⟩ := Prod.mk.inj (Option.some.inj h)
    rfl
  | call c next ih =>
    cases hstep : step s c with
    | none =>
      simp only [run,hstep] at h
      cases h
    | some out =>
      simp only [run,hstep] at h
      have hrest := ih out.1 h
      change run step (call c fun r => next r >>= f) s = _
      simp only [run,hstep]
      exact hrest

theorem run_ask_bind {c : Call} {r : Answer c} {f : Answer c → Prog Call Answer β} (h : step s c = some (r,s')) :
    run step (ask c >>= f) s = run step (f r) s' := run_bind (run_ask h)

end Dataman.Programs

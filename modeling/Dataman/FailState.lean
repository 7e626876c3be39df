import Mathlib.Logic.Basic

/-!
# Stateful computations that keep their state when they fail

A C function that returns an error code leaves behind whatever it had already
changed. `FailState` keeps that state, and `wp` is its weakest precondition
with one postcondition for each way of returning.
-/

namespace Dataman

/-- A computation from a state to a result or a fault, and the state left behind. -/
def FailState (σ ε α : Type) : Type := σ → Except ε α × σ

namespace FailState

variable {σ ε α β : Type}

instance : Monad (FailState σ ε) where
  pure a := fun s => (.ok a,s)
  bind m k := fun s => match m s with
    | (.ok a,s') => k a s'
    | (.error e,s') => (.error e,s')

/-- Return with a fault, leaving the state alone. -/
def fail (e : ε) : FailState σ ε α := fun s => (.error e,s)

/-- Read the state. -/
def get : FailState σ ε σ := fun s => (.ok s,s)

/-- Replace the state. -/
def modify (f : σ → σ) : FailState σ ε Unit := fun s => (.ok (),f s)

/-- Continue only when the test succeeds. -/
def ensure (b : Bool) (e : ε) : FailState σ ε Unit := if b then pure () else fail e

/-- Continue with the value, or return with the fault. -/
def ofOption (o : Option α) (e : ε) : FailState σ ε α :=
  match o with
  | some a => pure a
  | none => fail e

/-! ## Runs -/

theorem run_bind_ok {m : FailState σ ε α} {k : α → FailState σ ε β} {s s' : σ} {a : α}
    (h : m s = (.ok a,s')) : (m >>= k) s = k a s' := by
  simp only [bind,h]

theorem run_bind_error {m : FailState σ ε α} {k : α → FailState σ ε β} {s s' : σ} {e : ε}
    (h : m s = (.error e,s')) : (m >>= k) s = (.error e,s') := by
  simp only [bind,h]

theorem run_get (s : σ) : (get : FailState σ ε σ) s = (.ok s,s) := rfl

theorem run_ofOption_some {o : Option α} {a : α} (h : o = some a) (e : ε) (s : σ) : ofOption o e s = (.ok a,s) := by
  rw [h]
  rfl

theorem run_ofOption_none {o : Option α} (h : o = none) (e : ε) (s : σ) :
    ofOption o e s = ((.error e,s) : Except ε α × σ) := by
  rw [h]
  rfl

theorem run_ensure {b : Bool} (h : b = true) (e : ε) (s : σ) : ensure b e s = (.ok (),s) := by
  simp only [ensure,h,if_true]
  rfl

theorem run_ensure_not {b : Bool} (h : b = false) (e : ε) (s : σ) :
    ensure b e s = ((.error e,s) : Except ε Unit × σ) := by
  simp only [ensure,h]
  rfl

/-- A run is known by its result and the state it leaves. -/
theorem run_eq {m : FailState σ ε α} {s : σ} {r : Except ε α} (h : (m s).1 = r) : m s = (r,(m s).2) := by
  rw [← h]

/-! ## Weakest preconditions -/

/-- What must hold of the start state so that a normal return satisfies `Q` and a
faulty return satisfies `E`. -/
def wp (m : FailState σ ε α) (s : σ) (Q : α → σ → Prop) (E : ε → σ → Prop) : Prop :=
  match m s with
  | (.ok a,s') => Q a s'
  | (.error e,s') => E e s'

variable {Q : α → σ → Prop} {E : ε → σ → Prop} {s : σ}

@[simp] theorem wp_pure (a : α) : wp (pure a : FailState σ ε α) s Q E ↔ Q a s := Iff.rfl

@[simp] theorem wp_fail (e : ε) : wp (fail e : FailState σ ε α) s Q E ↔ E e s := Iff.rfl

@[simp] theorem wp_get {Q : σ → σ → Prop} : wp (get : FailState σ ε σ) s Q E ↔ Q s s := Iff.rfl

@[simp] theorem wp_modify (f : σ → σ) {Q : Unit → σ → Prop} :
    wp (modify f : FailState σ ε Unit) s Q E ↔ Q () (f s) := Iff.rfl

@[simp] theorem wp_bind (m : FailState σ ε β) (k : β → FailState σ ε α) :
    wp (m >>= k) s Q E ↔ wp m s (fun b s' => wp (k b) s' Q E) E := by
  simp only [wp,bind]
  rcases m s with ⟨_ | _,_⟩ <;> rfl

@[simp] theorem wp_ensure (b : Bool) (e : ε) {Q : Unit → σ → Prop} :
    wp (ensure b e) s Q E ↔ if b then Q () s else E e s := by
  cases b <;> rfl

@[simp] theorem wp_ofOption (o : Option α) (e : ε) :
    wp (ofOption o e) s Q E ↔ (match o with | some a => Q a s | none => E e s) := by
  cases o <;> rfl

/-- The rule for a computation whose run is known. -/
theorem wp_of_ok {m : FailState σ ε α} {a : α} {s' : σ} (h : m s = (.ok a,s')) : wp m s Q E ↔ Q a s' := by
  simp only [wp,h]

theorem wp_of_error {m : FailState σ ε α} {e : ε} {s' : σ} (h : m s = (.error e,s')) :
    wp m s Q E ↔ E e s' := by
  simp only [wp,h]

theorem wp_ite (p : Prop) [Decidable p] (m n : FailState σ ε α) :
    wp (if p then m else n) s Q E ↔ if p then wp m s Q E else wp n s Q E := by
  split <;> rfl

/-- Both postconditions may be weakened. -/
theorem wp_mono {m : FailState σ ε α} {Q' : α → σ → Prop} {E' : ε → σ → Prop}
    (h : wp m s Q E) (hQ : ∀ a s',Q a s' → Q' a s') (hE : ∀ e s',E e s' → E' e s') :
    wp m s Q' E' := by
  unfold wp at h ⊢
  rcases hm : m s with ⟨_ | a,s'⟩ <;> rw [hm] at h
  · exact hE _ _ h
  · exact hQ _ _ h

/-- The run behind a weakest precondition. -/
theorem wp_cases {m : FailState σ ε α} (h : wp m s Q E) :
    (∃ a s',m s = (.ok a,s') ∧ Q a s') ∨ (∃ e s',m s = (.error e,s') ∧ E e s') := by
  unfold wp at h
  rcases hm : m s with ⟨e | a,s'⟩ <;> rw [hm] at h
  · exact .inr ⟨e,s',rfl,h⟩
  · exact .inl ⟨a,s',rfl,h⟩

/-- What is true however the computation ends is true of the state that it leaves. -/
theorem wp_run {m : FailState σ ε α} {P : σ → Prop} (h : wp m s (fun _ => P) fun _ => P) : P (m s).2 := by
  obtain ⟨a,s',hrun,hs'⟩ | ⟨e,s',hrun,hs'⟩ := wp_cases h
  · rw [hrun]
    exact hs'
  · rw [hrun]
    exact hs'

-- from here on a `wp` is taken apart by the rules above only
attribute [irreducible] wp

/-! ## Frames -/

/-- However the computation ends, this part of the state is as before. -/
def Preserves (f : σ → β) (m : FailState σ ε α) : Prop := ∀ s,wp m s (fun _ s' => f s' = f s) (fun _ s' => f s' = f s)

section Preserves

variable {γ : Type} {f : σ → γ} {m : FailState σ ε α}

theorem Preserves.run (h : Preserves f m) (s : σ) : f (m s).2 = f s := wp_run (P := fun s' => f s' = f s) (h s)

theorem preserves_pure (a : α) : Preserves f (pure a : FailState σ ε α) := fun _ => (wp_pure a).2 rfl

theorem preserves_fail (e : ε) : Preserves f (fail e : FailState σ ε α) := fun _ => (wp_fail e).2 rfl

theorem preserves_get : Preserves f (get : FailState σ ε σ) := fun _ => wp_get.2 rfl

theorem preserves_modify {g : σ → σ} (h : ∀ s,f (g s) = f s) : Preserves f (modify g : FailState σ ε Unit) :=
  fun s => (wp_modify g).2 (h s)

theorem preserves_bind {m : FailState σ ε β} {k : β → FailState σ ε α} (hm : Preserves f m) (hk : ∀ b,Preserves f (k b)) :
    Preserves f (m >>= k) := by
  intro s
  refine (wp_bind m k).2 (wp_mono (hm s) ?_ fun _ _ => id)
  intro b s' hs'
  rw [← hs']
  exact hk b s'

theorem preserves_ensure (b : Bool) (e : ε) : Preserves f (ensure b e : FailState σ ε Unit) := by
  cases b with
  | true => exact preserves_pure ()
  | false => exact preserves_fail e

theorem preserves_ofOption (o : Option α) (e : ε) : Preserves f (ofOption o e : FailState σ ε α) := by
  cases o with
  | none => exact preserves_fail e
  | some a => exact preserves_pure a

theorem preserves_ite {p : Prop} [Decidable p] {m n : FailState σ ε α} (hm : p → Preserves f m) (hn : ¬ p → Preserves f n) :
    Preserves f (if p then m else n) := by
  split
  · exact hm ‹_›
  · exact hn ‹_›

end Preserves

/-! ## Invariants -/

/-- The computation keeps the property, however it ends. -/
def Maintains (P : σ → Prop) (m : FailState σ ε α) : Prop := ∀ s,P s → wp m s (fun _ => P) (fun _ => P)

section Maintains

variable {P : σ → Prop} {m : FailState σ ε α}

theorem maintains_pure (a : α) : Maintains P (pure a : FailState σ ε α) := fun _ hs => (wp_pure a).2 hs

theorem maintains_fail (e : ε) : Maintains P (fail e : FailState σ ε α) := fun _ hs => (wp_fail e).2 hs

theorem maintains_bind {m : FailState σ ε β} {k : β → FailState σ ε α} (hm : Maintains P m) (hk : ∀ b,Maintains P (k b)) :
    Maintains P (m >>= k) := fun s hs => (wp_bind m k).2 (wp_mono (hm s hs) (fun b s' => hk b s') fun _ _ => id)

theorem maintains_ensure (b : Bool) (e : ε) : Maintains P (ensure b e : FailState σ ε Unit) := by
  cases b with
  | true => exact maintains_pure ()
  | false => exact maintains_fail e

theorem maintains_ite {p : Prop} [Decidable p] {m n : FailState σ ε α} (hm : p → Maintains P m) (hn : ¬ p → Maintains P n) :
    Maintains P (if p then m else n) := by
  split
  · exact hm ‹_›
  · exact hn ‹_›

end Maintains

end FailState

/-- A test in an optional computation. -/
theorem guard_eq_ite (p : Prop) [Decidable p] : (guard p : Option Unit) = if p then some () else none := rfl

theorem guard_eq_some {p : Prop} [Decidable p] {u : Unit} : (guard p : Option Unit) = some u ↔ p := by
  rw [guard_eq_ite]
  by_cases hp : p
  · simp [hp]
  · simp [hp]

end Dataman

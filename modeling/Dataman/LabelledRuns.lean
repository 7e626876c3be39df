import Mathlib.Data.List.Induction

/-!
# Labelled runs

Runs of a step relation with the log of their labels. An invariant is carried along a
run; a state that a run leaves only through a good label delays the bad ones; and a
label is recent when no label of a second kind came after it.
-/

namespace Dataman.LabelledRuns

variable {σ ε : Type} {step : σ → ε → σ → Prop} {s s' s'' : σ} {log log' : List ε} {e : ε}

/-- Steps one after the other, with their labels in order. -/
inductive Run (step : σ → ε → σ → Prop) (s : σ) : List ε → σ → Prop
  | nil : Run step s [] s
  | snoc {s' s'' : σ} {log : List ε} {e : ε} (run : Run step s log s') (last : step s' e s'') :
      Run step s (log++[e]) s''

namespace Run

theorem single (h : step s e s') : Run step s [e] s' := Run.snoc .nil h

theorem append (h : Run step s log s') (h' : Run step s' log' s'') : Run step s (log++log') s'' := by
  induction h' with
  | nil => simpa using h
  | snoc run last ih =>
    rw [← List.append_assoc]
    exact .snoc ih last

theorem cons (h : step s e s') (h' : Run step s' log s'') : Run step s (e::log) s'' := (single h).append h'

theorem of_snoc (h : Run step s (log++[e]) s'') : ∃ s',Run step s log s' ∧ step s' e s'' := by
  generalize hl : log++[e] = l at h
  cases h with
  | nil => simp at hl
  | snoc run last =>
    obtain ⟨rfl,hlast⟩ := List.append_inj' hl rfl
    obtain rfl := List.singleton_inj.1 hlast
    exact ⟨_,run,last⟩

theorem of_append (h : Run step s (log++log') s'') : ∃ s',Run step s log s' ∧ Run step s' log' s'' := by
  induction log' using List.reverseRecOn generalizing s'' with
  | nil => exact ⟨s'',by simpa using h,.nil⟩
  | append_singleton log' e ih =>
    rw [← List.append_assoc] at h
    obtain ⟨t,hrun,hlast⟩ := h.of_snoc
    obtain ⟨s',hfirst,hrest⟩ := ih hrun
    exact ⟨s',hfirst,.snoc hrest hlast⟩

theorem eq_of_nil (h : Run step s [] s') : s' = s := by
  generalize hl : [] = log at h
  cases h with
  | nil => rfl
  | snoc run last => simp at hl

theorem of_cons (h : Run step s (e::log) s'') : ∃ s',step s e s' ∧ Run step s' log s'' := by
  obtain ⟨s',hfirst,hrest⟩ := of_append (show Run step s ([e]++log) s'' from h)
  obtain ⟨_,hnil,hstep⟩ := of_snoc (show Run step s ([]++[e]) s' from hfirst)
  rw [eq_of_nil hnil] at hstep
  exact ⟨s',hstep,hrest⟩

/-- What holds at first and is kept by each step holds at the end. -/
theorem invariant {I : σ → Prop} (h : Run step s log s') (first : I s)
    (keep : ∀ {a e b},I a → step a e b → I b) : I s' := by
  induction h with
  | nil => exact first
  | snoc run last ih => exact keep ih last

/-- While `P` holds no bad label comes, and `P` ends only with a good one. -/
theorem first_good (P : σ → Prop) (good bad : ε → Prop) (h : Run step s log s') (first : P s)
    (keep : ∀ {a e b},P a → step a e b → ¬ bad e ∧ (good e ∨ P b)) :
    (P s' ∧ ∀ e∈log,¬ bad e) ∨
      ∃ pre e post,log = pre++e::post ∧ good e ∧ ¬ bad e ∧ ∀ x∈pre,¬ bad x := by
  induction h with
  | nil => exact .inl ⟨first,by simp⟩
  | @snoc s' s'' log e run last ih =>
    obtain ⟨hP,hlog⟩ | ⟨pre,g,post,rfl,hg⟩ := ih
    · obtain ⟨hbad,hgood | hP'⟩ := keep hP last
      · exact .inr ⟨log,e,[],rfl,hgood,hbad,hlog⟩
      · refine .inl ⟨hP',?_⟩
        intro x hx
        obtain hx | hx := List.mem_append.1 hx
        · exact hlog x hx
        · rwa [List.mem_singleton.1 hx]
    · exact .inr ⟨pre,g,post++[e],by simp,hg⟩

/-- Every bad label comes after a good one. -/
theorem good_before (P : σ → Prop) (good bad : ε → Prop) (h : Run step s log s') (first : P s)
    (keep : ∀ {a e b},P a → step a e b → ¬ bad e ∧ (good e ∨ P b)) {pre post : List ε} {x : ε}
    (hlog : log = pre++x::post) (hx : bad x) : ∃ g∈pre,good g := by
  obtain ⟨_,hnone⟩ | ⟨pre',g,post',heq,hg,hnot,hpre⟩ := h.first_good P good bad first keep
  · exact absurd hx (hnone x (by simp [hlog]))
  · rw [heq] at hlog
    obtain ⟨mid,hmid,hsplit⟩ | ⟨mid,hmid,hsplit⟩ := List.append_eq_append_iff.1 hlog
    · cases mid with
      | nil =>
        obtain ⟨rfl,-⟩ := List.cons.inj hsplit
        exact absurd hx hnot
      | cons y mid =>
        obtain ⟨rfl,-⟩ := List.cons.inj hsplit
        exact ⟨g,by simp [hmid],hg⟩
    · cases mid with
      | nil =>
        obtain ⟨rfl,-⟩ := List.cons.inj hsplit
        exact absurd hx hnot
      | cons y mid =>
        obtain ⟨rfl,-⟩ := List.cons.inj hsplit
        exact absurd hx (hpre x (by simp [hmid]))

end Run

/-! ## Recent labels -/

/-- A label of the first kind stands in the log with no label of the second kind after it. -/
def Since (a b : ε → Prop) (log : List ε) : Prop :=
  ∃ pre e post,log = pre++e::post ∧ a e ∧ ∀ x∈post,¬ b x

variable {a b : ε → Prop}

theorem since_last (h : a e) : Since a b (log++[e]) := ⟨log,e,[],rfl,h,by simp⟩

theorem Since.snoc (h : Since a b log) (he : ¬ b e) : Since a b (log++[e]) := by
  obtain ⟨pre,x,post,rfl,hx,hpost⟩ := h
  refine ⟨pre,x,post++[e],by simp,hx,?_⟩
  intro y hy
  obtain hy | hy := List.mem_append.1 hy
  · exact hpost y hy
  · rwa [List.mem_singleton.1 hy]

end Dataman.LabelledRuns

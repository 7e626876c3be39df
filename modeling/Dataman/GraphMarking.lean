import Mathlib.Data.List.Count
import Mathlib.Order.Nat

/-!
# Marking what is reachable in a finite graph

The marking sets a mark before it goes on to the successors, so a cycle ends it, and every mark
that is set leaves fewer to set. A node can be outside of the marks, or have no successors that
can be read.
-/

namespace Dataman.GraphMarking
open Relation

/-- Nodes with numbers below `n`, and their successors. -/
structure Graph (α : Type) (n : ℕ) where
  number : α → Option ℕ
  next : α → Option (List α)
  number_lt : ∀ a i,number a = some i → i < n
  number_inj : ∀ a b i,number a = some i → number b = some i → a = b

variable {α : Type} {n depth : ℕ} {g : Graph α n} {a b : α} {as bs roots : List α} {live live' live'' : List Bool}

namespace Graph

def mark (g : Graph α n) : ℕ → α → List Bool → Option (List Bool)
  | 0,_,_ => none
  | depth+1,a,live =>
    match g.number a with
    | none => none
    | some i =>
      if live.getD i false then some live
      else
        match g.next a with
        | none => none
        | some as => as.foldlM (fun live c => g.mark depth c live) (live.set i true)

def Edge (g : Graph α n) (a b : α) : Prop := ∃ as,g.next a = some as ∧ b∈as

/-- Reachable from one of the roots. -/
def Reach (g : Graph α n) (roots : List α) (b : α) : Prop := ∃ a∈roots,ReflTransGen g.Edge a b

def Good (g : Graph α n) (a : α) : Prop := g.number a≠none ∧ g.next a≠none

def Marked (g : Graph α n) (live : List Bool) (a : α) : Prop := ∃ i,g.number a = some i ∧ live.getD i false = true

theorem Reach.mono (h : g.Reach as b) (hsub : as ⊆ bs) : g.Reach bs b := by
  obtain ⟨a,ha,hpath⟩ := h
  exact ⟨a,hsub ha,hpath⟩

theorem Reach.head (hnext : g.next a = some as) (h : g.Reach as b) : g.Reach [a] b := by
  obtain ⟨c,hc,hpath⟩ := h
  exact ⟨a,List.mem_singleton_self a,hpath.head ⟨as,hnext,hc⟩⟩

/-- What the marking from some roots leaves: all old marks, the roots, and with each new mark those of all successors. -/
structure Marks (g : Graph α n) (roots : List α) (live live' : List Bool) : Prop where
  length : live'.length = n
  count_le : live'.count false ≤ live.count false
  keep : ∀ b,g.Marked live b → g.Marked live' b
  rooted : ∀ b∈roots,g.Marked live' b
  new : ∀ b,g.Marked live' b → g.Marked live b ∨ g.Reach roots b ∧ ∃ bs,g.next b = some bs ∧ ∀ c∈bs,g.Marked live' c

theorem Marks.refl (hlen : live.length = n) (hroots : ∀ b∈roots,g.Marked live b) : g.Marks roots live live :=
  ⟨hlen,le_rfl,fun _ h => h,hroots,fun _ h => .inl h⟩

theorem Marks.append (h : g.Marks as live live') (h' : g.Marks bs live' live'') : g.Marks (as++bs) live live'' := by
  refine ⟨h'.length,h'.count_le.trans h.count_le,fun b hb => h'.keep b (h.keep b hb),?_,?_⟩
  · intro b hb
    rcases List.mem_append.1 hb with hb | hb
    · exact h'.keep b (h.rooted b hb)
    · exact h'.rooted b hb
  · intro b hb
    rcases h'.new b hb with hb | ⟨hreach,hnext⟩
    · rcases h.new b hb with hb | ⟨hreach,cs,hnext,hcs⟩
      · exact .inl hb
      · exact .inr ⟨hreach.mono (List.subset_append_left _ _),cs,hnext,fun c hc => h'.keep c (hcs c hc)⟩
    · exact .inr ⟨hreach.mono (List.subset_append_right _ _),hnext⟩

/-- Either all is marked or something that is not good can be reached. -/
def Outcome (g : Graph α n) (roots : List α) (live : List Bool) : Option (List Bool) → Prop
  | some live' => g.Marks roots live live'
  | none => ∃ b,g.Reach roots b ∧ ¬ g.Good b

theorem Outcome.foldlM {m : α → List Bool → Option (List Bool)}
    (hm : ∀ a∈as,∀ live : List Bool,live.length = n → live.count false < depth → g.Outcome [a] live (m a live))
    (hlen : live.length = n) (hcount : live.count false < depth) :
    g.Outcome as live (as.foldlM (fun live a => m a live) live) := by
  induction as generalizing live with
  | nil => exact Marks.refl hlen (by simp)
  | cons a as ih =>
    have hone := hm a List.mem_cons_self live hlen hcount
    rw [List.foldlM_cons]
    cases hrun : m a live with
    | none =>
      rw [hrun] at hone
      obtain ⟨b,hb,hbad⟩ := hone
      exact ⟨b,hb.mono (by simp),hbad⟩
    | some live' =>
      rw [hrun] at hone
      have hrest := ih (fun c hc => hm c (List.mem_cons_of_mem _ hc)) hone.length (lt_of_le_of_lt hone.count_le hcount)
      change g.Outcome (a::as) live (as.foldlM (fun live a => m a live) live')
      cases hfold : as.foldlM (fun live a => m a live) live' with
      | none =>
        rw [hfold] at hrest
        obtain ⟨b,hb,hbad⟩ := hrest
        exact ⟨b,hb.mono (List.subset_cons_self _ _),hbad⟩
      | some live'' =>
        rw [hfold] at hrest
        exact Marks.append hone hrest

theorem marked_set {i : ℕ} (hnum : g.number a = some i) (hlen : live.length = n) :
    g.Marked (live.set i true) b ↔ b = a ∨ g.Marked live b := by
  have hi : i < live.length := hlen ▸ g.number_lt a i hnum
  constructor
  · rintro ⟨j,hj,hmark⟩
    by_cases hij : i = j
    · subst hij
      exact .inl (g.number_inj b a i hj hnum)
    · rw [List.getD_eq_getElem?_getD,List.getElem?_set_ne hij,← List.getD_eq_getElem?_getD] at hmark
      exact .inr ⟨j,hj,hmark⟩
  · rintro (rfl | ⟨j,hj,hmark⟩)
    · exact ⟨i,hnum,by simp [hi]⟩
    · refine ⟨j,hj,?_⟩
      by_cases hij : i = j
      · subst hij
        simp [hi]
      · rwa [List.getD_eq_getElem?_getD,List.getElem?_set_ne hij,← List.getD_eq_getElem?_getD]

/-- A mark that is set leaves one less. -/
theorem count_set {i : ℕ} (hi : i < live.length) (hnot : live.getD i false = false) :
    (live.set i true).count false+1 = live.count false := by
  rw [List.getD_eq_getElem?_getD,List.getElem?_eq_getElem hi,Option.getD_some] at hnot
  have hpos : 0 < live.count false := List.count_pos_iff.2 (hnot ▸ List.getElem_mem hi)
  rw [List.count_set hi,hnot]
  simp
  omega

theorem mark_outcome (hlen : live.length = n) (hcount : live.count false < depth) : g.Outcome [a] live (g.mark depth a live) := by
  induction depth generalizing a live with
  | zero => exact absurd hcount (Nat.not_lt_zero _)
  | succ depth ih =>
    have hself : g.Reach [a] a := ⟨a,List.mem_singleton_self a,.refl⟩
    rw [mark]
    cases hnum : g.number a with
    | none => exact ⟨a,hself,fun hgood => hgood.1 hnum⟩
    | some i =>
      have hi : i < live.length := hlen ▸ g.number_lt a i hnum
      dsimp only
      split
      · rename_i hmark
        apply Marks.refl hlen
        intro b hb
        rw [List.mem_singleton.1 hb]
        exact ⟨i,hnum,hmark⟩
      · rename_i hmark
        have hset := count_set hi (Bool.not_eq_true _ ▸ hmark)
        cases hnext : g.next a with
        | none => exact ⟨a,hself,fun hgood => hgood.2 hnext⟩
        | some as =>
          -- the node is marked, so its successors have one mark less to set
          have hrest : g.Outcome as _ (as.foldlM (fun live c => g.mark depth c live) (live.set i true)) :=
            Outcome.foldlM (fun c _ live hl hc => @ih c live hl hc) (by rw [List.length_set,hlen]) (by omega)
          dsimp only
          cases hfold : as.foldlM (fun live c => g.mark depth c live) (live.set i true) with
          | none =>
            rw [hfold] at hrest
            obtain ⟨b,hb,hbad⟩ := hrest
            exact ⟨b,hb.head hnext,hbad⟩
          | some live' =>
            rw [hfold] at hrest
            have hmarks : g.Marks as (live.set i true) live' := hrest
            have ha : g.Marked live' a := hmarks.keep a ((marked_set hnum hlen).2 (.inl rfl))
            refine ⟨hmarks.length,hmarks.count_le.trans (hset ▸ Nat.le_succ _),?_,?_,?_⟩
            · intro b hb
              exact hmarks.keep b ((marked_set hnum hlen).2 (.inr hb))
            · intro b hb
              rwa [List.mem_singleton.1 hb]
            · intro b hb
              rcases hmarks.new b hb with hb | ⟨hreach,hbs⟩
              · rcases (marked_set hnum hlen).1 hb with rfl | hb
                · exact .inr ⟨hself,as,hnext,hmarks.rooted⟩
                · exact .inl hb
              · exact .inr ⟨hreach.head hnext,hbs⟩

/-- What the marks from no marks on say. -/
structure Exact (g : Graph α n) (roots : List α) (live : List Bool) : Prop where
  marked_iff : ∀ b,g.Marked live b ↔ g.Reach roots b
  good : ∀ b,g.Reach roots b → g.Good b

theorem not_marked_replicate : ¬ g.Marked (List.replicate n false) b := by
  rintro ⟨i,-,hmark⟩
  rw [List.getD_eq_getElem?_getD,List.getElem?_replicate] at hmark
  split at hmark <;> cases hmark

theorem Marks.exact (h : g.Marks roots (List.replicate n false) live) : g.Exact roots live := by
  have hclosed : ∀ b,g.Reach roots b → g.Marked live b := by
    rintro b ⟨a,ha,hpath⟩
    induction hpath with
    | refl => exact h.rooted a ha
    | tail _ hedge ih =>
      obtain ⟨bs,hbs,hmem⟩ := hedge
      obtain ⟨-,cs,hcs,hmarked⟩ := (h.new _ ih).resolve_left not_marked_replicate
      rw [hbs] at hcs
      obtain rfl := Option.some.inj hcs
      exact hmarked _ hmem
  refine ⟨fun b => ⟨fun hb => ((h.new b hb).resolve_left not_marked_replicate).1,hclosed b⟩,?_⟩
  intro b hb
  obtain ⟨-,bs,hbs,-⟩ := (h.new b (hclosed b hb)).resolve_left not_marked_replicate
  obtain ⟨i,hi,-⟩ := hclosed b hb
  exact ⟨by simp [hi],by simp [hbs]⟩

/-- With a depth above the number of nodes the marking from all roots ends with the reachable nodes marked, or at one that is not
good. -/
theorem markRoots (g : Graph α n) (roots : List α) (hdepth : n < depth) :
    (∃ live,roots.foldlM (fun live a => g.mark depth a live) (List.replicate n false) = some live ∧ g.Exact roots live) ∨
      roots.foldlM (fun live a => g.mark depth a live) (List.replicate n false) = none ∧ ∃ b,g.Reach roots b ∧ ¬ g.Good b := by
  have hout : g.Outcome roots _ (roots.foldlM (fun live a => g.mark depth a live) (List.replicate n false)) :=
    Outcome.foldlM (fun a _ live hl hc => @mark_outcome α n depth g a live hl hc) (by simp) (by simpa using hdepth)
  cases hrun : roots.foldlM (fun live a => g.mark depth a live) (List.replicate n false) with
  | none =>
    rw [hrun] at hout
    exact .inr ⟨rfl,hout⟩
  | some live =>
    rw [hrun] at hout
    exact .inl ⟨live,rfl,Marks.exact hout⟩

end Graph

end Dataman.GraphMarking

import Mathlib.Data.List.Nodup

/-!
# Doubly linked chains

Elements with a backward and a forward field. A list of elements is a segment when the
fields link it in its order; the rules say which fields to change to insert or erase.
-/

namespace Dataman.LinkedChain

variable {α : Type} {prev next prev' next' : α → α} {p q : α} {xs A B : List α}

/-- The list is linked in its order, with `p` before its first element and `q` after its last. -/
inductive Segment (prev next : α → α) (q : α) : α → List α → Prop
  | nil {p : α} : Segment prev next q p []
  | cons {p x : α} {xs : List α} (back : prev x = p) (forth : next x = xs.headD q)
      (rest : Segment prev next q x xs) : Segment prev next q p (x::xs)

theorem headD_append (A B : List α) (q : α) : (A++B).headD q = A.headD (B.headD q) := by
  cases A with
  | nil => rfl
  | cons x A => rfl

theorem segment_append :
    Segment prev next q p (A++B) ↔ Segment prev next (B.headD q) p A ∧ Segment prev next q (A.getLastD p) B := by
  induction A generalizing p with
  | nil =>
    constructor
    · intro h
      exact ⟨.nil,h⟩
    · intro h
      exact h.2
  | cons x A ih =>
    rw [List.getLastD_cons]
    constructor
    · intro h
      cases h with
      | cons back forth rest =>
        obtain ⟨hA,hB⟩ := ih.1 rest
        exact ⟨.cons back (forth.trans (headD_append A B q)) hA,hB⟩
    · intro h
      cases h.1 with
      | cons back forth rest => exact .cons back (forth.trans (headD_append A B q).symm) (ih.2 ⟨rest,h.2⟩)

theorem Segment.congr (h : Segment prev next q p xs) (hprev : ∀ x∈xs,prev' x = prev x)
    (hnext : ∀ x∈xs,next' x = next x) : Segment prev' next' q p xs := by
  induction h with
  | nil => exact .nil
  | @cons p x xs back forth rest ih =>
    have hx : x∈x::xs := List.mem_cons_self
    apply Segment.cons
    · rw [hprev x hx,back]
    · rw [hnext x hx,forth]
    · exact ih (fun y hy => hprev y (List.mem_cons_of_mem x hy)) fun y hy => hnext y (List.mem_cons_of_mem x hy)

variable [DecidableEq α]

/-- Only the first element looks at what stands before the segment. -/
theorem Segment.set_front {p' : α} (h : Segment prev next q p xs) (hnd : xs.Nodup)
    (hprev : ∀ x∈xs,prev' x = if xs.head? = some x then p' else prev x) (hnext : ∀ x∈xs,next' x = next x) :
    Segment prev' next' q p' xs := by
  cases h with
  | nil => exact .nil
  | @cons _ x xs back forth rest =>
    have hx : x∈x::xs := List.mem_cons_self
    have hnot := (List.nodup_cons.1 hnd).1
    apply Segment.cons
    · rw [hprev x hx,if_pos List.head?_cons]
    · rw [hnext x hx,forth]
    · refine rest.congr (fun y hy => ?_) fun y hy => hnext y (List.mem_cons_of_mem x hy)
      have hne : ¬ (x::xs).head? = some y := by
        rintro ⟨⟩
        exact hnot hy
      rw [hprev y (List.mem_cons_of_mem x hy),if_neg hne]

/-- Only the last element looks at what stands behind the segment. -/
theorem Segment.set_back {q' : α} (h : Segment prev next q p xs) (hnd : xs.Nodup) (hprev : ∀ x∈xs,prev' x = prev x)
    (hnext : ∀ x∈xs,next' x = if xs.getLast? = some x then q' else next x) : Segment prev' next' q' p xs := by
  induction h with
  | nil => exact .nil
  | @cons p x xs back forth rest ih =>
    have hx : x∈x::xs := List.mem_cons_self
    obtain ⟨hnot,hnd⟩ := List.nodup_cons.1 hnd
    apply Segment.cons
    · rw [hprev x hx,back]
    · cases xs with
      | nil => rw [hnext x hx,if_pos List.getLast?_singleton,List.headD_nil]
      | cons y ys =>
        have hne : ¬ (x::y::ys).getLast? = some x := by
          rw [List.getLast?_cons_cons]
          exact fun hl => hnot (List.mem_of_getLast? hl)
        rw [hnext x hx,if_neg hne,forth]
        rfl
    · apply ih hnd (fun y hy => hprev y (List.mem_cons_of_mem x hy))
      intro y hy
      obtain ⟨z,zs,rfl⟩ := List.exists_cons_of_ne_nil (List.ne_nil_of_mem hy)
      rw [hnext y (List.mem_cons_of_mem x hy),List.getLast?_cons_cons]

section Splice
variable (hnd : (A++B).Nodup)
include hnd

omit [DecidableEq α] in
theorem head?_ne_of_mem {x : α} (hx : x∈A) : ¬ B.head? = some x :=
  fun h => List.disjoint_of_nodup_append hnd hx (List.mem_of_head? h)

omit [DecidableEq α] in
theorem getLast?_ne_of_mem {x : α} (hx : x∈B) : ¬ A.getLast? = some x :=
  fun h => List.disjoint_of_nodup_append hnd (List.mem_of_getLast? h) hx

/-- Two segments joined anew: the fields that face the joint are changed, all others kept. -/
theorem Segment.rejoin {l r l' r' : α} (hA : Segment prev next r p A) (hB : Segment prev next q l B)
    (hnext : ∀ x∈A++B,next' x = if A.getLast? = some x then r' else next x)
    (hprev : ∀ x∈A++B,prev' x = if B.head? = some x then l' else prev x) :
    Segment prev' next' r' p A ∧ Segment prev' next' q l' B := by
  constructor
  · apply hA.set_back hnd.of_append_left
    · intro x hx
      rw [hprev x (List.mem_append_left B hx),if_neg (head?_ne_of_mem hnd hx)]
    · intro x hx
      exact hnext x (List.mem_append_left B hx)
  · apply hB.set_front hnd.of_append_right
    · intro x hx
      exact hprev x (List.mem_append_right A hx)
    · intro x hx
      rw [hnext x (List.mem_append_right A hx),if_neg (getLast?_ne_of_mem hnd hx)]

/-- Inserting between two neighbours. -/
theorem Segment.insert {x : α} (h : Segment prev next q p (A++B))
    (hnext : ∀ y∈A++B,next' y = if A.getLast? = some y then x else next y)
    (hprev : ∀ y∈A++B,prev' y = if B.head? = some y then x else prev y)
    (hback : prev' x = A.getLastD p) (hforth : next' x = B.headD q) : Segment prev' next' q p (A++x::B) := by
  obtain ⟨hA,hB⟩ := segment_append.1 h
  obtain ⟨hA',hB'⟩ := hA.rejoin hnd hB hnext hprev
  exact segment_append.2 ⟨hA',.cons hback hforth hB'⟩

/-- Erasing between two neighbours. -/
theorem Segment.erase {x : α} (h : Segment prev next q p (A++x::B))
    (hnext : ∀ y∈A++B,next' y = if A.getLast? = some y then B.headD q else next y)
    (hprev : ∀ y∈A++B,prev' y = if B.head? = some y then A.getLastD p else prev y) :
    Segment prev' next' q p (A++B) := by
  obtain ⟨hA,hB⟩ := segment_append.1 h
  cases hB with
  | cons _ _ rest => exact segment_append.2 (hA.rejoin hnd rest hnext hprev)

end Splice

/-! ## Traversal -/

/-- The elements met from `x` on until `stop`, if it is met soon enough. -/
def follow (next : α → α) (stop : α) : ℕ → α → Option (List α)
  | 0,_ => none
  | n+1,x => if x = stop then some [] else (follow next stop n (next x)).map (x :: ·)

theorem Segment.follow_eq (h : Segment prev next q p xs) (hq : q∉xs) {n : ℕ} (hn : xs.length < n) :
    follow next q n (xs.headD q) = some xs := by
  induction h generalizing n with
  | nil =>
    obtain ⟨m,rfl⟩ := Nat.exists_eq_succ_of_ne_zero (Nat.ne_of_gt hn)
    exact if_pos rfl
  | @cons p x xs back forth rest ih =>
    obtain ⟨m,rfl⟩ := Nat.exists_eq_succ_of_ne_zero (Nat.ne_of_gt (Nat.zero_lt_of_lt hn))
    have hx : x≠q := fun h => hq (h ▸ List.mem_cons_self)
    have hrest := ih (fun hm => hq (List.mem_cons_of_mem x hm)) (Nat.lt_of_succ_lt_succ hn)
    rw [List.headD_cons,follow,if_neg hx,forth,hrest,Option.map_some]

end Dataman.LinkedChain

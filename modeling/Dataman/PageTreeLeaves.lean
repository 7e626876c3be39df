import Dataman.PageTree

/-!
# The leaves of a stored tree

A leaf below a page is reached by following children. The entries of each leaf stand
together in the list of all entries, so the neighbours of an entry are next to it in
its leaf, or at the edges of the entries before and behind the leaf.
-/

namespace Dataman.PageTree

variable {α : Type}

/-- From page `p` children lead to the leaf `o`, which holds `es`. -/
inductive LeafBelow (ld : ℕ → Option (Node α)) : ℕ → ℕ → List α → Prop
  | here {o : ℕ} {es : List α} (load : ld o = some ⟨true,es,[]⟩) : LeafBelow ld o o es
  | inner {p c o : ℕ} {keys es : List α} {children : List ℕ} (load : ld p = some ⟨false,keys,children⟩)
      (child : c∈children) (leaf : LeafBelow ld c o es) : LeafBelow ld p o es

theorem LeafBelow.load {ld : ℕ → Option (Node α)} {p o : ℕ} {es : List α} (h : LeafBelow ld p o es) :
    ld o = some ⟨true,es,[]⟩ := by
  induction h with
  | here load => exact load
  | inner _ _ _ ih => exact ih

section Trees

variable [Inhabited α] {ld ld' : ℕ → Option (Node α)} {lo hi h o : ℕ} {t : Summary α} {es : List α}

/-- A leaf below a page of a tree depends on the pages of the tree only. -/
theorem LeafBelow.frame {p : ℕ} (hb : LeafBelow ld p o es) (ht : Subtree ld lo hi h t) (hp : p∈t.pages)
    (hld : ∀ p∈t.pages,∀ n,ld p = some n → ld' p = some n) : LeafBelow ld' p o es := by
  induction hb with
  | here load => exact .here (hld _ hp _ load)
  | inner load child _ ih => exact .inner (hld _ hp _ load) child (ih (ht.child_mem_pages hp load child))

theorem Subtree.leaf_load (ht : Subtree ld lo hi 0 t) : ld t.off = some ⟨true,t.entries,[]⟩ := by
  cases ht with
  | leaf load => exact load

/-- The entries of a leaf stand together in those of the tree. -/
theorem Subtree.leaf_between (ht : Subtree ld lo hi h t) (hb : LeafBelow ld t.off o es) :
    ∃ A B,t.entries = A++es++B := by
  induction ht with
  | @leaf off es' load =>
    cases hb with
    | here load' =>
      obtain rfl : es' = es := by simpa using load.symm.trans load'
      exact ⟨[],[],by simp [Summary.leaf]⟩
    | inner load' => exact absurd (load.symm.trans load') (by simp)
  | @node h off kids ne below occ load ih =>
    cases hb with
    | here load' => exact absurd (load.symm.trans load') (by simp)
    | @inner _ c _ keys _ children load' child leaf =>
      obtain rfl : kids.map Summary.off = children := by
        have heq := load.symm.trans load'
        simp only [Option.some.injEq,Node.mk.injEq] at heq
        exact heq.2.2
      obtain ⟨k,hk,rfl⟩ := List.mem_map.1 child
      obtain ⟨A,B,hAB⟩ := ih k hk leaf
      obtain ⟨pre,post,rfl⟩ := List.append_of_mem hk
      refine ⟨pre.flatMap Summary.entries++A,B++post.flatMap Summary.entries,?_⟩
      simp [Summary.node,hAB]

end Trees

/-! ## Edges and neighbours -/

/-- The last or the first entry. -/
def edge (last : Bool) (l : List α) : Option α := if last then l.getLast? else l.head?

/-- The entry next to position `i`. -/
def neighbour (forward : Bool) (l : List α) (i : ℕ) : Option α :=
  if forward then l[i+1]? else if i = 0 then none else l[i - 1]?

@[simp] theorem edge_eq_none {last : Bool} {l : List α} : edge last l = none ↔ l = [] := by
  cases last <;> simp [edge]

theorem edge_eq_getElem? (last : Bool) (l : List α) : edge last l = l[if last then l.length - 1 else 0]? := by
  cases last with
  | false => simp [edge,List.head?_eq_getElem?]
  | true => simp [edge,List.getLast?_eq_getElem?]

theorem edge_append (last : Bool) (l r : List α) (h : (if last then r else l)≠[]) :
    edge last (l++r) = edge last (if last then r else l) := by
  cases last with
  | false =>
    obtain ⟨a,as,rfl⟩ := List.exists_cons_of_ne_nil h
    simp [edge]
  | true =>
    obtain ⟨as,a,rfl⟩ := List.eq_nil_or_concat r |>.resolve_left h
    simp [edge]

/-- Next to an entry of the middle part is another of it, or the edge of an outer part. -/
theorem neighbour_between {forward : Bool} {A es B : List α} {i : ℕ} (hi : i < es.length) :
    neighbour forward (A++es++B) (A.length+i) =
      (neighbour forward es i).or (edge (!forward) (if forward then B else A)) := by
  cases forward with
  | true =>
    simp only [neighbour,if_true,edge,Bool.not_true,Bool.false_eq_true,if_false]
    by_cases hlast : i+1 < es.length
    · rw [List.append_assoc,List.getElem?_append_right (by omega),List.getElem?_append_left (by omega)]
      rw [show A.length+i+1 - A.length = i+1 by omega,List.getElem?_eq_getElem hlast,Option.some_or]
    · rw [List.getElem?_append_right (by simp; omega),List.getElem?_eq_none (l := es) (by omega),Option.none_or,
        List.head?_eq_getElem?]
      congr 1
      simp only [List.length_append]
      omega
  | false =>
    simp only [neighbour,Bool.false_eq_true,if_false,edge,Bool.not_false,if_true]
    by_cases hz : i = 0
    · subst hz
      rw [if_pos rfl,Option.none_or,Nat.add_zero]
      by_cases hA : A = []
      · simp [hA]
      · have hpos := List.length_pos_iff.2 hA
        rw [if_neg (by omega),List.append_assoc,List.getElem?_append_left (by omega),List.getLast?_eq_getElem?]
    · rw [if_neg (by omega),if_neg hz,List.append_assoc,List.getElem?_append_right (by omega),
        List.getElem?_append_left (by omega)]
      rw [show A.length+i - 1 - A.length = i - 1 by omega,List.getElem?_eq_getElem (by omega),Option.some_or]

theorem mem_of_neighbour {forward : Bool} {l : List α} {i : ℕ} {x : α} (h : neighbour forward l i = some x) : x∈l := by
  cases forward with
  | true => exact List.mem_of_getElem? h
  | false =>
    simp only [neighbour,Bool.false_eq_true,if_false] at h
    split at h
    · cases h
    · exact List.mem_of_getElem? h

/-- Repeating a step until it fails passes the values of the list. -/
inductive Visits (step : α → Option α) : Option α → List α → Prop
  | fail : Visits step none []
  | pass {x : α} {xs : List α} (rest : Visits step (step x) xs) : Visits step (some x) (x::xs)

/-- The list in the direction of the steps. -/
def ordered (forward : Bool) (l : List α) : List α := if forward then l else l.reverse

theorem edge_eq_ordered (forward : Bool) (l : List α) : edge (!forward) l = (ordered forward l)[0]? := by
  cases forward with
  | true => simp [edge,ordered,List.head?_eq_getElem?]
  | false =>
    rw [← List.head?_eq_getElem?]
    simp [edge,ordered]

theorem neighbour_ordered {forward : Bool} {l : List α} {i : ℕ} {x : α} (hi : (ordered forward l)[i]? = some x) :
    ∃ j,l[j]? = some x ∧ neighbour forward l j = (ordered forward l)[i+1]? := by
  cases forward with
  | true => exact ⟨i,hi,rfl⟩
  | false =>
    simp only [ordered,Bool.false_eq_true,if_false] at hi ⊢
    obtain ⟨hlt,_⟩ := List.getElem?_eq_some_iff.1 hi
    rw [List.length_reverse] at hlt
    rw [List.getElem?_reverse hlt] at hi
    refine ⟨l.length - 1 - i,hi,?_⟩
    by_cases hlast : i+1 < l.length
    · rw [List.getElem?_reverse hlast]
      simp only [neighbour,Bool.false_eq_true,if_false]
      rw [if_neg (by omega),show l.length - 1 - (i+1) = l.length - 1 - i - 1 by omega]
    · rw [List.getElem?_eq_none (by simp; omega)]
      simp only [neighbour,Bool.false_eq_true,if_false]
      rw [if_pos (by omega)]

end Dataman.PageTree

import Mathlib.Algebra.Order.BigOperators.Group.List
import Mathlib.Algebra.Order.Group.Nat
import Mathlib.Data.List.Perm.Subperm
import Mathlib.Data.List.Sort

/-!
# Search trees whose nodes live in pages

A loader maps a page offset to the node stored there. `Subtree` says that a page is
the root of a tree of uniform height whose nodes below the root hold between `lo` and
`hi` keys, and whose separators are the first entries of the children to their right.
The tree itself is remembered only as a summary: the order of its entries is a
property of one list.
-/

namespace Dataman.PageTree

/-- A node in memory. Its key count is the number of entries. -/
structure Node (α : Type) where
  leaf : Bool
  entries : List α
  children : List ℕ
  deriving DecidableEq,Repr

/-- A subtree as seen from above: where it is, how many keys its root holds, the
entries of its leaves from left to right, and the pages it occupies. -/
structure Summary (α : Type) where
  off : ℕ
  count : ℕ
  entries : List α
  pages : List ℕ

variable {α : Type}

namespace Summary

def leaf (off : ℕ) (es : List α) : Summary α := ⟨off,es.length,es,[off]⟩

def node (off : ℕ) (kids : List (Summary α)) : Summary α :=
  ⟨off,kids.length - 1,kids.flatMap entries,off::kids.flatMap pages⟩

def first [Inhabited α] (t : Summary α) : α := t.entries.headI

end Summary

theorem length_flatMap_ge {n : ℕ} {kids : List (Summary α)} (hn : ∀ k∈kids,n ≤ k.entries.length) :
    kids.length*n ≤ (kids.flatMap Summary.entries).length := by
  rw [List.length_flatMap,← List.length_map fun k => k.entries.length]
  exact List.card_nsmul_le_sum _ n (by simpa using hn)

variable [Inhabited α]

/-- The separators over a list of children. -/
def seps (kids : List (Summary α)) : List α := kids.tail.map Summary.first

inductive Subtree (ld : ℕ → Option (Node α)) (lo hi : ℕ) : ℕ → Summary α → Prop
  | leaf {off : ℕ} {es : List α} (load : ld off = some ⟨true,es,[]⟩) :
      Subtree ld lo hi 0 (.leaf off es)
  | node {h off : ℕ} {kids : List (Summary α)} (ne : kids≠[])
      (below : ∀ k∈kids,Subtree ld lo hi h k) (occ : ∀ k∈kids,lo ≤ k.count ∧ k.count ≤ hi)
      (load : ld off = some ⟨false,seps kids,kids.map Summary.off⟩) :
      Subtree ld lo hi (h+1) (.node off kids)

variable {ld ld' : ℕ → Option (Node α)} {lo hi h : ℕ} {t : Summary α}

namespace Subtree

theorem off_mem_pages (ht : Subtree ld lo hi h t) : t.off∈t.pages := by
  cases ht with
  | leaf _ => exact List.mem_singleton_self _
  | node _ _ _ _ => exact List.mem_cons_self

/-- The pages of a tree are closed under following children. -/
theorem child_mem_pages (ht : Subtree ld lo hi h t) {p c : ℕ} {n : Node α} (hp : p∈t.pages) (hn : ld p = some n)
    (hc : c∈n.children) : c∈t.pages := by
  induction ht with
  | leaf load =>
    obtain rfl := List.mem_singleton.1 hp
    cases hn.symm.trans load
    cases hc
  | node _ below _ load ih =>
    rcases List.mem_cons.1 hp with rfl | hp
    · cases hn.symm.trans load
      obtain ⟨k,hk,rfl⟩ := List.mem_map.1 hc
      exact List.mem_cons_of_mem _ (List.mem_flatMap.2 ⟨k,hk,(below k hk).off_mem_pages⟩)
    · obtain ⟨k,hk,hpk⟩ := List.mem_flatMap.1 hp
      exact List.mem_cons_of_mem _ (List.mem_flatMap.2 ⟨k,hk,ih k hk hpk⟩)

/-- Only the loads of its own pages matter to a subtree. -/
theorem frame (ht : Subtree ld lo hi h t) (hld : ∀ p∈t.pages,∀ n,ld p = some n → ld' p = some n) :
    Subtree ld' lo hi h t := by
  induction ht with
  | leaf load => exact .leaf (hld _ (List.mem_singleton_self _) _ load)
  | @node h off kids ne below occ load ih =>
    refine .node ne (fun k hk => ih k hk fun p hp => hld p ?_) occ (hld _ List.mem_cons_self _ load)
    exact List.mem_cons_of_mem _ (List.mem_flatMap.2 ⟨k,hk,hp⟩)

theorem entries_ne_nil (hlo : 1 ≤ lo) (ht : Subtree ld lo hi h t) (hc : 1 ≤ t.count) : t.entries≠[] := by
  induction ht with
  | @leaf off es load =>
    intro h0
    simp only [Summary.leaf] at h0 hc
    simp [h0] at hc
  | @node h off kids ne below occ load ih =>
    obtain ⟨k,ks,rfl⟩ := List.exists_cons_of_ne_nil ne
    have hk := ih k List.mem_cons_self (le_trans hlo (occ k List.mem_cons_self).1)
    simp [Summary.node,hk]

/-- The height of a page is determined by the loader. -/
theorem height_unique {h' : ℕ} {t' : Summary α} (ht : Subtree ld lo hi h t) (ht' : Subtree ld lo hi h' t')
    (ho : t.off = t'.off) : h = h' := by
  induction ht generalizing h' t' with
  | @leaf off es load =>
    cases ht' with
    | leaf _ => rfl
    | @node h' off' kids' _ _ _ load' =>
      have ho' : off = off' := ho
      simp [ho',load'] at load
  | @node h off kids ne below occ load ih =>
    cases ht' with
    | @leaf off' es' load' =>
      have ho' : off = off' := ho
      simp [ho',load'] at load
    | @node h' off' kids' ne' below' occ' load' =>
      obtain ⟨k,ks,rfl⟩ := List.exists_cons_of_ne_nil ne
      obtain ⟨k',ks',rfl⟩ := List.exists_cons_of_ne_nil ne'
      have ho' : off = off' := ho
      rw [ho',load'] at load
      have hk : k.off = k'.off := by simp at load; exact load.2.1.symm
      rw [ih k List.mem_cons_self (below' k' List.mem_cons_self) hk]

/-- The leftmost path: one page for each level, all different. -/
theorem exists_path (ht : Subtree ld lo hi h t) :
    ∃ path : List ℕ,path.Nodup ∧ path.length = h+1 ∧ (∀ p∈path,p∈t.pages) ∧
      ∀ p∈path,∃ h' ≤ h,∃ t',Subtree ld lo hi h' t' ∧ t'.off = p := by
  induction ht with
  | @leaf off es load =>
    refine ⟨[off],by simp,rfl,fun p hp => hp,?_⟩
    intro p hp
    exact ⟨0,le_rfl,_,.leaf load,(List.mem_singleton.1 hp).symm⟩
  | @node h off kids ne below occ load ih =>
    obtain ⟨k,ks,rfl⟩ := List.exists_cons_of_ne_nil ne
    obtain ⟨path,hnd,hlen,hsub,hlow⟩ := ih k List.mem_cons_self
    have hself : Subtree ld lo hi (h+1) (.node off (k::ks)) := .node ne below occ load
    refine ⟨off::path,List.nodup_cons.2 ⟨?_,hnd⟩,by simp [hlen],?_,?_⟩
    · -- a page of the path below has a smaller height than this one
      intro hmem
      obtain ⟨h',hle,t',ht',ho⟩ := hlow off hmem
      have := ht'.height_unique hself ho
      omega
    · intro p hp
      rcases List.mem_cons.1 hp with rfl | hp
      · exact List.mem_cons_self
      · exact List.mem_cons_of_mem _ (List.mem_flatMap.2 ⟨k,List.mem_cons_self,hsub p hp⟩)
    · intro p hp
      rcases List.mem_cons.1 hp with rfl | hp
      · exact ⟨h+1,le_rfl,_,hself,rfl⟩
      · obtain ⟨h',hle,hrest⟩ := hlow p hp
        exact ⟨h',by omega,hrest⟩

/-- A tree is less high than any bound on the number of its different pages. -/
theorem height_lt {n : ℕ} (ht : Subtree ld lo hi h t) (num : ℕ → ℕ)
    (hinj : ∀ p∈t.pages,∀ q∈t.pages,num p = num q → p = q) (hlt : ∀ p∈t.pages,num p < n) :
    h < n := by
  obtain ⟨path,hnd,hlen,hsub,-⟩ := ht.exists_path
  have hmap : (path.map num).Nodup :=
    List.Nodup.map_on (fun p hp q hq => hinj p (hsub p hp) q (hsub q hq)) hnd
  have hrange : path.map num ⊆ List.range n := by
    intro m hm
    obtain ⟨p,hp,rfl⟩ := List.mem_map.1 hm
    exact List.mem_range.2 (hlt p (hsub p hp))
  have := (List.subperm_of_subset hmap hrange).length_le
  simp only [List.length_map,List.length_range,hlen] at this
  omega

/-- The entries of a tree grow with the power of its height. -/
theorem length_ge (ht : Subtree ld lo hi h t) (hc : lo ≤ t.count) : lo*(lo+1) ^ h ≤ t.entries.length := by
  induction ht with
  | leaf load => simpa [Summary.leaf] using hc
  | @node h off kids ne below occ load ih =>
    have hlen : lo+1 ≤ kids.length := by
      have := List.length_pos_of_ne_nil ne
      simp only [Summary.node] at hc
      omega
    calc lo*(lo+1) ^ (h+1) = (lo+1)*(lo*(lo+1) ^ h) := by rw [Nat.pow_succ,← Nat.mul_assoc,Nat.mul_comm]
      _ ≤ kids.length*(lo*(lo+1) ^ h) := Nat.mul_le_mul_right _ hlen
      _ ≤ (Summary.node off kids).entries.length := length_flatMap_ge fun k hk => ih k hk (occ k hk).1

end Subtree

/-! ## Separators -/

theorem seps_cons (k : Summary α) (ks : List (Summary α)) : seps (k::ks) = ks.map Summary.first := rfl

theorem length_seps (ks : List (Summary α)) : (seps ks).length = ks.length - 1 := by
  simp [seps]

theorem seps_take (ks : List (Summary α)) (n : ℕ) : seps (ks.take (n+1)) = (seps ks).take n := by
  cases ks with
  | nil => simp [seps]
  | cons k ks => simp [seps,List.map_take]

theorem seps_drop (ks : List (Summary α)) (n : ℕ) : seps (ks.drop n) = (seps ks).drop n := by
  rw [seps,seps,List.tail_drop,← List.map_drop,List.drop_tail]

theorem seps_getD (ks : List (Summary α)) (n : ℕ) (k : Summary α) (d : α) (hk : ks[n+1]? = some k) :
    (seps ks).getD n d = k.first := by
  cases ks with
  | nil => simp at hk
  | cons k' ks =>
    rw [List.getElem?_cons_succ] at hk
    simp [seps,List.getD_eq_getElem?_getD,hk]

/-- Replacing one child by others moves no other separator. -/
theorem seps_replace (A B : List (Summary α)) (k s : Summary α) (ss : List (Summary α))
    (hfirst : A≠[] → s.first = k.first) :
    seps (A++(s::ss)++B) =
      (seps (A++k::B)).take A.length++seps (s::ss)++(seps (A++k::B)).drop A.length := by
  cases A with
  | nil => simp [seps]
  | cons a A =>
    have hs := hfirst (List.cons_ne_nil a A)
    have hlen : (A.map Summary.first).length ≤ A.length+1 := by simp
    simp [seps,List.take_append,List.drop_append,hs,List.take_of_length_le hlen,
      List.drop_eq_nil_of_le hlen]

/-! ## Routing -/

section Routing
variable {α : Type} [LinearOrder α] [Inhabited α]

theorem first_le_of_mem {es : List α} (hs : es.Pairwise (· < ·)) {x : α} (hx : x∈es) : es.headI ≤ x := by
  cases es with
  | nil => simp at hx
  | cons a es =>
    rcases List.mem_cons.1 hx with rfl | hx
    · exact le_rfl
    · exact le_of_lt ((List.pairwise_cons.1 hs).1 x hx)

omit [LinearOrder α] in
theorem first_mem {t : Summary α} (hne : t.entries≠[]) : t.first∈t.entries := by
  obtain ⟨a,es,he⟩ := List.exists_cons_of_ne_nil hne
  simp [Summary.first,he]

/-- Descending by the separators: everything left of the chosen child is below the
target and everything right of it is above. -/
theorem route (kids : List (Summary α)) (e : α) (hne : kids≠[]) (hk : ∀ k∈kids,k.entries≠[])
    (hs : (kids.flatMap Summary.entries).Pairwise (· < ·)) :
    ∃ A k B,kids = A++k::B ∧ A.length = (seps kids).findIdx (fun s => e < s) ∧
      (∀ x∈A.flatMap Summary.entries,x < e) ∧ (∀ x∈B.flatMap Summary.entries,e < x) ∧
      (A≠[] → k.first ≤ e) := by
  induction kids with
  | nil => exact absurd rfl hne
  | cons k ks ih =>
    cases ks with
    | nil => exact ⟨[],k,[],by simp,by simp [seps],by simp,by simp,by simp⟩
    | cons k1 ks =>
      simp only [List.flatMap_cons] at hs ih
      obtain ⟨hs0,hs1,hcross⟩ := List.pairwise_append.1 hs
      have hk1 : k1.entries≠[] := hk k1 (by simp)
      by_cases hlt : e < k1.first
      · refine ⟨[],k,k1::ks,rfl,by simp [seps,List.findIdx_cons,hlt],by simp,?_,by simp⟩
        intro x hx
        have hhead : (k1.entries++ks.flatMap Summary.entries).headI = k1.first := by
          obtain ⟨a,es,he⟩ := List.exists_cons_of_ne_nil hk1
          simp [Summary.first,he]
        exact lt_of_lt_of_le hlt (hhead ▸ first_le_of_mem hs1 hx)
      · obtain ⟨A,c,B,heq,hlen,hA,hB,hfirst⟩ :=
          ih (by simp) (fun c hc => hk c (List.mem_cons_of_mem _ hc)) hs1
        refine ⟨k::A,c,B,by rw [heq]; rfl,?_,?_,hB,?_⟩
        · simp only [List.length_cons,hlen,seps_cons,List.map_cons,List.findIdx_cons,hlt,
            decide_false,cond_false]
        · intro x hx
          rcases List.mem_append.1 (List.flatMap_cons ▸ hx) with hx | hx
          · have := hcross x hx k1.first (List.mem_append_left _ (first_mem hk1))
            exact lt_of_lt_of_le this (not_lt.1 hlt)
          · exact hA x hx
        · intro _
          cases A with
          | nil =>
            have : k1 = c := by simpa using (List.cons.inj heq).1
            exact this ▸ not_lt.1 hlt
          | cons a A => exact hfirst (List.cons_ne_nil _ _)

omit [Inhabited α] in
/-- An ordered insertion between smaller and larger entries stays there. -/
theorem orderedInsert_between {A K B : List α} {e : α} (hA : ∀ x∈A,x < e) (hB : ∀ x∈B,e < x) :
    (A++K++B).orderedInsert (· ≤ ·) e = A++K.orderedInsert (· ≤ ·) e++B := by
  induction A with
  | nil =>
    induction K with
    | nil =>
      cases B with
      | nil => rfl
      | cons b B => simp [List.orderedInsert,le_of_lt (hB b List.mem_cons_self)]
    | cons k K ih =>
      by_cases hle : e ≤ k
      · simp [List.orderedInsert,hle]
      · simp only [List.nil_append] at ih ⊢
        simp [List.orderedInsert,hle,ih]
  | cons a A ih =>
    have hlt : ¬ e ≤ a := not_le.2 (hA a List.mem_cons_self)
    have := ih (fun x hx => hA x (List.mem_cons_of_mem _ hx))
    simp only [List.append_assoc] at this ⊢
    simp [hlt,this]

omit [Inhabited α] in
theorem pairwise_orderedInsert {l : List α} {e : α} (hs : l.Pairwise (· < ·)) (hnot : e∉l) :
    (l.orderedInsert (· ≤ ·) e).Pairwise (· < ·) := by
  induction l with
  | nil => simp
  | cons a l ih =>
    obtain ⟨ha,hl⟩ := List.pairwise_cons.1 hs
    have hne : e≠a := fun h => hnot (h ▸ List.mem_cons_self)
    by_cases hle : e ≤ a
    · have hlt : e < a := lt_of_le_of_ne hle hne
      rw [List.orderedInsert,if_pos hle]
      refine List.pairwise_cons.2 ⟨fun x hx => ?_,hs⟩
      rcases List.mem_cons.1 hx with rfl | hx
      · exact hlt
      · exact hlt.trans (ha x hx)
    · rw [List.orderedInsert,if_neg hle]
      refine List.pairwise_cons.2 ⟨fun x hx => ?_,ih hl fun h => hnot (List.mem_cons_of_mem _ h)⟩
      rcases (List.mem_orderedInsert _).1 hx with rfl | hx
      · exact lt_of_not_ge hle
      · exact ha x hx

theorem headI_orderedInsert {K : List α} {e : α} (hne : K≠[]) (hlt : K.headI < e) :
    (K.orderedInsert (· ≤ ·) e).headI = K.headI := by
  obtain ⟨k,K,rfl⟩ := List.exists_cons_of_ne_nil hne
  have : ¬ e ≤ k := not_le.2 hlt
  simp [List.orderedInsert,this]

/-- An entry between smaller and larger ones is erased there. -/
theorem erase_between {α : Type} [Preorder α] [BEq α] [LawfulBEq α] {A K B : List α} {e : α} (hA : ∀ x∈A,x < e) (hK : e∈K) :
    (A++K++B).erase e = A++K.erase e++B := by
  have hnot : e∉A := fun h => lt_irrefl e (hA e h)
  rw [List.append_assoc,List.erase_append_right _ hnot,List.erase_append_left _ hK,List.append_assoc]

omit [Inhabited α] in
theorem mem_between {A K B : List α} {e : α} (hA : ∀ x∈A,x < e) (hB : ∀ x∈B,e < x) :
    e∈A++K++B ↔ e∈K := by
  have h1 : e∉A := fun h => lt_irrefl e (hA e h)
  have h2 : e∉B := fun h => lt_irrefl e (hB e h)
  simp [h1,h2]

end Routing
end Dataman.PageTree

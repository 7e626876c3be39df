import Dataman.IndexAllocation
import Dataman.IndexRemoval

/-!
# Searching a stored tree

The descent by separators reaches the one child that can hold an entry. From it follow
exact lookup and the in-order walk.
-/

namespace Dataman.IndexFile
open FixedWidthFields FailState PageTree

variable {ctx : Context} {first : ℕ} {s : IndexState}

/-! ## Loading -/

variable {o : ℕ}

theorem wp_loadNode {n : Node} {Q : Node → IndexState → Prop} {E : Fault → IndexState → Prop}
    (hl : v2LoadNode ctx s.bytes o = some n) : wp (loadNode ctx o) s Q E ↔ Q n s := by
  simp only [loadNode,wp_bind,wp_get,wp_ofOption,hl]

/-! ## Routing -/

variable {e : Bytes}

theorem childPosition_eq {keys : List Bytes} (hlen : ∀ x∈keys,x.length = e.length) :
    childPosition e keys = keys.findIdx (fun k => decide (e < k)) := by
  unfold childPosition
  induction keys with
  | nil => rfl
  | cons k ks ih =>
    have hk := memcmp_eq_lt_iff (hlen k List.mem_cons_self).symm
    rw [List.findIdx_cons,List.findIdx_cons,ih fun x hx => hlen x (List.mem_cons_of_mem _ hx),
      decide_eq_decide.2 hk]

variable {f : Bytes} {kids : List (Summary Bytes)}

/-- An internal node has at least two children. -/
theorem two_le_of_load
    (hl : v2LoadNode ctx f o = some ⟨false,seps kids,kids.map Summary.off⟩) : 2 ≤ kids.length := by
  have := ((nodeOk_of_load hl).node_children rfl).1
  simp only [length_seps] at this
  omega

variable {h : ℕ}

theorem Stored.siblings (below : ∀ k∈kids,Tree ctx s.bytes h k)
    (occ : ∀ k∈kids,minKeys ≤ k.count ∧ k.count ≤ maxKeys)
    (hheld : ∀ p∈(Summary.node o kids).pages,Held ctx first s p) : Siblings ctx first s h kids := by
  refine ⟨fun k hm => ⟨below k hm,fun p hp => hheld p ?_⟩,occ⟩
  exact List.mem_cons_of_mem _ (List.mem_flatMap.2 ⟨k,hm,hp⟩)

/-- The child `k` that a descent for `e` takes, with its siblings on both sides. -/
structure Routed (kids : List (Summary Bytes)) (e : Bytes) (A : List (Summary Bytes)) (k : Summary Bytes)
    (B : List (Summary Bytes)) : Prop where
  split : kids = A++k::B
  position : childPosition e (seps kids) = A.length
  child : (kids.map Summary.off).getD A.length 0 = k.off
  left : ∀ x∈A.flatMap Summary.entries,x < e
  right : ∀ x∈B.flatMap Summary.entries,e < x
  first_le : A≠[] → k.first ≤ e
  sorted : k.entries.Pairwise (· < ·)

theorem routed (hne : kids≠[]) (hk : ∀ k∈kids,k.entries≠[])
    (hs : (kids.flatMap Summary.entries).Pairwise (· < ·)) (hlen : ∀ x∈seps kids,x.length = e.length) :
    ∃ A k B,Routed kids e A k B := by
  obtain ⟨A,k,B,hkids,hlenA,hA,hB,hfirst⟩ := route kids e hne hk hs
  refine ⟨A,k,B,hkids,?_,by simp [hkids],hA,hB,hfirst,?_⟩
  · rw [childPosition_eq hlen,hlenA]
    congr!
  · rw [hkids,List.flatMap_append,List.flatMap_cons] at hs
    exact (List.pairwise_append.1 (List.pairwise_append.1 hs).2.1).1

variable {A B : List (Summary Bytes)} {k : Summary Bytes}

theorem Routed.flatMap_entries
    (h : Routed kids e A k B) : kids.flatMap Summary.entries =
      A.flatMap Summary.entries++k.entries++B.flatMap Summary.entries := by simp [h.split]

theorem Routed.mem_iff
    (h : Routed kids e A k B) : e∈kids.flatMap Summary.entries ↔ e∈k.entries := by
  rw [h.flatMap_entries]
  exact mem_between h.left h.right

/-! ## The in-order walk -/

theorem mapM_map_eq_some {α β γ : Type} {f : β → Option γ} {g : α → β} {u : α → γ} {l : List α}
    (h : ∀ a∈l,f (g a) = some (u a)) : (l.map g).mapM f = some (l.map u) := by
  induction l with
  | nil => rfl
  | cons a l ih =>
    simp [List.mapM_cons,h a List.mem_cons_self,ih fun b hb => h b (List.mem_cons_of_mem _ hb)]

variable {depth : ℕ} {t : Summary Bytes}

theorem inorder_eq (hd : h < depth) (ht : Tree ctx f h t) :
    inorder ctx f depth t.off = some t.entries := by
  induction ht generalizing depth with
  | @leaf o es load =>
    obtain ⟨depth,rfl⟩ := Nat.exists_eq_add_of_lt hd
    simp [inorder,Summary.leaf,load]
  | @node h o kids hne below occ load ih =>
    obtain ⟨depth,rfl⟩ : ∃ d,depth = d+1 := ⟨depth - 1,by omega⟩
    have hkids : (kids.map Summary.off).mapM (inorder ctx f depth) = some (kids.map Summary.entries) :=
      mapM_map_eq_some fun k hk => ih k hk (by omega)
    simp [inorder,Summary.node,load,hkids,List.flatMap]

/-! ## Exact lookup -/

/-- The context matters to a load only through the key length. -/
theorem v2LoadNode_congr {ctx' : Context} (h : ctx.keylen = ctx'.keylen) (f : Bytes) :
    v2LoadNode ctx f = v2LoadNode ctx' f := by
  have he : ctx.entrySize = ctx'.entrySize := by simp [Context.entrySize,h]
  funext o
  simp only [v2LoadNode,decodeNode,he]

theorem mem_iff_lowerBound {es : List Bytes} (hs : es.Pairwise (· < ·))
    (hlen : ∀ x∈es,x.length = e.length) :
    e∈es ↔ ∃ x,es[es.findIdx (fun x => memcmp e x = .lt ∨ memcmp e x = .eq)]? = some x ∧ memcmp e x = .eq := by
  induction es with
  | nil => simp
  | cons x xs ih =>
    have hx : e.length = x.length := (hlen x List.mem_cons_self).symm
    have ih := ih (List.pairwise_cons.1 hs).2 fun y hy => hlen y (List.mem_cons_of_mem _ hy)
    rcases lt_trichotomy e x with hlt | rfl | hgt
    · have hc := (memcmp_eq_lt_iff hx).2 hlt
      have hnot : e∉x::xs := by
        intro hm
        rcases List.mem_cons.1 hm with rfl | hm
        · exact lt_irrefl _ hlt
        · exact lt_asymm hlt ((List.pairwise_cons.1 hs).1 e hm)
      simp [List.findIdx_cons,hc,hnot]
    · simp [List.findIdx_cons,(memcmp_eq_eq_iff hx).2 rfl]
    · have hc := (memcmp_eq_gt_iff hx).2 hgt
      have hne : e≠x := fun h => lt_irrefl _ (h ▸ hgt)
      rw [List.mem_cons,or_iff_right hne,ih]
      simp [List.findIdx_cons,hc]

theorem v2FindEntry_exact (hd : h < depth)
    (ht : Tree ctx f h t) (hs : t.entries.Pairwise (· < ·)) (he : e.length = ctx.entrySize) (keyLength : ℕ) :
    (v2FindEntry ctx f e true keyLength depth t.off 0).isSome ↔ e∈t.entries := by
  induction ht generalizing depth with
  | @leaf o es load =>
    obtain ⟨depth,rfl⟩ : ∃ d,depth = d+1 := ⟨depth - 1,by omega⟩
    have hlen : ∀ x∈es,x.length = e.length := fun x hx => ((nodeOk_of_load load).entry_length x hx).trans he.symm
    have hs : es.Pairwise (· < ·) := hs
    rw [show (Summary.leaf o es).entries = es from rfl,mem_iff_lowerBound hs hlen]
    simp only [v2FindEntry,Summary.leaf,load,Option.bind_eq_bind,Option.bind_some,true_and,if_true]
    generalize hp : es.findIdx (fun x => memcmp e x = .lt ∨ memcmp e x = .eq) = p
    have hple : p ≤ es.length := hp ▸ List.findIdx_le_length
    by_cases hpl : p = es.length
    · simp [hpl]
    · have hlt : p < es.length := by omega
      rw [if_neg hpl]
      by_cases heq : memcmp e es[p] = .eq
      · simp [guard_eq_ite,hlt,heq]
      · simp [guard_eq_ite,hlt,heq]
  | @node h o kids hne below occ load ih =>
    obtain ⟨depth,rfl⟩ : ∃ d,depth = d+1 := ⟨depth - 1,by omega⟩
    have hent : ∀ k∈kids,k.entries≠[] := fun k hk =>
      (below k hk).entries_ne_nil (by decide) (le_trans (by decide) (occ k hk).1)
    obtain ⟨A,k,B,hrt⟩ := routed hne hent hs fun x hx =>
      ((nodeOk_of_load load).entry_length x hx).trans he.symm
    have hkm : k∈kids := by simp [hrt.split]
    have hpos : (seps kids).findIdx (fun x => decide (memcmp e x = .lt)) = A.length := hrt.position
    rw [show (Summary.node o kids).entries = kids.flatMap Summary.entries from rfl,hrt.mem_iff,
      ← ih k hkm (by omega : h < depth) hrt.sorted,← hrt.child]
    simp [v2FindEntry,Summary.node,load,hpos]

end Dataman.IndexFile

import Dataman.IndexRepair

/-!
# Removal from a stored tree

Removing an entry leaves a tree of the same height with at most one key less at its root,
or, at the top, the only child of a root that lost its last key.
-/

namespace Dataman.IndexFile
open FixedWidthFields FailState PageTree

variable {ctx : Context} {first : ℕ} {s s' : IndexState}

/-! ## Choosing a repair -/

variable {h : ℕ} {t : Summary Bytes}

theorem wp_loadSibling {leaf : Bool} {n : Node} {Q : Node → IndexState → Prop}
    {E : Fault → IndexState → Prop} (hl : v2LoadNode ctx s.bytes t.off = some n) (hn : n.leaf = decide (h = 0))
    (hleaf : leaf = decide (h = 0)) : wp (loadSibling ctx t.off leaf) s Q E ↔ Q n s := by
  simp [loadSibling,wp_loadNode hl,hn,hleaf]

variable {depth : ℕ} {S : List (Summary Bytes)} {k : Summary Bytes} {child : RemoveResult}

theorem mergeSibling_left {P : List (Summary Bytes)} {l : Summary Bytes}
    (hcow : ctx.inPlace = false) (hf : ctx.Fits) (hd : h ≤ depth) (ha : Allocating ctx first s)
    (hP : Siblings ctx first s h P) (hS : Siblings ctx first s h S) (hl : Stored ctx first s h l)
    (hlc : l.count = minKeys) (hk : Short ctx first s h k child) :
    wp (mergeSibling ctx depth ((P++l::k::S).map Summary.off) (P.length+1) child) s
      (fun rp s' => ∃ new,Repaired ctx first s s' h (P++l::k::S) new rp) (fun f _ => f = .io) := by
  obtain ⟨nl,hnl,hnlleaf,-⟩ := hl.tree.load
  obtain ⟨nk,hnk,hnkleaf,-⟩ := hk.stored.tree.load
  have hget : ((P++l::k::S).map Summary.off).getD (P.length+1 - 1) 0 = l.off := by simp
  have hsum : l.count+k.count+1 = maxKeys := by
    have := hk.count
    simp only [minKeys,maxKeys] at this hlc ⊢
    omega
  unfold mergeSibling
  rw [if_pos (Nat.succ_pos _),wp_bind,hget,wp_loadNode hnl,wp_bind,hk.offset,wp_loadNode hnk,wp_bind,
    wp_ensure,hnlleaf,hnkleaf,if_pos (beq_self_eq_true _)]
  exact mergeAt_spec hcow hf hd ha hP hS hl hk.stored hsum hk.leaf hnl hnk

theorem mergeSibling_right {r : Summary Bytes}
    (hcow : ctx.inPlace = false) (hf : ctx.Fits) (hd : h ≤ depth) (ha : Allocating ctx first s)
    (hS : Siblings ctx first s h S) (hr : Stored ctx first s h r) (hrc : r.count = minKeys)
    (hk : Short ctx first s h k child) :
    wp (mergeSibling ctx depth ((k::r::S).map Summary.off) 0 child) s
      (fun rp s' => ∃ new,Repaired ctx first s s' h (k::r::S) new rp) (fun f _ => f = .io) := by
  obtain ⟨nr,hnr,hnrleaf,-⟩ := hr.tree.load
  obtain ⟨nk,hnk,hnkleaf,-⟩ := hk.stored.tree.load
  have hsum : k.count+r.count+1 = maxKeys := by
    have := hk.count
    simp only [minKeys,maxKeys] at this hrc ⊢
    omega
  have hnil : Siblings ctx first s h [] := ⟨by simp,by simp⟩
  unfold mergeSibling
  rw [if_neg (Nat.lt_irrefl 0),wp_bind]
  simp only [List.map_cons,List.getD_cons_succ,List.getD_cons_zero]
  rw [wp_loadNode hnr,wp_bind,hk.offset,wp_loadNode hnk,wp_bind,wp_ensure,hnrleaf,hnkleaf,
    if_pos (beq_self_eq_true _)]
  exact mergeAt_spec hcow hf hd ha hnil hS hk.stored hr hsum hk.leaf hnk hnr

/-- The children left and right of a short child, one of which exists. -/
structure Neighbours (ctx : Context) (first : ℕ) (s : IndexState) (h : ℕ) (A B : List (Summary Bytes)) : Prop where
  left : Siblings ctx first s h A
  right : Siblings ctx first s h B
  exist : A≠[] ∨ B≠[]

variable {A B : List (Summary Bytes)}

theorem Siblings.of_append (hs : Siblings ctx first s h (A++B)) :
    Siblings ctx first s h A ∧ Siblings ctx first s h B :=
  ⟨hs.sub fun _ hk => List.mem_append_left _ hk,hs.sub fun _ hk => List.mem_append_right _ hk⟩

theorem borrowRightOrMerge_spec
    (hcow : ctx.inPlace = false) (hf : ctx.Fits) (hd : h ≤ depth) (ha : Allocating ctx first s)
    (hAB : Neighbours ctx first s h A B) (hk : Short ctx first s h k child)
    (hleft : ∀ P l,A = P++[l] → l.count = minKeys) :
    wp (borrowRightOrMerge ctx depth ((A++k::B).map Summary.off) A.length child) s
      (fun rp s' => ∃ new,Repaired ctx first s s' h (A++k::B) new rp) (fun f _ => f = .io) := by
  -- merging with the left neighbour
  have hmerge : A≠[] → wp (mergeSibling ctx depth ((A++k::B).map Summary.off) A.length child) s
      (fun rp s' => ∃ new,Repaired ctx first s s' h (A++k::B) new rp) (fun f _ => f = .io) := by
    intro hne
    obtain ⟨P,l,rfl⟩ := (List.eq_nil_or_concat' A).resolve_left hne
    obtain ⟨hP,hl⟩ := hAB.left.of_append
    have := mergeSibling_left hcow hf hd ha hP hAB.right (hl.stored l (List.mem_singleton_self l)) (hleft P l rfl) hk
    simpa using this
  unfold borrowRightOrMerge
  cases B with
  | nil =>
    rw [if_neg (by simp)]
    exact hmerge (hAB.exist.resolve_right fun h => h rfl)
  | cons r S =>
    have hr := hAB.right.stored r List.mem_cons_self
    have hS : Siblings ctx first s h S := hAB.right.sub fun c hc => List.mem_cons_of_mem _ hc
    obtain ⟨nr,hnr,hnrleaf,hnrlen⟩ := hr.tree.load
    have hget : ((A++k::r::S).map Summary.off).getD (A.length+1) 0 = r.off := by
      simp
    rw [if_pos (by simp),wp_bind,hget,wp_loadSibling hnr hnrleaf hk.leaf,hnrlen]
    split
    · rename_i hlend
      exact borrowRight_spec hcow hf hd ha hAB.left hS hr hlend hk hnr
    · rename_i hlend
      have hrc : r.count = minKeys := by
        have := (hAB.right.occ r List.mem_cons_self).1
        omega
      by_cases hA : A = []
      · subst hA
        exact mergeSibling_right hcow hf hd ha hS hr hrc hk
      · exact hmerge hA

theorem rebalance_spec
    (hcow : ctx.inPlace = false) (hf : ctx.Fits) (hd : h ≤ depth) (ha : Allocating ctx first s)
    (hAB : Neighbours ctx first s h A B) (hk : Short ctx first s h k child) :
    wp (rebalance ctx depth ((A++k::B).map Summary.off) A.length child) s
      (fun rp s' => ∃ new,Repaired ctx first s s' h (A++k::B) new rp) (fun f _ => f = .io) := by
  unfold rebalance
  rcases List.eq_nil_or_concat' A with rfl | ⟨P,l,rfl⟩
  · rw [if_neg (by simp)]
    exact borrowRightOrMerge_spec hcow hf hd ha hAB hk (by simp)
  · obtain ⟨hP,hl⟩ := hAB.left.of_append
    have hls := hl.stored l (List.mem_singleton_self l)
    obtain ⟨nl,hnl,hnlleaf,hnllen⟩ := hls.tree.load
    have hget : ((P++[l]++k::B).map Summary.off).getD ((P++[l]).length - 1) 0 = l.off := by simp
    rw [if_pos (by simp),wp_bind,hget,wp_loadSibling hnl hnlleaf hk.leaf,hnllen]
    split
    · rename_i hlend
      have := borrowLeft_spec hcow hf hd ha hP hAB.right hls hlend hk hnl
      simpa using this
    · rename_i hlend
      refine borrowRightOrMerge_spec hcow hf hd ha hAB hk fun P' l' heq => ?_
      have hll : l' = l := by
        have := congrArg List.getLast? heq
        simpa using this.symm
      have := (hl.occ l (List.mem_singleton_self l)).1
      rw [hll]
      omega

/-! ## The recursion -/

variable {e : Bytes}

theorem findIdx_memcmp_eq {es : List Bytes} (hlen : ∀ x∈es,x.length = e.length) :
    es.findIdx (fun x => decide (memcmp e x = .eq)) = es.idxOf e := by
  unfold List.idxOf
  induction es with
  | nil => rfl
  | cons x xs ih =>
    have hx := memcmp_eq_eq_iff (hlen x List.mem_cons_self).symm
    have hb : decide (memcmp e x = .eq) = (x == e) := by
      rw [Bool.eq_iff_iff,decide_eq_true_iff,hx,beq_iff_eq,eq_comm]
    rw [List.findIdx_cons,List.findIdx_cons,ih fun y hy => hlen y (List.mem_cons_of_mem _ hy),hb]

/-- The tree that replaces `t` after removing `e`; `r` is what the code reports. -/
structure Removed (ctx : Context) (first : ℕ) (s' : IndexState) (h : ℕ) (t : Summary Bytes) (e : Bytes)
    (r : RemoveResult) (t' : Summary Bytes) : Prop where
  stored : Stored ctx first s' h t'
  off : r.offset = t'.off
  entries : t'.entries = t.entries.erase e
  crc_lt : r.crc < 2 ^ 32

/-- What the parent relies on: the same height, an exact count, at most one key lost. -/
structure Reported (h : ℕ) (t : Summary Bytes) (r : RemoveResult) (h' : ℕ) (t' : Summary Bytes) : Prop where
  height : h' = h
  count : r.keyCount = t'.count
  leaf : r.leaf = decide (h = 0)
  count_ge : t.count ≤ t'.count+1

/-- The child of a removal, repaired if it became short. -/
theorem repair_spec {k' : Summary Bytes}
    (hcow : ctx.inPlace = false) (hf : ctx.Fits) (hd : h ≤ depth) (ha : Allocating ctx first s)
    (hAB : Neighbours ctx first s h A B) (hmin : minKeys ≤ k.count)
    (hr : Removed ctx first s h k e child k') (hrep : Reported h k child h k') :
    wp (if child.keyCount < minKeys then rebalance ctx depth ((A++k'::B).map Summary.off) A.length child
        else pure ((A++k'::B).map Summary.off,child)) s
      (fun rp s' => ∃ new,Repaired ctx first s s' h (A++k'::B) new rp) (fun f _ => f = .io) := by
  have hge := hrep.count_ge
  have hcount := hrep.count
  split
  · exact rebalance_spec hcow hf hd ha hAB ⟨hr.stored,by omega,hr.off,hrep.leaf⟩
  · refine (wp_pure _).2 ⟨A++k'::B,.refl ha _,⟨?_,?_⟩,rfl,rfl,by omega,le_rfl,?_,hr.crc_lt⟩
    · simp only [List.mem_append,List.mem_cons]
      rintro c (hc | rfl | hc)
      · exact hAB.left.stored c hc
      · exact hr.stored
      · exact hAB.right.stored c hc
    · simp only [List.mem_append,List.mem_cons]
      rintro c (hc | rfl | hc)
      · exact hAB.left.occ c hc
      · exact ⟨by omega,hr.stored.tree.count_le⟩
      · exact hAB.right.occ c hc
    · intro x hx
      have hm : k'∈[x] := hx ▸ (by simp : k'∈A++k'::B)
      rw [hr.off,List.mem_singleton.1 hm]

theorem v2RemoveNode_spec (hcow : ctx.inPlace = false) (hf : ctx.Fits) (he : e.length = ctx.entrySize)
    {s : IndexState} {root : Bool} (hdepth : h < depth)
    (ha : Allocating ctx first s) (ht : Stored ctx first s h t) (hsorted : t.entries.Pairwise (· < ·))
    (hroot : root = false → minKeys ≤ t.count) :
    wp (v2RemoveNode ctx depth t.off e root) s
      (fun r s' => (r.found = false ∧ s' = s ∧ e∉t.entries) ∨
        (r.found = true ∧ e∈t.entries ∧ Extends ctx first ∅ s s' ∧
          ∃ h' t',Removed ctx first s' h' t e r t' ∧ (root = false → Reported h t r h' t')))
      (fun f _ => f = .io) := by
  induction depth generalizing h t s root with
  | zero => omega
  | succ depth ih =>
    obtain ⟨htree,hheld⟩ := ht
    cases htree with
    | @leaf o es load =>
      have hok := nodeOk_of_load load
      have hlen : ∀ x∈es,x.length = e.length := fun x hx => (hok.entry_length x hx).trans he.symm
      simp only [v2RemoveNode,wp_bind,Summary.leaf,wp_loadNode load,if_true,findIdx_memcmp_eq hlen,
        List.idxOf_eq_length_iff,List.eraseIdx_idxOf_eq_erase]
      split
      · rename_i hnot
        exact (wp_pure _).2 (.inl ⟨rfl,rfl,hnot⟩)
      · rename_i hmem
        have hmem : e∈es := not_not.1 hmem
        have hcount := List.length_erase_of_mem hmem
        have hmax : (es.erase e).length ≤ maxKeys := hcount ▸ le_trans (Nat.sub_le _ _) hok.count_le
        simp only [wp_bind,wp_pure]
        refine wp_mono (copyLeaf_spec hcow hf ha (fun x hx => hok.entry_length x (List.mem_of_mem_erase hx))
          hmax 0) ?_ fun f _ h => h
        rintro ⟨page,crc⟩ s1 ⟨hext,hst,hcrc⟩
        refine .inr ⟨trivial,hmem,hext,0,_,⟨hst,rfl,rfl,hcrc⟩,fun _ => ⟨rfl,rfl,rfl,?_⟩⟩
        simp only [Summary.leaf]
        omega
    | @node h o kids hne below occ load =>
      have hok := nodeOk_of_load load
      have h2 := two_le_of_load load
      have hmax : kids.length ≤ maxKeys+1 := by
        have := hok.count_le
        rw [length_seps] at this
        omega
      have hk := Stored.siblings below occ hheld
      obtain ⟨A,k,B,hrt⟩ := routed hne hk.entries_ne_nil hsorted fun x hx => (hok.entry_length x hx).trans he.symm
      have hkm : k∈kids := by simp [hrt.split]
      have hmin := (hk.occ k hkm).1
      simp only [v2RemoveNode,wp_bind,Summary.node,wp_loadNode load,Bool.false_eq_true,if_false,
        hrt.position,hrt.child]
      refine wp_mono (ih (by omega) ha (hk.stored k hkm) hrt.sorted fun _ => hmin) ?_ fun f _ h => h
      rintro child s1 (⟨hfound,hs,hnot⟩ | ⟨hfound,hmem,hext,h',k',hrem,hrep⟩)
      · rw [if_neg (by simp [hfound])]
        exact (wp_pure _).2 (.inl ⟨rfl,hs,fun hm => hnot (hrt.mem_iff.1 hm)⟩)
      · rw [if_pos hfound]
        have hrep := hrep rfl
        obtain rfl : h' = h := hrep.height
        have hset : (kids.map Summary.off).set A.length child.offset = (A++k'::B).map Summary.off := by
          rw [hrt.split,hrem.off]
          simp
        have hsplit := hk
        rw [hrt.split] at hsplit h2 hmax
        have hAB : Neighbours ctx first s1 h' A B := by
          refine ⟨(hsplit.sub fun c hc => ?_).copy hf hext,(hsplit.sub fun c hc => ?_).copy hf hext,?_⟩
          · exact List.mem_append_left _ hc
          · exact List.mem_append_right _ (List.mem_cons_of_mem _ hc)
          · by_contra hnone
            simp only [not_or,not_not] at hnone
            simp [hnone.1,hnone.2] at h2
        rw [wp_bind,hset]
        refine wp_mono (repair_spec hcow hf (by omega) hext.allocating hAB hmin hrem hrep) ?_ fun f _ h => h
        rintro ⟨children,child'⟩ s2 ⟨new,hrp⟩
        have hlen_ge : (A++k::B).length ≤ new.length+1 := by simpa using hrp.length_ge
        have hlen_le : new.length ≤ (A++k::B).length := by simpa using hrp.length_le
        have hext2 := hext.trans hrp.copied
        have hmemt : e∈kids.flatMap Summary.entries := hrt.mem_iff.2 hmem
        have hentries : new.flatMap Summary.entries = (kids.flatMap Summary.entries).erase e := by
          rw [hrp.entries,hrt.flatMap_entries,erase_between hrt.left hmem,← hrem.entries]
          simp
        have hch : children = new.map Summary.off := hrp.offs
        subst hch
        simp only [List.length_map]
        split
        · -- the root has lost its last key
          rename_i hcollapse
          simp only [Bool.and_eq_true,beq_iff_eq] at hcollapse
          obtain ⟨x,hx⟩ : ∃ x,new = [x] := List.length_eq_one_iff.1 (by omega)
          have hst := hrp.siblings.stored x (by simp [hx])
          refine (wp_pure _).2 (.inr ⟨rfl,hmemt,hext2,h',x,⟨hst,hrp.only x hx,?_,hrp.crc_lt⟩,?_⟩)
          · rw [← show new.flatMap Summary.entries = x.entries by simp [hx],hentries]
          · intro hr
            simp [hr] at hcollapse
        · rename_i hstay
          have htwo : 2 ≤ new.length := by
            cases hroot' : root with
            | true =>
              simp only [hroot',Bool.true_and,beq_iff_eq] at hstay
              omega
            | false =>
              have := hroot hroot'
              simp only [Summary.node,hrt.split,minKeys,maxKeys] at this
              omega
          simp only [wp_bind,wp_pure]
          refine wp_mono (v2WriteInternal_spec hcow hf (by omega) hrp.copied.allocating hrp.siblings htwo (by omega) 0)
            ?_ fun f _ h => h
          rintro ⟨page,crc⟩ s3 ⟨hext3,hst,hcrc⟩
          refine .inr ⟨trivial,hmemt,hext2.trans hext3,h'+1,_,⟨hst,rfl,hentries,hcrc⟩,
            fun _ => ⟨rfl,rfl,by simp,?_⟩⟩
          simp only [Summary.node,hrt.split]
          omega

end Dataman.IndexFile

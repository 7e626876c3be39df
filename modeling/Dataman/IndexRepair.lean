import Dataman.IndexInsertionCorrect

/-!
# Repairing a child that fell below the minimum

Removal only copies pages, so every tree that is stored before it stays stored. A short
child is repaired together with one neighbour: the two are rewritten with an entry or
child moved across, or as one page.
-/

namespace Dataman.IndexFile
open FailState PageTree

variable {ctx : Context} {first : ℕ} {s s' : IndexState}

/-! ## Writes by copying -/

theorem rewritten_eq_empty (hcow : ctx.inPlace = false) (o : ℕ) : rewritten ctx o = ∅ := by
  ext p
  simp [rewritten,hcow]

variable {h : ℕ} {t : Summary Bytes}

theorem Stored.copy (hf : ctx.Fits) (ht : Stored ctx first s h t)
    (he : Extends ctx first ∅ s s') : Stored ctx first s' h t := ht.extend hf he fun _ _ h => h

theorem Siblings.copy {kids : List (Summary Bytes)} (hf : ctx.Fits) (hk : Siblings ctx first s h kids)
    (he : Extends ctx first ∅ s s') : Siblings ctx first s' h kids := hk.extend hf he fun _ _ h => h

/-- The node at the root of a tree. -/
theorem Tree.load {f : Bytes} (ht : Tree ctx f h t) :
    ∃ n,v2LoadNode ctx f t.off = some n ∧ n.leaf = decide (h = 0) ∧ n.entries.length = t.count := by
  cases ht with
  | leaf load => exact ⟨_,load,rfl,rfl⟩
  | node _ _ _ load => exact ⟨_,load,by simp,length_seps _⟩

variable {depth : ℕ} {E : Fault → IndexState → Prop}

theorem wp_v2FirstEntry {Q : Bytes → IndexState → Prop}
    (hd : h < depth) (ht : Tree ctx s.bytes h t) (hne : t.entries≠[]) :
    wp (v2FirstEntry ctx depth t.off) s Q E ↔ Q t.first s := by
  induction ht generalizing depth with
  | @leaf o es load =>
    obtain ⟨depth,rfl⟩ : ∃ d,depth = d+1 := ⟨depth - 1,by omega⟩
    obtain ⟨e,es,rfl⟩ := List.exists_cons_of_ne_nil hne
    simp only [v2FirstEntry,Summary.leaf,wp_bind,wp_loadNode load,if_true,wp_ofOption,List.head?_cons,
      Summary.first,List.headI_cons]
  | @node h o kids hk below occ load ih =>
    obtain ⟨depth,rfl⟩ : ∃ d,depth = d+1 := ⟨depth - 1,by omega⟩
    obtain ⟨k,ks,rfl⟩ := List.exists_cons_of_ne_nil hk
    have hkne : k.entries≠[] := (below k List.mem_cons_self).entries_ne_nil (by decide)
      (le_trans (by decide) (occ k List.mem_cons_self).1)
    have hfirst : (Summary.node o (k::ks)).first = k.first := by
      obtain ⟨e,es,he⟩ := List.exists_cons_of_ne_nil hkne
      simp [Summary.first,Summary.node,he]
    rw [hfirst,← ih k List.mem_cons_self (by omega : h < depth) hkne]
    simp only [v2FirstEntry,Summary.node,wp_bind,wp_loadNode load,Bool.false_eq_true,if_false,List.map_cons,
      List.headD_cons]

variable {ks : List (Summary Bytes)}

theorem wp_firstEntries {Q : List Bytes → IndexState → Prop}
    (hd : h < depth) (hk : Siblings ctx first s h ks) :
    wp (firstEntries ctx depth (ks.map Summary.off)) s Q E ↔ Q (ks.map Summary.first) s := by
  induction ks generalizing Q with
  | nil => simp [firstEntries]
  | cons k ks ih =>
    have hk1 := hk.stored k List.mem_cons_self
    have hne := hk.entries_ne_nil k List.mem_cons_self
    have ih := fun Q => @ih Q (hk.sub fun c hc => List.mem_cons_of_mem _ hc)
    simp only [List.map_cons,firstEntries,wp_bind,wp_pure,wp_v2FirstEntry hd hk1.tree hne,ih]

theorem v2WriteInternal_spec (hcow : ctx.inPlace = false) (hf : ctx.Fits)
    (hd : h < depth) (ha : Allocating ctx first s) (hk : Siblings ctx first s h ks) (h2 : 2 ≤ ks.length)
    (h13 : ks.length ≤ maxKeys+1) (offset : ℕ) :
    wp (v2WriteInternal ctx depth (ks.map Summary.off) offset) s
      (fun r s' => Extends ctx first ∅ s s' ∧ Stored ctx first s' (h+1) (.node r.1 ks) ∧ r.2 < 2 ^ 32)
      (fun f _ => f = .io) := by
  have hcount : decide (ks.length - 1≠0 ∧ ks.length - 1 ≤ maxKeys) = true := by
    rw [decide_eq_true_iff]
    omega
  have hkeys : (ks.map Summary.off).tail = ks.tail.map Summary.off := by simp
  have hseps : ks.tail.map Summary.first = seps ks := rfl
  simp only [v2WriteInternal,wp_bind,wp_ensure,List.length_map,hcount,if_true,hkeys,
    wp_firstEntries hd (hk.sub fun k hm => List.mem_of_mem_tail hm),hseps]
  have hempty := rewritten_eq_empty hcow offset
  have hapart : ∀ p∈ks.flatMap Summary.pages,p∉rewritten ctx offset := by simp [hempty]
  refine wp_mono (writeInternal_spec hf ha hk h2 h13 (by simp [hcow]) hapart) ?_ fun f _ h => h
  rintro r s1 ⟨hext,hst,-,hcrc,-⟩
  exact ⟨hempty ▸ hext,hst,hcrc⟩

variable {es : List Bytes}

/-- Writing a leaf by copying. -/
theorem copyLeaf_spec (hcow : ctx.inPlace = false) (hf : ctx.Fits) (ha : Allocating ctx first s)
    (hes : ∀ e∈es,e.length = ctx.entrySize) (hlen : es.length ≤ maxKeys) (offset : ℕ) :
    wp (v2WriteNode ctx ⟨true,es,[]⟩ offset) s
      (fun r s' => Extends ctx first ∅ s s' ∧ Stored ctx first s' 0 (.leaf r.1 es) ∧ r.2 < 2 ^ 32)
      (fun f _ => f = .io) := by
  have hempty := rewritten_eq_empty hcow offset
  refine wp_mono (writeLeaf_spec hf ha hes hlen (by simp [hcow])) ?_ fun f _ h => h
  rintro r s1 ⟨hext,hst,-,hcrc⟩
  exact ⟨hempty ▸ hext,hst,hcrc⟩

/-! ## Repairing a child -/

/-- The children `old` of a node were rewritten as `new`. -/
structure Repaired (ctx : Context) (first : ℕ) (s s' : IndexState) (h : ℕ) (old new : List (Summary Bytes))
    (rp : Repair) : Prop where
  copied : Extends ctx first ∅ s s'
  siblings : Siblings ctx first s' h new
  offs : rp.1 = new.map Summary.off
  entries : new.flatMap Summary.entries = old.flatMap Summary.entries
  length_ge : old.length ≤ new.length+1
  length_le : new.length ≤ old.length
  only : ∀ x,new = [x] → rp.2.offset = x.off
  crc_lt : rp.2.crc < 2 ^ 32

variable {α : Type}

theorem set_eraseIdx_pair (P S : List α) (a b x : α) :
    ((P++a::b::S).set P.length x).eraseIdx (P.length+1) = P++x::S := by
  rw [List.set_append_right _ _ le_rfl,Nat.sub_self,List.set_cons_zero,
    List.eraseIdx_append_of_length_le (Nat.le_succ _)]
  simp

variable {P S : List (Summary Bytes)} {l k : Summary Bytes} {rp : Repair}

theorem repaired_pair {l' k' : Summary Bytes} (hf : ctx.Fits)
    (hP : Siblings ctx first s h P) (hS : Siblings ctx first s h S) (he : Extends ctx first ∅ s s')
    (hl' : Stored ctx first s' h l') (hk' : Stored ctx first s' h k') (hlo : minKeys ≤ l'.count)
    (hko : minKeys ≤ k'.count) (hentries : l'.entries++k'.entries = l.entries++k.entries)
    (hoffs : rp.1 = (P++l'::k'::S).map Summary.off) (hcrc : rp.2.crc < 2 ^ 32) :
    Repaired ctx first s s' h (P++l::k::S) (P++l'::k'::S) rp := by
  refine ⟨he,(hP.copy hf he).append (.cons hl' hlo (.cons hk' hko (hS.copy hf he))),hoffs,?_,by simp,by simp,?_,hcrc⟩
  · simp only [List.flatMap_append,List.flatMap_cons]
    rw [← List.append_assoc l'.entries,hentries,List.append_assoc]
  · intro x hx
    have := congrArg List.length hx
    simp at this
    omega

variable {r : Summary Bytes}

theorem repaired_one {m : Summary Bytes} (hf : ctx.Fits)
    (hP : Siblings ctx first s h P) (hS : Siblings ctx first s h S) (he : Extends ctx first ∅ s s')
    (hm : Stored ctx first s' h m) (hmo : minKeys ≤ m.count) (hentries : m.entries = l.entries++r.entries)
    (hoffs : rp.1 = (P++m::S).map Summary.off) (hoff : rp.2.offset = m.off) (hcrc : rp.2.crc < 2 ^ 32) :
    Repaired ctx first s s' h (P++l::r::S) (P++m::S) rp := by
  refine ⟨he,(hP.copy hf he).append (.cons hm hmo (hS.copy hf he)),hoffs,by simp [hentries],by simp; omega,by simp,?_,hcrc⟩
  intro x hx
  have hmx : m∈[x] := hx ▸ (by simp : m∈P++m::S)
  rw [hoff,List.mem_singleton.1 hmx]

/-- A child one key short, as removal leaves it. -/
structure Short (ctx : Context) (first : ℕ) (s : IndexState) (h : ℕ) (k : Summary Bytes) (child : RemoveResult) :
    Prop where
  stored : Stored ctx first s h k
  count : k.count+1 = minKeys
  offset : child.offset = k.off
  leaf : child.leaf = decide (h = 0)

theorem getLastD_cons_dropLast {l : List α} (hne : l≠[]) (d : α) : l.dropLast++[l.getLastD d] = l := by
  rw [List.getLastD_eq_getLast?,List.getLast?_eq_some_getLast hne]
  exact List.dropLast_append_getLast hne

theorem headD_cons_tail {l : List α} (hne : l≠[]) (d : α) : l.headD d::l.tail = l := by
  obtain ⟨a,l,rfl⟩ := List.exists_cons_of_ne_nil hne
  rfl

variable {child : RemoveResult} {sibling : Node}

section Rewriting

variable (hcow : ctx.inPlace = false) (hf : ctx.Fits) (ha : Allocating ctx first s) {P S : List (Summary Bytes)} {l r : Summary Bytes}
  {o o' : ℕ} {Q : (ℕ × ℕ) × (ℕ × ℕ) → IndexState → Prop}
include hcow hf ha

/-- Two neighbours are written with their entries distributed anew. -/
theorem rewriteLeaves (hP : Siblings ctx first s 0 P) (hS : Siblings ctx first s 0 S) (hl : Stored ctx first s 0 l)
    (hr : Stored ctx first s 0 r) {es fs : List Bytes} (hsame : es++fs = l.entries++r.entries) (hes : minKeys ≤ es.length ∧ es.length ≤ maxKeys)
    (hfs : minKeys ≤ fs.length ∧ fs.length ≤ maxKeys)
    (hQ : ∀ w s' new,(∀ rp : Repair,rp.1 = P.map Summary.off++w.1.1::w.2.1::S.map Summary.off → rp.2.crc < 2 ^ 32 →
      Repaired ctx first s s' 0 (P++l::r::S) new rp) → w.1.2 < 2 ^ 32 → w.2.2 < 2 ^ 32 → Q w s') :
    wp (writeLeafPair ctx es fs o o') s Q (fun f _ => f = .io) := by
  have hlen : ∀ e∈es++fs,e.length = ctx.entrySize := by
    rw [hsame]
    exact List.forall_mem_append.2 ⟨hl.tree.entry_length,hr.tree.entry_length⟩
  simp only [writeLeafPair,wp_bind,wp_pure]
  refine wp_mono (copyLeaf_spec hcow hf ha (fun e he => hlen e (List.mem_append_left _ he)) hes.2 o) ?_ fun f _ h => h
  rintro a s1 ⟨hext,hst,hcrc⟩
  refine wp_mono (copyLeaf_spec hcow hf hext.allocating (fun e he => hlen e (List.mem_append_right _ he)) hfs.2 o') ?_
    fun f _ h => h
  rintro b s2 ⟨hext',hst',hcrc'⟩
  refine hQ (a,b) s2 (P++.leaf a.1 es::.leaf b.1 fs::S) (fun rp hoffs hlt => ?_) hcrc hcrc'
  exact repaired_pair hf hP hS (hext.trans hext') (hst.copy hf hext') hst' hes.1 hfs.1 hsame (by simpa [Summary.leaf] using hoffs) hlt

theorem rewriteNodes (hd : h < depth) (hP : Siblings ctx first s (h+1) P) (hS : Siblings ctx first s (h+1) S)
    (l r : Summary Bytes) {ks ls : List (Summary Bytes)} (hk : Siblings ctx first s h (ks++ls))
    (hsame : (ks++ls).flatMap Summary.entries = l.entries++r.entries) (hks : minKeys < ks.length ∧ ks.length ≤ maxKeys+1)
    (hls : minKeys < ls.length ∧ ls.length ≤ maxKeys+1)
    (hQ : ∀ w s' new,(∀ rp : Repair,rp.1 = P.map Summary.off++w.1.1::w.2.1::S.map Summary.off → rp.2.crc < 2 ^ 32 →
      Repaired ctx first s s' (h+1) (P++l::r::S) new rp) → w.1.2 < 2 ^ 32 → w.2.2 < 2 ^ 32 → Q w s') :
    wp (writeInternalPair ctx depth (ks.map Summary.off) (ls.map Summary.off) o o') s Q (fun f _ => f = .io) := by
  have hks' : 2 ≤ ks.length := hks.1.trans' (by decide)
  have hls' : 2 ≤ ls.length := hls.1.trans' (by decide)
  have hkk : Siblings ctx first s h ks := hk.sub fun k hm => List.mem_append_left _ hm
  have hkl : Siblings ctx first s h ls := hk.sub fun k hm => List.mem_append_right _ hm
  simp only [writeInternalPair,wp_bind,wp_pure]
  refine wp_mono (v2WriteInternal_spec hcow hf hd ha hkk hks' hks.2 o) ?_ fun f _ h => h
  rintro a s1 ⟨hext,hst,hcrc⟩
  refine wp_mono (v2WriteInternal_spec hcow hf hd hext.allocating (hkl.copy hf hext) hls' hls.2 o') ?_ fun f _ h => h
  rintro b s2 ⟨hext',hst',hcrc'⟩
  refine hQ (a,b) s2 (P++.node a.1 ks::.node b.1 ls::S) (fun rp hoffs hlt => ?_) hcrc hcrc'
  rw [List.flatMap_append] at hsame
  refine repaired_pair hf hP hS (hext.trans hext') (hst.copy hf hext') hst' ?_ ?_ hsame (by simpa [Summary.node] using hoffs) hlt
  · exact Nat.le_sub_one_of_lt hks.1
  · exact Nat.le_sub_one_of_lt hls.1

end Rewriting

theorem borrowLeft_spec
    (hcow : ctx.inPlace = false) (hf : ctx.Fits) (hd : h ≤ depth) (ha : Allocating ctx first s)
    (hP : Siblings ctx first s h P) (hS : Siblings ctx first s h S) (hl : Stored ctx first s h l)
    (hlend : minKeys < l.count) (hk : Short ctx first s h k child)
    (hsib : v2LoadNode ctx s.bytes l.off = some sibling) :
    wp (borrowLeft ctx depth ((P++l::k::S).map Summary.off) (P.length+1) child sibling) s
      (fun rp s' => ∃ new,Repaired ctx first s s' h (P++l::k::S) new rp) (fun f _ => f = .io) := by
  have hlmax := hl.tree.count_le
  obtain ⟨⟨hkt,hkh⟩,hkc,hko,hkl⟩ := hk
  have hlt := hl.tree
  unfold borrowLeft
  cases hkt with
  | @leaf o es load =>
    cases hlt with
    | @leaf o' es' load' =>
      cases hsib.symm.trans load'
      simp only [Summary.leaf,minKeys,maxKeys] at hkc hko hlend hlmax
      have hne : es'≠[] := by rintro rfl; simp at hlend
      rw [wp_bind,hko,wp_loadNode load,wp_bind,hkl,if_pos (by simp)]
      refine rewriteLeaves hcow hf ha hP hS hl ⟨.leaf load,hkh⟩ ?_ ?_ ?_ fun w s1 new hnew _ hcrc => ?_
      · simp only [Summary.leaf]
        rw [List.append_cons,getLastD_cons_dropLast hne]
      · simp [minKeys,maxKeys]; omega
      · simp [minKeys,maxKeys]; omega
      · exact (wp_pure _).2 ⟨new,hnew _ (by simp) hcrc⟩
  | @node h o kids hne below occ load =>
    cases hlt with
    | @node _ o' kids' hne' below' occ' load' =>
      cases hsib.symm.trans load'
      simp only [Summary.node,minKeys,maxKeys] at hkc hko hlend hlmax
      obtain ⟨init,last,hlast⟩ : ∃ init last,kids' = init++[last] :=
        ⟨_,_,(List.dropLast_append_getLast hne').symm⟩
      have hdrop : (kids'.map Summary.off).dropLast = init.map Summary.off := by simp [hlast]
      have hmoved : (kids'.map Summary.off).getLastD 0::kids.map Summary.off = (last::kids).map Summary.off := by
        simp [hlast]
      have hkids' : kids'.length = init.length+1 := by simp [hlast]
      have hall : init++last::kids = kids'++kids := by simp [hlast]
      rw [wp_bind,hko,wp_loadNode load,wp_bind,hkl,if_neg (by simp)]
      simp only [hdrop,hmoved]
      refine rewriteNodes hcow hf ha hd hP hS (.node o' kids') (.node o kids) ?_ ?_ ?_ ?_ fun w s1 new hnew _ hcrc => ?_
      · exact hall ▸ (Stored.siblings below' occ' hl.held).append (Stored.siblings below occ hkh)
      · simp only [hall,List.flatMap_append,Summary.node]
      · simp only [minKeys,maxKeys]; omega
      · simp only [minKeys,maxKeys,List.length_cons]; omega
      · exact (wp_pure _).2 ⟨new,hnew _ (by simp) hcrc⟩

theorem borrowRight_spec
    (hcow : ctx.inPlace = false) (hf : ctx.Fits) (hd : h ≤ depth) (ha : Allocating ctx first s)
    (hP : Siblings ctx first s h P) (hS : Siblings ctx first s h S) (hr : Stored ctx first s h r)
    (hlend : minKeys < r.count) (hk : Short ctx first s h k child)
    (hsib : v2LoadNode ctx s.bytes r.off = some sibling) :
    wp (borrowRight ctx depth ((P++k::r::S).map Summary.off) P.length child sibling) s
      (fun rp s' => ∃ new,Repaired ctx first s s' h (P++k::r::S) new rp) (fun f _ => f = .io) := by
  have hrmax := hr.tree.count_le
  obtain ⟨⟨hkt,hkh⟩,hkc,hko,hkl⟩ := hk
  have hrt := hr.tree
  unfold borrowRight
  cases hkt with
  | @leaf o es load =>
    cases hrt with
    | @leaf o' es' load' =>
      cases hsib.symm.trans load'
      simp only [Summary.leaf,minKeys,maxKeys] at hkc hko hlend hrmax
      have hne : es'≠[] := by rintro rfl; simp at hlend
      rw [wp_bind,hko,wp_loadNode load,wp_bind,hkl,if_pos (by simp)]
      refine rewriteLeaves hcow hf ha hP hS ⟨.leaf load,hkh⟩ hr ?_ ?_ ?_ fun w s1 new hnew hcrc _ => ?_
      · simp only [Summary.leaf]
        rw [List.append_assoc,List.singleton_append,headD_cons_tail hne]
      · simp [minKeys,maxKeys]; omega
      · simp [minKeys,maxKeys]; omega
      · exact (wp_pure _).2 ⟨new,hnew _ (by simp) hcrc⟩
  | @node h o kids hne below occ load =>
    cases hrt with
    | @node _ o' kids' hne' below' occ' load' =>
      cases hsib.symm.trans load'
      simp only [Summary.node,minKeys,maxKeys] at hkc hko hlend hrmax
      have hsk' := Stored.siblings below' occ' hr.held
      obtain ⟨c,rest,rfl⟩ := List.exists_cons_of_ne_nil hne'
      simp only [List.length_cons] at hlend hrmax
      have hmoved : kids.map Summary.off++[((c::rest).map Summary.off).headD 0] = (kids++[c]).map Summary.off := by
        simp
      have htail : ((c::rest).map Summary.off).tail = rest.map Summary.off := by simp
      have hall : (kids++[c])++rest = kids++c::rest := by simp
      rw [wp_bind,hko,wp_loadNode load,wp_bind,hkl,if_neg (by simp)]
      simp only [hmoved,htail]
      refine rewriteNodes hcow hf ha hd hP hS (.node o kids) (.node o' (c::rest)) ?_ ?_ ?_ ?_ fun w s1 new hnew hcrc _ => ?_
      · exact hall ▸ (Stored.siblings below occ hkh).append hsk'
      · simp only [hall,List.flatMap_append,Summary.node]
      · simp only [minKeys,maxKeys,List.length_append,List.length_singleton]; omega
      · simp only [minKeys,maxKeys]; omega
      · exact (wp_pure _).2 ⟨new,hnew _ (by simp) hcrc⟩

/-- Merging two neighbours that hold eleven keys together; an internal merge adds one. -/
theorem mergeAt_spec
    {left right : Node} (hcow : ctx.inPlace = false) (hf : ctx.Fits) (hd : h ≤ depth) (ha : Allocating ctx first s)
    (hP : Siblings ctx first s h P) (hS : Siblings ctx first s h S) (hl : Stored ctx first s h l)
    (hr : Stored ctx first s h r) (hsum : l.count+r.count+1 = maxKeys) (hleaf : child.leaf = decide (h = 0))
    (hll : v2LoadNode ctx s.bytes l.off = some left) (hlr : v2LoadNode ctx s.bytes r.off = some right) :
    wp (mergeAt ctx depth ((P++l::r::S).map Summary.off) P.length child left right) s
      (fun rp s' => ∃ new,Repaired ctx first s s' h (P++l::r::S) new rp) (fun f _ => f = .io) := by
  have hlt := hl.tree
  have hrt := hr.tree
  have hoffs : ∀ a : ℕ,(((P++l::r::S).map Summary.off).set P.length a).eraseIdx (P.length+1) =
      P.map Summary.off++a::S.map Summary.off := by
    intro a
    have := set_eraseIdx_pair (P.map Summary.off) (S.map Summary.off) l.off r.off a
    simpa using this
  unfold mergeAt
  cases hlt with
  | @leaf o es load =>
    cases hrt with
    | @leaf o' es' load' =>
      cases hll.symm.trans load
      cases hlr.symm.trans load'
      simp only [Summary.leaf,maxKeys] at hsum
      simp only [decide_true] at hleaf
      rw [wp_bind,hleaf,if_pos rfl]
      refine wp_mono (copyLeaf_spec hcow hf ha ?_ (by simp [maxKeys]; omega) _) ?_ fun f _ h => h
      · exact List.forall_mem_append.2 ⟨(nodeOk_of_load load).entry_length,(nodeOk_of_load load').entry_length⟩
      · rintro w s1 ⟨hext,hst,hcrc⟩
        refine (wp_pure _).2 ⟨P++_::S,repaired_one hf hP hS hext hst ?_ rfl ?_ rfl hcrc⟩
        · simp [Summary.leaf,minKeys,maxKeys]; omega
        · simpa [Summary.leaf] using hoffs w.1
  | @node h o kids hne below occ load =>
    cases hrt with
    | @node _ o' kids' hne' below' occ' load' =>
      cases hll.symm.trans load
      cases hlr.symm.trans load'
      have h2 := two_le_of_load load
      have h2' := two_le_of_load load'
      simp only [Summary.node,maxKeys] at hsum
      rw [wp_bind,hleaf,if_neg (by simp)]
      simp only [← List.map_append]
      refine wp_mono (v2WriteInternal_spec hcow hf hd ha ?_ (by simp; omega) (by simp [maxKeys]; omega) _) ?_
        fun f _ h => h
      · exact (Stored.siblings below occ hl.held).append (Stored.siblings below' occ' hr.held)
      · rintro w s1 ⟨hext,hst,hcrc⟩
        refine (wp_pure _).2 ⟨P++_::S,repaired_one hf hP hS hext hst ?_ ?_ ?_ rfl hcrc⟩
        · simp [Summary.node,minKeys,maxKeys]; omega
        · simp only [Summary.node,List.flatMap_append]
        · simpa [Summary.node] using hoffs w.1

end Dataman.IndexFile

import Dataman.IndexNodeCodec

/-!
# Page allocation and what a page write preserves

A page is held when it is neither free nor past the end. Writing a node turns a page
that is not held into a held one, except that a build may rewrite a page of its own.
Trees stored in held pages survive every such write.
-/

namespace Dataman.IndexFile
open ByteFiles FailState PageTree

variable {ctx : Context} {first : ℕ} {s s' s'' : IndexState}

/-- A page in use: on a page boundary behind the file names, inside the file, not free. -/
structure Held (ctx : Context) (first : ℕ) (s : IndexState) (p : ℕ) : Prop where
  aligned : ctx.pageSize ∣ p
  ge : first ≤ p
  lt : p < s.nextOffset
  notFree : p∉s.freePages

/-- The allocator state of a file made of whole pages. -/
structure Allocating (ctx : Context) (first : ℕ) (s : IndexState) : Prop where
  next_aligned : ctx.pageSize ∣ s.nextOffset
  first_le : first ≤ s.nextOffset
  next_le : s.nextOffset ≤ int64Max
  length_eq : s.bytes.length = s.nextOffset
  free_nodup : s.freePages.Nodup
  free_page : ∀ p∈s.freePages,ctx.pageSize ∣ p ∧ first ≤ p ∧ p < s.nextOffset

/-- Page writes between two states; `own` are the pages a build may rewrite. -/
structure PageWrites (ctx : Context) (first : ℕ) (own : Set ℕ) (s s' : IndexState)
    (ws : List (ℕ × Bytes)) : Prop where
  writes_eq : s'.writes = s.writes++ws
  bytes_eq : s'.bytes = applyWrites s.bytes ws
  page : ∀ w∈ws,ctx.pageSize ∣ w.1 ∧ first ≤ w.1 ∧ w.2.length = ctx.pageSize
  target : ∀ w∈ws,w.1∈own ∨ ¬ Held ctx first s w.1 ∧ Held ctx first s' w.1
  once : ws.Pairwise (fun v w => v.1 = w.1 → v.1∈own)

structure Extends (ctx : Context) (first : ℕ) (own : Set ℕ) (s s' : IndexState) : Prop where
  allocating : Allocating ctx first s'
  held : ∀ p,Held ctx first s p → Held ctx first s' p
  log : ∃ ws,PageWrites ctx first own s s' ws

variable {own : Set ℕ}

namespace Extends

theorem refl (ha : Allocating ctx first s) (own : Set ℕ) : Extends ctx first own s s :=
  ⟨ha,fun _ h => h,[],by simp,by simp,by simp,by simp,by simp⟩

theorem mono {own' : Set ℕ} (h : Extends ctx first own s s') (hsub : own ⊆ own') :
    Extends ctx first own' s s' := by
  obtain ⟨ha,hh,ws,hw⟩ := h
  exact ⟨ha,hh,ws,hw.writes_eq,hw.bytes_eq,hw.page,fun w hm => (hw.target w hm).imp_left fun h => hsub h,
    hw.once.imp fun hvw heq => hsub (hvw heq)⟩

theorem trans (h : Extends ctx first own s s') (h' : Extends ctx first own s' s'') :
    Extends ctx first own s s'' := by
  obtain ⟨ha,hh,ws,hw⟩ := h
  obtain ⟨ha',hh',vs,hv⟩ := h'
  refine ⟨ha',fun p hp => hh' p (hh p hp),ws++vs,?_,?_,?_,?_,?_⟩
  · rw [hv.writes_eq,hw.writes_eq,List.append_assoc]
  · rw [hv.bytes_eq,hw.bytes_eq,applyWrites_append]
  · intro w hm
    exact (List.mem_append.1 hm).elim (hw.page w) (hv.page w)
  · intro w hm
    rcases List.mem_append.1 hm with hm | hm
    · exact (hw.target w hm).imp_right fun h => ⟨h.1,hh' _ h.2⟩
    · exact (hv.target w hm).imp_right fun h => ⟨fun hp => h.1 (hh _ hp),h.2⟩
  · -- a page taken by the first part is held, so the second part does not take it again
    refine List.pairwise_append.2 ⟨hw.once,hv.once,fun v hm w hm' heq => ?_⟩
    rcases hw.target v hm with h | h
    · exact h
    · rcases hv.target w hm' with h' | h'
      · exact heq ▸ h'
      · exact absurd (heq ▸ h.2) h'.1

end Extends

/-! ## Disjoint pages -/

variable {size p q : ℕ}

theorem page_disjoint (hp : size ∣ p) (hq : size ∣ q) (hne : p≠q) :
    p+size ≤ q ∨ q+size ≤ p := by
  obtain ⟨a,rfl⟩ := hp
  obtain ⟨b,rfl⟩ := hq
  rcases lt_trichotomy a b with h | rfl | h
  · exact .inl (by rw [← Nat.mul_succ]; exact Nat.mul_le_mul_left _ h)
  · exact absurd rfl hne
  · exact .inr (by rw [← Nat.mul_succ]; exact Nat.mul_le_mul_left _ h)

/-- A page before an aligned end lies before it as a whole. -/
theorem page_inside {n : ℕ} (hp : size ∣ p) (hn : size ∣ n) (hlt : p < n) : p+size ≤ n := by
  rcases page_disjoint hp hn (Nat.ne_of_lt hlt) with h | h <;> omega

variable {n : Node} {f data : Bytes}

theorem load_writeAt (hf : ctx.Fits)
    (hp : ctx.pageSize ∣ p) (hq : ctx.pageSize ∣ q) (hd : data.length ≤ ctx.pageSize) (hne : p≠q)
    (hl : v2LoadNode ctx f p = some n) : v2LoadNode ctx (writeAt f q data) p = some n := by
  refine v2LoadNode_frame hf hl fun off len bs h1 h2 => readAt_writeAt_disjoint ?_
  have := page_disjoint hp hq hne
  omega

theorem load_applyWrites {ws : List (ℕ × Bytes)} (hf : ctx.Fits)
    (hp : ctx.pageSize ∣ p) (hws : ∀ w∈ws,ctx.pageSize ∣ w.1 ∧ w.2.length ≤ ctx.pageSize ∧ p≠w.1)
    (hl : v2LoadNode ctx f p = some n) : v2LoadNode ctx (applyWrites f ws) p = some n := by
  induction ws generalizing f with
  | nil => exact hl
  | cons w ws ih =>
    obtain ⟨hq,hd,hne⟩ := hws w List.mem_cons_self
    exact ih (fun v hv => hws v (List.mem_cons_of_mem _ hv)) (load_writeAt hf hp hq hd hne hl)

/-- A held page that may not be rewritten keeps its node. -/
theorem Extends.loads (hf : ctx.Fits) (h : Extends ctx first own s s')
    (hp : Held ctx first s p) (hown : p∉own) (hl : v2LoadNode ctx s.bytes p = some n) :
    v2LoadNode ctx s'.bytes p = some n := by
  obtain ⟨-,-,ws,hw⟩ := h
  rw [hw.bytes_eq]
  refine load_applyWrites hf hp.aligned (fun w hm => ⟨(hw.page w hm).1,(hw.page w hm).2.2.le,?_⟩) hl
  rintro rfl
  rcases hw.target w hm with h | h
  · exact hown h
  · exact h.1 hp

/-! ## Trees in held pages -/

/-- A tree in the pages of a file. -/
abbrev Tree (ctx : Context) (f : Bytes) : ℕ → Summary Bytes → Prop :=
  Subtree (v2LoadNode ctx f) minKeys maxKeys

structure Stored (ctx : Context) (first : ℕ) (s : IndexState) (h : ℕ) (t : Summary Bytes) : Prop where
  tree : Tree ctx s.bytes h t
  held : ∀ p∈t.pages,Held ctx first s p

variable {h : ℕ} {t : Summary Bytes}

theorem Stored.extend (hf : ctx.Fits) (ht : Stored ctx first s h t)
    (he : Extends ctx first own s s') (hown : ∀ p∈t.pages,p∉own) : Stored ctx first s' h t :=
  ⟨ht.tree.frame fun p hp _ => he.loads hf (ht.held p hp) (hown p hp),fun p hp => he.held p (ht.held p hp)⟩

theorem Tree.entry_length (ht : Tree ctx f h t) :
    ∀ e∈t.entries,e.length = ctx.entrySize := by
  induction ht with
  | leaf load => exact (nodeOk_of_load load).entry_length
  | node _ _ _ _ ih =>
    intro e he
    obtain ⟨k,hk,he⟩ := List.mem_flatMap.1 he
    exact ih k hk e he

/-! ## Writing a node -/

/-- The page that a build rewrites when it is given a page of its own. -/
def rewritten (ctx : Context) (offset : ℕ) : Set ℕ := {p | ctx.inPlace = true ∧ offset≠0 ∧ p = offset}

/-- Where a node may go. -/
structure Placed (ctx : Context) (first : ℕ) (s : IndexState) (offset p : ℕ) : Prop where
  own_or_new : p∈rewritten ctx offset ∨ ¬ Held ctx first s p
  in_place : ctx.inPlace = true → offset≠0 → p = offset

theorem wp_writeFullAt {off : ℕ} {Q : Unit → IndexState → Prop} {E : Fault → IndexState → Prop} :
    wp (writeFullAt data off) s Q E ↔ if off+data.length ≤ int64Max then
      Q () { s with bytes := writeAt s.bytes off data,writes := s.writes++[(off,data)] } else E .io s := by
  by_cases h : off+data.length ≤ int64Max <;> simp [wp,writeFullAt,h]

/-- One page write, seen as an extension. -/
theorem Extends.of_write (hd : data.length = ctx.pageSize)
    (hbytes : s'.bytes = writeAt s.bytes p data) (hwrites : s'.writes = s.writes++[(p,data)])
    (ha : Allocating ctx first s') (hheld : ∀ q,Held ctx first s q → Held ctx first s' q)
    (hp : Held ctx first s' p) (hown : p∈own ∨ ¬ Held ctx first s p) : Extends ctx first own s s' := by
  refine ⟨ha,hheld,[(p,data)],hwrites,hbytes,?_,?_,List.pairwise_singleton _ _⟩
  · intro w hw
    rw [List.mem_singleton.1 hw]
    exact ⟨hp.aligned,hp.ge,hd⟩
  · intro w hw
    rw [List.mem_singleton.1 hw]
    exact hown.imp_right fun h => ⟨h,hp⟩

/-- A write inside the file keeps its length. -/
theorem length_writeAt_page {n : ℕ} (hlen : f.length = n) (hle : p+data.length ≤ n) :
    (writeAt f p data).length = n := by
  by_cases hd : data = []
  · simp [hd,hlen]
  · rw [length_writeAt _ _ _ hd]
    omega

theorem allocatePage_cases (ctx : Context) (offset : ℕ) (s : IndexState) :
    (ctx.inPlace = true ∧ offset≠0 ∧ allocatePage ctx offset s = (.ok offset,s)) ∨
    (¬ (ctx.inPlace = true ∧ offset≠0) ∧
      ((∃ free page,s.freePages = free++[page] ∧
        allocatePage ctx offset s = (.ok page,{ s with freePages := free })) ∨
      (s.freePages = [] ∧
        allocatePage ctx offset s = (.ok s.nextOffset,{ s with nextOffset := s.nextOffset+ctx.pageSize })))) := by
  unfold allocatePage
  by_cases hin : ctx.inPlace = true ∧ offset≠0
  · exact .inl ⟨hin.1,hin.2,by rw [if_pos hin]⟩
  · refine .inr ⟨hin,?_⟩
    rw [if_neg hin]
    rcases List.eq_nil_or_concat s.freePages with h | ⟨free,page,h⟩
    · exact .inr ⟨h,by rw [h]; rfl⟩
    · exact .inl ⟨free,page,by simpa using h,by simp [h]⟩

variable {offset : ℕ}

/-- The three ways of allocating a page, each followed by the write of the page. -/
theorem allocate_write_spec (hps : 0 < ctx.pageSize) (hd : data.length = ctx.pageSize)
    (ha : Allocating ctx first s) (ho : ctx.inPlace = true → offset≠0 → Held ctx first s offset) :
    wp (allocatePage ctx offset >>= fun page => writeFullAt data page >>= fun _ => pure page) s
      (fun p s' => Extends ctx first (rewritten ctx offset) s s' ∧ Held ctx first s' p ∧
        Placed ctx first s offset p ∧ s'.bytes = writeAt s.bytes p data ∧ p ≤ int64Max)
      (fun e _ => e = .io) := by
  rcases allocatePage_cases ctx offset s with ⟨hin,h0,hal⟩ | ⟨hin,⟨free,page,hfree,hal⟩ | ⟨hfree,hal⟩⟩
  · have hp := ho hin h0
    have hend : offset+data.length ≤ s.nextOffset := hd ▸ page_inside hp.aligned ha.next_aligned hp.lt
    rw [wp_bind,wp_of_ok hal]
    refine (wp_bind _ _).2 (wp_writeFullAt.2 ?_)
    split
    · have hheld : ∀ q,Held ctx first s q → Held ctx first { s with
          bytes := writeAt s.bytes offset data,writes := s.writes++[(offset,data)] } q :=
        fun q hq => ⟨hq.aligned,hq.ge,hq.lt,hq.notFree⟩
      refine (wp_pure _).2 ⟨.of_write hd rfl rfl ?_ hheld (hheld _ hp) (.inl ⟨hin,h0,rfl⟩),hheld _ hp,
        ⟨.inl ⟨hin,h0,rfl⟩,fun _ _ => rfl⟩,rfl,by omega⟩
      exact ⟨ha.next_aligned,ha.first_le,ha.next_le,length_writeAt_page ha.length_eq hend,
        ha.free_nodup,ha.free_page⟩
    · rfl
  · obtain ⟨haln,hge,hlt⟩ := ha.free_page page (by simp [hfree])
    have hend : page+data.length ≤ s.nextOffset := hd ▸ page_inside haln ha.next_aligned hlt
    have hnd := ha.free_nodup
    rw [hfree] at hnd
    have hnot : page∉free := fun hm => List.disjoint_of_nodup_append hnd hm (List.mem_singleton_self _)
    rw [wp_bind,wp_of_ok hal]
    refine (wp_bind _ _).2 (wp_writeFullAt.2 ?_)
    split
    · have hheld : ∀ q,Held ctx first s q → Held ctx first { s with
          bytes := writeAt s.bytes page data,writes := s.writes++[(page,data)],freePages := free } q :=
        fun q hq => ⟨hq.aligned,hq.ge,hq.lt,fun hm => hq.notFree (by rw [hfree]; exact List.mem_append_left _ hm)⟩
      have hnew : ¬ Held ctx first s page := fun hq => hq.notFree (by simp [hfree])
      refine (wp_pure _).2 ⟨.of_write hd rfl rfl ?_ hheld ⟨haln,hge,hlt,hnot⟩ (.inr hnew),⟨haln,hge,hlt,hnot⟩,
        ⟨.inr hnew,fun h h' => absurd ⟨h,h'⟩ hin⟩,rfl,by have := ha.next_le; omega⟩
      exact ⟨ha.next_aligned,ha.first_le,ha.next_le,length_writeAt_page ha.length_eq hend,
        hnd.of_append_left,fun q hq => ha.free_page q (by rw [hfree]; exact List.mem_append_left _ hq)⟩
    · rfl
  · rw [wp_bind,wp_of_ok hal]
    refine (wp_bind _ _).2 (wp_writeFullAt.2 ?_)
    split
    · rename_i hio
      have hheld : ∀ q,Held ctx first s q → Held ctx first { s with
          bytes := writeAt s.bytes s.nextOffset data,writes := s.writes++[(s.nextOffset,data)],
          nextOffset := s.nextOffset+ctx.pageSize } q :=
        fun q hq => ⟨hq.aligned,hq.ge,Nat.lt_of_lt_of_le hq.lt (Nat.le_add_right _ _),hq.notFree⟩
      have hnew : ¬ Held ctx first s s.nextOffset := fun hq => lt_irrefl _ hq.lt
      have hp : Held ctx first { s with
          bytes := writeAt s.bytes s.nextOffset data,writes := s.writes++[(s.nextOffset,data)],
          nextOffset := s.nextOffset+ctx.pageSize } s.nextOffset :=
        ⟨ha.next_aligned,ha.first_le,by simp only; omega,by simp [hfree]⟩
      refine (wp_pure _).2 ⟨.of_write hd rfl rfl ?_ hheld hp (.inr hnew),hp,⟨.inr hnew,fun h h' => absurd ⟨h,h'⟩ hin⟩,
        rfl,by omega⟩
      have hne : data≠[] := by rintro rfl; simp at hd; omega
      refine ⟨Nat.dvd_add ha.next_aligned (Nat.dvd_refl _),by have := ha.first_le; simp only; omega,
        by simp only; omega,?_,by simp [hfree],by simp [hfree]⟩
      simp only [length_writeAt _ _ _ hne,ha.length_eq,hd]
      omega
    · rfl

theorem v2WriteNode_spec (hf : ctx.Fits) (ha : Allocating ctx first s)
    (hn : NodeOk ctx n) (ho : ctx.inPlace = true → offset≠0 → Held ctx first s offset) :
    wp (v2WriteNode ctx n offset) s
      (fun r s' => Extends ctx first (rewritten ctx offset) s s' ∧ Held ctx first s' r.1 ∧
        Placed ctx first s offset r.1 ∧ v2LoadNode ctx s'.bytes r.1 = some n ∧ r.2 < 2 ^ 32)
      (fun e _ => e = .io) := by
  have hroom := hf.room
  have hle := le_trans (payloadLength_le ctx.entrySize n.leaf hn.count_le) hroom
  have hspec := allocate_write_spec (by omega) (length_pageBytes hf hn) ha ho
  simp only [wp_bind,wp_pure] at hspec
  simp only [v2WriteNode,wp_bind,wp_ensure,hn.count_le,hle,decide_true,if_true,wp_pure]
  refine wp_mono hspec (fun p s1 h1 => wp_mono h1 ?_ fun e s2 h2 => h2) fun e s1 h1 => h1
  rintro - s2 ⟨hext,hheld,hplaced,hbytes,hp⟩
  exact ⟨hext,hheld,hplaced,hbytes ▸ v2LoadNode_page hf hn hp,nodeCrc_lt ctx n⟩

/-- Writing a leaf. -/
theorem writeLeaf_spec {es : List Bytes} (hf : ctx.Fits) (ha : Allocating ctx first s)
    (hes : ∀ e∈es,e.length = ctx.entrySize) (hlen : es.length ≤ maxKeys)
    (ho : ctx.inPlace = true → offset≠0 → Held ctx first s offset) :
    wp (v2WriteNode ctx ⟨true,es,[]⟩ offset) s
      (fun r s' => Extends ctx first (rewritten ctx offset) s s' ∧ Stored ctx first s' 0 (.leaf r.1 es) ∧
        Placed ctx first s offset r.1 ∧ r.2 < 2 ^ 32)
      (fun e _ => e = .io) := by
  have hn : NodeOk ctx ⟨true,es,[]⟩ := ⟨hes,hlen,fun _ => rfl,by simp,by simp⟩
  refine wp_mono (v2WriteNode_spec hf ha hn ho) ?_ fun e s1 h1 => h1
  rintro r s1 ⟨hext,hheld,hplaced,hload,hcrc⟩
  refine ⟨hext,⟨.leaf hload,fun p hp => ?_⟩,hplaced,hcrc⟩
  rw [List.mem_singleton.1 hp]
  exact hheld

/-- Children that a node may be written over. -/
structure Siblings (ctx : Context) (first : ℕ) (s : IndexState) (h : ℕ) (kids : List (Summary Bytes)) : Prop where
  stored : ∀ k∈kids,Stored ctx first s h k
  occ : ∀ k∈kids,minKeys ≤ k.count ∧ k.count ≤ maxKeys

variable {kids : List (Summary Bytes)}

theorem Siblings.entries_ne_nil (hk : Siblings ctx first s h kids) :
    ∀ k∈kids,k.entries≠[] := fun k hm =>
  (hk.stored k hm).tree.entries_ne_nil (by decide) (le_trans (by decide) (hk.occ k hm).1)

theorem Siblings.extend (hf : ctx.Fits)
    (hk : Siblings ctx first s h kids) (he : Extends ctx first own s s')
    (hown : ∀ p∈kids.flatMap Summary.pages,p∉own) : Siblings ctx first s' h kids :=
  ⟨fun k hm => (hk.stored k hm).extend hf he fun p hp => hown p (List.mem_flatMap.2 ⟨k,hm,hp⟩),hk.occ⟩

theorem Siblings.nodeOk (ha : Allocating ctx first s)
    (hk : Siblings ctx first s h kids) (h2 : 2 ≤ kids.length) (h13 : kids.length ≤ maxKeys+1) :
    NodeOk ctx ⟨false,seps kids,kids.map Summary.off⟩ := by
  refine ⟨fun e he => ?_,by simp only [length_seps]; omega,by simp,fun _ => ?_,fun c hc => ?_⟩
  · obtain ⟨k,hm,rfl⟩ := List.mem_map.1 he
    have hm' := List.mem_of_mem_tail hm
    exact (hk.stored k hm').tree.entry_length _ (first_mem (hk.entries_ne_nil k hm'))
  · simp only [length_seps,List.length_map]
    omega
  · obtain ⟨k,hm,rfl⟩ := List.mem_map.1 hc
    have hst := hk.stored k hm
    have h1 := (hst.held _ hst.tree.off_mem_pages).lt
    have h2 := ha.next_le
    simp only [int64Max] at h2
    omega

/-- Writing an internal node over stored children. -/
theorem writeInternal_spec (hf : ctx.Fits)
    (ha : Allocating ctx first s) (hk : Siblings ctx first s h kids) (h2 : 2 ≤ kids.length)
    (h13 : kids.length ≤ maxKeys+1) (ho : ctx.inPlace = true → offset≠0 → Held ctx first s offset)
    (hown : ∀ p∈kids.flatMap Summary.pages,p∉rewritten ctx offset) :
    wp (v2WriteNode ctx ⟨false,seps kids,kids.map Summary.off⟩ offset) s
      (fun r s' => Extends ctx first (rewritten ctx offset) s s' ∧ Stored ctx first s' (h+1) (.node r.1 kids) ∧
        Placed ctx first s offset r.1 ∧ r.2 < 2 ^ 32 ∧
        v2LoadNode ctx s'.bytes r.1 = some ⟨false,seps kids,kids.map Summary.off⟩)
      (fun e _ => e = .io) := by
  refine wp_mono (v2WriteNode_spec hf ha (hk.nodeOk ha h2 h13) ho) ?_ fun e s1 h1 => h1
  rintro r s1 ⟨hext,hheld,hplaced,hload,hcrc⟩
  have hk' := hk.extend hf hext hown
  have hne : kids≠[] := by rintro rfl; simp at h2
  refine ⟨hext,⟨.node hne (fun k hm => (hk'.stored k hm).tree) hk'.occ hload,fun p hp => ?_⟩,hplaced,hcrc,hload⟩
  rcases List.mem_cons.1 hp with rfl | hp
  · exact hheld
  · obtain ⟨k,hm,hp⟩ := List.mem_flatMap.1 hp
    exact (hk'.stored k hm).held p hp

end Dataman.IndexFile

import Dataman.IndexSearch
import Dataman.PageTreeLeaves

/-!
# Insertion into a stored tree

Inserting below a page yields one tree of the same height, or two when the page was
split. Their entries are those of the old tree with the new entry in its place, and
all pages that were in use keep their nodes.
-/

namespace Dataman.IndexFile
open FixedWidthFields FailState PageTree

variable {ctx : Context} {first : ℕ} {s s' : IndexState}

/-! ## Positions -/

theorem leafPosition_spec (e : Bytes) (es : List Bytes) (hlen : ∀ x∈es,x.length = e.length) :
    match leafPosition e es with
    | none => e∈es
    | some p => es.take p++e::es.drop p = es.orderedInsert (· ≤ ·) e ∧
        (es.Pairwise (· < ·) → e∉es) := by
  induction es with
  | nil => simp [leafPosition]
  | cons x xs ih =>
    have hx : e.length = x.length := (hlen x List.mem_cons_self).symm
    have ih := ih fun y hy => hlen y (List.mem_cons_of_mem _ hy)
    rcases lt_trichotomy e x with hlt | rfl | hgt
    · have hc := (memcmp_eq_lt_iff hx).2 hlt
      simp only [leafPosition,hc]
      refine ⟨by simp [le_of_lt hlt],fun hs hm => ?_⟩
      rcases List.mem_cons.1 hm with rfl | hm
      · exact lt_irrefl _ hlt
      · exact lt_asymm hlt ((List.pairwise_cons.1 hs).1 e hm)
    · simp [leafPosition,(memcmp_eq_eq_iff hx).2 rfl]
    · have hc := (memcmp_eq_gt_iff hx).2 hgt
      simp only [leafPosition,hc]
      cases hp : leafPosition e xs with
      | none =>
        rw [hp] at ih
        exact List.mem_cons_of_mem _ ih
      | some p =>
        rw [hp] at ih
        refine ⟨by simp [not_le.2 hgt,ih.1],fun hs hm => ?_⟩
        rcases List.mem_cons.1 hm with rfl | hm
        · exact lt_irrefl _ hgt
        · exact ih.2 (List.pairwise_cons.1 hs).2 hm

variable {e : Bytes} {es : List Bytes} {p : ℕ}

theorem leafPosition_le (h : leafPosition e es = some p) : p ≤ es.length := by
  induction es generalizing p with
  | nil =>
    obtain rfl : 0 = p := Option.some.inj h
    exact le_rfl
  | cons x xs ih =>
    rw [leafPosition] at h
    split at h
    · cases h
    · obtain rfl : 0 = p := Option.some.inj h
      exact Nat.zero_le _
    · obtain ⟨q,hq,rfl⟩ := Option.map_eq_some_iff.1 h
      exact Nat.succ_le_succ (ih hq)

theorem headI_drop {α : Type} [Inhabited α] (l : List α) (n : ℕ) : (l.drop n).headI = l.getD n default := by
  induction l generalizing n with
  | nil => simp
  | cons a l ih =>
    cases n with
    | zero => rfl
    | succ n => simpa using ih n

/-! ## The result of an insertion -/

/-- The pages that an insertion below `t` may rewrite. -/
def ownPages (ctx : Context) (t : Summary Bytes) : Set ℕ := {p | ctx.inPlace = true ∧ p∈t.pages}

/-- The trees that replace `t` after inserting `e`. -/
structure Inserted (ctx : Context) (first : ℕ) (s s' : IndexState) (h : ℕ) (t : Summary Bytes) (e : Bytes)
    (r : InsertResult) (ts : List (Summary Bytes)) : Prop where
  stored : ∀ k∈ts,Stored ctx first s' h k
  offs : ts.map Summary.off = r.offset::r.split.toList.map (·.1)
  keys : seps ts = r.split.toList.map (·.2)
  entries : ts.flatMap Summary.entries = t.entries.orderedInsert (· ≤ ·) e
  grown : ∀ k∈ts,t.count ≤ k.count ∨ minKeys ≤ k.count
  halves : r.split≠none → ∀ k∈ts,minKeys ≤ k.count
  pages : ∀ p∈ts.flatMap Summary.pages,p∈t.pages ∨ ¬ Held ctx first s p
  nodup : ctx.inPlace = true → (ts.flatMap Summary.pages).Nodup
  in_place : ctx.inPlace = true → r.offset = t.off
  crc_lt : r.crc < 2 ^ 32
  place : ∃ k∈ts,∃ es,LeafBelow (v2LoadNode ctx s'.bytes) k.off r.leafOffset es ∧ es[r.leafIndex]? = some e

variable {h o : ℕ} {k : Summary Bytes}

/-- A leaf of a stored tree survives writes elsewhere. -/
theorem Stored.leaf_extend {own : Set ℕ} (hf : ctx.Fits)
    (hk : Stored ctx first s h k) (he : Extends ctx first own s s') (hown : ∀ p∈k.pages,p∉own)
    (hl : LeafBelow (v2LoadNode ctx s.bytes) k.off o es) : LeafBelow (v2LoadNode ctx s'.bytes) k.off o es :=
  hl.frame hk.tree hk.tree.off_mem_pages fun p hp _ => he.loads hf (hk.held p hp) (hown p hp)

variable {t : Summary Bytes}

/-- Every stored tree has at most the maximal number of keys at its root. -/
theorem Tree.count_le {f : Bytes} (ht : Tree ctx f h t) : t.count ≤ maxKeys := by
  cases ht with
  | leaf load => exact (nodeOk_of_load load).count_le
  | node _ _ _ load =>
    have := (nodeOk_of_load load).count_le
    rwa [length_seps] at this

theorem mem_rewritten_own (h : p∈rewritten ctx (if ctx.inPlace then o else 0)) :
    ctx.inPlace = true ∧ p = o := by
  obtain ⟨hin,-,hp⟩ := h
  rw [if_pos hin] at hp
  exact ⟨hin,hp⟩

theorem notMem_rewritten_zero (p : ℕ) : p∉rewritten ctx 0 := fun h => h.2.1 rfl

theorem placed_zero (h : Placed ctx first s 0 p) : ¬ Held ctx first s p :=
  h.own_or_new.resolve_left (notMem_rewritten_zero p)

theorem Extends.of_zero (h : Extends ctx first (rewritten ctx 0) s s') (own : Set ℕ) :
    Extends ctx first own s s' := h.mono fun p hp => absurd hp (notMem_rewritten_zero p)

theorem held_own (ho : Held ctx first s o) :
    ctx.inPlace = true → (if ctx.inPlace then o else 0)≠0 → Held ctx first s (if ctx.inPlace then o else 0) := by
  intro hin _
  rwa [if_pos hin]

theorem placed_own (hfirst : 0 < first) (ho : Held ctx first s o)
    (h : Placed ctx first s (if ctx.inPlace then o else 0) p) (hin : ctx.inPlace = true) : p = o := by
  have hge := ho.ge
  have := h.in_place hin (by rw [if_pos hin]; omega)
  rwa [if_pos hin] at this

/-! ## Leaves -/

theorem writeLeafEntries_spec {new : List Bytes} (hf : ctx.Fits) (hfirst : 0 < first)
    (ha : Allocating ctx first s) (ho : Held ctx first s o) (hnew : new = es.orderedInsert (· ≤ ·) e)
    (hlen : ∀ x∈new,x.length = ctx.entrySize) (hes : es.length ≤ maxKeys) {position : ℕ}
    (hposition : new[position]? = some e) :
    wp (writeLeafEntries ctx (if ctx.inPlace then o else 0) new position) s
      (fun r s' => Extends ctx first (ownPages ctx (.leaf o es)) s s' ∧
        ∃ ts,Inserted ctx first s s' 0 (.leaf o es) e r ts)
      (fun f _ => f = .io) := by
  have hcount : new.length = es.length+1 := by rw [hnew,List.orderedInsert_length]
  have hown : rewritten ctx (if ctx.inPlace then o else 0) ⊆ ownPages ctx (.leaf o es) := fun p hp =>
    ⟨(mem_rewritten_own hp).1,List.mem_singleton.2 (mem_rewritten_own hp).2⟩
  have hpage : ∀ p,Placed ctx first s (if ctx.inPlace then o else 0) p → p = o ∨ ¬ Held ctx first s p :=
    fun p hp => hp.own_or_new.imp_left fun h => (mem_rewritten_own h).2
  unfold writeLeafEntries
  split
  · rename_i hfits
    simp only [wp_bind,wp_pure]
    refine wp_mono (writeLeaf_spec hf ha hlen hfits (held_own ho)) ?_ fun f _ h => h
    rintro ⟨page,crc⟩ s1 ⟨hext,hst,hplaced,hcrc⟩
    refine ⟨hext.mono hown,[.leaf page new],?_⟩
    constructor
    case stored => simpa using hst
    case offs => rfl
    case keys => rfl
    case entries => simp [Summary.leaf,hnew]
    case grown => simp [Summary.leaf,hcount]
    case halves => simp
    case pages => simpa [Summary.leaf] using hpage page hplaced
    case nodup => simp [Summary.leaf]
    case in_place => exact placed_own hfirst ho hplaced
    case crc_lt => exact hcrc
    case place => exact ⟨_,List.mem_singleton_self _,new,.here hst.tree.leaf_load,hposition⟩
  · rename_i hover
    have hover : es.length = maxKeys := by omega
    simp only [wp_bind]
    have htake : ∀ x∈new.take (maxKeys / 2),x.length = ctx.entrySize := fun x hx => hlen x (List.mem_of_mem_take hx)
    have hdrop : ∀ x∈new.drop (maxKeys / 2),x.length = ctx.entrySize := fun x hx => hlen x (List.mem_of_mem_drop hx)
    simp only [maxKeys] at hover
    refine wp_mono (writeLeaf_spec hf ha htake (by simp [maxKeys]) (held_own ho)) ?_ fun f _ h => h
    rintro ⟨page,crc⟩ s1 ⟨hext,hst,hplaced,hcrc⟩
    refine wp_mono (writeLeaf_spec hf hext.allocating hdrop (by simp [maxKeys]; omega) fun _ h => absurd rfl h)
      ?_ fun f _ h => h
    rintro ⟨right,rcrc⟩ s2 ⟨hext',hst',hplaced',-⟩
    have hright := placed_zero hplaced'
    have hpheld : Held ctx first s1 page := hst.held page (List.mem_singleton_self _)
    have hst2 : Stored ctx first s2 0 (.leaf page (new.take (maxKeys / 2))) :=
      hst.extend hf hext' fun p _ => notMem_rewritten_zero p
    -- both placements of the cursor return the same pages
    have hins : ∀ r : InsertResult,r.offset = page → r.crc = crc →
        r.split = some (right,new.getD (maxKeys / 2) []) →
        (r.leafOffset = page ∧ (new.take (maxKeys / 2))[r.leafIndex]? = some e ∨
          r.leafOffset = right ∧ (new.drop (maxKeys / 2))[r.leafIndex]? = some e) →
        Inserted ctx first s s2 0 (.leaf o es) e r
          [.leaf page (new.take (maxKeys / 2)),.leaf right (new.drop (maxKeys / 2))] := by
      intro r hro hrc hrs hleaf
      constructor
      case stored => simpa using ⟨hst2,hst'⟩
      case offs => simp [hro,hrs,Summary.leaf]
      case keys =>
        simp only [seps,List.tail_cons,List.map_cons,List.map_nil,Summary.first,Summary.leaf,headI_drop,hrs]
        rfl
      case entries => simp [Summary.leaf,hnew]
      case grown => simp [Summary.leaf,hcount,hover,minKeys,maxKeys]
      case halves => simp [Summary.leaf,hcount,hover,minKeys,maxKeys]
      case pages =>
        have := hpage page hplaced
        have : ¬ Held ctx first s right := fun h => hright (hext.held _ h)
        simp_all [Summary.leaf]
      case nodup =>
        intro _
        have hne : page≠right := fun h => hright (h ▸ hpheld)
        simpa [Summary.leaf] using hne
      case in_place => exact fun hin => hro.trans (placed_own hfirst ho hplaced hin)
      case crc_lt => exact hrc ▸ hcrc
      case place =>
        obtain ⟨ho,hi⟩ | ⟨ho,hi⟩ := hleaf
        · refine ⟨.leaf page (new.take (maxKeys / 2)),by simp,_,?_,hi⟩
          rw [ho]
          exact .here hst2.tree.leaf_load
        · refine ⟨.leaf right (new.drop (maxKeys / 2)),by simp,_,?_,hi⟩
          rw [ho]
          exact .here hst'.tree.leaf_load
    have hext2 := (hext.mono hown).trans (hext'.of_zero _)
    split
    · rename_i hhalf
      refine (wp_pure _).2 ⟨hext2,_,hins _ rfl rfl rfl (.inl ⟨rfl,?_⟩)⟩
      rw [List.getElem?_take_of_lt hhalf,hposition]
    · rename_i hhalf
      refine (wp_pure _).2 ⟨hext2,_,hins _ rfl rfl rfl (.inr ⟨rfl,?_⟩)⟩
      rw [List.getElem?_drop,Nat.add_sub_cancel' (by omega),hposition]

/-! ## Internal nodes -/

theorem nodup_replace {A K B K' : List ℕ} (h : (A++K++B).Nodup) (hK : K'.Nodup)
    (hfrom : ∀ p∈K',p∈K ∨ p∉A ∧ p∉B) : (A++K'++B).Nodup := by
  obtain ⟨hAK,hB,hAKB⟩ := List.nodup_append.1 h
  obtain ⟨hA,-,hAK'⟩ := List.nodup_append.1 hAK
  refine List.nodup_append.2 ⟨List.nodup_append.2 ⟨hA,hK,?_⟩,hB,?_⟩
  · rintro a ha b hb rfl
    rcases hfrom a hb with h | h
    · exact hAK' a ha a h rfl
    · exact h.1 ha
  · rintro a ha b hb rfl
    rcases List.mem_append.1 ha with ha | ha
    · exact hAKB a (List.mem_append_left _ ha) a hb rfl
    · rcases hfrom a ha with h | h
      · exact hAKB a (List.mem_append_right _ h) a hb rfl
      · exact h.2 hb

/-- The children of a node after one of them was replaced. -/
structure Renewed (ctx : Context) (first : ℕ) (s s' : IndexState) (h o : ℕ) (kids kids' : List (Summary Bytes)) :
    Prop where
  siblings : Siblings ctx first s' h kids'
  pages : ∀ p∈kids'.flatMap Summary.pages,p∈kids.flatMap Summary.pages ∨ ¬ Held ctx first s p
  nodup : ctx.inPlace = true → (kids'.flatMap Summary.pages).Nodup
  off_notMem : ctx.inPlace = true → o∉kids'.flatMap Summary.pages
  length_ge : kids.length ≤ kids'.length
  length_le : kids'.length ≤ maxKeys+2

variable {r : InsertResult} {ts : List (Summary Bytes)}

theorem Inserted.ts_cons
    (hi : Inserted ctx first s s' h t e r ts) : ∃ u us,ts = u::us ∧ us.length ≤ 1 := by
  have hoffs := hi.offs
  cases ts with
  | nil => simp at hoffs
  | cons u us =>
    refine ⟨u,us,rfl,?_⟩
    have hl := congrArg List.length hoffs
    have hone : r.split.toList.length ≤ 1 := by cases r.split <;> simp
    simp only [List.length_map,List.length_cons] at hl
    omega

/-- Replacing the child that the entry was inserted below. -/
theorem renewed_of_inserted {A B : List (Summary Bytes)}
    (hf : ctx.Fits)
    (hk : Siblings ctx first s h (A++k::B)) (ho : Held ctx first s o)
    (hnd : ctx.inPlace = true → (o::(A++k::B).flatMap Summary.pages).Nodup)
    (hle : (A++k::B).length ≤ maxKeys+1)
    (hext : Extends ctx first (ownPages ctx k) s s') (hi : Inserted ctx first s s' h k e r ts) :
    Renewed ctx first s s' h o (A++k::B) (A++ts++B) := by
  have hflat : (A++k::B).flatMap Summary.pages =
      A.flatMap Summary.pages++k.pages++B.flatMap Summary.pages := by simp
  have hheld : ∀ c∈A++k::B,∀ p∈c.pages,Held ctx first s p := fun c hc p hp => (hk.stored c hc).held p hp
  have hnd' : ctx.inPlace = true → (A.flatMap Summary.pages++k.pages++B.flatMap Summary.pages).Nodup :=
    fun hin => hflat ▸ (List.nodup_cons.1 (hnd hin)).2
  have hside : ∀ c,c∈A ∨ c∈B → c∈A++k::B := by
    rintro c (hc | hc) <;> simp [hc]
  -- the other children do not share pages with the replaced one
  have hapart : ∀ c,c∈A ∨ c∈B → ∀ p∈c.pages,p∉ownPages ctx k := by
    rintro c hc p hp ⟨hin,hpk⟩
    obtain ⟨hAK,-,hAKB⟩ := List.nodup_append.1 (hnd' hin)
    rcases hc with hc | hc
    · exact (List.nodup_append.1 hAK).2.2 p (List.mem_flatMap.2 ⟨c,hc,hp⟩) p hpk rfl
    · exact hAKB p (List.mem_append_right _ hpk) p (List.mem_flatMap.2 ⟨c,hc,hp⟩) rfl
  have hnew : ∀ p∈ts.flatMap Summary.pages,
      p∈k.pages ∨ p∉A.flatMap Summary.pages ∧ p∉B.flatMap Summary.pages := by
    intro p hp
    refine (hi.pages p hp).imp_right fun hn => ⟨fun hm => hn ?_,fun hm => hn ?_⟩
    · obtain ⟨c,hc,hpc⟩ := List.mem_flatMap.1 hm
      exact hheld c (hside c (.inl hc)) p hpc
    · obtain ⟨c,hc,hpc⟩ := List.mem_flatMap.1 hm
      exact hheld c (hside c (.inr hc)) p hpc
  have hpages : ∀ p∈(A++ts++B).flatMap Summary.pages,
      p∈(A++k::B).flatMap Summary.pages ∨ ¬ Held ctx first s p := by
    intro p hp
    simp only [List.flatMap_append,List.mem_append] at hp
    simp only [hflat,List.mem_append]
    rcases hp with (hp | hp) | hp
    · exact .inl (.inl (.inl hp))
    · exact (hi.pages p hp).imp_left fun h => .inl (.inr h)
    · exact .inl (.inr hp)
  obtain ⟨u,us,hts,hus⟩ := hi.ts_cons
  constructor
  case siblings =>
    refine ⟨fun c hc => ?_,fun c hc => ?_⟩
    · simp only [List.mem_append] at hc
      rcases hc with (hc | hc) | hc
      · exact (hk.stored c (hside c (.inl hc))).extend hf hext (hapart c (.inl hc))
      · exact hi.stored c hc
      · exact (hk.stored c (hside c (.inr hc))).extend hf hext (hapart c (.inr hc))
    · simp only [List.mem_append] at hc
      have hmin := (hk.occ k (by simp)).1
      rcases hc with (hc | hc) | hc
      · exact hk.occ c (hside c (.inl hc))
      · exact ⟨(hi.grown c hc).elim hmin.trans fun h => h,(hi.stored c hc).tree.count_le⟩
      · exact hk.occ c (hside c (.inr hc))
  case pages => exact hpages
  case nodup =>
    intro hin
    rw [List.flatMap_append,List.flatMap_append]
    exact nodup_replace (hnd' hin) (hi.nodup hin) hnew
  case off_notMem =>
    intro hin hm
    rcases hpages o hm with h | h
    · exact (List.nodup_cons.1 (hnd hin)).1 h
    · exact h ho
  case length_ge => simp [hts]
  case length_le =>
    simp only [hts,List.length_append,List.length_cons] at hle ⊢
    omega

variable {kids kids' : List (Summary Bytes)}

theorem Siblings.sub (hk : Siblings ctx first s h kids)
    (hsub : ∀ k∈kids',k∈kids) : Siblings ctx first s h kids' :=
  ⟨fun k hm => hk.stored k (hsub k hm),fun k hm => hk.occ k (hsub k hm)⟩

theorem Siblings.append (hk : Siblings ctx first s h kids) (hk' : Siblings ctx first s h kids') :
    Siblings ctx first s h (kids++kids') :=
  ⟨List.forall_mem_append.2 ⟨hk.stored,hk'.stored⟩,List.forall_mem_append.2 ⟨hk.occ,hk'.occ⟩⟩

theorem Siblings.cons (ht : Stored ctx first s h t) (hmin : minKeys ≤ t.count) (hk : Siblings ctx first s h kids) :
    Siblings ctx first s h (t::kids) :=
  ⟨List.forall_mem_cons.2 ⟨ht,hk.stored⟩,List.forall_mem_cons.2 ⟨⟨hmin,ht.tree.count_le⟩,hk.occ⟩⟩

theorem writeInternalEntries_spec {s1 : IndexState}
    (hf : ctx.Fits) (hfirst : 0 < first) (ho : Held ctx first s o) (h2 : 2 ≤ kids.length)
    (hext : Extends ctx first (ownPages ctx (.node o kids)) s s1) (hr : Renewed ctx first s s1 h o kids kids')
    (hentries : kids'.flatMap Summary.entries = (kids.flatMap Summary.entries).orderedInsert (· ≤ ·) e)
    {child : InsertResult} (hplace : ∃ k∈kids',∃ es,LeafBelow (v2LoadNode ctx s1.bytes) k.off child.leafOffset es ∧
      es[child.leafIndex]? = some e) :
    wp (writeInternalEntries ctx (if ctx.inPlace then o else 0) (seps kids') (kids'.map Summary.off) child) s1
      (fun r s' => Extends ctx first (ownPages ctx (.node o kids)) s s' ∧
        ∃ ts,Inserted ctx first s s' (h+1) (.node o kids) e r ts)
      (fun f _ => f = .io) := by
  have hge := hr.length_ge
  have hle := hr.length_le
  obtain ⟨lk,hlk,les,hll,hli⟩ := hplace
  have ho1 : Held ctx first s1 o := hext.held o ho
  have hown : rewritten ctx (if ctx.inPlace then o else 0) ⊆ ownPages ctx (.node o kids) := fun p hp =>
    ⟨(mem_rewritten_own hp).1,by rw [(mem_rewritten_own hp).2]; exact List.mem_cons_self⟩
  have hapart : ∀ p∈kids'.flatMap Summary.pages,p∉rewritten ctx (if ctx.inPlace then o else 0) :=
    fun p hp hm => hr.off_notMem (mem_rewritten_own hm).1 ((mem_rewritten_own hm).2 ▸ hp)
  have hpage : ∀ p,Placed ctx first s1 (if ctx.inPlace then o else 0) p → p = o ∨ ¬ Held ctx first s p :=
    fun p hp => hp.own_or_new.imp (fun h => (mem_rewritten_own h).2) fun h hp => h (hext.held p hp)
  have hbelow : ∀ p∈kids'.flatMap Summary.pages,p∈o::kids.flatMap Summary.pages ∨ ¬ Held ctx first s p :=
    fun p hp => (hr.pages p hp).imp_left fun h => List.mem_cons_of_mem _ h
  have hheld1 : ∀ p∈kids'.flatMap Summary.pages,Held ctx first s1 p := by
    intro p hp
    obtain ⟨k,hk,hp⟩ := List.mem_flatMap.1 hp
    exact (hr.siblings.stored k hk).held p hp
  unfold writeInternalEntries
  split
  · rename_i hfits
    rw [length_seps] at hfits
    simp only [wp_bind,wp_pure]
    refine wp_mono (writeInternal_spec hf hext.allocating hr.siblings (by omega) (by omega) (held_own ho1) hapart)
      ?_ fun f _ h => h
    rintro ⟨page,crc⟩ s2 ⟨hext2,hst,hplaced,hcrc,hload⟩
    refine ⟨hext.trans (hext2.mono hown),[.node page kids'],?_⟩
    constructor
    case stored => simpa using hst
    case offs => rfl
    case keys => rfl
    case entries => simpa [Summary.node] using hentries
    case grown =>
      simp only [List.mem_singleton,forall_eq,Summary.node]
      omega
    case halves => simp
    case pages =>
      intro p hp
      simp only [List.flatMap_cons,List.flatMap_nil,List.append_nil,Summary.node] at hp
      rcases List.mem_cons.1 hp with rfl | hp
      · rcases hpage _ hplaced with h | h
        · exact .inl (List.mem_cons.2 (.inl h))
        · exact .inr h
      · exact hbelow p hp
    case nodup =>
      intro hin
      have hpo : page = o := placed_own hfirst ho1 hplaced hin
      simp only [List.flatMap_cons,List.flatMap_nil,List.append_nil,Summary.node]
      exact List.nodup_cons.2 ⟨hpo ▸ hr.off_notMem hin,hr.nodup hin⟩
    case in_place => exact placed_own hfirst ho1 hplaced
    case crc_lt => exact hcrc
    case place =>
      refine ⟨_,List.mem_singleton_self _,les,.inner hload (List.mem_map_of_mem hlk) ?_,hli⟩
      exact (hr.siblings.stored lk hlk).leaf_extend hf hext2
        (fun p hp => hapart p (List.mem_flatMap.2 ⟨lk,hlk,hp⟩)) hll
  · rename_i hover
    rw [length_seps] at hover
    have h14 : kids'.length = 14 := by
      simp only [maxKeys] at hover hle
      omega
    simp only [wp_bind,wp_pure]
    rw [show maxKeys / 2 = 6 from rfl,← seps_take,← seps_drop,← List.map_take,← List.map_drop]
    have hsplit : kids'.take 7++kids'.drop 7 = kids' := List.take_append_drop 7 kids'
    have hpsplit : (kids'.take 7).flatMap Summary.pages++(kids'.drop 7).flatMap Summary.pages =
        kids'.flatMap Summary.pages := by rw [← List.flatMap_append,hsplit]
    have hleft : ∀ p∈(kids'.take 7).flatMap Summary.pages,p∈kids'.flatMap Summary.pages :=
      fun p hp => hpsplit ▸ List.mem_append_left _ hp
    have hright : ∀ p∈(kids'.drop 7).flatMap Summary.pages,p∈kids'.flatMap Summary.pages :=
      fun p hp => hpsplit ▸ List.mem_append_right _ hp
    have hsl : Siblings ctx first s1 h (kids'.take 7) := hr.siblings.sub fun k hk => List.mem_of_mem_take hk
    have hsr : Siblings ctx first s1 h (kids'.drop 7) := hr.siblings.sub fun k hk => List.mem_of_mem_drop hk
    refine wp_mono (writeInternal_spec hf hext.allocating hsl (by simp; omega) (by simp [maxKeys]) (held_own ho1)
      fun p hp => hapart p (hleft p hp)) ?_ fun f _ h => h
    rintro ⟨page,crc⟩ s2 ⟨hext2,hst,hplaced,hcrc,hload2⟩
    have hsr2 := hsr.extend hf hext2 fun p hp => hapart p (hright p hp)
    refine wp_mono (writeInternal_spec hf hext2.allocating hsr2 (by simp; omega) (by simp [maxKeys]; omega)
      (fun _ h => absurd rfl h) fun p _ => notMem_rewritten_zero p) ?_ fun f _ h => h
    rintro ⟨rpage,rcrc⟩ s3 ⟨hext3,hst3,hplaced3,-,hload3⟩
    have hnew := placed_zero hplaced3
    have hst' := hst.extend hf hext3 fun p _ => notMem_rewritten_zero p
    refine ⟨(hext.trans (hext2.mono hown)).trans (hext3.of_zero _),
      [.node page (kids'.take 7),.node rpage (kids'.drop 7)],?_⟩
    constructor
    case stored => simpa using ⟨hst',hst3⟩
    case offs => rfl
    case keys =>
      obtain ⟨k,hk⟩ : ∃ k,kids'[7]? = some k := ⟨kids'[7],by simp⟩
      have hne : k.entries≠[] := hr.siblings.entries_ne_nil k (List.mem_of_getElem? hk)
      have hdrop : kids'.drop 7 = k::kids'.drop 8 := by
        rw [← List.getElem?_eq_some_iff.1 hk |>.2]
        exact List.drop_eq_getElem_cons (by omega)
      obtain ⟨a,as,ha⟩ := List.exists_cons_of_ne_nil hne
      simp only [seps_getD kids' 6 k [] hk]
      simp [seps,Summary.first,Summary.node,hdrop,ha]
    case entries =>
      simp only [List.flatMap_cons,List.flatMap_nil,List.append_nil,Summary.node]
      rw [← List.flatMap_append,hsplit,hentries]
    case grown => simp [Summary.node,h14,minKeys,maxKeys]
    case halves => simp [Summary.node,h14,minKeys,maxKeys]
    case pages =>
      intro p hp
      simp only [List.flatMap_cons,List.flatMap_nil,List.append_nil,Summary.node,List.mem_append,
        List.mem_cons] at hp
      rcases hp with (rfl | hp) | (rfl | hp)
      · rcases hpage _ hplaced with h | h
        · exact .inl (List.mem_cons.2 (.inl h))
        · exact .inr h
      · exact hbelow p (hleft p hp)
      · exact .inr fun h => hnew (hext2.held _ (hext.held _ h))
      · exact hbelow p (hright p hp)
    case nodup =>
      intro hin
      have hpo : page = o := placed_own hfirst ho1 hplaced hin
      have hnot : ∀ p∈kids'.flatMap Summary.pages,p≠rpage := by
        rintro p hp rfl
        exact hnew (hext2.held _ (hheld1 p hp))
      have hoff := hr.off_notMem hin
      have hnd := hr.nodup hin
      rw [← hpsplit] at hnd hoff
      obtain ⟨hn1,hn2,hn12⟩ := List.nodup_append.1 hnd
      have hpr : page≠rpage := by
        rintro rfl
        exact hnew (hext2.held _ (hpo ▸ ho1))
      simp only [List.mem_append,not_or] at hoff
      simp only [List.flatMap_cons,List.flatMap_nil,List.append_nil,Summary.node]
      refine List.nodup_append.2 ⟨List.nodup_cons.2 ⟨hpo ▸ hoff.1,hn1⟩,
        List.nodup_cons.2 ⟨fun hm => hnot _ (hright _ hm) rfl,hn2⟩,?_⟩
      intro a ha b hb
      rcases List.mem_cons.1 ha with rfl | ha <;> rcases List.mem_cons.1 hb with rfl | hb
      · exact hpr
      · rintro rfl
        exact hoff.2 (hpo ▸ hb)
      · exact hnot a (hleft a ha)
      · exact hn12 a ha b hb
    case in_place => exact placed_own hfirst ho1 hplaced
    case crc_lt => exact hcrc
    case place =>
      have hll2 := (hr.siblings.stored lk hlk).leaf_extend hf hext2
        (fun p hp => hapart p (List.mem_flatMap.2 ⟨lk,hlk,hp⟩)) hll
      rw [← hsplit] at hlk
      rcases List.mem_append.1 hlk with hlk | hlk
      · refine ⟨.node page (kids'.take 7),by simp,les,?_,hli⟩
        have hbelow := LeafBelow.inner hload2 (List.mem_map_of_mem hlk) hll2
        exact hst.leaf_extend hf hext3 (fun p _ => notMem_rewritten_zero p) hbelow
      · refine ⟨.node rpage (kids'.drop 7),by simp,les,.inner hload3 (List.mem_map_of_mem hlk) ?_,hli⟩
        exact (hsr2.stored lk hlk).leaf_extend hf hext3 (fun p _ => notMem_rewritten_zero p) hll2

/-! ## The recursion -/

/-- Insertion below a page, from any state whose allocator is sound. -/
theorem v2InsertNode_spec (hf : ctx.Fits) (hfirst : 0 < first) (he : e.length = ctx.entrySize)
    {depth : ℕ} {s : IndexState} (hdepth : h < depth) (ha : Allocating ctx first s)
    (ht : Stored ctx first s h t) (hsorted : t.entries.Pairwise (· < ·))
    (hnd : ctx.inPlace = true → t.pages.Nodup) :
    wp (v2InsertNode ctx depth t.off e) s
      (fun r s' => e∉t.entries ∧ Extends ctx first (ownPages ctx t) s s' ∧
        ∃ ts,Inserted ctx first s s' h t e r ts)
      (fun f s' => f = .io ∨ f = .duplicate ∧ s' = s ∧ e∈t.entries) := by
  induction depth generalizing h t s with
  | zero => omega
  | succ depth ih =>
    obtain ⟨htree,hheld⟩ := ht
    have hoff := hheld _ htree.off_mem_pages
    cases htree with
    | @leaf o es load =>
      have hok := nodeOk_of_load load
      have hpos := leafPosition_spec e es fun x hx => (hok.entry_length x hx).trans he.symm
      simp only [v2InsertNode,wp_bind,Summary.leaf,wp_loadNode load,if_true,wp_ofOption]
      cases hp : leafPosition e es with
      | none =>
        rw [hp] at hpos
        exact .inr ⟨trivial,trivial,hpos⟩
      | some p =>
        rw [hp] at hpos
        have hlen : ∀ x∈es.orderedInsert (· ≤ ·) e,x.length = ctx.entrySize := by
          intro x hx
          rcases (List.mem_orderedInsert _).1 hx with rfl | hx
          · exact he
          · exact hok.entry_length x hx
        have hput : (es.take p++e::es.drop p)[p]? = some e := by
          rw [List.getElem?_append_right (List.length_take_le _ _),List.length_take_of_le (leafPosition_le hp),
            Nat.sub_self]
          rfl
        refine wp_mono (writeLeafEntries_spec hf hfirst ha hoff hpos.1 (hpos.1 ▸ hlen) hok.count_le hput) ?_
          fun f _ h => .inl h
        exact fun r s' h => ⟨hpos.2 hsorted,h⟩
    | @node h o kids hne below occ load =>
      have hok := nodeOk_of_load load
      have h2 := two_le_of_load load
      have hk := Stored.siblings below occ hheld
      obtain ⟨A,k,B,hrt⟩ := routed hne hk.entries_ne_nil hsorted fun x hx => (hok.entry_length x hx).trans he.symm
      have hparts := hrt
      obtain ⟨hkids,hposn,hchild,hA,hB,hfirstk,hksorted⟩ := hparts
      have hkm : k∈kids := by simp [hkids]
      have hknd : ctx.inPlace = true → k.pages.Nodup := by
        intro hin
        have := (List.nodup_cons.1 (hnd hin)).2
        rw [hkids,List.flatMap_append,List.flatMap_cons] at this
        exact (List.nodup_append.1 (List.nodup_append.1 this).2.1).1
      have hflat := hrt.flatMap_entries
      have hmem := hrt.mem_iff
      simp only [v2InsertNode,wp_bind,Summary.node,wp_loadNode load,Bool.false_eq_true,if_false,hposn,hchild]
      refine wp_mono (ih (by omega) ha (hk.stored k hkm) hksorted hknd) ?_ ?_
      · rintro r s1 ⟨hnot,hext,ts,hi⟩
        have hown : ownPages ctx k ⊆ ownPages ctx (.node o kids) := fun p hp =>
          ⟨hp.1,List.mem_cons_of_mem _ (List.mem_flatMap.2 ⟨k,hkm,hp.2⟩)⟩
        have hle : (A++k::B).length ≤ maxKeys+1 := by
          have := hok.count_le
          rw [length_seps] at this
          rw [← hkids]
          omega
        have hren := renewed_of_inserted hf (hkids ▸ hk) hoff (hkids ▸ hnd) hle hext hi
        rw [← hkids] at hren
        obtain ⟨u,us,rfl,-⟩ := hi.ts_cons
        have hentries : (A++(u::us)++B).flatMap Summary.entries =
            (kids.flatMap Summary.entries).orderedInsert (· ≤ ·) e := by
          rw [hflat,orderedInsert_between hA hB,← hi.entries,List.flatMap_append,List.flatMap_append]
        -- the first entry below the child stays, unless the child is the leftmost one
        have hu : A≠[] → u.first = k.first := by
          intro hAne
          have hkne := hk.entries_ne_nil k hkm
          have hlt : k.first < e := lt_of_le_of_ne (hfirstk hAne) fun h => hnot (h ▸ first_mem hkne)
          have hune := hren.siblings.entries_ne_nil u (by simp)
          obtain ⟨a,as,hau⟩ := List.exists_cons_of_ne_nil hune
          have := congrArg List.headI hi.entries
          rw [headI_orderedInsert hkne hlt] at this
          simpa [Summary.first,hau] using this
        have hkeys := seps_replace A B k u us hu
        have hseps : seps (A++(u::us)++B) = (seps kids).take A.length++r.split.toList.map (·.2) ++
            (seps kids).drop A.length := by rw [hkeys,← hi.keys,← hkids]
        have hoffs : (A++(u::us)++B).map Summary.off = (kids.map Summary.off).take A.length ++
            r.offset::r.split.toList.map (·.1)++(kids.map Summary.off).drop (A.length+1) := by
          rw [← hi.offs,hkids]
          simp [List.drop_append]
        have hplace : ∃ c∈A++(u::us)++B,∃ es,LeafBelow (v2LoadNode ctx s1.bytes) c.off r.leafOffset es ∧
            es[r.leafIndex]? = some e := by
          obtain ⟨c,hc,hleaf⟩ := hi.place
          exact ⟨c,by simp only [List.mem_append]; exact .inl (.inr hc),hleaf⟩
        rw [← hseps,← hoffs]
        refine wp_mono (writeInternalEntries_spec hf hfirst hoff h2 (hext.mono hown) hren hentries hplace) ?_
          fun f _ h => .inl h
        exact fun r s' h => ⟨fun hm => hnot (hmem.1 hm),h⟩
      · rintro f s1 (hio | ⟨hd,hs,hm⟩)
        · exact .inl hio
        · exact .inr ⟨hd,hs,hmem.2 hm⟩

end Dataman.IndexFile

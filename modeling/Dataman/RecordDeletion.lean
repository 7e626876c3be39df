import Dataman.RecordInsertion

/-!
# Deleting a record

A deletion marks the record and links its neighbours to each other. The only record of a
file cannot be deleted.
-/

namespace Dataman.DataFile
open ByteFiles FixedWidthFields FailState LinkedChain

variable {file : Files} {recs : List Record} {chain : List ℕ} {f : Bytes}

/-- The record `a` between `C` and `D` is marked and its neighbours are linked to each other. -/
structure Unlinked (file : Files) (f g : Bytes) (recs : List Record) (fmt a : ℕ) (C D : List ℕ) : Prop where
  length : g.length = f.length
  field : ∀ l,l.Valid recs → contents file g l =
    if l = .head ∧ C = [] then putBE 8 (D.headD 0)
    else if C.getLast?.map Loc.next = some l then putBE 8 (D.headD 0)
    else if D.head?.map Loc.prev = some l then putBE 8 (C.getLastD 0)
    else if l = .flag a then [UInt8.ofNat (fmt+128)] else contents file f l

variable {C D : List ℕ} {r : Record} {g : Bytes}

theorem Chained.unlink (hc : Chained file f recs (C++r.off::D)) (hr : r∈recs)
    (hg : Unlinked file f g recs r.fmt r.off C D) : Kept file f g recs recs (C++D) := by
  have hc' : Chained file f recs ((C++[r.off])++D) := by simpa using hc
  have hlast := hc.getLastD_lt
  have hhead := hc'.headD_lt
  obtain ⟨hnot,hnd⟩ := List.nodup_cons.1 (List.nodup_middle.1 hc.nodup)
  have hrecs : ∀ y∈C++D,∃ x∈recs,x.off = y := by
    intro y hy
    apply hc.records
    rcases List.mem_append.1 hy with h | h
    · exact List.mem_append_left _ h
    · exact List.mem_append_right _ (List.mem_cons_of_mem _ h)
  refine ⟨⟨hg.length ▸ hc.laid,?_,hrecs,hnd,?_,?_⟩,?_⟩
  · intro x hx
    rw [hg.field (.flag x.off) ⟨x,hx,rfl⟩,if_neg (by simp),if_neg (by cases C.getLast? <;> simp),
      if_neg (by cases D.head? <;> simp)]
    by_cases h : x.off = r.off
    · obtain rfl := hc.laid.eq_of_off hx hr h
      rw [if_pos rfl,if_neg hnot]
    · rw [if_neg (by simpa using h),hc.flags x hx]
      simp [h]
  · rw [headAt,hg.field .head trivial]
    cases C with
    | nil => rw [if_pos ⟨rfl,rfl⟩,getBE_putBE (by omega),List.nil_append]
    | cons c C =>
      rw [if_neg (by simp),if_neg (by cases (c::C).getLast? <;> simp),if_neg (by cases D.head? <;> simp),if_neg (by simp)]
      exact hc.head
  · apply hc.linked.erase hnd
    · intro y hy
      rw [nextAt,hg.field (.next y) (hrecs y hy),if_neg (by simp)]
      by_cases h : C.getLast? = some y
      · rw [if_pos (by simp [h]),if_pos h,getBE_putBE (by omega)]
      · rw [if_neg (by simpa using h),if_neg (by cases D.head? <;> simp),if_neg (by simp),if_neg h,nextAt]
    · intro y hy
      rw [prevAt,hg.field (.prev y) (hrecs y hy),if_neg (by simp),if_neg (by cases C.getLast? <;> simp)]
      by_cases h : D.head? = some y
      · rw [if_pos (by simp [h]),if_pos h,getBE_putBE (by omega)]
      · rw [if_neg (by simpa using h),if_neg (by simp),if_neg h,prevAt]
  · intro x hx
    rw [hg.field (.data x) hx,if_neg (by simp),if_neg (by cases C.getLast? <;> simp),if_neg (by cases D.head? <;> simp),
      if_neg (by simp)]

/-- The four writes of a deletion. -/
theorem unlinked_of_put (hc : Chained file f recs (C++r.off::D)) (hr : r∈recs) :
    Unlinked file f (putAt file (putAt file (putAt file (writeAt f r.off [UInt8.ofNat (r.fmt+128)])
      (D.head?.map Loc.prev) (C.getLastD 0)) (C.getLast?.map Loc.next) (D.headD 0))
      (if C = [] then some .head else none) (D.headD 0)) recs r.fmt r.off C D := by
  have hflag : Loc.Valid recs (.flag r.off) := ⟨r,hr,rfl⟩
  have hprev : ∀ x,D.head?.map Loc.prev = some x → x.Valid recs ∧ x.length file = 8 := by
    intro x hx
    obtain ⟨o,ho,rfl⟩ := Option.map_eq_some_iff.1 hx
    exact ⟨hc.records o (List.mem_append_right C (List.mem_cons_of_mem _ (List.mem_of_head? ho))),rfl⟩
  have hnext : ∀ x,C.getLast?.map Loc.next = some x → x.Valid recs ∧ x.length file = 8 := by
    intro x hx
    obtain ⟨o,ho,rfl⟩ := Option.map_eq_some_iff.1 hx
    exact ⟨hc.records o (List.mem_append_left _ (List.mem_of_getLast? ho)),rfl⟩
  have hhead : ∀ x,(if C = [] then some Loc.head else none) = some x → x.Valid recs ∧ x.length file = 8 := by
    intro x hx
    split at hx
    · cases hx
      exact ⟨trivial,rfl⟩
    · cases hx
  have hcont0 := fun l hv => @contents_writeAt file recs f hc.laid (.flag r.off) l hflag hv [UInt8.ofNat (r.fmt+128)] rfl
  have hlen0 : (writeAt f r.off [UInt8.ofNat (r.fmt+128)]).length = f.length :=
    length_writeAt_inside (Loc.inside hc.laid hflag)
  simp only [Loc.off] at hcont0
  generalize writeAt f r.off [UInt8.ofNat (r.fmt+128)] = f0 at *
  have hl0 : Laid file f0.length recs := hlen0 ▸ hc.laid
  have hlen1 := length_putAt hl0 hprev (C.getLastD 0)
  have hcont1 := fun l hv => @contents_putAt file recs f0 hl0 _ l hprev hv (C.getLastD 0)
  generalize putAt file f0 (D.head?.map Loc.prev) (C.getLastD 0) = f1 at *
  have hl1 : Laid file f1.length recs := hlen1 ▸ hl0
  have hlen2 := length_putAt hl1 hnext (D.headD 0)
  have hcont2 := fun l hv => @contents_putAt file recs f1 hl1 _ l hnext hv (D.headD 0)
  generalize putAt file f1 (C.getLast?.map Loc.next) (D.headD 0) = f2 at *
  have hl2 : Laid file f2.length recs := hlen2 ▸ hl1
  constructor
  · rw [length_putAt hl2 hhead,hlen2,hlen1,hlen0]
  · intro l hv
    rw [contents_putAt hl2 hhead hv,hcont2 l hv,hcont1 l hv,hcont0 l hv]
    by_cases hC : C = []
    · simp [hC,eq_comm]
    · simp [hC]

theorem wp_unlink {Q : ℤ → Disk → Prop} {E : Code → Disk → Prop} {p : ℕ}
    (hc : Chained file f recs (C++r.off::D)) (hr : r∈recs) (hne : C++D≠[])
    (hQ : ∀ g bof,Unlinked file f g recs r.fmt r.off C D → Q bof ⟨g,p,[]⟩) :
    wp (unlink file ⟨r.fmt,r.off,(C.getLastD 0 : ℕ),(D.headD 0 : ℕ)⟩) ⟨f,p,[]⟩ Q E := by
  have hc' : Chained file f recs ((C++[r.off])++D) := by simpa using hc
  have hlast := hc.getLastD_lt
  have hheadD := hc'.headD_lt
  have hb := hc.bounds (o := r.off) (by simp)
  have hg := unlinked_of_put hc hr
  simp only [unlink,wp_bind,wp_ensure,wp_pure]
  rw [wp_mutateAt (by simp only [List.length_singleton,int64Max]; omega),if_pos rfl,wp_putHead hc' hlast,wp_putLast hc hheadD]
  generalize putAt file (putAt file (writeAt f r.off [UInt8.ofNat (r.fmt+128)]) (D.head?.map Loc.prev) (C.getLastD 0))
    (C.getLast?.map Loc.next) (D.headD 0) = f2 at *
  -- the new first record, as a number
  have hbof : (if ((D.headD 0 : ℕ) : ℤ)≠0 ∧ ((C.getLastD 0 : ℕ) : ℤ) = 0 then ((D.headD 0 : ℕ) : ℤ) else 0) =
      ((if C = [] then D.headD 0 else 0 : ℕ) : ℤ) := by
    rcases List.eq_nil_or_concat C with rfl | ⟨C',c,rfl⟩
    · simp only [List.getLastD_nil,Nat.cast_zero,and_true,if_true]
      split <;> omega
    · have := hc.bounds (o := c) (by simp)
      rw [if_neg,if_neg (by simp),Nat.cast_zero]
      simp only [List.concat_eq_append,List.getLastD_concat]
      omega
  rw [hbof,wp_putPtrElse (file.hlen+2) (by split <;> omega)]
  swap
  · intro _
    simp only [int64Max]
    omega
  have hput : (if decide (((if C = [] then D.headD 0 else 0 : ℕ) : ℤ)≠0) = true
      then writeAt f2 (file.hlen+2) (putBE 8 (if C = [] then D.headD 0 else 0)) else f2) =
      putAt file f2 (if C = [] then some .head else none) (D.headD 0) := by
    by_cases hC : C = []
    · obtain ⟨d,D',rfl⟩ := List.exists_cons_of_ne_nil (show D≠[] by simpa [hC] using hne)
      have := hc.bounds (o := d) (by simp)
      have hd : ((d : ℕ) : ℤ)≠0 := by omega
      simp only [hC,if_true,List.headD_cons,hd,ne_eq,not_false_eq_true,decide_true,putAt,Loc.off]
    · simp only [hC,if_false,Nat.cast_zero,ne_eq,not_true_eq_false,decide_false,Bool.false_eq_true,putAt]
  rw [hput]
  exact hQ _ _ hg

section PutBack
variable {α : Type} {E : Code → Disk → Prop}

theorem wp_mutateAt_any {Q : Bool → Disk → Prop} (hQ : ∀ ok d,Q ok d) (data : Bytes) (off : ℤ) (d : Disk) :
    wp (mutateAt data off) d Q E := by
  obtain ⟨ok,d',h⟩ : ∃ ok d',mutateAt data off d = (.ok ok,d') := by
    simp only [mutateAt]
    split
    · exact ⟨_,_,rfl⟩
    · split
      · exact ⟨_,_,rfl⟩
      · exact ⟨_,_,rfl⟩
  rw [wp_of_ok h]
  exact hQ ok d'

theorem wp_putPtrElse_any {Q : Unit → Disk → Prop} {cond : Bool} {v x : ℤ} {otherwise : DiskM Unit}
    (hQ : ∀ d,Q () d) (hE : ∀ d,wp otherwise d Q E) (d : Disk) : wp (putPtrElse cond v x otherwise) d Q E := by
  rw [putPtrElse,wp_ite]
  split
  · rw [wp_bind,putPtr]
    apply wp_mutateAt_any
    intro ok d
    cases ok with
    | false => exact hE d
    | true => exact (wp_pure _).2 (hQ d)
  · exact (wp_pure _).2 (hQ d)

/-- Whatever the error labels manage to write, they end with the code or with EMULTIPLE. -/
theorem wp_putBack {Q : α → Disk → Prop} {code : Code} (hcode : ∀ d,E code d) (hmult : ∀ d,E .multiple d) (v : Victim)
    (bof : ℤ) (label : ℕ) (d : Disk) : wp (putBack file v bof label code) d Q E := by
  simp only [putBack,wp_bind,wp_fail]
  apply wp_putPtrElse_any
  · intro d
    apply wp_putPtrElse_any
    · intro d
      apply wp_putPtrElse_any
      · intro d
        apply wp_mutateAt_any
        intro ok d
        cases ok with
        | false => exact hmult d
        | true => exact hcode d
      · exact fun d => (wp_fail _).2 (hmult d)
    · exact fun d => (wp_fail _).2 (hmult d)
  · exact fun d => (wp_fail _).2 (hmult d)

end PutBack

variable {Q : Reply → Disk → Prop} {a : ℕ}

/-- A live record is returned whole. -/
theorem wp_readReply {E : Code → Disk → Prop} (hc : Chained file f recs chain)
    (ha : a∈chain) (blobs : Blobs) (v : Victim) (bof : ℤ) (p : ℕ)
    (hQ : ∀ r∈recs,r.off = a → ∀ len q,Q (.record len a r.fmt (contents file f (.data r))) ⟨f,q,[]⟩)
    (hE : ∀ e d,e.io = true → E e d) : wp (readReply file blobs v bof a) ⟨f,p,[]⟩ Q E := by
  obtain ⟨r,hr,rfl,hflag,-,h63,-,-⟩ := hc.header ha
  have hin := hc.laid.inside r hr
  have hfmt : (UInt8.ofNat r.fmt).toNat = r.fmt := by
    rw [UInt8.toNat_ofNat']
    omega
  simp only [readReply,wp_bind]
  rw [wp_llseek,headerLength,wp_tryRead (by omega),orElse,wp_pure,hflag,hfmt,wp_tryRead (by exact hin),orElse,wp_pure]
  split
  · split
    · exact wp_putBack (fun d => hE _ d rfl) (fun d => hE _ d rfl) _ _ _ _
    · exact (wp_pure _).2 (hQ r hr rfl _ _)
  · exact (wp_pure _).2 (hQ r hr rfl _ _)

theorem Unlinked.frozen {fmt : ℕ} (h : Unlinked file f g recs fmt a C D) :
    Frozen file f g recs (C++D) := by
  intro x hx hout
  have hC : C.getLast?≠some x.off := fun h => hout (List.mem_append_left _ (List.mem_of_getLast? h))
  have hD : D.head?≠some x.off := fun h => hout (List.mem_append_right _ (List.mem_of_head? h))
  constructor
  · rw [h.field (.next x.off) ⟨x,hx,rfl⟩,if_neg (by simp),if_neg (by simpa using hC),if_neg (by cases D.head? <;> simp),
      if_neg (by simp)]
  · rw [h.field (.prev x.off) ⟨x,hx,rfl⟩,if_neg (by simp),if_neg (by cases C.getLast? <;> simp),if_neg (by simpa using hD),
      if_neg (by simp)]

/-- The run of a deletion of a live record. -/
theorem wp_delete {E : Code → Disk → Prop} (hc : Chained file f recs chain) (ha : a∈chain)
    (blobs : Blobs) (fileno uninit : ℤ) (p : ℕ) (honly : chain = [a] → ∀ d,d.bytes = f → E .noDel d)
    (hio : chain≠[a] → ∀ e d,e.io = true → E e d)
    (hQ : chain≠[a] → ∀ C D r g x len q,chain = C++r.off::D → chain.erase a = C++D → r∈recs →
      Unlinked file f g recs r.fmt r.off C D → x∈recs → x.off∈C++D →
      Q (.record len x.off x.fmt (contents file g (.data x))) ⟨g,q,[]⟩) :
    wp (delete file blobs fileno a .noXact uninit) ⟨f,p,[]⟩ Q E := by
  have hb := hc.bounds ha
  obtain ⟨r,hr,rfl,hflag,h1,h63,hprev,hnext⟩ := hc.header ha
  obtain ⟨C,D,rfl,hC,hD,hprevC,hnextD,-⟩ := hc.around ha
  have hfmt : (UInt8.ofNat r.fmt).toNat % 128 = r.fmt := by
    rw [UInt8.toNat_ofNat']
    omega
  have herase : (C++r.off::D).erase r.off = C++D := by
    rw [List.erase_append_right _ hC,List.erase_cons_head]
  simp only [delete,wp_bind,wp_ensure]
  rw [wp_llseek,headerLength,wp_read (by omega),hflag,not_deleted h63,hprev,hnext,hprevC,hnextD,hfmt]
  simp only [Bool.not_false,Bool.true_or,if_true]
  by_cases hnone : C++D = []
  · -- the only record has no neighbours
    obtain ⟨rfl,rfl⟩ := List.append_eq_nil_iff.1 hnone
    exact honly rfl _ rfl
  have hsucc : ¬ (((D.headD 0 : ℕ) : ℤ) = 0 ∧ ((C.getLastD 0 : ℕ) : ℤ) = 0) ∧
      ∃ x∈C++D,successor ⟨r.fmt,r.off,(C.getLastD 0 : ℕ),(D.headD 0 : ℕ)⟩ = (x : ℤ) := by
    cases D with
    | cons d D =>
      have := hc.bounds (o := d) (by simp)
      refine ⟨by simp only [List.headD_cons]; omega,d,by simp,?_⟩
      rw [successor,if_pos (by simp only [List.headD_cons]; omega),List.headD_cons]
    | nil =>
      obtain ⟨C',c,rfl⟩ := (List.eq_nil_or_concat C).resolve_left (by simpa using hnone)
      have := hc.bounds (o := c) (by simp)
      simp only [List.concat_eq_append,List.getLastD_concat,List.headD_nil]
      refine ⟨by omega,c,by simp,?_⟩
      rw [successor,if_neg (by simp),if_pos (by simp only; omega)]
  obtain ⟨hlinks,x,hx,hsucc⟩ := hsucc
  have hmany : C++r.off::D≠[r.off] := by
    intro h
    have := congrArg List.length h
    have h0 : (C++D).length≠0 := fun h => hnone (List.length_eq_zero_iff.1 h)
    simp only [List.length_append,List.length_cons,List.length_nil] at this h0
    omega
  have hfinish : wp (finishDelete file blobs fileno .noXact uninit ⟨r.fmt,r.off,(C.getLastD 0 : ℕ),(D.headD 0 : ℕ)⟩)
      ⟨f,r.off+17,[]⟩ Q E := by
    simp only [finishDelete,wp_bind]
    apply wp_unlink hc hr hnone
    intro g bof hg
    rw [hsucc]
    apply wp_readReply (hc.unlink hr hg).chained hx
    · intro y hy hyx len q
      subst hyx
      exact hQ hmany C D r g y len q rfl herase hr hg hy hx
    · exact hio hmany
  rw [if_pos (by simp only [hlinks,not_false_eq_true,decide_true])]
  split
  · split
    · exact (wp_fail _).2 (hio hmany _ _ rfl)
    · exact hfinish
  · exact hfinish

theorem delete_spec (hc : Chained file f recs chain) (ha : a∈chain) (blobs : Blobs) (fileno uninit : ℤ) (p : ℕ) :
    wp (delete file blobs fileno a .noXact uninit) ⟨f,p,[]⟩
      (fun reply d => chain≠[a] ∧ Kept file f d.bytes recs recs (chain.erase a) ∧ d.bytes.length = f.length ∧
        ∃ r∈recs,r.off∈chain.erase a ∧ ∃ len,reply = .record len r.off r.fmt (contents file d.bytes (.data r)))
      (fun e d => chain≠[a] ∧ e.io = true ∨ e = .noDel ∧ chain = [a] ∧ d.bytes = f) := by
  apply wp_delete hc ha blobs fileno uninit p
  · exact fun honly d hd => .inr ⟨rfl,honly,hd⟩
  · exact fun hmany e d he => .inl ⟨hmany,he⟩
  · intro hmany C D r g x len q hchain herase hr hg hx hxmem
    rw [herase]
    subst hchain
    exact ⟨hmany,hc.unlink hr hg,hg.length,x,hx,hxmem,len,rfl⟩

end Dataman.DataFile

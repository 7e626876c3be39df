import Dataman.RecordHistories

/-!
# What the requests leave of the header

Insert and delete write to records, behind the end of the file and to the head pointer. The
description of the file and the second pointer behind it stay as they are.
-/

namespace Dataman.DataFile
open ByteFiles FixedWidthFields FailState

variable {file : Files} {f v : Bytes} {lo n : ℕ}

/-- A range of the header that does not touch the head pointer. -/
def Files.Aside (file : Files) (lo n : ℕ) : Prop := (lo+n ≤ file.hlen+2 ∨ file.hlen+10 ≤ lo) ∧ lo+n ≤ file.hlen+18

/-- The whole header is there, and the range has these bytes. -/
def HeaderHas (file : Files) (lo n : ℕ) (v : Bytes) (d : Disk) : Prop := file.hlen+18 ≤ d.bytes.length ∧ slice d.bytes lo n = v

/-- A record is behind the header, or there is none. -/
def Files.Behind (file : Files) (o : ℤ) : Prop := o≠0 → (file.hlen+18 : ℕ) ≤ o

theorem maintains_mutateAt (hr : file.Aside lo n) {data : Bytes} {off : ℤ}
    (hoff : (file.hlen+18 : ℕ) ≤ off ∨ off = (file.hlen+2 : ℕ) ∧ data.length = 8) :
    Maintains (HeaderHas file lo n v) (mutateAt data off) := by
  intro d hd
  have hkept : HeaderHas file lo n v { d with bytes := writeAt d.bytes off.toNat data,failures := d.failures.tail } := by
    have hle := length_le_writeAt d.bytes off.toNat data
    refine ⟨hd.1.trans hle,?_⟩
    rw [← hd.2]
    have hapart : lo+n ≤ off.toNat ∨ off.toNat+data.length ≤ lo := by
      obtain ⟨hside,hin⟩ := hr
      rcases hoff with hoff | ⟨rfl,hlen⟩
      · omega
      · omega
    exact slice_writeAt_disjoint _ _ _ _ _ hapart (hr.2.trans hd.1)
  by_cases hbound : off < 0 ∨ (int64Max : ℤ) < off+data.length
  · exact (wp_of_ok (by rw [mutateAt,if_pos hbound])).2 hd
  · by_cases hfail : d.failures.headD false = true
    · have hrun : mutateAt data off d = (.ok false,{ d with failures := d.failures.tail }) := by
        rw [mutateAt,if_neg hbound,if_pos hfail]
      exact (wp_of_ok hrun).2 hd
    · exact (wp_of_ok (by rw [mutateAt,if_neg hbound,if_neg hfail])).2 hkept

theorem maintains_putPtrElse (hr : file.Aside lo n) {cond : Bool} {x off : ℤ} {otherwise : DiskM Unit}
    (hoff : cond = true → (file.hlen+18 : ℕ) ≤ off ∨ off = (file.hlen+2 : ℕ)) (helse : Maintains (HeaderHas file lo n v) otherwise) :
    Maintains (HeaderHas file lo n v) (putPtrElse cond x off otherwise) := by
  rw [putPtrElse]
  apply maintains_ite
  · intro hcond
    refine maintains_bind (maintains_mutateAt hr ?_) fun ok => maintains_ite (fun _ => maintains_pure ()) fun _ => helse
    exact (hoff hcond).imp_right fun h => ⟨h,by rw [putLl,length_putBE]⟩
  · exact fun _ => maintains_pure ()

/-! ## Insert -/

theorem maintains_relink (hr : file.Aside lo n) {mode cur prev next new : ℤ} (hcur : (file.hlen+18 : ℕ) ≤ cur) (hprev : file.Behind prev)
    (hnext : file.Behind next) : Maintains (HeaderHas file lo n v) (relink mode cur prev next new) := by
  have hback : ∀ x off : ℤ,(file.hlen+18 : ℕ) ≤ off → Maintains (HeaderHas file lo n v)
      (do let back ← putPtr x off; .fail (if back then .hdrWrt else .multiple) : DiskM Unit) :=
    fun x off hoff => maintains_bind (maintains_mutateAt hr (.inl hoff)) fun _ => maintains_fail _
  rw [relink]
  apply maintains_ite
  · intro _
    apply maintains_bind
    · exact maintains_putPtrElse hr (fun _ => .inl (by simp only [offsetToPrev]; omega)) (maintains_fail _)
    · intro _
      refine maintains_bind (maintains_putPtrElse hr ?_ (hback _ _ (by simp only [offsetToPrev]; omega))) fun _ => maintains_pure _
      intro h
      have := hprev (by simpa using h)
      exact .inl (by simp only [offsetToNext]; omega)
  · intro _
    apply maintains_ite
    · intro _
      apply maintains_bind
      · exact maintains_putPtrElse hr (fun _ => .inl (by simp only [offsetToNext]; omega)) (maintains_fail _)
      · intro _
        refine maintains_bind (maintains_putPtrElse hr ?_ (hback _ _ (by simp only [offsetToNext]; omega))) fun _ => maintains_pure _
        intro h
        have := hnext (by simpa using h)
        exact .inl (by simp only [offsetToPrev]; omega)
    · exact fun _ => maintains_pure _

variable {recs : List Record} {chain : List ℕ}

/-- The neighbours of a live record are behind the header. -/
theorem Chained.behind (hc : Chained file f recs chain) (hstart : ∀ r∈recs,file.hlen+18 ≤ r.off) {a : ℕ} (ha : a∈chain) :
    file.hlen+18 ≤ a ∧ file.Behind (prevAt file f a : ℕ) ∧ file.Behind (nextAt file f a : ℕ) := by
  have hmem : ∀ o∈chain,file.hlen+18 ≤ o := by
    intro o ho
    obtain ⟨r,hr,rfl⟩ := hc.records o ho
    exact hstart r hr
  obtain ⟨C,D,rfl,-,-,hprev,hnext,-⟩ := hc.around ha
  refine ⟨hmem a ha,?_,?_⟩
  · rw [hprev]
    rcases List.eq_nil_or_concat C with rfl | ⟨C',c,rfl⟩
    · exact fun h => absurd rfl h
    · intro _
      have := hmem c (by simp)
      simp only [List.concat_eq_append,List.getLastD_concat]
      omega
  · rw [hnext]
    cases D with
    | nil => exact fun h => absurd rfl h
    | cons d D =>
      intro _
      have := hmem d (by simp)
      simp only [List.headD_cons]
      omega

theorem insert_header (hc : Chained file f recs chain) (hstart : ∀ r∈recs,file.hlen+18 ≤ r.off) (hr : file.Aside lo n) {a : ℕ}
    (ha : a∈chain) (hlen : file.hlen+18 ≤ f.length) (fmt mode : ℤ) (p : ℕ) :
    wp (insert file fmt mode a) ⟨f,p,[]⟩ (fun _ => HeaderHas file lo n (slice f lo n)) fun _ => HeaderHas file lo n (slice f lo n) := by
  have hb := hc.bounds ha
  obtain ⟨hcur,hprev,hnext⟩ := hc.behind hstart ha
  obtain ⟨r,-,-,hflag,-,h63,hp,hn⟩ := hc.header ha
  have hnow : ∀ q,HeaderHas file lo n (slice f lo n) ⟨f,q,[]⟩ := fun _ => ⟨hlen,rfl⟩
  simp only [insert,wp_bind,wp_ensure]
  split
  swap
  · exact hnow p
  rw [wp_llseek,headerLength,wp_read (by omega),hflag,not_deleted h63,hp,hn]
  simp only [Bool.not_false,if_true]
  rw [wp_seekEnd]
  refine wp_mono (maintains_relink hr (by omega) hprev hnext _ (hnow _)) ?_ fun _ _ => id
  intro nb d hd
  refine wp_mono (maintains_mutateAt hr (.inl (by omega)) d hd) ?_ fun _ _ => id
  intro ok d hd
  split
  · refine wp_mono (maintains_putPtrElse hr (fun _ => .inr (by push_cast; rfl)) (maintains_fail _) d hd) ?_ fun _ _ => id
    exact fun _ d hd => (wp_pure _).2 hd
  · exact hd

/-! ## Delete -/

theorem maintains_putBack {α : Type} (hr : file.Aside lo n) {w : Victim} {bof : ℤ} {label : ℕ} {code : Code}
    (hcur : (file.hlen+18 : ℕ) ≤ w.cur) (hprev : file.Behind w.prev) (hnext : file.Behind w.next) :
    Maintains (HeaderHas file lo n v) (putBack (α := α) file w bof label code) := by
  rw [putBack]
  refine maintains_bind (maintains_putPtrElse hr (fun _ => .inr (by push_cast; rfl)) (maintains_fail _)) fun _ => ?_
  refine maintains_bind (maintains_putPtrElse hr ?_ (maintains_fail _)) fun _ => ?_
  · intro h
    have := hprev (by simp at h; exact h.2)
    exact .inl (by simp only [offsetToNext]; omega)
  refine maintains_bind (maintains_putPtrElse hr ?_ (maintains_fail _)) fun _ => ?_
  · intro h
    have := hnext (by simp at h; exact h.2)
    exact .inl (by simp only [offsetToPrev]; omega)
  exact maintains_bind (maintains_mutateAt hr (.inl hcur)) fun _ => maintains_fail _

theorem maintains_unlink (hr : file.Aside lo n) {w : Victim} (hcur : (file.hlen+18 : ℕ) ≤ w.cur) (hprev : file.Behind w.prev)
    (hnext : file.Behind w.next) : Maintains (HeaderHas file lo n v) (unlink file w) := by
  rw [unlink]
  refine maintains_bind (maintains_mutateAt hr (.inl hcur)) fun _ => maintains_bind (maintains_ensure _ _) fun _ => ?_
  refine maintains_bind (maintains_putPtrElse hr ?_ (maintains_putBack hr hcur hprev hnext)) fun _ => ?_
  · intro h
    have := hnext (by simpa using h)
    exact .inl (by simp only [offsetToPrev]; omega)
  refine maintains_bind (maintains_putPtrElse hr ?_ (maintains_putBack hr hcur hprev hnext)) fun _ => ?_
  · intro h
    have := hprev (by simpa using h)
    exact .inl (by simp only [offsetToNext]; omega)
  refine maintains_bind (maintains_putPtrElse hr (fun _ => .inr (by push_cast; rfl)) (maintains_putBack hr hcur hprev hnext)) fun _ => ?_
  exact maintains_pure _

theorem maintains_bytes {α : Type} {m : DiskM α} (h : Preserves Disk.bytes m) : Maintains (HeaderHas file lo n v) m := by
  intro d hd
  have hkeep : ∀ d' : Disk,d'.bytes = d.bytes → HeaderHas file lo n v d' := by
    intro d' hd'
    rw [HeaderHas,hd']
    exact hd
  exact wp_mono (h d) (fun _ => hkeep) fun _ => hkeep

theorem preserves_llseek (off : ℤ) : Preserves Disk.bytes (llseek off) := by
  apply preserves_modify
  intro d
  split
  · rfl
  · rfl

theorem preserves_tryRead (k : ℕ) : Preserves Disk.bytes (tryRead k) := by
  intro d
  by_cases hfail : d.failures.headD false = true
  · have hrun : tryRead k d = (.ok none,{ d with failures := d.failures.tail }) := by rw [tryRead,if_pos hfail]
    exact (wp_of_ok hrun).2 rfl
  · have hrun : tryRead k d = (.ok (if (slice d.bytes d.pos k).length = k then some (slice d.bytes d.pos k) else none),
        { d with pos := d.pos+(slice d.bytes d.pos k).length,failures := d.failures.tail }) := by rw [tryRead,if_neg hfail]
    exact (wp_of_ok hrun).2 rfl

theorem maintains_orElse {α : Type} {o : Option α} {otherwise : DiskM α} (h : Maintains (HeaderHas file lo n v) otherwise) :
    Maintains (HeaderHas file lo n v) (orElse o otherwise) := by
  cases o with
  | none => exact h
  | some a => exact maintains_pure a

theorem maintains_readReply (hr : file.Aside lo n) {w : Victim} {bof recno : ℤ} (blobs : Blobs) (hcur : (file.hlen+18 : ℕ) ≤ w.cur)
    (hprev : file.Behind w.prev) (hnext : file.Behind w.next) : Maintains (HeaderHas file lo n v) (readReply file blobs w bof recno) := by
  have hback : ∀ (α : Type) fmt bof label code,
      Maintains (HeaderHas file lo n v) (putBack (α := α) file { w with fmt := fmt } bof label code) :=
    fun _ _ _ _ _ => maintains_putBack hr hcur hprev hnext
  rw [readReply]
  refine maintains_bind (maintains_bytes (preserves_llseek _)) fun _ => maintains_bind (maintains_bytes (preserves_tryRead _)) fun _ => ?_
  refine maintains_bind (maintains_orElse (hback _ w.fmt _ _ _)) fun _ => maintains_bind (maintains_bytes (preserves_tryRead _)) fun _ => ?_
  refine maintains_bind (maintains_orElse (hback _ _ _ _ _)) fun _ => maintains_ite (fun _ => ?_) fun _ => maintains_pure _
  exact maintains_ite (fun _ => hback _ _ _ _ _) fun _ => maintains_pure _

theorem delete_header (hc : Chained file f recs chain) (hstart : ∀ r∈recs,file.hlen+18 ≤ r.off) (hr : file.Aside lo n) {a : ℕ}
    (ha : a∈chain) (hlen : file.hlen+18 ≤ f.length) (blobs : Blobs) (fileno uninit : ℤ) (p : ℕ) :
    wp (delete file blobs fileno a .noXact uninit) ⟨f,p,[]⟩ (fun _ => HeaderHas file lo n (slice f lo n))
      fun _ => HeaderHas file lo n (slice f lo n) := by
  have hb := hc.bounds ha
  obtain ⟨hcur,hprev,hnext⟩ := hc.behind hstart ha
  obtain ⟨r,-,-,hflag,-,h63,hp,hn⟩ := hc.header ha
  have hnow : ∀ q,HeaderHas file lo n (slice f lo n) ⟨f,q,[]⟩ := fun _ => ⟨hlen,rfl⟩
  simp only [delete,wp_bind,wp_ensure]
  rw [wp_llseek,headerLength,wp_read (by omega),hflag,not_deleted h63,hp,hn]
  simp only [Bool.not_false,Bool.true_or,if_true]
  split
  swap
  · exact hnow _
  have hfinish : ∀ fmt : ℕ,Maintains (HeaderHas file lo n (slice f lo n))
      (finishDelete file blobs fileno .noXact uninit ⟨fmt,a,(prevAt file f a : ℕ),(nextAt file f a : ℕ)⟩) := by
    intro fmt
    have hcur' : ((file.hlen+18 : ℕ) : ℤ) ≤ a := by omega
    exact maintains_bind (maintains_unlink hr hcur' hprev hnext) fun _ => maintains_readReply hr blobs hcur' hprev hnext
  split
  · split
    · exact (wp_fail _).2 (hnow _)
    · exact hfinish _ _ (hnow _)
  · exact hfinish _ _ (hnow _)

end Dataman.DataFile

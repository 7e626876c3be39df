import Dataman.DataFileLayout

/-!
# Inserting a record

The live records are one doubly linked chain from the head pointer. An insert puts the new
record next to its anchor and keeps the chain.
-/

namespace Dataman.DataFile
open ByteFiles FixedWidthFields FailState LinkedChain

variable {file : Files} {recs : List Record} {chain A B : List ℕ} {f : Bytes}

/-! ## Input and output that succeeds -/

theorem getLl_eq {bs : Bytes} (h : getBE bs < 2 ^ 63) : getLl bs = getBE bs := by
  have hn : (BitVec.ofNat 64 (getBE bs)).toNat = getBE bs := by
    rw [BitVec.toNat_ofNat]
    omega
  rw [getLl,BitVec.toInt_eq_toNat_of_lt (by omega),hn]

theorem putLl_natCast {v : ℕ} (h : v < 2 ^ 64) : putLl (v : ℤ) = putBE 8 v := by
  have hv : ((v : ℤ) % 2 ^ 64).toNat = v := by omega
  rw [putLl,hv]

section Io
variable {p : ℕ} {E : Code → Disk → Prop}

theorem wp_llseek {Q : Unit → Disk → Prop} (off : ℕ) :
    wp (llseek off) ⟨f,p,[]⟩ Q E ↔ Q () ⟨f,off,[]⟩ := by
  rw [llseek,wp_modify,if_pos (Int.natCast_nonneg off),Int.toNat_natCast]

theorem wp_seekEnd {Q : ℤ → Disk → Prop} : wp seekEnd ⟨f,p,[]⟩ Q E ↔ Q f.length ⟨f,f.length,[]⟩ :=
  wp_of_ok rfl

theorem wp_tryRead {Q : Option Bytes → Disk → Prop} {n : ℕ} (h : p+n ≤ f.length) :
    wp (tryRead n) ⟨f,p,[]⟩ Q E ↔ Q (some (slice f p n)) ⟨f,p+n,[]⟩ := by
  have hlen := length_slice_of_le h
  simp only [wp,tryRead,List.headD_nil,Bool.false_eq_true,if_false,hlen,if_true,List.tail_nil]

theorem wp_read {Q : Bytes → Disk → Prop} {n : ℕ} {code : Code} (h : p+n ≤ f.length) :
    wp (read n code) ⟨f,p,[]⟩ Q E ↔ Q (slice f p n) ⟨f,p+n,[]⟩ := by
  rw [read,wp_bind,wp_tryRead h,wp_ofOption]

theorem wp_mutateAt {Q : Bool → Disk → Prop} {data : Bytes} {off : ℕ} (h : off+data.length ≤ int64Max) :
    wp (mutateAt data off) ⟨f,p,[]⟩ Q E ↔ Q true ⟨writeAt f off data,p,[]⟩ := by
  have hr : ¬ ((off : ℤ) < 0 ∨ (int64Max : ℤ) < off+data.length) := by omega
  simp only [wp,mutateAt,if_neg hr,List.headD_nil,Bool.false_eq_true,if_false,Int.toNat_natCast,List.tail_nil]

theorem wp_mutateAt_far {Q : Bool → Disk → Prop} {data : Bytes} {off : ℕ} (h : ¬ off+data.length ≤ int64Max) :
    wp (mutateAt data off) ⟨f,p,[]⟩ Q E ↔ Q false ⟨f,p,[]⟩ := by
  have hr : (off : ℤ) < 0 ∨ (int64Max : ℤ) < off+data.length := by omega
  simp only [wp,mutateAt,if_pos hr]

/-- A pointer write under a condition, at the offset of a location. -/
theorem wp_putPtrElse {Q : Unit → Disk → Prop} {cond : Bool} {v : ℕ} {x : ℤ} {otherwise : DiskM Unit} (off : ℕ) (hv : v < 2 ^ 63)
    (hx : cond = true → x = off ∧ off+8 ≤ int64Max) :
    wp (putPtrElse cond v x otherwise) ⟨f,p,[]⟩ Q E ↔
      Q () ⟨if cond then writeAt f off (putBE 8 v) else f,p,[]⟩ := by
  cases cond with
  | false => exact wp_of_ok rfl
  | true =>
    obtain ⟨rfl,hle⟩ := hx rfl
    rw [putPtrElse,if_pos rfl,wp_bind,putPtr,putLl_natCast (by omega),wp_mutateAt (by rw [length_putBE]; exact hle),
      if_pos rfl,if_pos rfl,wp_pure]

end Io

/-! ## The invariant -/

/-- The live records are the chain, linked in its order from the head pointer; the others are
marked as deleted. -/
structure Chained (file : Files) (f : Bytes) (recs : List Record) (chain : List ℕ) : Prop where
  laid : Laid file f.length recs
  flags : ∀ r∈recs,contents file f (.flag r.off) = [UInt8.ofNat (if r.off∈chain then r.fmt else r.fmt+128)]
  records : ∀ o∈chain,∃ r∈recs,r.off = o
  nodup : chain.Nodup
  head : headAt file f = chain.headD 0
  linked : Segment (prevAt file f) (nextAt file f) 0 0 chain

theorem Chained.bounds (hc : Chained file f recs chain) {o : ℕ} (ho : o∈chain) :
    file.hlen+10 ≤ o ∧ o+17 ≤ f.length ∧ f.length < 2 ^ 63 := by
  obtain ⟨r,hr,rfl⟩ := hc.records o ho
  have h1 := hc.laid.ge r hr
  have h2 := hc.laid.inside r hr
  have h3 := hc.laid.length_le
  simp only [int64Max] at h3
  exact ⟨h1,by omega,by omega⟩

theorem Chained.zero_notMem (hc : Chained file f recs chain) : 0∉chain := by
  intro h
  have := (hc.bounds h).1
  omega

/-- The list that a reader gets by following the next pointers. -/
def chainOf (file : Files) (f : Bytes) : Option (List ℕ) := follow (nextAt file f) 0 (f.length+1) (headAt file f)

theorem Chained.chainOf_eq (hc : Chained file f recs chain) : chainOf file f = some chain := by
  have hlen : chain.length ≤ f.length := by
    have hsub : chain ⊆ List.range f.length := fun o ho => by
      have := hc.bounds ho
      exact List.mem_range.2 (by omega)
    have := (hc.nodup.subperm hsub).length_le
    rwa [List.length_range] at this
  rw [chainOf,hc.head]
  exact hc.linked.follow_eq hc.zero_notMem (Nat.lt_succ_of_le hlen)

/-! ## Insertion into the chain -/

theorem recordBytes_eq {fmt prev next : ℕ} (hfmt : fmt < 256) (hp : prev < 2 ^ 63) (hn : next < 2 ^ 63) (len : ℕ) :
    recordBytes fmt prev next len =
      [UInt8.ofNat fmt]++(putBE 8 prev++(putBE 8 next++List.replicate len 0x20)) := by
  have hf : ((fmt : ℤ) % 256).toNat = fmt := by omega
  rw [recordBytes,putLl_natCast (by omega),putLl_natCast (by omega),hf]
  simp

/-- The fields of an appended record. -/
theorem contents_new {fmt prev next : ℕ} (hfmt : fmt < 256) (hp : prev < 2 ^ 63) (hn : next < 2 ^ 63) {r : Record}
    (hr : r.off = f.length) {g : Bytes} (hg : g = writeAt f f.length (recordBytes fmt prev next (file.dataLength r))) :
    contents file g (.flag r.off) = [UInt8.ofNat fmt] ∧ contents file g (.prev r.off) = putBE 8 prev ∧
      contents file g (.next r.off) = putBE 8 next ∧ contents file g (.data r) = List.replicate (file.dataLength r) 0x20 ∧
      g.length = f.length+17+file.dataLength r := by
  have hb := recordBytes_eq hfmt hp hn (file.dataLength r)
  have hlen : (recordBytes fmt prev next (file.dataLength r)).length = 17+file.dataLength r := by
    rw [hb]
    simp
    omega
  have hin : ∀ i n,i+n ≤ 17+file.dataLength r →
      slice g (r.off+i) n = slice (recordBytes fmt prev next (file.dataLength r)) i n := by
    intro i n h
    rw [hg,hr]
    exact slice_writeAt_inside _ _ _ _ _ (by omega)
  refine ⟨?_,?_,?_,?_,?_⟩
  · have := hin 0 1 (by omega)
    rw [Nat.add_zero] at this
    rw [contents,Loc.off,Loc.length,this,hb]
    exact slice_append_exact _ _ 1 rfl
  · rw [contents,Loc.off,Loc.length,hin 1 8 (by omega),hb,slice_append_right _ _ _ _ (by simp)]
    exact slice_append_exact _ _ _ (length_putBE _ _)
  · rw [contents,Loc.off,Loc.length,hin 9 8 (by omega),hb,slice_append_right _ _ _ _ (by simp),
      slice_append_right _ _ _ _ (by simp)]
    exact slice_append_exact _ _ _ (by simp)
  · rw [contents,Loc.off,Loc.length,hin 17 _ (by omega),hb,slice_append_right _ _ _ _ (by simp),
      slice_append_right _ _ _ _ (by simp),slice_append_right _ _ _ _ (by simp)]
    exact slice_zero_of_length (by simp)
  · rw [hg,length_writeAt _ _ _ (by rintro h; rw [h] at hlen; simp at hlen; omega),hlen]
    omega

theorem Chained.getLastD_lt (hc : Chained file f recs (A++B)) : A.getLastD 0 < 2 ^ 63 := by
  rcases List.eq_nil_or_concat A with rfl | ⟨A',a,rfl⟩
  · decide
  · have := hc.bounds (o := a) (by simp)
    simp only [List.concat_eq_append,List.getLastD_concat]
    omega

theorem Chained.headD_lt (hc : Chained file f recs (A++B)) : B.headD 0 < 2 ^ 63 := by
  cases B with
  | nil => decide
  | cons b B =>
    have := hc.bounds (o := b) (by simp)
    simp only [List.headD_cons]
    omega

/-- The new record goes between `A` and `B`: the neighbours point at it, it is appended, and the head
pointer follows when it comes first. -/
structure Spliced (file : Files) (f g : Bytes) (recs : List Record) (A B : List ℕ) : Prop where
  length : g.length = f.length
  field : ∀ l,l.Valid recs → contents file g l =
    if A.getLast?.map Loc.next = some l ∨ B.head?.map Loc.prev = some l then putBE 8 f.length else contents file f l

/-- Behind the head pointer, appending the record leaves every field of the others alone. -/
theorem Spliced.append_field {g k : Bytes} (hg : Spliced file f g recs A B) (hl : Laid file f.length recs) {data : Bytes} {v : ℕ}
    (hk : k = putAt file (writeAt g f.length data) (if A = [] then some .head else none) v) {l : Loc} (hv : l.Valid recs)
    (hne : l≠.head) : contents file k l = contents file g l := by
  have hlaid : Laid file g.length recs := hg.length ▸ hl
  have happend : contents file (writeAt g f.length data) l = contents file g l := by
    rw [← hg.length]
    exact contents_append hlaid hv data
  have hin := Loc.inside hlaid hv
  have hlen : g.length ≤ (writeAt g f.length data).length := by
    by_cases hd : data = []
    · rw [hd,writeAt_nil]
    · rw [length_writeAt _ _ _ hd]
      omega
  rw [hk,← happend]
  split
  · apply slice_writeAt_disjoint
    · rw [length_putBE]
      exact Loc.disjoint hlaid hv (show Loc.Valid recs .head from trivial) hne
    · omega
  · rfl

theorem Chained.splice (hc : Chained file f recs (A++B)) {g k : Bytes} (hg : Spliced file f g recs A B) {r : Record}
    (hr : r.off = f.length) (hfmt : 1 ≤ r.fmt ∧ r.fmt ≤ file.formats.length)
    (hle : f.length+17+file.dataLength r ≤ int64Max)
    (hk : k = putAt file (writeAt g f.length (recordBytes r.fmt (A.getLastD 0 : ℕ) (B.headD 0 : ℕ) (file.dataLength r)))
      (if A = [] then some .head else none) f.length) :
    Chained file k (recs++[r]) (A++f.length::B) ∧ (∀ x∈recs,contents file k (.data x) = contents file f (.data x)) ∧
      contents file k (.data r) = List.replicate (file.dataLength r) 0x20 := by
  have hfl := file.formats_le
  have hlaid : Laid file g.length recs := hg.length ▸ hc.laid
  have hpos : ∀ o∈A++B,o≠f.length := fun o ho => by
    have := hc.bounds ho
    omega
  have hf256 : r.fmt < 256 := by omega
  have hlt : f.length < 256 ^ 8 := by
    simp only [int64Max] at hle
    omega
  obtain ⟨hflag,hprev,hnext,hdata,hlen⟩ := @contents_new file g r.fmt _ _ hf256 hc.getLastD_lt hc.headD_lt r
    (hr.trans hg.length.symm) _ rfl
  rw [hg.length] at hflag hprev hnext hdata hlen
  generalize hg2 : writeAt g f.length (recordBytes r.fmt (A.getLastD 0 : ℕ) (B.headD 0 : ℕ) (file.dataLength r)) = g2 at *
  have hlaid2 : Laid file g2.length (recs++[r]) := by
    rw [hlen,← hg.length]
    exact hlaid.append (hr.trans hg.length.symm) hfmt (hg.length ▸ hle)
  have hhead : ∀ x,(if A = [] then some Loc.head else none) = some x → x.Valid (recs++[r]) ∧ x.length file = 8 := by
    intro x hx
    split at hx
    · cases hx
      exact ⟨trivial,rfl⟩
    · cases hx
  have hput : ∀ l,l.Valid (recs++[r]) → contents file k l =
      if (if A = [] then some Loc.head else none) = some l then putBE 8 f.length else contents file g2 l := by
    intro l hv
    rw [hk]
    exact contents_putAt hlaid2 hhead hv f.length
  have hold : ∀ l,l.Valid recs → l≠.head → contents file k l = contents file g l := by
    intro l hv hne
    rw [← hg2] at hk
    exact hg.append_field hc.laid hk hv hne
  have hnew : ∀ l,l.Valid (recs++[r]) → l≠.head → contents file k l = contents file g2 l := by
    intro l hv hne
    rw [hput l hv,if_neg (by split <;> simp [hne.symm])]
  have hrmem : r∈recs++[r] := by simp
  have hklen : k.length = g2.length := by
    rw [hk]
    exact length_putAt hlaid2 hhead f.length
  have hold' : ∀ x∈recs,contents file k (.data x) = contents file f (.data x) := by
    intro x hx
    rw [hold (.data x) hx (by simp),hg.field (.data x) hx,if_neg]
    cases A.getLast? <;> cases B.head? <;> simp
  refine ⟨⟨?_,?_,?_,?_,?_,?_⟩,hold',?_⟩
  · rw [hklen]
    exact hlaid2
  · intro x hx
    rcases List.mem_append.1 hx with hx | hx
    · have hv : Loc.Valid recs (.flag x.off) := ⟨x,hx,rfl⟩
      have hne : x.off≠f.length := by
        have := hc.laid.inside x hx
        omega
      rw [hold _ hv (by simp),hg.field _ hv,if_neg (by cases A.getLast? <;> cases B.head? <;> simp),hc.flags x hx]
      simp [hne]
    · obtain rfl := List.mem_singleton.1 hx
      rw [hnew (.flag x.off) ⟨x,hrmem,rfl⟩ (by simp),hflag,if_pos (by simp [hr])]
  · intro o ho
    rcases List.mem_append.1 ho with h | h
    · obtain ⟨x,hx,rfl⟩ := hc.records o (List.mem_append_left B h)
      exact ⟨x,List.mem_append_left _ hx,rfl⟩
    · rcases List.mem_cons.1 h with rfl | h
      · exact ⟨r,hrmem,hr⟩
      · obtain ⟨x,hx,rfl⟩ := hc.records o (List.mem_append_right A h)
        exact ⟨x,List.mem_append_left _ hx,rfl⟩
  · have hnot : f.length∉A++B := fun h => hpos _ h rfl
    exact List.nodup_middle.2 (List.nodup_cons.2 ⟨hnot,hc.nodup⟩)
  · rw [headAt,hput .head trivial]
    cases A with
    | nil => rw [if_pos (by simp),getBE_putBE hlt,List.nil_append,List.headD_cons]
    | cons a A =>
      have hkeep : contents file g2 .head = contents file g .head := by
        rw [← hg2,← hg.length]
        exact contents_append hlaid (show Loc.Valid recs .head from trivial) _
      rw [if_neg (by simp),hkeep,hg.field .head trivial,if_neg]
      · exact hc.head
      · cases (a::A).getLast? <;> cases B.head? <;> simp
  · have hvalid : ∀ y∈A++B,∃ x∈recs,x.off = y := hc.records
    apply hc.linked.insert hc.nodup
    · intro y hy
      rw [nextAt,hold (.next y) (hvalid y hy) (by simp),hg.field (.next y) (hvalid y hy)]
      by_cases h : A.getLast? = some y
      · rw [if_pos h,if_pos (by simp [h]),getBE_putBE hlt]
      · rw [if_neg h,if_neg (by simpa using h),nextAt]
    · intro y hy
      rw [prevAt,hold (.prev y) (hvalid y hy) (by simp),hg.field (.prev y) (hvalid y hy)]
      by_cases h : B.head? = some y
      · rw [if_pos h,if_pos (by simp [h]),getBE_putBE hlt]
      · rw [if_neg h,if_neg (by simpa using h),prevAt]
    · rw [← hr,prevAt,hnew (.prev r.off) ⟨r,hrmem,rfl⟩ (by simp),hprev,getBE_putBE]
      have := hc.getLastD_lt
      omega
    · rw [← hr,nextAt,hnew (.next r.off) ⟨r,hrmem,rfl⟩ (by simp),hnext,getBE_putBE]
      have := hc.headD_lt
      omega
  · rw [hnew (.data r) hrmem (by simp),hdata]

/-- The two pointer writes around the new record, in either order. -/
theorem spliced_of_put (hc : Chained file f recs (A++B)) {l l' : Option Loc}
    (hl : l = A.getLast?.map Loc.next ∧ l' = B.head?.map Loc.prev ∨ l = B.head?.map Loc.prev ∧ l' = A.getLast?.map Loc.next) :
    Spliced file f (putAt file (putAt file f l f.length) l' f.length) recs A B := by
  have hA : ∀ x,A.getLast?.map Loc.next = some x → x.Valid recs ∧ x.length file = 8 := by
    intro x hx
    obtain ⟨o,ho,rfl⟩ := Option.map_eq_some_iff.1 hx
    exact ⟨hc.records o (List.mem_append_left B (List.mem_of_getLast? ho)),rfl⟩
  have hB : ∀ x,B.head?.map Loc.prev = some x → x.Valid recs ∧ x.length file = 8 := by
    intro x hx
    obtain ⟨o,ho,rfl⟩ := Option.map_eq_some_iff.1 hx
    exact ⟨hc.records o (List.mem_append_right A (List.mem_of_head? ho)),rfl⟩
  have hv : ∀ x,l = some x → x.Valid recs ∧ x.length file = 8 := by
    rcases hl with ⟨rfl,-⟩ | ⟨rfl,-⟩
    · exact hA
    · exact hB
  have hv' : ∀ x,l' = some x → x.Valid recs ∧ x.length file = 8 := by
    rcases hl with ⟨-,rfl⟩ | ⟨-,rfl⟩
    · exact hB
    · exact hA
  have hlen := length_putAt hc.laid hv f.length
  have hlaid : Laid file (putAt file f l f.length).length recs := by
    rw [hlen]
    exact hc.laid
  constructor
  · rw [length_putAt hlaid hv',hlen]
  · intro x hx
    rw [contents_putAt hlaid hv' hx,contents_putAt hc.laid hv hx]
    rcases hl with ⟨rfl,rfl⟩ | ⟨rfl,rfl⟩
    · by_cases h1 : A.getLast?.map Loc.next = some x <;> by_cases h2 : B.head?.map Loc.prev = some x <;> simp [h1,h2]
    · by_cases h1 : A.getLast?.map Loc.next = some x <;> by_cases h2 : B.head?.map Loc.prev = some x <;> simp [h1,h2]

section Neighbour
variable {g : Bytes} {p v : ℕ} {otherwise : DiskM Unit} {Q : Unit → Disk → Prop} {E : Code → Disk → Prop}

/-- The write to the next pointer of the record in front, if there is one. -/
theorem wp_putLast (hc : Chained file f recs (A++B)) (hv : v < 2 ^ 63) :
    wp (putPtrElse (((A.getLastD 0 : ℕ) : ℤ)≠0) v (((A.getLastD 0 : ℕ) : ℤ)+offsetToNext) otherwise) ⟨g,p,[]⟩ Q E ↔
      Q () ⟨putAt file g (A.getLast?.map Loc.next) v,p,[]⟩ := by
  rcases List.eq_nil_or_concat A with rfl | ⟨A',a,rfl⟩
  · exact wp_of_ok rfl
  · have hb := hc.bounds (o := a) (by simp)
    simp only [List.concat_eq_append,List.getLastD_concat,List.getLast?_append,List.getLast?_singleton,
      Option.some_or,Option.map_some]
    rw [wp_putPtrElse (a+9) hv]
    · have hne : ((a : ℕ) : ℤ)≠0 := by omega
      simp only [hne,ne_eq,not_false_eq_true,decide_true,if_true,putAt,Loc.off]
    · intro _
      simp only [offsetToNext,int64Max]
      omega

/-- The write to the previous pointer of the record behind, if there is one. -/
theorem wp_putHead (hc : Chained file f recs (A++B)) (hv : v < 2 ^ 63) :
    wp (putPtrElse (((B.headD 0 : ℕ) : ℤ)≠0) v (((B.headD 0 : ℕ) : ℤ)+offsetToPrev) otherwise) ⟨g,p,[]⟩ Q E ↔
      Q () ⟨putAt file g (B.head?.map Loc.prev) v,p,[]⟩ := by
  cases B with
  | nil => exact wp_of_ok rfl
  | cons b B =>
    have hb := hc.bounds (o := b) (by simp)
    simp only [List.headD_cons,List.head?_cons,Option.map_some]
    rw [wp_putPtrElse (b+1) hv]
    · have hne : ((b : ℕ) : ℤ)≠0 := by omega
      simp only [hne,ne_eq,not_false_eq_true,decide_true,if_true,putAt,Loc.off]
    · intro _
      simp only [offsetToPrev,int64Max]
      omega

end Neighbour

/-- Where a new record goes: BEFORE or AFTER the anchor. -/
inductive Place
  | before | after
  deriving DecidableEq,Repr

def Place.mode : Place → ℤ
  | before => 0
  | after => 1

def Place.pair (a x : ℕ) : Place → List ℕ
  | before => [x,a]
  | after => [a,x]

/-- The list with `x` next to `a`. -/
def Place.insert (a x : ℕ) (place : Place) (chain : List ℕ) : List ℕ :=
  chain.flatMap fun y => if y = a then place.pair a x else [y]

theorem Place.insert_of_notMem {a x : ℕ} (place : Place) (h : a∉A) : place.insert a x A = A := by
  induction A with
  | nil => rfl
  | cons y A ih =>
    have hy : y≠a := fun h' => h (h' ▸ List.mem_cons_self)
    have hA := ih fun h' => h (List.mem_cons_of_mem y h')
    rw [Place.insert] at hA
    rw [Place.insert,List.flatMap_cons,if_neg hy,hA,List.singleton_append]

/-- The chain around one of its records, with that record's links. -/
theorem Chained.around (hc : Chained file f recs chain) {a : ℕ} (ha : a∈chain) :
    ∃ C D,chain = C++a::D ∧ a∉C ∧ a∉D ∧ prevAt file f a = C.getLastD 0 ∧ nextAt file f a = D.headD 0 ∧
      ∀ (place : Place) x,place.insert a x chain = C++place.pair a x++D := by
  obtain ⟨C,D,rfl⟩ := List.append_of_mem ha
  have hnd := List.nodup_cons.1 (List.nodup_middle.1 hc.nodup)
  have hC : a∉C := fun h => hnd.1 (List.mem_append_left D h)
  have hD : a∉D := fun h => hnd.1 (List.mem_append_right C h)
  obtain ⟨-,hseg⟩ := segment_append.1 hc.linked
  cases hseg with
  | cons back forth rest =>
    refine ⟨C,D,rfl,hC,hD,back,forth,fun place x => ?_⟩
    have h1 := place.insert_of_notMem (x := x) hC
    have h2 := place.insert_of_notMem (x := x) hD
    rw [Place.insert] at h1 h2
    rw [Place.insert,List.flatMap_append,List.flatMap_cons,h1,h2,if_pos rfl,List.append_assoc]

theorem wp_relink {Q : Neighbours → Disk → Prop} {E : Code → Disk → Prop} (hc : Chained file f recs chain) {a : ℕ}
    (ha : a∈chain) (place : Place) (p : ℕ)
    (hQ : ∀ A B g,chain = A++B → place.insert a f.length chain = A++f.length::B → Spliced file f g recs A B →
      Q ⟨if A = [] then f.length else 0,(A.getLastD 0 : ℕ),(B.headD 0 : ℕ)⟩ ⟨g,p,[]⟩) :
    wp (relink place.mode a (prevAt file f a) (nextAt file f a) f.length) ⟨f,p,[]⟩ Q E := by
  have hb := hc.bounds ha
  obtain ⟨C,D,rfl,hC,hD,hprev,hnext,hins⟩ := hc.around ha
  rw [hprev,hnext]
  cases place with
  | before =>
    simp only [relink,Place.mode,if_true,wp_bind,wp_pure]
    rw [wp_putPtrElse (a+1) (by omega),wp_putLast hc (by omega)]
    · have hs : Spliced file f (putAt file (putAt file f ((a::D).head?.map Loc.prev) f.length)
          (C.getLast?.map Loc.next) f.length) recs C (a::D) := spliced_of_put hc (.inr ⟨rfl,rfl⟩)
      have hbof : (if ((C.getLastD 0 : ℕ) : ℤ)≠0 then (0 : ℤ) else f.length) = if C = [] then (f.length : ℤ) else 0 := by
        rcases List.eq_nil_or_concat C with rfl | ⟨C',c,rfl⟩
        · simp
        · have := hc.bounds (o := c) (by simp)
          rw [if_pos,if_neg (by simp)]
          simp only [List.concat_eq_append,List.getLastD_concat]
          omega
      rw [hbof]
      exact hQ C (a::D) _ rfl (by rw [hins]; simp [Place.pair]) hs
    · intro _
      simp only [offsetToPrev,int64Max]
      omega
  | after =>
    have hc' : Chained file f recs ((C++[a])++D) := by simpa using hc
    simp only [relink,Place.mode,one_ne_zero,if_false,if_true,wp_bind,wp_pure]
    rw [wp_putPtrElse (a+9) (by omega),wp_putHead hc' (by omega)]
    · have hs : Spliced file f (putAt file (putAt file f ((C++[a]).getLast?.map Loc.next) f.length)
          (D.head?.map Loc.prev) f.length) recs (C++[a]) D := spliced_of_put hc' (.inl ⟨rfl,rfl⟩)
      have hq := hQ (C++[a]) D _ (by simp) (by rw [hins]; simp [Place.pair]) hs
      simpa [putAt,Loc.off] using hq
    · intro _
      simp only [offsetToNext,int64Max]
      omega

/-- The header that the handlers read at a live record. -/
theorem Chained.header (hc : Chained file f recs chain) {a : ℕ} (ha : a∈chain) :
    ∃ r∈recs,r.off = a ∧ (slice f a 17).headD 0 = UInt8.ofNat r.fmt ∧ 1 ≤ r.fmt ∧ r.fmt ≤ 63 ∧
      getLl (slice (slice f a 17) 1 8) = prevAt file f a ∧ getLl (slice (slice f a 17) 9 8) = nextAt file f a := by
  obtain ⟨r,hr,rfl⟩ := hc.records a ha
  have hfmt := hc.laid.format r hr
  have hfl := file.formats_le
  have hflag : slice f r.off 1 = [UInt8.ofNat r.fmt] := by
    have := hc.flags r hr
    rwa [if_pos ha] at this
  obtain ⟨C,D,rfl,-,-,hprev,hnext,-⟩ := hc.around ha
  have hp : prevAt file f r.off < 2 ^ 63 := hprev ▸ hc.getLastD_lt
  have hn : nextAt file f r.off < 2 ^ 63 := by
    have hc' : Chained file f recs ((C++[r.off])++D) := by simpa using hc
    exact hnext ▸ hc'.headD_lt
  refine ⟨r,hr,rfl,?_,hfmt.1,by omega,?_,?_⟩
  · rw [show 17 = 1+16 from rfl,slice_split,hflag]
    rfl
  · rw [slice_slice _ _ _ _ _ (by omega)]
    exact getLl_eq hp
  · rw [slice_slice _ _ _ _ _ (by omega)]
    exact getLl_eq hn

theorem not_deleted {fmt : ℕ} (h : fmt ≤ 63) : deleted (UInt8.ofNat fmt) = false := by
  rw [deleted,decide_eq_false_iff_not,UInt8.toNat_ofNat']
  omega

/-- The file after the handlers kept the chain: which records there are, and that the data of the
old ones is untouched. -/
structure Kept (file : Files) (f g : Bytes) (recs recs' : List Record) (chain : List ℕ) : Prop where
  chained : Chained file g recs' chain
  data : ∀ r∈recs,contents file g (.data r) = contents file f (.data r)

/-- The links of the records outside the chain are as they were. -/
def Frozen (file : Files) (f g : Bytes) (recs : List Record) (chain : List ℕ) : Prop :=
  ∀ r∈recs,r.off∉chain → contents file g (.next r.off) = contents file f (.next r.off) ∧
    contents file g (.prev r.off) = contents file f (.prev r.off)

/-- The file with the record `r` appended between `A` and `B`. -/
structure Inserted (file : Files) (f k : Bytes) (recs : List Record) (A B : List ℕ) (r : Record) : Prop where
  off : r.off = f.length
  format : 1 ≤ r.fmt ∧ r.fmt ≤ file.formats.length
  fits : f.length+17+file.dataLength r ≤ int64Max
  bytes : ∃ g,Spliced file f g recs A B ∧
    k = putAt file (writeAt g f.length (recordBytes r.fmt (A.getLastD 0 : ℕ) (B.headD 0 : ℕ) (file.dataLength r)))
      (if A = [] then some .head else none) f.length

theorem Inserted.frozen {k : Bytes} {r : Record} (h : Inserted file f k recs A B r) (hl : Laid file f.length recs) :
    Frozen file f k recs (A++f.length::B) := by
  obtain ⟨g,hg,hk⟩ := h.bytes
  intro x hx hout
  have hA : A.getLast?≠some x.off := fun h => hout (List.mem_append_left _ (List.mem_of_getLast? h))
  have hB : B.head?≠some x.off :=
    fun h => hout (List.mem_append_right _ (List.mem_cons_of_mem _ (List.mem_of_head? h)))
  have hnext : Loc.Valid recs (.next x.off) := ⟨x,hx,rfl⟩
  have hprev : Loc.Valid recs (.prev x.off) := ⟨x,hx,rfl⟩
  constructor
  · rw [hg.append_field hl hk hnext (by simp),hg.field _ hnext,if_neg (by simpa using hA)]
  · rw [hg.append_field hl hk hprev (by simp),hg.field _ hprev,if_neg (by simpa using hB)]

theorem Inserted.length_eq {k : Bytes} {r : Record} (h : Inserted file f k recs A B r) (hc : Chained file f recs (A++B)) :
    k.length = f.length+17+file.dataLength r := by
  obtain ⟨g,hg,hk⟩ := h.bytes
  have hfl := file.formats_le
  have hfmt := h.format
  have hhead := hc.laid.header_le
  have hlen := (@contents_new file g r.fmt _ _ (by omega) hc.getLastD_lt hc.headD_lt r (h.off.trans hg.length.symm) _ rfl).2.2.2.2
  rw [hg.length] at hlen
  rw [hk,← hlen]
  split
  · apply length_writeAt_inside
    rw [length_putBE,hlen]
    simp only [Loc.off]
    omega
  · rfl

/-- The run of an insert next to a live record. -/
theorem wp_insert {Q : ℕ × ℤ → Disk → Prop} {E : Code → Disk → Prop} (hc : Chained file f recs chain) {a : ℕ} (ha : a∈chain)
    (place : Place) (fmt : ℤ) (p : ℕ) (hbad : ¬ (1 ≤ fmt ∧ fmt ≤ file.formats.length) → E .badFmt ⟨f,p,[]⟩)
    (hfar : ∀ d,E .recWrt d)
    (hQ : ∀ A B r d,chain = A++B → place.insert a f.length chain = A++f.length::B → (r.fmt : ℤ) = fmt →
      Inserted file f d.bytes recs A B r → Q (file.dataLength r,(f.length : ℤ)) d) :
    wp (insert file fmt place.mode a) ⟨f,p,[]⟩ Q E := by
  have hb := hc.bounds ha
  obtain ⟨r,hr,hroff,hflag,-,h63,hprev,hnext⟩ := hc.header ha
  simp only [insert,wp_bind,wp_ensure]
  by_cases hfmt : fmt ≤ file.formats.length ∧ 1 ≤ fmt
  swap
  · rw [if_neg (by simpa using hfmt)]
    exact hbad fun h => hfmt ⟨h.2,h.1⟩
  obtain ⟨k,rfl⟩ := Int.eq_ofNat_of_zero_le (show 0 ≤ fmt by omega)
  rw [if_pos (by simpa using hfmt),wp_llseek,headerLength,wp_read (by omega),hflag,not_deleted h63,hprev,hnext]
  simp only [Bool.not_false,if_true]
  rw [wp_seekEnd]
  apply wp_relink hc ha place f.length
  intro A B g hchain hins hs
  subst hchain
  obtain ⟨r',hr',hfmt'⟩ : ∃ r' : Record,r'.off = f.length ∧ r'.fmt = k := ⟨⟨f.length,k⟩,rfl,rfl⟩
  have hdl : (file.format (k : ℤ).toNat).rfLen = file.dataLength r' := by
    rw [Int.toNat_natCast,Files.dataLength,hfmt']
  have hfl := file.formats_le
  have hlen : (recordBytes k (A.getLastD 0 : ℕ) (B.headD 0 : ℕ) (file.dataLength r')).length = 17+file.dataLength r' := by
    rw [recordBytes_eq (by omega) hc.getLastD_lt hc.headD_lt]
    simp
    omega
  rw [hdl]
  by_cases hle : f.length+(17+file.dataLength r') ≤ int64Max
  swap
  · rw [wp_mutateAt_far (by rwa [hlen])]
    exact hfar _
  rw [wp_mutateAt (by rwa [hlen]),if_pos rfl,wp_putPtrElse (file.hlen+2) (by omega)]
  swap
  · intro _
    simp only [int64Max]
    omega
  have hput : ∀ h : Bytes,(if decide ((if A = [] then (f.length : ℤ) else 0)≠0) = true
      then writeAt h (file.hlen+2) (putBE 8 f.length) else h) =
      putAt file h (if A = [] then some .head else none) f.length := by
    intro h
    have hne : (f.length : ℤ)≠0 := by omega
    by_cases hA : A = []
    · simp only [hA,if_true,hne,ne_eq,not_false_eq_true,decide_true,putAt,Loc.off]
    · simp only [hA,if_false,ne_eq,not_true_eq_false,decide_false,Bool.false_eq_true,putAt]
  rw [wp_pure,hput]
  apply hQ A B r' _ rfl hins (by rw [hfmt'])
  refine ⟨hr',by omega,by omega,g,hs,?_⟩
  rw [hfmt']

theorem insert_spec (hc : Chained file f recs chain) {a : ℕ} (ha : a∈chain) (place : Place) (fmt : ℤ) (p : ℕ) :
    wp (insert file fmt place.mode a) ⟨f,p,[]⟩
      (fun out d => ∃ r : Record,r.off = f.length ∧ (r.fmt : ℤ) = fmt ∧ out = (file.dataLength r,(f.length : ℤ)) ∧
        (1 ≤ fmt ∧ fmt ≤ file.formats.length) ∧ Kept file f d.bytes recs (recs++[r]) (place.insert a f.length chain) ∧
        contents file d.bytes (.data r) = List.replicate (file.dataLength r) 0x20 ∧ d.bytes.length = f.length+17+file.dataLength r)
      (fun e d => e = .recWrt ∨ e = .badFmt ∧ ¬ (1 ≤ fmt ∧ fmt ≤ file.formats.length) ∧ d.bytes = f) := by
  apply wp_insert hc ha place fmt p
  · exact fun hfmt => .inr ⟨rfl,hfmt,rfl⟩
  · exact fun d => .inl rfl
  · intro A B r d hchain hins hfmt h
    subst hchain
    obtain ⟨g,hs,hk⟩ := h.bytes
    obtain ⟨hchained,hdata,hblank⟩ := hc.splice hs h.off h.format h.fits hk
    have := h.format
    exact ⟨r,h.off,hfmt,rfl,by omega,⟨hins ▸ hchained,hdata⟩,hblank,h.length_eq hc⟩

end Dataman.DataFile

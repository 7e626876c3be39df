import Dataman.RecordInsertion
import Mathlib.Algebra.Order.BigOperators.Group.Finset
import Mathlib.Order.Interval.Finset.Nat

/-!
# Files that are written front to back

`mkdf` and `rebuild` write the records one behind the other, each linked to the one before and the
one behind. The records of such a file are its chain, and they fill it.
-/

namespace Dataman.DataFile
open ByteFiles FixedWidthFields LinkedChain

/-- A record without its place: the format and the data. -/
structure Entry where
  fmt : ℕ
  data : Bytes
  deriving DecidableEq,Repr

def Entry.size (e : Entry) : ℕ := 17+e.data.length

/-- The entry belongs to one of the formats of the file. -/
def Entry.Fits (file : Files) (e : Entry) : Prop :=
  (1 ≤ e.fmt ∧ e.fmt ≤ file.formats.length) ∧ e.data.length = (file.format e.fmt).rfLen

/-- The records from the offset `curr` on, behind the record at `prev`. -/
def encodeChain (prev curr : ℕ) : List Entry → Bytes
  | [] => []
  | e::rest =>
    ([UInt8.ofNat e.fmt]++(putLl prev++(putLl (if rest = [] then 0 else (curr+e.size : ℕ))++e.data))) ++
      encodeChain curr (curr+e.size) rest

/-- Where these records are. -/
def recordsOf (curr : ℕ) : List Entry → List Record
  | [] => []
  | e::rest => ⟨curr,e.fmt⟩::recordsOf (curr+e.size) rest

/-- The record at an offset: a header, and as much data as its format says. -/
def entryAt (file : Files) (f : Bytes) (o : ℕ) : Option Entry :=
  (readAt f o headerLength).bind fun header =>
    let fmt := (header.headD 0).toNat
    if 1 ≤ fmt ∧ fmt ≤ file.formats.length then (readAt f (o+headerLength) (file.format fmt).rfLen).map (⟨fmt,·⟩)
    else none

variable {file : Files} {f pre : Bytes} {es : List Entry} {prev curr : ℕ}

/-! ## Where the records are -/

theorem length_encodeChain (prev curr : ℕ) (es : List Entry) : (encodeChain prev curr es).length = (es.map Entry.size).sum := by
  induction es generalizing prev curr with
  | nil => rfl
  | cons e es ih =>
    rw [encodeChain,List.length_append,ih,List.map_cons,List.sum_cons]
    simp only [List.length_append,List.length_singleton,putLl,length_putBE,Entry.size]
    omega

theorem Entry.Fits.dataLength {e : Entry} (h : e.Fits file) (o : ℕ) : file.dataLength ⟨o,e.fmt⟩ = e.data.length := h.2.symm

theorem recordsOf_bounds (hes : ∀ e∈es,e.Fits file) {r : Record} (hr : r∈recordsOf curr es) :
    curr ≤ r.off ∧ r.off+17+file.dataLength r ≤ curr+(es.map Entry.size).sum ∧ 1 ≤ r.fmt ∧ r.fmt ≤ file.formats.length := by
  induction es generalizing curr with
  | nil => cases hr
  | cons e es ih =>
    have he := hes e List.mem_cons_self
    rw [List.map_cons,List.sum_cons]
    rcases List.mem_cons.1 hr with rfl | hr
    · rw [he.dataLength]
      refine ⟨le_rfl,?_,he.1⟩
      simp only [Entry.size]
      omega
    · obtain ⟨hge,hin,hfmt⟩ := ih (fun x hx => hes x (List.mem_cons_of_mem _ hx)) hr
      exact ⟨by omega,by omega,hfmt⟩

theorem recordsOf_tiled (hes : ∀ e∈es,e.Fits file) : Tiled file curr (recordsOf curr es) (curr+(es.map Entry.size).sum) := by
  induction es generalizing curr with
  | nil => rfl
  | cons e es ih =>
    have hrest := @ih (curr+e.size) fun x hx => hes x (List.mem_cons_of_mem _ hx)
    refine ⟨rfl,?_⟩
    rw [(hes e List.mem_cons_self).dataLength,Nat.add_assoc curr,← Entry.size,List.map_cons,List.sum_cons,← Nat.add_assoc]
    exact hrest

theorem recordsOf_apart (hes : ∀ e∈es,e.Fits file) : (recordsOf curr es).Pairwise (Apart file) := by
  induction es generalizing curr with
  | nil => exact .nil
  | cons e es ih =>
    have htail : ∀ x∈es,x.Fits file := fun x hx => hes x (List.mem_cons_of_mem _ hx)
    refine .cons ?_ (ih htail)
    intro r hr
    have hge := (recordsOf_bounds htail hr).1
    left
    rw [(hes e List.mem_cons_self).dataLength]
    simp only [Entry.size] at hge ⊢
    omega

theorem recordsOf_nodup (hes : ∀ e∈es,e.Fits file) : ((recordsOf curr es).map Record.off).Nodup := by
  rw [List.Nodup,List.pairwise_map]
  refine (recordsOf_apart hes).imp ?_
  intro r r' h
  rcases h with h | h
  · omega
  · omega

theorem headD_recordsOf (hne : es≠[]) : ((recordsOf curr es).map Record.off).headD 0 = curr := by
  cases es with
  | nil => exact absurd rfl hne
  | cons e es => rfl

/-- The fields of the first record behind `pre`. -/
theorem contents_first (file : Files) {e : Entry} {p n rest : Bytes} (hp : p.length = 8) (hn : n.length = 8)
    (hf : f = pre++(([UInt8.ofNat e.fmt]++(p++(n++e.data)))++rest)) :
    contents file f (.flag pre.length) = [UInt8.ofNat e.fmt] ∧ contents file f (.prev pre.length) = p ∧
      contents file f (.next pre.length) = n ∧ slice f (pre.length+17) e.data.length = e.data := by
  refine ⟨?_,?_,?_,?_⟩
  · exact slice_at pre [UInt8.ofNat e.fmt] (p++(n++e.data)++rest) (by rw [hf,List.append_assoc]) rfl rfl
  · exact slice_at (pre++[UInt8.ofNat e.fmt]) p (n++e.data++rest) (by rw [hf]; simp) (by simp [Loc.off]) hp
  · exact slice_at (pre++[UInt8.ofNat e.fmt]++p) n (e.data++rest) (by rw [hf]; simp) (by simp [Loc.off,hp]) hn
  · exact slice_at (pre++[UInt8.ofNat e.fmt]++p++n) e.data rest (by rw [hf]; simp) (by simp [hp,hn]) rfl

theorem readAt_header {o : ℕ} {b : UInt8} (hin : o+17 ≤ f.length) (hflag : slice f o 1 = [b]) :
    ∃ header,readAt f o headerLength = some header ∧ header.headD 0 = b := by
  refine ⟨slice f o headerLength,readAt_of_le hin,?_⟩
  rw [headerLength,show 17 = 1+16 from rfl,slice_split,hflag]
  rfl

theorem entryAt_eq {o : ℕ} {e : Entry} (he : e.Fits file) (hin : o+e.size ≤ f.length) (hflag : slice f o 1 = [UInt8.ofNat e.fmt])
    (hdata : slice f (o+17) e.data.length = e.data) : entryAt file f o = some e := by
  have hfl := file.formats_le
  have hfmt := he.1
  simp only [Entry.size] at hin
  obtain ⟨header,hread,hhead⟩ := readAt_header (by omega) hflag
  have hbyte : (UInt8.ofNat e.fmt).toNat = e.fmt := by
    rw [UInt8.toNat_ofNat']
    omega
  have hrest : readAt f (o+headerLength) (file.format e.fmt).rfLen = some e.data := by
    rw [← he.2,readAt_of_le (by rw [headerLength]; omega)]
    exact congrArg some hdata
  rw [entryAt,hread,Option.bind_some,hhead,hbyte,if_pos he.1,hrest]
  rfl

/-- What a file says that ends with these records. -/
structure Encoded (file : Files) (f : Bytes) (prev curr : ℕ) (es : List Entry) : Prop where
  flags : ∀ r∈recordsOf curr es,contents file f (.flag r.off) = [UInt8.ofNat r.fmt]
  linked : Segment (prevAt file f) (nextAt file f) 0 prev ((recordsOf curr es).map Record.off)
  entries : ((recordsOf curr es).map Record.off).map (entryAt file f) = es.map some

theorem encoded (hf : f = pre++encodeChain prev pre.length es) (hes : ∀ e∈es,e.Fits file) (hprev : prev < 2 ^ 63)
    (hlen : f.length < 2 ^ 63) : Encoded file f prev pre.length es := by
  induction es generalizing pre prev with
  | nil =>
    refine ⟨?_,.nil,rfl⟩
    intro r hr
    cases hr
  | cons e es ih =>
    have he := hes e List.mem_cons_self
    have hall : f.length = pre.length+(e.size+(es.map Entry.size).sum) := by
      rw [hf,List.length_append,length_encodeChain,List.map_cons,List.sum_cons]
    have hsize : (17 : ℕ) ≤ e.size := by
      simp only [Entry.size]
      omega
    -- the next offset is the head of the rest, and it is small enough for its field
    obtain ⟨next,hnext,hnlt,hnhead⟩ : ∃ next : ℕ,(if es = [] then (0 : ℤ) else (pre.length+e.size : ℕ)) = next ∧ next < 2 ^ 63 ∧
        next = ((recordsOf (pre.length+e.size) es).map Record.off).headD 0 := by
      by_cases hnil : es = []
      · exact ⟨0,by rw [if_pos hnil]; rfl,by omega,by rw [hnil]; rfl⟩
      · exact ⟨pre.length+e.size,by rw [if_neg hnil],by omega,(headD_recordsOf hnil).symm⟩
    rw [encodeChain,hnext] at hf
    obtain ⟨hflag,hp,hn,hdata⟩ := contents_first file (by rw [putLl,length_putBE]) (by rw [putLl,length_putBE]) hf
    rw [putLl_natCast (by omega)] at hp hn
    generalize hrec : [UInt8.ofNat e.fmt]++(putLl prev++(putLl next++e.data)) = rec at hf
    have hreclen : rec.length = e.size := by
      rw [← hrec]
      simp only [List.length_append,List.length_singleton,putLl,length_putBE,Entry.size]
      omega
    have hrest : Encoded file f pre.length (pre.length+e.size) es := by
      have hlen' : (pre++rec).length = pre.length+e.size := by rw [List.length_append,hreclen]
      rw [← hlen']
      refine ih ?_ (fun x hx => hes x (List.mem_cons_of_mem _ hx)) (by omega)
      rw [hf,hlen',List.append_assoc]
    refine ⟨?_,.cons ?_ ?_ hrest.linked,?_⟩
    · intro r hr
      rcases List.mem_cons.1 hr with rfl | hr
      · exact hflag
      · exact hrest.flags r hr
    · rw [prevAt,hp,getBE_putBE (by omega)]
    · rw [nextAt,hn,getBE_putBE (by omega),hnhead]
    · rw [recordsOf,List.map_cons,List.map_cons,List.map_cons,hrest.entries]
      have hin : pre.length+e.size ≤ f.length := by omega
      exact congrArg (· :: _) (entryAt_eq he hin hflag hdata)

/-- A file with these records behind its header, where the head pointer leads to the first of them. -/
theorem chained_image (hpre : pre.length = file.hlen+18) (hhead : contents file pre .head = putBE 8 pre.length)
    (hne : es≠[]) (hes : ∀ e∈es,e.Fits file) (hf : f = pre++encodeChain 0 pre.length es) (hlen : f.length ≤ int64Max) :
    Chained file f (recordsOf pre.length es) ((recordsOf pre.length es).map Record.off) ∧
      ((recordsOf pre.length es).map Record.off).map (entryAt file f) = es.map some := by
  have hall : f.length = pre.length+(es.map Entry.size).sum := by rw [hf,List.length_append,length_encodeChain]
  have hlt : f.length < 2 ^ 63 := by
    simp only [int64Max] at hlen
    omega
  have henc := encoded hf hes (by omega) hlt
  refine ⟨⟨⟨by omega,hlen,?_,?_,recordsOf_apart hes,?_⟩,?_,?_,recordsOf_nodup hes,?_,henc.linked⟩,henc.entries⟩
  · intro r hr
    have := (recordsOf_bounds hes hr).1
    omega
  · intro r hr
    rw [hall]
    exact (recordsOf_bounds hes hr).2.1
  · exact fun r hr => (recordsOf_bounds hes hr).2.2
  · intro r hr
    rw [henc.flags r hr,if_pos (List.mem_map_of_mem hr)]
  · intro o ho
    exact List.mem_map.1 ho
  · have hkeep : contents file f .head = contents file pre .head := by
      rw [hf]
      exact slice_append_left _ _ _ _ (by rw [hpre]; simp only [Loc.off,Loc.length]; omega)
    rw [headAt,hkeep,hhead,getBE_putBE (by omega),headD_recordsOf hne]

/-! ## Room -/

variable {recs : List Record} {chain : List ℕ}

/-- A live record as it stands in the file. -/
theorem Chained.entryAt_eq (hc : Chained file f recs chain) {o : ℕ} (ho : o∈chain) :
    ∃ r∈recs,r.off = o ∧ entryAt file f o = some ⟨r.fmt,contents file f (.data r)⟩ ∧
      (Entry.mk r.fmt (contents file f (.data r))).Fits file := by
  obtain ⟨r,hr,rfl⟩ := hc.records o ho
  have hin := hc.laid.inside r hr
  have hflag := hc.flags r hr
  rw [if_pos ho] at hflag
  have hlen : (contents file f (.data r)).length = file.dataLength r := length_slice_of_le hin
  have hfits : (Entry.mk r.fmt (contents file f (.data r))).Fits file := ⟨hc.laid.format r hr,hlen⟩
  refine ⟨r,hr,rfl,DataFile.entryAt_eq hfits ?_ hflag ?_,hfits⟩
  · simp only [Entry.size,hlen]
    omega
  · rw [hlen]
    rfl

end Dataman.DataFile

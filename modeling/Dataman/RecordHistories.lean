import Dataman.RecordChain

/-!
# Requests with any fields

The handlers take the fields of a request as they come. An insert whose mode is neither
BEFORE nor AFTER is answered like any other, but its record is linked from nowhere.
-/

namespace Dataman.DataFile
open ByteFiles FixedWidthFields FailState LinkedChain

variable {file : Files} {recs recs' : List Record} {chain : List ℕ} {f g : Bytes}

/-- A request that changes a data file. The mode of a deletion is overwritten with zeros on its way
to the handler. -/
inductive Edit
  | insert (fmt mode : ℤ) (anchor : ℕ)
  | delete (anchor : ℕ) (blobs : Blobs) (fileno uninit : ℤ)

def Edit.anchor : Edit → ℕ
  | insert _ _ a => a
  | delete a _ _ _ => a

def Edit.run (file : Files) : Edit → DiskM Unit
  | insert fmt mode a => do
    let _ ← DataFile.insert file fmt mode a
    return ()
  | delete a blobs fileno uninit => do
    let _ ← DataFile.delete file blobs fileno a .noXact uninit
    return ()

/-- The records of the file after a request, when the file had `n` bytes. -/
def Edit.records (n : ℕ) (recs : List Record) : Edit → List Record
  | insert fmt _ _ => recs++[⟨n,fmt.toNat⟩]
  | delete _ _ _ _ => recs

/-- The mode of an insert is one of the two that there are. -/
def Edit.Linked : Edit → Prop
  | insert _ mode _ => mode = 0 ∨ mode = 1
  | delete _ _ _ _ => True

/-- Requests on records of the file, live or deleted, that were answered without an error. The log has
the last one first, each with the file that it found. -/
inductive History (file : Files) (f : Bytes) (recs : List Record) : List (Edit × Bytes) → Bytes → List Record → Prop
  | nil : History file f recs [] f recs
  | snoc {log : List (Edit × Bytes)} {g : Bytes} {recs' : List Record} {p : ℕ} {d : Disk}
      (run : History file f recs log g recs') (q : Edit) (known : ∃ r∈recs',r.off = q.anchor)
      (answer : q.run file ⟨g,p,[]⟩ = (.ok (),d)) : History file f recs ((q,g)::log) d.bytes (q.records g.length recs')

def deletedAt (file : Files) (f : Bytes) (o : ℕ) : Bool := deleted ((contents file f (.flag o)).headD 0)

/-- The records that are not marked as deleted are those that the next pointers lead to. -/
def Reached (file : Files) (f : Bytes) (recs : List Record) : Prop :=
  ∃ chain,chainOf file f = some chain ∧ (∀ r∈recs,deletedAt file f r.off = false → r.off∈chain) ∧
    ∀ o∈chain,deletedAt file f o = false ∧ ∃ r∈recs,r.off = o

theorem Chained.deletedAt_eq (hc : Chained file f recs chain) {r : Record} (hr : r∈recs) :
    deletedAt file f r.off = decide (r.off∉chain) := by
  have hfmt := hc.laid.format r hr
  have hfl := file.formats_le
  rw [deletedAt,hc.flags r hr,List.headD_cons]
  by_cases h : r.off∈chain
  · rw [if_pos h,not_deleted (by omega),eq_comm,decide_eq_false_iff_not,not_not]
    exact h
  · rw [if_neg h,deleted,UInt8.toNat_ofNat',decide_eq_true h,decide_eq_true_eq]
    omega

theorem Chained.reached (hc : Chained file f recs chain) : Reached file f recs := by
  refine ⟨chain,hc.chainOf_eq,?_,?_⟩
  · intro r hr hlive
    rw [hc.deletedAt_eq hr] at hlive
    simpa using hlive
  · intro o ho
    obtain ⟨r,hr,rfl⟩ := hc.records o ho
    refine ⟨?_,r,hr,rfl⟩
    rw [hc.deletedAt_eq hr]
    simpa using ho

/-! ## One request -/

/-- What a linked request leaves: a chain, the old records, and links that only the chain's records changed. -/
structure Edited (file : Files) (f g : Bytes) (recs recs' : List Record) (chain : List ℕ) : Prop where
  chained : Chained file g recs' chain
  frozen : Frozen file f g recs chain
  old : ∀ r∈recs,r∈recs'
  fresh : ∀ r∈recs',r∈recs ∨ r.off∈chain

/-- The header of a deleted record says so. -/
theorem Chained.dead_header (hc : Chained file f recs chain) {r : Record} (hr : r∈recs) (hdead : r.off∉chain) :
    deleted ((slice f r.off 17).headD 0) = true := by
  have hflag := hc.deletedAt_eq hr
  rw [decide_eq_true hdead,deletedAt,contents,Loc.off,Loc.length] at hflag
  rw [show 17 = 1+16 from rfl,slice_split]
  cases hs : slice f r.off 1 with
  | nil =>
    have hlen := congrArg List.length (hc.flags r hr)
    simp [contents,Loc.off,Loc.length,hs] at hlen
  | cons b bs => rwa [hs] at hflag

theorem insert_dead (hc : Chained file f recs chain) {r : Record} (hr : r∈recs) (hdead : r.off∉chain) (fmt mode : ℤ)
    (p : ℕ) : wp (insert file fmt mode r.off) ⟨f,p,[]⟩ (fun _ _ => False) (fun _ d => d.bytes = f) := by
  have hin := hc.laid.inside r hr
  simp only [insert,wp_bind,wp_ensure]
  split
  · rw [wp_llseek,headerLength,wp_read (by omega),hc.dead_header hr hdead]
    simp
  · trivial

theorem delete_dead (hc : Chained file f recs chain) {r : Record} (hr : r∈recs) (hdead : r.off∉chain) (blobs : Blobs)
    (fileno uninit : ℤ) (p : ℕ) :
    wp (delete file blobs fileno r.off .noXact uninit) ⟨f,p,[]⟩ (fun _ _ => False) (fun _ d => d.bytes = f) := by
  have hin := hc.laid.inside r hr
  simp only [delete,wp_bind,wp_ensure]
  rw [wp_llseek,headerLength,wp_read (by omega),hc.dead_header hr hdead]
  simp

/-- An answered request was about a live record. -/
theorem Edit.live (hc : Chained file f recs chain) {q : Edit} (hknown : ∃ r∈recs,r.off = q.anchor) {p : ℕ} {d : Disk}
    (answer : q.run file ⟨f,p,[]⟩ = (.ok (),d)) : q.anchor∈chain := by
  obtain ⟨r,hr,hanchor⟩ := hknown
  by_contra hdead
  rw [← hanchor] at hdead
  have hnever : wp (q.run file) ⟨f,p,[]⟩ (fun _ _ => False) (fun _ d => d.bytes = f) := by
    cases q with
    | insert fmt mode a =>
      simp only [Edit.anchor] at hanchor
      subst hanchor
      simp only [Edit.run,wp_bind,wp_pure]
      exact insert_dead hc hr hdead fmt mode p
    | delete a blobs fileno uninit =>
      simp only [Edit.anchor] at hanchor
      subst hanchor
      simp only [Edit.run,wp_bind,wp_pure]
      exact delete_dead hc hr hdead blobs fileno uninit p
  rwa [wp_of_ok answer] at hnever

theorem Edit.linked_spec (hc : Chained file f recs chain) {q : Edit} (ha : q.anchor∈chain) (hq : q.Linked) (p : ℕ) :
    wp (q.run file) ⟨f,p,[]⟩ (fun _ d => ∃ chain',Edited file f d.bytes recs (q.records f.length recs) chain')
      (fun _ _ => True) := by
  cases q with
  | insert fmt mode a =>
    obtain ⟨place,rfl⟩ : ∃ place : Place,mode = place.mode := by
      rcases hq with rfl | rfl
      · exact ⟨.before,rfl⟩
      · exact ⟨.after,rfl⟩
    simp only [Edit.run,wp_bind,wp_pure]
    apply wp_insert hc ha place fmt p
    · exact fun _ => trivial
    · exact fun _ => trivial
    · intro A B r d hchain hins hfmt h
      subst hchain
      obtain ⟨g,hs,hk⟩ := h.bytes
      have hr : r = ⟨f.length,fmt.toNat⟩ := by
        rw [← hfmt,Int.toNat_natCast,← h.off]
      refine ⟨A++f.length::B,?_,h.frozen hc.laid,?_,?_⟩
      · rw [Edit.records,← hr]
        exact (hc.splice hs h.off h.format h.fits hk).1
      · exact fun x hx => List.mem_append_left _ hx
      · intro x hx
        rcases List.mem_append.1 hx with hx | hx
        · exact .inl hx
        · rw [List.mem_singleton.1 hx]
          exact .inr (by simp)
  | delete a blobs fileno uninit =>
    simp only [Edit.run,wp_bind,wp_pure]
    apply wp_delete hc ha blobs fileno uninit p
    · exact fun _ _ _ => trivial
    · exact fun _ _ _ _ => trivial
    · intro _ C D r g x len q hchain _ hr hg _ _
      subst hchain
      exact ⟨C++D,(hc.unlink hr hg).chained,hg.frozen,fun x hx => hx,fun x hx => .inl hx⟩

theorem Edit.edited (hc : Chained file f recs chain) {q : Edit} (hknown : ∃ r∈recs,r.off = q.anchor) (hq : q.Linked) {p : ℕ}
    {d : Disk} (answer : q.run file ⟨f,p,[]⟩ = (.ok (),d)) :
    ∃ chain',Edited file f d.bytes recs (q.records f.length recs) chain' := by
  have hspec := Edit.linked_spec hc (Edit.live hc hknown answer) hq p
  rwa [wp_of_ok answer] at hspec

/-! ## A record that is linked from nowhere -/

/-- Bytes behind the end of the file are no part of its chain. -/
theorem Chained.append (hc : Chained file f recs chain) {data : Bytes} (hle : f.length+data.length ≤ int64Max) :
    Chained file (writeAt f f.length data) recs chain := by
  have hlen : (writeAt f f.length data).length = f.length+data.length := by
    by_cases hd : data = []
    · rw [hd,writeAt_nil,List.length_nil,Nat.add_zero]
    · rw [length_writeAt _ _ _ hd]
      omega
  have hkeep : ∀ l,l.Valid recs → contents file (writeAt f f.length data) l = contents file f l :=
    fun l hv => contents_append hc.laid hv data
  constructor
  · have hl := hc.laid
    refine ⟨?_,?_,hl.ge,?_,hl.apart,hl.format⟩
    · have := hl.header_le
      omega
    · omega
    · intro r hr
      have := hl.inside r hr
      omega
  · intro r hr
    rw [hkeep (.flag r.off) ⟨r,hr,rfl⟩]
    exact hc.flags r hr
  · exact hc.records
  · exact hc.nodup
  · rw [headAt,hkeep .head trivial]
    exact hc.head
  · apply hc.linked.congr
    · intro o ho
      rw [prevAt,hkeep (.prev o) (hc.records o ho),prevAt]
    · intro o ho
      rw [nextAt,hkeep (.next o) (hc.records o ho),nextAt]

theorem insert_stray (hc : Chained file f recs chain) {a : ℕ} (ha : a∈chain) {mode : ℤ} (hmode : ¬ (mode = 0 ∨ mode = 1))
    (fmt : ℤ) (p : ℕ) :
    wp (insert file fmt mode a) ⟨f,p,[]⟩
      (fun _ d => Chained file d.bytes recs chain ∧ deletedAt file d.bytes f.length = false) (fun _ _ => True) := by
  have hb := hc.bounds ha
  obtain ⟨r,-,-,hflag,-,h63,hprev,hnext⟩ := hc.header ha
  have hfl := file.formats_le
  simp only [insert,wp_bind,wp_ensure]
  by_cases hfmt : fmt ≤ file.formats.length ∧ 1 ≤ fmt
  swap
  · rw [if_neg (by simpa using hfmt)]
    trivial
  obtain ⟨k,rfl⟩ := Int.eq_ofNat_of_zero_le (show 0 ≤ fmt by omega)
  rw [if_pos (by simpa using hfmt),wp_llseek,headerLength,wp_read (by omega),hflag,not_deleted h63,hprev,hnext]
  simp only [Bool.not_false,if_true]
  rw [wp_seekEnd,relink,if_neg (fun h => hmode (.inl h)),if_neg (fun h => hmode (.inr h)),wp_pure]
  generalize hdata : recordBytes k _ _ _ = data
  by_cases hle : f.length+data.length ≤ int64Max
  swap
  · rw [wp_mutateAt_far hle]
    trivial
  rw [wp_mutateAt hle,if_pos rfl,putPtrElse,if_neg (by simp),wp_pure,wp_pure]
  refine ⟨hc.append hle,?_⟩
  have hne : data≠[] := by
    rw [← hdata,recordBytes]
    simp
  obtain ⟨b,bs,hcons⟩ := List.exists_cons_of_ne_nil hne
  have hfirst : slice (writeAt f f.length data) f.length 1 = [b] := by
    have hin := slice_writeAt_inside f f.length data 0 1 (by rw [hcons,List.length_cons]; omega)
    rw [Nat.add_zero] at hin
    rw [hin,hcons]
    rfl
  have hb : b = UInt8.ofNat k := by
    have hk : ((k : ℤ) % 256).toNat = k := by omega
    rw [recordBytes,hk,hcons] at hdata
    simp only [List.cons_append,List.cons.injEq] at hdata
    exact hdata.1.symm
  rw [deletedAt,contents,Loc.off,Loc.length,hfirst,hb]
  exact not_deleted (by omega)

/-! ## Whole histories -/

theorem History.chained {log : List (Edit × Bytes)} (h : History file f recs log g recs') (hc : Chained file f recs chain)
    (hlinked : ∀ e∈log,e.1.Linked) : ∃ chain',Chained file g recs' chain' := by
  induction h with
  | nil => exact ⟨chain,hc⟩
  | @snoc log g recs' p d run q known answer ih =>
    obtain ⟨chain',hc'⟩ := ih fun e he => hlinked e (List.mem_cons_of_mem _ he)
    obtain ⟨chain'',he⟩ := Edit.edited hc' known (hlinked (q,g) List.mem_cons_self) answer
    exact ⟨chain'',he.chained⟩

/-- As long as every insert says BEFORE or AFTER, the live records are those in the chain; and the first one
that says something else leaves a record that the chain does not lead to. -/
theorem live_records_reached_iff {log : List (Edit × Bytes)} (hc : Chained file f recs chain)
    (h : History file f recs log g recs') (hlinked : ∀ e∈log,e.1.Linked) :
    Reached file g recs' ∧ ∀ (q : Edit) (p : ℕ) (d : Disk),(∃ r∈recs',r.off = q.anchor) →
      q.run file ⟨g,p,[]⟩ = (.ok (),d) → (Reached file d.bytes (q.records g.length recs') ↔ q.Linked) := by
  obtain ⟨chain',hc'⟩ := h.chained hc hlinked
  refine ⟨hc'.reached,?_⟩
  intro q p d known answer
  have hlive := Edit.live hc' known answer
  constructor
  · intro hreached
    by_contra hq
    cases q with
    | delete a blobs fileno uninit => exact hq trivial
    | insert fmt mode a =>
      have hspec : wp ((Edit.insert fmt mode a).run file) ⟨g,p,[]⟩
          (fun _ d => Chained file d.bytes recs' chain' ∧ deletedAt file d.bytes g.length = false) (fun _ _ => True) := by
        simp only [Edit.run,wp_bind,wp_pure]
        exact insert_stray hc' hlive hq fmt p
      rw [wp_of_ok answer] at hspec
      obtain ⟨hkept,hnew⟩ := hspec
      obtain ⟨chain'',hchain,hall,-⟩ := hreached
      obtain rfl : chain' = chain'' := Option.some.inj (hkept.chainOf_eq.symm.trans hchain)
      have hmem := hall ⟨g.length,fmt.toNat⟩ (by simp [Edit.records]) hnew
      have := (hc'.bounds hmem).2.1
      simp only at this
      omega
  · intro hq
    obtain ⟨chain'',he⟩ := Edit.edited hc' known hq answer
    exact he.chained.reached

/-- An insert with mode 2 next to the only record. -/
theorem stray_record_unreached : ∃ (log : List (Edit × Bytes)) (g : Bytes) (recs' : List Record),
    History sampleFile sampleBytes [⟨64,1⟩] log g recs' ∧ ¬ Reached sampleFile g recs' := by
  have hrun : ((Edit.insert 1 2 64).run sampleFile ⟨sampleBytes,0,[]⟩).1 = .ok () := by decide +kernel
  have hhist : History sampleFile sampleBytes [⟨64,1⟩] _ _ _ := .snoc .nil (.insert 1 2 64) (by decide) (run_eq hrun)
  refine ⟨_,_,_,hhist,?_⟩
  intro hreached
  obtain ⟨chain,hchain,hall,-⟩ := hreached
  have hsample : chainOf sampleFile ((Edit.insert 1 2 64).run sampleFile ⟨sampleBytes,0,[]⟩).2.bytes = some [64] := by
    decide +kernel
  obtain rfl : [64] = chain := Option.some.inj (hsample.symm.trans hchain)
  have hmem : 85∈[64] := hall ⟨85,1⟩ (by decide) (by decide +kernel)
  simp at hmem

theorem live_records_reached_iff_sample : ∃ log g recs',log≠[] ∧
    History sampleFile sampleBytes [⟨64,1⟩] log g recs' ∧ (∀ e∈log,e.1.Linked) ∧
    Reached sampleFile g recs' ∧ ∀ (q : Edit) (p : ℕ) (d : Disk),(∃ r∈recs',r.off = q.anchor) →
      q.run sampleFile ⟨g,p,[]⟩ = (.ok (),d) → (Reached sampleFile d.bytes (q.records g.length recs') ↔ q.Linked) := by
  have hrun : ((Edit.insert 1 0 64).run sampleFile ⟨sampleBytes,0,[]⟩).1 = .ok () := by decide +kernel
  have hhist : History sampleFile sampleBytes [⟨64,1⟩] [(.insert 1 0 64,sampleBytes)] _ _ :=
    .snoc .nil (.insert 1 0 64) (by decide) (run_eq hrun)
  have hlinked : ∀ e∈[(Edit.insert 1 0 64,sampleBytes)],e.1.Linked := by
    intro e he
    rw [List.mem_singleton.1 he]
    exact .inl rfl
  exact ⟨_,_,_,by simp,hhist,hlinked,live_records_reached_iff sampleBytes_chained hhist hlinked⟩

end Dataman.DataFile

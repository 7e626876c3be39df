import Dataman.RecordDeletion

/-!
# The chain of live records

Any run of inserts and deletes does to the chain what the list operations of the same name
do to a list.
-/

namespace Dataman.DataFile
open FixedWidthFields FailState LinkedChain

variable {file : Files} {recs : List Record} {chain : List ℕ} {f : Bytes}

/-- A request on a live record. -/
inductive Request
  | insert (place : Place) (fmt : ℤ) (anchor : ℕ)
  | delete (anchor : ℕ) (blobs : Blobs) (fileno uninit : ℤ)

def Request.anchor : Request → ℕ
  | insert _ _ a => a
  | delete a _ _ _ => a

def Request.run (file : Files) : Request → DiskM Unit
  | insert place fmt a => do
    let _ ← DataFile.insert file fmt place.mode a
    return ()
  | delete a blobs fileno uninit => do
    let _ ← DataFile.delete file blobs fileno a .noXact uninit
    return ()

/-- What a request does to the list of live records; a new record gets the offset `new`. -/
def Request.apply (file : Files) (new : ℕ) (chain : List ℕ) : Request → List ℕ
  | insert place fmt a => if 1 ≤ fmt ∧ fmt ≤ file.formats.length then place.insert a new chain else chain
  | delete a _ _ _ => if chain = [a] then chain else chain.erase a

/-- Requests on live records one after the other, with all input and output succeeding. -/
inductive Run (file : Files) (f : Bytes) (chain : List ℕ) : Bytes → List ℕ → Prop
  | nil : Run file f chain f chain
  | snoc {g : Bytes} {chain' : List ℕ} {p : ℕ} {out : Except Code Unit} {d : Disk} (run : Run file f chain g chain')
      (r : Request) (live : r.anchor∈chain') (answer : r.run file ⟨g,p,[]⟩ = (out,d))
      (io : ∀ e,out = .error e → e.io = false) : Run file f chain d.bytes (r.apply file g.length chain')

/-- One request keeps the chain, and the data of every record there is. New records are behind the old end. -/
theorem Request.run_spec (hc : Chained file f recs chain) {r : Request} (hlive : r.anchor∈chain) (p : ℕ) :
    wp (r.run file) ⟨f,p,[]⟩
      (fun _ d => ∃ new,Kept file f d.bytes recs (recs++new) (r.apply file f.length chain) ∧ Tiled file f.length new d.bytes.length)
      (fun e d => e.io = false → Kept file f d.bytes recs recs (r.apply file f.length chain) ∧ d.bytes = f) := by
  cases r with
  | insert place fmt a =>
    simp only [Request.run,wp_bind,wp_pure]
    apply wp_mono (insert_spec hc hlive place fmt p)
    · intro _ d h
      obtain ⟨r,hoff,-,-,hfmt,hk,-,hlen⟩ := h
      rw [Request.apply,if_pos hfmt]
      exact ⟨[r],hk,hoff,hlen.symm⟩
    · intro e d h hio
      rcases h with rfl | ⟨-,hfmt,hbytes⟩
      · simp [Code.io] at hio
      · rw [Request.apply,if_neg hfmt,hbytes]
        exact ⟨⟨hc,fun _ _ => rfl⟩,rfl⟩
  | delete a blobs fileno uninit =>
    have ha : a∈chain := hlive
    simp only [Request.run,wp_bind,wp_pure]
    apply wp_mono (delete_spec hc ha blobs fileno uninit p)
    · intro _ d h
      obtain ⟨hmany,hk,hlen,-⟩ := h
      rw [Request.apply,if_neg hmany]
      exact ⟨[],by simpa using hk,hlen.symm⟩
    · intro e d h hio
      rcases h with ⟨-,h⟩ | ⟨-,honly,hbytes⟩
      · simp [h] at hio
      · rw [Request.apply,if_pos honly,hbytes]
        exact ⟨⟨hc,fun _ _ => rfl⟩,rfl⟩

theorem Run.kept {g : Bytes} {chain' : List ℕ} (hrun : Run file f chain g chain') (hc : Chained file f recs chain) :
    ∃ new,Kept file f g recs (recs++new) chain' := by
  induction hrun with
  | nil => exact ⟨[],by simpa using hc,fun _ _ => rfl⟩
  | @snoc g chain' p out d _ r live answer io ih =>
    obtain ⟨new,hk⟩ := ih
    have hdata : ∀ {k : Bytes} {recs' : List Record} {c : List ℕ},Kept file g k (recs++new) recs' c →
        Kept file f k recs recs' c := by
      intro k recs' c hk'
      refine ⟨hk'.chained,fun x hx => ?_⟩
      rw [hk'.data x (List.mem_append_left new hx),hk.data x hx]
    have hspec := r.run_spec hk.chained live p
    rw [wp,answer] at hspec
    cases out with
    | ok u =>
      obtain ⟨more,hk',-⟩ := hspec
      exact ⟨new++more,by rw [← List.append_assoc]; exact hdata hk'⟩
    | error e => exact ⟨new,hdata (hspec (io e rfl)).1⟩

/-- Inserting and deleting records is inserting into and erasing from a list. -/
theorem record_chain_semantics {g : Bytes} {chain' : List ℕ} (hc : Chained file f recs chain)
    (hrun : Run file f chain g chain') :
    ∃ new,Chained file g (recs++new) chain' ∧ chainOf file g = some chain' ∧
      (∀ r∈recs++new,r.off∉chain' → ∀ flag∈contents file g (.flag r.off),deleted flag = true) ∧
      (∀ r∈recs,contents file g (.data r) = contents file f (.data r)) ∧
      (∀ k chain'',Run file g chain' k chain'' →
        ∀ r∈recs++new,contents file k (.data r) = contents file g (.data r)) ∧
      ∀ a,chain' = [a] → ∀ blobs fileno uninit p,∃ d,
        delete file blobs fileno a .noXact uninit ⟨g,p,[]⟩ = (.error .noDel,d) ∧ d.bytes = g := by
  obtain ⟨new,hk⟩ := hrun.kept hc
  refine ⟨new,hk.chained,hk.chained.chainOf_eq,?_,hk.data,?_,?_⟩
  · intro r hr hdead flag hflag
    rw [hk.chained.flags r hr,if_neg hdead,List.mem_singleton] at hflag
    have hfmt := hk.chained.laid.format r hr
    have hfl := file.formats_le
    rw [hflag,deleted,decide_eq_true_iff,UInt8.toNat_ofNat']
    omega
  · intro k chain'' hrun' r hr
    obtain ⟨more,hk'⟩ := hrun'.kept hk.chained
    exact hk'.data r hr
  · intro a honly blobs fileno uninit p
    subst honly
    have hspec := delete_spec hk.chained (List.mem_singleton_self a) blobs fileno uninit p
    rcases wp_cases hspec with ⟨_,d,-,hmany,-⟩ | ⟨e,d,hrun,⟨hmany,-⟩ | ⟨rfl,-,hbytes⟩⟩
    · exact absurd rfl hmany
    · exact absurd rfl hmany
    · exact ⟨d,hrun,hbytes⟩

/-- A data file with one format of four bytes, and with one record. -/
def sampleFile : Files := ⟨16,[⟨4,false⟩],by decide⟩

def sampleBytes : Bytes :=
  List.replicate 18 0++putBE 8 64++List.replicate 38 0++recordBytes 1 0 0 4

theorem sampleBytes_chained : Chained sampleFile sampleBytes [⟨64,1⟩] [64] where
  laid := ⟨by decide,by decide,by decide,by decide,List.pairwise_singleton _ _,by decide⟩
  flags := by decide
  records := by decide
  nodup := by decide
  head := by decide
  linked := .cons (by decide) (by decide) .nil

theorem sampleBytes_run : ∃ g,Run sampleFile sampleBytes [64] g [85] := by
  have h1 : ((Request.insert .before 1 64).run sampleFile ⟨sampleBytes,0,[]⟩).1 = .ok () := by decide +kernel
  have hrun1 : Run sampleFile sampleBytes [64] _ [85,64] :=
    .snoc .nil (.insert .before 1 64) (by decide) (run_eq h1) (by simp)
  have h2 : ((Request.delete 64 ⟨fun _ _ _ => 0,fun _ _ => 0⟩ 0 0).run sampleFile
      ⟨((Request.insert .before 1 64).run sampleFile ⟨sampleBytes,0,[]⟩).2.bytes,0,[]⟩).1 = .ok () := by decide +kernel
  exact ⟨_,.snoc hrun1 (.delete 64 ⟨fun _ _ _ => 0,fun _ _ => 0⟩ 0 0) (by decide) (run_eq h2) (by simp)⟩

theorem record_chain_semantics_sample : ∃ g,Run sampleFile sampleBytes [64] g [85] ∧
    ∃ new,Chained sampleFile g ([⟨64,1⟩]++new) [85] ∧ chainOf sampleFile g = some [85] ∧
      (∀ r∈[⟨64,1⟩]++new,r.off∉[85] → ∀ flag∈contents sampleFile g (.flag r.off),deleted flag = true) ∧
      (∀ r∈[(⟨64,1⟩ : Record)],contents sampleFile g (.data r) = contents sampleFile sampleBytes (.data r)) ∧
      (∀ k chain'',Run sampleFile g [85] k chain'' →
        ∀ r∈[⟨64,1⟩]++new,contents sampleFile k (.data r) = contents sampleFile g (.data r)) ∧
      ∀ a : ℕ,[85] = [a] → ∀ blobs fileno uninit p,∃ d,
        delete sampleFile blobs fileno a .noXact uninit ⟨g,p,[]⟩ = (.error .noDel,d) ∧ d.bytes = g := by
  obtain ⟨g,hrun⟩ := sampleBytes_run
  exact ⟨g,hrun,record_chain_semantics sampleBytes_chained hrun⟩

end Dataman.DataFile

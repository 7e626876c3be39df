import Dataman.JournalReplay

/-!
# What `scan` reads back

Every record that the transaction writes is read back as it was written, and a
record of which only the first bytes are there ends the scan.
-/

variable {xs ys rest c : Bytes} {off v fuel n : ℕ}

namespace Dataman
namespace UndoJournal
open ByteFiles FixedWidthFields

/-! ## Fields -/

theorem get32_skip (h : xs.length ≤ off) :
    get32 (xs++ys) off = get32 ys (off - xs.length) := by
  rw [get32,slice_append_right _ _ _ _ h,get32]

theorem get64_skip (h : xs.length ≤ off) :
    get64 (xs++ys) off = get64 ys (off - xs.length) := by
  rw [get64,slice_append_right _ _ _ _ h,get64]

theorem get32_put32 (hv : v < 2 ^ 32) (ys : Bytes) : get32 (put32 v++ys) 0 = v := by
  rw [get32,slice_append_exact _ _ _ (length_put32 v),put32,getLE_putLE (by omega)]

theorem get64_put64 (hv : v < 2 ^ 64) (ys : Bytes) : get64 (put64 v++ys) 0 = v := by
  rw [get64,slice_append_exact _ _ _ (length_put64 v),put64,getLE_putLE (by omega)]

theorem get32_put32_self (hv : v < 2 ^ 32) : get32 (put32 v) 0 = v := by
  simpa using get32_put32 hv []

/-! ## Frames -/

namespace Frame

/-- The values of a frame fit its fields. -/
structure Fits (r : Frame) : Prop where
  sequence : r.sequence < 2 ^ 64
  name : r.name.length ≤ maxPath
  payload : r.payload.length ≤ maxWrite
  offset : r.offset < 2 ^ 64
  size : r.size < 2 ^ 64
  dev : r.dev < 2 ^ 64
  ino : r.ino < 2 ^ 64

/-- The fixed part of a frame, read back. -/
def read (r : Frame) : Fixed :=
  ⟨r.kind,r.length,r.name.length,r.payload.length,r.offset,r.size,r.dev,r.ino,crc r.body⟩

variable {r : Frame}

theorem code_lt (k : Kind) : k.code < 2 ^ 32 := by cases k <;> decide

theorem Fits.length_lt (h : r.Fits) : r.length < 2 ^ 32 := by
  have h1 := h.name
  have h2 := h.payload
  simp only [maxPath,maxWrite] at h1 h2
  simp only [Frame.length,recordSize]
  omega

theorem take_fixed_64 (r : Frame) : r.fixed.take 64 = r.sealed := by
  rw [fixed,List.append_assoc,List.take_append_of_le_length (by simp),List.take_of_length_le (by simp)]

theorem take_fixed_4 (r : Frame) : r.fixed.take 4 = magic := by
  simp [fixed,sealed,magic]

theorem readFixed_fixed (h : r.Fits) {seq : ℕ} (hs : r.sequence = seq+1) (hk : r.kind≠.blob) :
    readFixed .four seq r.fixed = some r.read := by
  have hlen := h.length_lt
  have hcode := code_lt r.kind
  have hbody := crc_lt r.body
  have hseal := crc_lt r.sealed
  have h1 := h.name
  have h2 := h.payload
  have h3 := h.sequence
  simp only [maxPath,maxWrite] at h1 h2
  have hname : r.name.length < 2 ^ 32 := by omega
  have hpay : r.payload.length < 2 ^ 32 := by omega
  have hmag : magic.length = 4 := rfl
  have e4 : get32 r.fixed 4 = r.kind.code := by
    simp [fixed,sealed,List.append_assoc,get32_skip,hmag,get32_put32 hcode]
  have e8 : get64 r.fixed 8 = r.sequence := by
    simp [fixed,sealed,List.append_assoc,get64_skip,hmag,get64_put64 h3]
  have e16 : get32 r.fixed 16 = r.length := by
    simp [fixed,sealed,List.append_assoc,get32_skip,hmag,get32_put32 hlen]
  have e20 : get32 r.fixed 20 = r.name.length := by
    simp [fixed,sealed,List.append_assoc,get32_skip,hmag,get32_put32 hname]
  have e24 : get64 r.fixed 24 = r.offset := by
    simp [fixed,sealed,List.append_assoc,get64_skip,hmag,get64_put64 h.offset]
  have e32 : get64 r.fixed 32 = r.size := by
    simp [fixed,sealed,List.append_assoc,get64_skip,hmag,get64_put64 h.size]
  have e40 : get64 r.fixed 40 = r.dev := by
    simp [fixed,sealed,List.append_assoc,get64_skip,hmag,get64_put64 h.dev]
  have e48 : get64 r.fixed 48 = r.ino := by
    simp [fixed,sealed,List.append_assoc,get64_skip,hmag,get64_put64 h.ino]
  have e56 : get32 r.fixed 56 = r.payload.length := by
    simp [fixed,sealed,List.append_assoc,get32_skip,hmag,get32_put32 hpay]
  have e60 : get32 r.fixed 60 = crc r.body := by
    simp [fixed,sealed,List.append_assoc,get32_skip,hmag,get32_put32 hbody]
  have e64 : get32 r.fixed 64 = crc r.sealed := by
    simp [fixed,get32_skip,get32_put32 hseal]
  have e68 : get32 r.fixed 68 = 0 := by
    simp [fixed,get32_skip,get32_put32_self]
  have hsum : get32 r.fixed 64 = crc (r.fixed.take 64) ∧ get32 r.fixed 68 = 0 ∧ r.fixed.take 4 = magic := by
    rw [take_fixed_64]
    exact ⟨e64,e68,take_fixed_4 r⟩
  have hnext : get64 r.fixed 8 = (seq+1) % 2 ^ 64 ∧ seq≠2 ^ 64 - 1 := by
    rw [e8]
    omega
  have hsizes : r.name.length ≤ maxPath ∧
      r.payload.length ≤ maxWrite+(if r.kind = .blob then blobMeta else 0) ∧
      r.length = recordSize+r.name.length+r.payload.length :=
    ⟨h.name,by rw [if_neg hk]; exact h.payload,rfl⟩
  simp only [readFixed,e4,Kind.ofCode_code,Option.bind_eq_bind,Option.bind_some,guard_eq_ite,
    if_pos hsum,if_pos hnext,e16,e20,e56,if_pos hsizes,e24,e32,e40,e48,e60]
  rw [if_pos ⟨fun hb => absurd hb hk,fun _ => trivial,fun _ hv => absurd rfl hv⟩]
  rfl

end Frame

/-! ## Chunk streams -/

theorem flatten_chunksFrom (h : rest.length ≤ fuel) :
    (chunksFrom fuel rest).flatten = rest := by
  induction fuel generalizing rest with
  | zero =>
    obtain rfl : rest = [] := List.eq_nil_of_length_eq_zero (by omega)
    rfl
  | succ fuel ih =>
    by_cases hr : rest = []
    · simp [chunksFrom,hr]
    · have hpos : 0 < rest.length := List.length_pos_iff.2 hr
      have hd : (rest.drop blobChunk).length ≤ fuel := by
        rw [List.length_drop,blobChunk]
        omega
      rw [chunksFrom,if_neg hr,List.flatten_cons,ih hd,List.take_append_drop]

theorem flatten_chunks (content : Bytes) : (chunks content).flatten = content := flatten_chunksFrom le_rfl

theorem length_streamBytes (cs : List Bytes) : (streamBytes cs).length = cs.flatten.length+cs.length*8 := by
  induction cs with
  | nil => rfl
  | cons c cs ih =>
    simp only [streamBytes,List.flatMap_cons,List.length_append,chunkHeader,length_put32,
      List.flatten_cons,List.length_cons] at ih ⊢
    omega

theorem chunkCount_of_pos (h : 0 < n) : chunkCount n = chunkCount (n - blobChunk)+1 := by
  unfold chunkCount blobChunk
  by_cases hn : n < 65536
  · rw [Nat.sub_eq_zero_of_le (by omega),Nat.div_eq_of_lt hn,Nat.mod_eq_of_lt hn,if_pos (by omega)]
    rfl
  · rw [Nat.mod_eq_sub_mod (by omega),Nat.div_eq n,if_pos (by omega)]
    omega

theorem length_chunksFrom (h : rest.length ≤ fuel) :
    (chunksFrom fuel rest).length = chunkCount rest.length := by
  induction fuel generalizing rest with
  | zero =>
    obtain rfl : rest = [] := List.eq_nil_of_length_eq_zero (by omega)
    rfl
  | succ fuel ih =>
    by_cases hr : rest = []
    · simp [chunksFrom,hr,chunkCount]
    · have hpos : 0 < rest.length := List.length_pos_iff.2 hr
      have hd : (rest.drop blobChunk).length ≤ fuel := by
        rw [List.length_drop,blobChunk]
        omega
      rw [chunksFrom,if_neg hr,List.length_cons,ih hd,List.length_drop,chunkCount_of_pos hpos]

/-- The stream has the length that the frame announces. -/
theorem length_of_blobStreamSize {content : Bytes} (h : blobStreamSize content.length = some n) :
    (streamBytes (chunks content)).length = n := by
  unfold blobStreamSize at h
  split at h
  · obtain rfl := Option.some.inj h
    rw [length_streamBytes,flatten_chunks,chunks,length_chunksFrom le_rfl]
  · simp at h

@[simp] theorem length_chunkHeader (c : Bytes) : (chunkHeader c).length = 8 := by simp [chunkHeader]

/-- One turn of the loop over the chunks. -/
theorem blobStreamFrom_chunk {rest : ℕ} (pre : Bytes) {hd : Bytes} (more : Bytes) (h0 : 0 < rest)
    (hh : hd.length = 8) (hc : c.length = min rest blobChunk) :
    blobStreamFrom (pre++(hd++(c++more))) (fuel+1) pre.length rest =
      if get32 hd 0 = c.length ∧ get32 hd 4 = crc c then
        (blobStreamFrom (pre++(hd++(c++more))) fuel (pre.length+8+c.length) (rest - c.length)).bind
          fun cs => some (c::cs)
      else none := by
  have hp : pre.length+8 = (pre++hd).length := by simp [hh]
  have hread : readAt (pre++(hd++(c++more))) (pre.length+8) c.length = some c := by
    rw [← List.append_assoc,hp,readAt_field rfl]
  rw [blobStreamFrom,if_neg (by omega)]
  simp only [← hc,readAt_field hh,hread,Option.bind_eq_bind,Option.bind_some,guard_eq_ite]
  by_cases hg : get32 hd 0 = c.length ∧ get32 hd 4 = crc c
  · rw [if_pos hg,if_pos hg,Option.bind_some]
    rfl
  · rw [if_neg hg,if_neg hg,Option.bind_none]

theorem chunkHeader_reads (h : c.length < 2 ^ 32) :
    get32 (chunkHeader c) 0 = c.length ∧ get32 (chunkHeader c) 4 = crc c := by
  constructor
  · exact get32_put32 h _
  · simp [chunkHeader,get32_skip,get32_put32_self (crc_lt c)]

/-- The first chunk of a blob and the rest of its stream. -/
theorem streamBytes_chunksFrom (h : rest≠[]) :
    streamBytes (chunksFrom (fuel+1) rest) = chunkHeader (rest.take blobChunk) ++
      (rest.take blobChunk++streamBytes (chunksFrom fuel (rest.drop blobChunk))) := by
  rw [chunksFrom,if_neg h]
  simp [streamBytes]

theorem length_drop_chunk (h : rest.length ≤ fuel+1) :
    (rest.drop blobChunk).length ≤ fuel ∧
      (rest.drop blobChunk).length = rest.length - (rest.take blobChunk).length := by
  simp only [List.length_drop,List.length_take,blobChunk]
  omega

theorem blobStreamFrom_stream (pre : Bytes) (post : Bytes) (h : rest.length ≤ fuel) :
    blobStreamFrom (pre++(streamBytes (chunksFrom fuel rest)++post)) fuel pre.length rest.length =
      some (chunksFrom fuel rest) := by
  induction fuel generalizing pre rest with
  | zero =>
    obtain rfl : rest = [] := List.eq_nil_of_length_eq_zero (by omega)
    rfl
  | succ fuel ih =>
    by_cases hr : rest = []
    · simp [blobStreamFrom,chunksFrom,hr]
    · obtain ⟨hd,hrest⟩ := length_drop_chunk h
      have hnext := ih (pre++chunkHeader (rest.take blobChunk)++rest.take blobChunk) hd
      obtain ⟨c,hc⟩ : ∃ c,c = rest.take blobChunk := ⟨_,rfl⟩
      have hlen : c.length = min rest.length blobChunk := by
        rw [hc,List.length_take,Nat.min_comm]
      have hcl : c.length < 2 ^ 32 := by
        rw [hlen,blobChunk]
        omega
      have hp : (pre++chunkHeader c++c).length = pre.length+8+c.length := by
        simp [Nat.add_assoc]
      rw [← hc] at hnext hrest
      rw [hp,hrest] at hnext
      simp only [List.append_assoc] at hnext
      rw [streamBytes_chunksFrom hr,← hc,List.append_assoc,List.append_assoc,
        blobStreamFrom_chunk pre _ (List.length_pos_iff.2 hr) (length_chunkHeader c) hlen,
        if_pos (chunkHeader_reads hcl),hnext,chunksFrom,if_neg hr,← hc]
      rfl

/-- A chunk stream is read back. -/
theorem blobStream_stream (pre content post : Bytes) :
    blobStream (pre++(streamBytes (chunks content)++post)) pre.length content.length =
      some (chunks content) := blobStreamFrom_stream pre post le_rfl

end UndoJournal
end Dataman

import Dataman.JournalTruncation

/-!
# Damaged journals

Every byte of a journal is under a checksum or is compared with a known value, so a
journal in which one byte has another value is refused before anything is changed.
-/

namespace Dataman
namespace UndoJournal
open ByteFiles FixedWidthFields FailState UndoLog

/-! ## One changed byte -/

/-- The strings differ in exactly one byte. -/
def Damaged (x y : Bytes) : Prop := ∃ pre a c post,a≠c ∧ x = pre++a::post ∧ y = pre++c::post

namespace Damaged

variable {x x' y : Bytes}

theorem length_eq (h : Damaged x y) : y.length = x.length := by
  obtain ⟨pre,a,c,post,_,rfl,rfl⟩ := h
  simp

theorem ne (h : Damaged x y) : x≠y := by
  obtain ⟨pre,a,c,post,hac,rfl,rfl⟩ := h
  intro he
  exact hac (List.cons.inj (List.append_cancel_left he)).1

theorem not_nil : ¬ Damaged [] y := by
  intro h
  obtain ⟨pre,a,c,post,_,hx,_⟩ := h
  simp at hx

/-- The checksum shows the change. -/
theorem crc_ne (h : Damaged x y) : crc x≠crc y := by
  obtain ⟨pre,a,c,post,hac,rfl,rfl⟩ := h
  rw [crc_eq,crc_eq]
  intro he
  exact Checksum.indexV2Crc32_ne pre post hac (BitVec.eq_of_toNat_eq he)

/-- The changed byte is in one of two parts. -/
theorem append (h : Damaged (x++x') y) :
    (∃ z,Damaged x z ∧ y = z++x') ∨ ∃ z,Damaged x' z ∧ y = x++z := by
  obtain ⟨pre,a,c,post,hac,hx,rfl⟩ := h
  obtain ⟨as,rfl,rfl⟩ | ⟨bs,rfl,hb⟩ := List.append_eq_append_iff.1 hx
  · exact .inr ⟨as++c::post,⟨as,a,c,post,hac,rfl,rfl⟩,by simp⟩
  · cases bs with
    | nil =>
      rw [List.nil_append] at hb
      exact .inr ⟨c::post,⟨[],a,c,post,hac,hb.symm,rfl⟩,by simp⟩
    | cons d bs =>
      obtain ⟨rfl,rfl⟩ := List.cons.inj hb
      exact .inl ⟨pre++c::bs,⟨pre,a,c,bs,hac,rfl,rfl⟩,by simp⟩

/-- A changed field does not read as before. -/
theorem get32_ne {v : ℕ} (h : Damaged (put32 v) y) : get32 y 0≠v := by
  intro hv
  have hl : y.length = 4 := by rw [h.length_eq,length_put32]
  apply h.ne
  rw [← hv,get32,slice_zero_of_length hl,put32,putLE,getLE]
  have hb := putBE_getBE y.reverse
  rw [List.length_reverse,hl] at hb
  rw [hb,List.reverse_reverse]

end Damaged

variable {env : Env} {w : World} {rs : List Record} {entries : List Saved} {r : Record} {pre post y : Bytes}
  {seq fuel : ℕ}

/-! ## The header -/

theorem readHeader_damaged (h : Damaged (header env) y) : readHeader env (y++post) = none := by
  apply Option.eq_none_iff_forall_ne_some.2
  intro found hfound
  obtain ⟨hd,path,hread,hsum,hpad,_⟩ := readHeader_some hfound
  have hl : y.length = headerSize := by rw [h.length_eq,length_header]
  obtain rfl : y = hd := by
    have hx := @readAt_field [] y post headerSize hl
    rw [List.nil_append,List.length_nil,hread] at hx
    exact (Option.some.inj hx).symm
  obtain ⟨z,hz,rfl⟩ | ⟨z,hz,rfl⟩ := h.append
  · obtain ⟨u,hu,rfl⟩ | ⟨u,hu,rfl⟩ := hz.append
    · have hul : u.length = 48 := by rw [hu.length_eq,length_headerFields]
      rw [List.append_assoc,List.take_left' hul,get32_skip (by omega),hul,
        get32_put32 (crc_lt _)] at hsum
      exact hu.crc_ne hsum
    · rw [List.append_assoc,List.take_left' (length_headerFields env),get32_skip (by simp),length_headerFields]
        at hsum
      have hul : u.length = 4 := by rw [hu.length_eq,length_put32]
      rw [Nat.sub_self,get32,slice_append_left _ _ _ _ (by omega),← get32] at hsum
      exact hu.get32_ne hsum
  · rw [get32_skip (by simp)] at hpad
    simp only [List.length_append,length_headerFields,length_put32,Nat.reduceAdd,Nat.sub_self] at hpad
    exact hz.get32_ne hpad

theorem readHeader_damaged_path (hp : env.rootPath.bytes.length ≤ maxPath) (h : Damaged env.rootPath.bytes y) :
    readHeader env (header env++(y++post)) = none := by
  apply Option.eq_none_iff_forall_ne_some.2
  intro found hfound
  obtain ⟨hd,path,hread,_,_,hpath,hcrc⟩ := readHeader_some hfound
  rw [readAt_header] at hread
  obtain rfl := Option.some.inj hread
  rw [get32_header_length hp,← length_header env,readAt_field h.length_eq] at hpath
  obtain rfl := Option.some.inj hpath
  rw [get32_header_path] at hcrc
  exact h.crc_ne hcrc

/-! ## Records -/

theorem readFixed_some {version : Version} {fixed : Bytes} {h : Fixed} (hf : readFixed version seq fixed = some h) :
    get32 fixed 64 = crc (fixed.take 64) ∧ get32 fixed 68 = 0 := by
  simp only [readFixed,Option.bind_eq_bind,Option.bind_eq_some_iff,guard_eq_some] at hf
  obtain ⟨_,_,_,hsum,_⟩ := hf
  exact ⟨hsum.1,hsum.2.1⟩

theorem readFixed_damaged {version : Version} {f : Frame} (h : Damaged f.fixed y) :
    readFixed version seq y = none := by
  apply Option.eq_none_iff_forall_ne_some.2
  intro found hfound
  obtain ⟨hsum,hpad⟩ := readFixed_some hfound
  obtain ⟨z,hz,rfl⟩ | ⟨z,hz,rfl⟩ := h.append
  · obtain ⟨u,hu,rfl⟩ | ⟨u,hu,rfl⟩ := hz.append
    · have hul : u.length = 64 := by rw [hu.length_eq,Frame.length_sealed]
      rw [List.append_assoc,List.take_left' hul,get32_skip (by omega),hul,
        get32_put32 (crc_lt _)] at hsum
      exact hu.crc_ne hsum
    · rw [List.append_assoc,List.take_left' f.length_sealed,get32_skip (by simp),Frame.length_sealed] at hsum
      have hul : u.length = 4 := by rw [hu.length_eq,length_put32]
      rw [Nat.sub_self,get32,slice_append_left _ _ _ _ (by omega),← get32] at hsum
      exact hu.get32_ne hsum
  · rw [get32_skip (by simp)] at hpad
    simp only [List.length_append,Frame.length_sealed,length_put32,Nat.reduceAdd,Nat.sub_self] at hpad
    exact hz.get32_ne hpad

theorem scanFrom_no_fuel {version : Version} {journal : Bytes} {pos : ℕ} (h : recordSize ≤ journal.length - pos) :
    scanFrom env w version journal 0 pos seq entries = none := by
  rw [scanFrom,if_neg (by omega)]

/-- The loop of `scan` refuses a record whose fixed part is damaged. -/
theorem scanFrom_damaged_fixed {version : Version} {f : Frame} (h : Damaged f.fixed y) :
    scanFrom env w version (pre++(y++post)) fuel pre.length seq entries = none := by
  have hl : y.length = recordSize := by rw [h.length_eq,Frame.length_fixed]
  have hlen : ¬ (pre++(y++post)).length - pre.length < recordSize := by
    simp only [List.length_append]
    omega
  cases fuel with
  | zero => exact scanFrom_no_fuel (by omega)
  | succ fuel =>
    rw [scanFrom,if_neg hlen,slice_field hl,readFixed_damaged h]
    rfl

theorem readRecord_some {version : Version} {journal : Bytes} {pos : ℕ} {h : Fixed} {e : Option Saved}
    (hr : readRecord env w version journal pos h entries = some e) :
    h.checksum = crc ((slice journal pos h.total).drop recordSize) := by
  simp only [readRecord,Option.bind_eq_bind,Option.bind_eq_some_iff,guard_eq_some] at hr
  obtain ⟨_,hsum,_⟩ := hr
  exact hsum

/-- A damaged name or payload. -/
theorem readRecord_damaged_body {f : Frame} (h : Damaged f.body y) :
    readRecord env w .four (pre++((f.fixed++y)++post)) pre.length f.read entries = none := by
  apply Option.eq_none_iff_forall_ne_some.2
  intro found hfound
  have hsum := readRecord_some hfound
  have hl : (f.fixed++y).length = f.read.total := by
    rw [List.length_append,h.length_eq,← List.length_append]
    exact f.length_bytes
  rw [slice_field hl,List.drop_left' f.length_fixed] at hsum
  exact h.crc_ne hsum

/-! ## Chunk streams -/

/-- A damaged chunk header does not fit its chunk. -/
theorem chunkHeader_damaged {c : Bytes} (h : Damaged (chunkHeader c) y) :
    ¬ (get32 y 0 = c.length ∧ get32 y 4 = crc c) := by
  intro hg
  obtain ⟨u,hu,rfl⟩ | ⟨u,hu,rfl⟩ := h.append
  · have hul : u.length = 4 := by rw [hu.length_eq,length_put32]
    have h0 := hg.1
    rw [get32,slice_append_left _ _ _ _ (by omega),← get32] at h0
    exact hu.get32_ne h0
  · have h4 := hg.2
    rw [get32_skip (by simp),length_put32,Nat.sub_self] at h4
    exact hu.get32_ne h4

theorem blobStreamFrom_damaged (pre post : Bytes) {rest : Bytes} (hf : rest.length ≤ fuel)
    (h : Damaged (streamBytes (chunksFrom fuel rest)) y) :
    blobStreamFrom (pre++(y++post)) fuel pre.length rest.length = none := by
  induction fuel generalizing pre rest y with
  | zero => exact absurd h Damaged.not_nil
  | succ fuel ih =>
    by_cases hr : rest = []
    · simp only [chunksFrom,hr,if_true] at h
      exact absurd h Damaged.not_nil
    · obtain ⟨hd,hrest⟩ := length_drop_chunk hf
      have hpos : 0 < rest.length := List.length_pos_iff.2 hr
      obtain ⟨c,hc⟩ : ∃ c,c = rest.take blobChunk := ⟨_,rfl⟩
      have hlen : c.length = min rest.length blobChunk := by
        rw [hc,List.length_take,Nat.min_comm]
      have hcl : c.length < 2 ^ 32 := by
        rw [hlen,blobChunk]
        omega
      rw [streamBytes_chunksFrom hr,← hc] at h
      rw [← hc] at hrest
      obtain ⟨z,hz,rfl⟩ | ⟨z,hz,rfl⟩ := h.append
      · -- the header of this chunk
        have hzl : z.length = 8 := by rw [hz.length_eq,length_chunkHeader]
        rw [List.append_assoc,List.append_assoc,blobStreamFrom_chunk pre _ hpos hzl hlen,
          if_neg (chunkHeader_damaged hz)]
      · obtain ⟨u,hu,rfl⟩ | ⟨u,hu,rfl⟩ := hz.append
        · -- its bytes
          have hul : u.length = min rest.length blobChunk := by rw [hu.length_eq,hlen]
          have hsum : ¬ (get32 (chunkHeader c) 0 = u.length ∧ get32 (chunkHeader c) 4 = crc u) := by
            intro hg
            exact hu.crc_ne ((chunkHeader_reads hcl).2.symm.trans hg.2)
          rw [List.append_assoc,List.append_assoc,blobStreamFrom_chunk pre _ hpos (length_chunkHeader c) hul,
            if_neg hsum]
        · -- a later chunk
          have hnext := ih (pre++chunkHeader c++c) hd hu
          have hp : (pre++chunkHeader c++c).length = pre.length+8+c.length := by
            simp [Nat.add_assoc]
          rw [hp,hrest] at hnext
          simp only [List.append_assoc] at hnext
          rw [List.append_assoc,List.append_assoc,blobStreamFrom_chunk pre _ hpos (length_chunkHeader c) hlen,
            if_pos (chunkHeader_reads hcl),hnext,Option.bind_none]

/-- A record whose contents are damaged. -/
theorem readRecord_damaged_stream (hr : r.Valid env) (h : Damaged r.stream y) :
    readRecord env w .four (pre++((r.frame seq).bytes++(y++post))) pre.length (r.frame seq).read entries =
      none := by
  cases hr with
  | undo => exact absurd h Damaged.not_nil
  | @blob name parent old _ _ n hsize =>
    cases old with
    | none => exact absurd h Damaged.not_nil
    | some c =>
      apply Option.eq_none_iff_forall_ne_some.2
      intro found hfound
      obtain ⟨f,hf⟩ : ∃ f,f = blobFrame seq name.bytes parent (some c) := ⟨_,rfl⟩
      have hframe : (Record.blob name parent (some c)).frame seq = f := hf.symm
      have hkind : f.read.kind = .blobStream := by rw [hf]; rfl
      have hoff : f.read.offset = 1 := by rw [hf]; rfl
      have hz : f.read.size = c.bytes.length := by rw [hf]; rfl
      have hp : pre.length+f.read.total = (pre++f.bytes).length := by
        rw [List.length_append,Frame.length_bytes]
        rfl
      have hnone : blobStream (pre++(f.bytes++(y++post))) (pre.length+f.read.total) f.read.size = none := by
        rw [hp,hz,← List.append_assoc]
        exact blobStreamFrom_damaged _ _ le_rfl h
      rw [hframe] at hfound
      simp only [readRecord,hkind,Option.bind_eq_bind,Option.bind_eq_some_iff,Option.map_eq_some_iff,readBlob,
        readBlobOld,hoff,readBlobImage,readContent,hnone] at hfound
      simp at hfound

/-! ## The whole journal -/

theorem readRecord_resolved {version : Version} {journal : Bytes} {pos : ℕ} {h : Fixed}
    (hr : readRecord env w version journal pos h entries = some none) : h.kind = .resolved := by
  simp only [readRecord,Option.bind_eq_bind,Option.bind_eq_some_iff] at hr
  obtain ⟨_,_,hr⟩ := hr
  cases hk : h.kind <;> simp [hk] at hr ⊢

/-- A damaged record is refused. -/
theorem scanFrom_damaged_record (hr : r.Valid env) (hs : seq+1 < 2 ^ 64) (h : Damaged (r.encode (seq+1)) y) :
    scanFrom env w .four (pre++(y++post)) fuel pre.length seq entries = none := by
  obtain ⟨f,hf⟩ : ∃ f,f = r.frame (seq+1) := ⟨_,rfl⟩
  have hlen := h.length_eq
  obtain ⟨z,hz,rfl⟩ | ⟨z,hz,rfl⟩ := h.append
  · obtain ⟨u,hu,rfl⟩ | ⟨u,hu,rfl⟩ := hz.append
    · rw [List.append_assoc,List.append_assoc]
      exact scanFrom_damaged_fixed hu
    · cases fuel with
      | zero => exact scanFrom_no_fuel (by simp [recordSize])
      | succ fuel =>
        rw [scanFrom_whole _ _ hr hs (by simp only [List.append_assoc]; exact slice_field (Frame.length_fixed _))
          (by simp [← hlen]),List.append_assoc,readRecord_damaged_body hu,Option.bind_none]
  · cases fuel with
    | zero => exact scanFrom_no_fuel (by simp [recordSize,Frame.length,Nat.add_assoc])
    | succ fuel =>
      rw [scanFrom_whole _ _ hr hs
          (by simp only [Frame.bytes,List.append_assoc]; exact slice_field (Frame.length_fixed _))
          (by simp [← hlen]),List.append_assoc,readRecord_damaged_stream hr hz,Option.bind_none]

theorem scanFrom_damaged {mark : Bytes} (hv : ∀ r∈rs,r.Valid env) (hs : seq+rs.length+1 < 2 ^ 64)
    (hm : mark = [] ∨ mark = (resolvedFrame (seq+rs.length+1)).bytes)
    (h : Damaged (encodeFrom seq rs++mark) y) :
    scanFrom env w .four (pre++y) fuel pre.length seq entries = none := by
  induction rs generalizing pre seq fuel y entries with
  | nil =>
    obtain rfl | rfl := hm
    · exact absurd h Damaged.not_nil
    · obtain ⟨f,hf⟩ : ∃ f,f = resolvedFrame (seq+([] : List Record).length+1) := ⟨_,rfl⟩
      have hfixed : f.bytes = f.fixed := by rw [hf]; exact List.append_nil _
      rw [encodeFrom,List.nil_append,← hf,hfixed] at h
      have hscan := @scanFrom_damaged_fixed env w entries pre [] y seq fuel .four f h
      rwa [List.append_nil] at hscan
  | cons r rs ih =>
    rw [encodeFrom,List.append_assoc] at h
    rw [List.length_cons] at hs hm
    obtain ⟨z,hz,rfl⟩ | ⟨z,hz,rfl⟩ := h.append
    · exact scanFrom_damaged_record (hv r (by simp)) (by omega) hz
    · cases fuel with
      | zero => exact scanFrom_no_fuel (by simp [recordSize,Record.encode,Frame.length,Nat.add_assoc])
      | succ fuel =>
        rw [scanFrom_whole _ _ (hv r (by simp)) (by omega) (slice_fixed _ _ _ r) (by simp)]
        cases hread : readRecord env w .four (pre++(r.encode (seq+1)++z)) pre.length
            (r.frame (seq+1)).read entries with
        | none => rfl
        | some e =>
          cases e with
          | none => exact absurd (readRecord_resolved hread) (r.kind_frame (seq+1)).2
          | some e =>
            have hlen : seq+1+rs.length+1 = seq+(rs.length+1)+1 := by omega
            have hnext := @ih (entries++[e]) (pre++r.encode (seq+1)) z (seq+1) fuel
              (fun r hr => hv r (List.mem_cons_of_mem _ hr)) (by omega) (by rwa [hlen]) hz
            rwa [List.append_assoc,List.length_append] at hnext

theorem scan_damaged {marked : Bool} (h : Records env rs) (hd : Damaged (journalFile env rs marked) y) :
    scan env w y = none := by
  rw [journalFile,journalBytes,List.append_assoc,List.append_assoc] at hd
  obtain ⟨z,hz,rfl⟩ | ⟨z,hz,rfl⟩ := hd.append
  · simp only [scan,readHeader_damaged hz,Option.bind_eq_bind,Option.bind_none]
  · obtain ⟨u,hu,rfl⟩ | ⟨u,hu,rfl⟩ := hz.append
    · simp only [scan,readHeader_damaged_path h.path hu,Option.bind_eq_bind,Option.bind_none]
    · have hmark : (if marked then (resolvedFrame (rs.length+1)).bytes else []) = [] ∨
          (if marked then (resolvedFrame (rs.length+1)).bytes else []) =
            (resolvedFrame (0+rs.length+1)).bytes := by
        cases marked with
        | false => exact .inl rfl
        | true => exact .inr (by rw [Nat.zero_add]; rfl)
      have hcount := h.count
      have hrecords := @scanFrom_damaged env w rs [] (header env++env.rootPath.bytes) u 0
        (header env++(env.rootPath.bytes++u)).length _ h.valid (by omega) hmark hu
      have hl : (header env++env.rootPath.bytes).length = headerSize+env.rootPath.bytes.length := by simp
      rw [List.append_assoc,hl] at hrecords
      simp only [scan,readHeader_header h.path,Option.bind_eq_bind,Option.bind_some]
      exact hrecords

/-- Recovery refuses a journal with one changed byte and changes nothing, whatever is
in the database directory: neither a file nor a blob, and the journal stays. -/
theorem damaged_journal_refused {marked : Bool} {journal : Bytes} (h : Records env rs)
    (hd : Damaged (journalFile env rs marked) journal) (s : Files) (tx : Tx) (b : Option (ℕ × ℕ)) :
    dmUndoRecover env ⟨⟨some journal,s⟩,tx,b⟩ = (.error .corrupt,⟨⟨some journal,s⟩,tx,b⟩) := by
  have hfinish : finish env true ⟨⟨some journal,s⟩,tx,b⟩ = (.error .corrupt,⟨⟨some journal,s⟩,tx,b⟩) := by
    rw [finish,run_bind_ok (run_get _),run_bind_ok (run_ofOption_some rfl _ _),
      run_bind_error (run_ofOption_none (scan_damaged h hd) _ _)]
  rw [dmUndoRecover,run_bind_ok (run_get _)]
  exact hfinish

/-- Another first byte is damage. -/
theorem Damaged.first (env : Env) (rs : List Record) (marked : Bool) :
    Damaged (journalFile env rs marked) (0::(journalFile env rs marked).tail) :=
  ⟨[],68,0,(journalFile env rs marked).tail,by decide,rfl,rfl⟩

/-- The write to `a` above, committed, with the first byte of its journal changed. -/
theorem damaged_journal_refused_sample :
    ∃ rs,(dmUndoCommit sampleEnv ⟨sampleWritten.2.world,sampleWritten.2.tx,some (2,0)⟩).2.world.journal =
        some (journalFile sampleEnv rs true) ∧
      (dmUndoRecover sampleEnv ⟨⟨some (0::(journalFile sampleEnv rs true).tail),sampleDatabase.files⟩,
        sampleWritten.2.tx,none⟩).1 = .error .corrupt := by
  have hbegun : sampleBegun.1 = .ok () := by decide +kernel
  have hwritten : sampleWritten.1 = .ok () := by decide +kernel
  have hsession : Written sampleEnv sampleDatabase [] sampleBegun.2.world sampleBegun.2.tx := .begun (run_eq hbegun)
  have hcall := hsession.call sampleWrite (run_eq hwritten)
  rw [← sampleWritten] at hcall
  obtain ⟨hstate,hact⟩ := hcall.active
  refine ⟨_,congrArg World.journal (hact.marked hstate),?_⟩
  rw [damaged_journal_refused hact.records (Damaged.first _ _ _)]

end UndoJournal
end Dataman

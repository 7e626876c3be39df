import Dataman.UndoSessions

/-!
# Journals that are cut off

A journal cut anywhere behind the root path reads as the records that are wholly
there. Cut before, as a crash inside `dm_undo_begin` leaves it, it is not read at all.
-/

variable {seq n k i j : ℕ} {tail : Bytes} {s : Files}

namespace Dataman
namespace UndoJournal
open ByteFiles FailState UndoLog

variable {env : Env} {rs : List Record} {w : World} {tx : Tx} {b : Option (ℕ × ℕ)}

/-! ## Cutting the records -/

/-- Where a cut falls: behind `k` whole records, inside the next or behind the last. -/
structure CutAt (seq : ℕ) (rs : List Record) (n k : ℕ) (tail : Bytes) : Prop where
  le : k ≤ rs.length
  take : (encodeFrom seq rs).take n = encodeFrom seq (rs.take k)++tail
  inside : (encodeFrom seq (rs.take k)).length ≤ n
  next : (k = rs.length ∧ tail = []) ∨ ∃ r,rs[k]? = some r ∧ tail <+: r.encode (seq+k+1) ∧
    tail.length < (r.encode (seq+k+1)).length ∧ n < (encodeFrom seq (rs.take (k+1))).length

theorem exists_cutAt (seq : ℕ) (rs : List Record) (n : ℕ) : ∃ k tail,CutAt seq rs n k tail := by
  induction rs generalizing seq n with
  | nil => exact ⟨0,[],le_rfl,by simp [encodeFrom],Nat.zero_le _,.inl ⟨rfl,rfl⟩⟩
  | cons r rs ih =>
    by_cases hlt : n < (r.encode (seq+1)).length
    · refine ⟨0,(r.encode (seq+1)).take n,Nat.zero_le _,?_,Nat.zero_le _,.inr ⟨r,rfl,?_,?_,?_⟩⟩
      · rw [encodeFrom,List.take_append_of_le_length (by omega)]
        rfl
      · exact List.take_prefix _ _
      · rw [List.length_take,Nat.add_zero]
        omega
      · simpa [encodeFrom] using hlt
    · obtain ⟨k,tail,hk⟩ := ih (seq+1) (n - (r.encode (seq+1)).length)
      have hsum : seq+1+k+1 = seq+(k+1)+1 := by omega
      refine ⟨k+1,tail,?_,?_,?_,?_⟩
      · simpa using hk.le
      · rw [encodeFrom,List.take_append,List.take_of_length_le (by omega),hk.take,List.take_succ_cons,encodeFrom,
          List.append_assoc]
      · have := hk.inside
        rw [List.take_succ_cons,encodeFrom,List.length_append]
        omega
      · obtain ⟨hl,ht⟩ | ⟨r',hr',hp,hl,hn⟩ := hk.next
        · exact .inl ⟨by simp [hl],ht⟩
        · rw [hsum] at hp hl
          refine .inr ⟨r',by simpa using hr',hp,hl,?_⟩
          rw [List.take_succ_cons,encodeFrom,List.length_append]
          omega

theorem CutAt.torn (h : CutAt seq rs n k tail) (hv : ∀ r∈rs,r.Valid env) :
    Torn env (seq+k) tail := by
  obtain ⟨_,rfl⟩ | ⟨r,hr,hp,hl,_⟩ := h.next
  · exact .nil _ _
  · exact .cut (hv r (List.mem_of_getElem? hr)) hp hl

theorem length_encodeFrom_mono (seq : ℕ) (rs : List Record) (h : i ≤ j) :
    (encodeFrom seq (rs.take i)).length ≤ (encodeFrom seq (rs.take j)).length := by
  obtain ⟨d,rfl⟩ := Nat.exists_eq_add_of_le h
  rw [List.take_add,encodeFrom_append,List.length_append]
  omega

/-- The whole records are exactly the first `k`. -/
theorem CutAt.length_le_iff (h : CutAt seq rs n k tail) (hj : j ≤ rs.length) :
    (encodeFrom seq (rs.take j)).length ≤ n ↔ j ≤ k := by
  constructor
  · intro hle
    by_contra hlt
    obtain ⟨hk,_⟩ | ⟨_,_,_,_,hn⟩ := h.next
    · omega
    · have := length_encodeFrom_mono seq rs (show k+1 ≤ j by omega)
      omega
  · intro hjk
    exact (length_encodeFrom_mono seq rs hjk).trans h.inside

theorem length_journalBytes (env : Env) (rs : List Record) : (journalBytes env rs).length =
    headerSize+env.rootPath.bytes.length+(encodeFrom 0 rs).length := by
  simp [journalBytes,Nat.add_assoc]

theorem CutAt.take_journalBytes
    (h : CutAt 0 rs (n - (headerSize+env.rootPath.bytes.length)) k tail)
    (hn : headerSize+env.rootPath.bytes.length ≤ n) :
    (journalBytes env rs).take n = journalBytes env (rs.take k)++tail := by
  have hl : (header env++env.rootPath.bytes).length = headerSize+env.rootPath.bytes.length := by simp
  rw [journalBytes,← List.append_assoc,List.take_append,List.take_of_length_le (by omega),hl,h.take,
    journalBytes]
  simp

theorem Records.take (h : Records env rs) (k : ℕ) : Records env (rs.take k) := by
  constructor
  · exact h.path
  · intro r hr
    exact h.valid r (List.mem_of_mem_take hr)
  · exact h.once.sublist ((List.take_sublist k rs).filterMap _)
  · have hl := List.length_take_le' k rs
    have := h.count
    omega

theorem readable_take {j : Option Bytes} (h : Records env rs)
    (hs : ∀ name∈rs.filterMap Record.blobName,s.slots name≠some .foreign) (k : ℕ) :
    Readable env ⟨j,s⟩ (rs.take k) :=
  ⟨(h.take k).valid,(h.take k).once,fun name hn => hs name (((List.take_sublist k rs).filterMap _).subset hn)⟩

/-! ## Cut journals are read -/

/-- The journal of a transaction, with or without its RESOLVED record. -/
def journalFile (env : Env) (rs : List Record) (marked : Bool) : Bytes :=
  journalBytes env rs++if marked then (resolvedFrame (rs.length+1)).bytes else []

/-- What `scan` finds in a journal cut to `n` bytes. -/
structure ScansCut (env : Env) (s : Files) (rs : List Record) (marked : Bool) (n k : ℕ) : Prop where
  whole : ∀ j,j ≤ rs.length → ((journalBytes env (rs.take j)).length ≤ n ↔ j ≤ k)
  scanned : ∀ j,∃ found,scan env ⟨j,s⟩ ((journalFile env rs marked).take n) = some found ∧
    found.entries = (rs.take k).map Record.saved ∧
    (found.resolved = true ↔ marked = true ∧ (journalFile env rs marked).length ≤ n)

theorem exists_scansCut (h : Records env rs) (marked : Bool)
    (hn : headerSize+env.rootPath.bytes.length ≤ n)
    (hs : ∀ name∈rs.filterMap Record.blobName,s.slots name≠some .foreign) :
    ∃ k ≤ rs.length,∃ tail,(journalBytes env rs).take n = journalBytes env (rs.take k)++tail ∧
      ScansCut env s rs marked n k := by
  obtain ⟨k,tail,hk⟩ := exists_cutAt 0 rs (n - (headerSize+env.rootPath.bytes.length))
  have htake := hk.take_journalBytes hn
  have hwhole : ∀ j,j ≤ rs.length → ((journalBytes env (rs.take j)).length ≤ n ↔ j ≤ k) := by
    intro j hj
    rw [← hk.length_le_iff hj,length_journalBytes]
    omega
  refine ⟨k,hk.le,tail,htake,hwhole,?_⟩
  intro j
  have hlen : (rs.take k).length = k := by
    rw [List.length_take]
    have := hk.le
    omega
  have htorn : Torn env (rs.take k).length tail := by
    have ht := hk.torn h.valid
    rwa [Nat.zero_add,← hlen] at ht
  have hfull := hwhole rs.length le_rfl
  rw [List.take_length] at hfull
  by_cases hshort : n < (journalBytes env rs).length
  · have hcut : (journalFile env rs marked).take n = journalBytes env (rs.take k)++tail := by
      rw [journalFile,List.take_append_of_le_length (by omega),htake]
    rw [hcut]
    refine ⟨_,scan_torn h.path (readable_take h hs k) (h.take k).count htorn,rfl,?_⟩
    simp only [journalFile,List.length_append,Bool.false_eq_true,false_iff]
    omega
  · have hall : rs.take k = rs := List.take_of_length_le (hfull.1 (by omega))
    have hread : Readable env ⟨j,s⟩ rs := hall ▸ readable_take h hs k
    have hcut : (journalFile env rs marked).take n = journalBytes env rs ++
        (if marked then (resolvedFrame (rs.length+1)).bytes else []).take (n - (journalBytes env rs).length) := by
      rw [journalFile,List.take_append,List.take_of_length_le (by omega)]
    have hmark := length_resolvedFrame (rs.length+1)
    rw [hcut,hall]
    by_cases hm : marked = true ∧ recordSize ≤ n - (journalBytes env rs).length
    · obtain ⟨rfl,hroom⟩ := hm
      simp only [if_true]
      rw [List.take_of_length_le (by omega)]
      refine ⟨_,scan_resolved h.path hread h.count,rfl,?_⟩
      simp only [journalFile,List.length_append,if_true,true_and,true_iff,hmark]
      omega
    · refine ⟨_,scan_torn h.path hread h.count (.short ?_),rfl,?_⟩
      · cases marked with
        | false => simp [recordSize]
        | true =>
          have hroom : ¬ recordSize ≤ n - (journalBytes env rs).length := fun hr => hm ⟨rfl,hr⟩
          simp only [if_true,List.length_take,hmark]
          omega
      · cases marked with
        | false => simp
        | true =>
          have hroom : ¬ recordSize ≤ n - (journalBytes env rs).length := fun hr => hm ⟨rfl,hr⟩
          simp only [journalFile,List.length_append,if_true,true_and,hmark,Bool.false_eq_true,false_iff]
          omega

/-- The chunk stream of a record that is wholly there is read back. -/
theorem blobStream_take {name : CString} {parent : Ident} {c : BlobFile}
    (htake : (journalBytes env rs).take n = journalBytes env (rs.take k)++tail) (hik : i < k)
    (hi : rs[i]? = some (.blob name parent (some c))) (more : Bytes) :
    blobStream ((journalBytes env rs++more).take n)
      ((journalBytes env (rs.take i)).length+(blobFrame (i+1) name.bytes parent (some c)).length)
      c.bytes.length = some (chunks c.bytes) := by
  obtain ⟨hlt,hget⟩ := List.getElem?_eq_some_iff.1 hi
  obtain ⟨rest,hrest⟩ : ∃ rest,rs.take k = rs.take i++.blob name parent (some c)::rest := by
    refine ⟨(rs.take k).drop (i+1),?_⟩
    have hlen : i < (rs.take k).length := by
      rw [List.length_take]
      omega
    have hsplit := (List.take_append_drop i (rs.take k)).symm
    rwa [List.drop_eq_getElem_cons hlen,List.getElem_take,hget,List.take_take,Nat.min_eq_left hik.le] at hsplit
  have hlen : (rs.take i).length = i := by
    rw [List.length_take]
    omega
  have hbytes : (journalBytes env rs++more).take n =
      (journalBytes env (rs.take i)++(blobFrame (i+1) name.bytes parent (some c)).bytes) ++
        (streamBytes (chunks c.bytes) ++
          (encodeFrom (i+1) rest++(tail++more.take (n - (journalBytes env rs).length)))) := by
    rw [List.take_append,htake,hrest]
    simp only [journalBytes,encodeFrom_append,encodeFrom,hlen,Nat.zero_add,Record.encode,Record.frame,
      Record.stream,contentOf,Option.map_some,Option.getD_some,List.append_assoc]
  have hpos : (journalBytes env (rs.take i)).length+(blobFrame (i+1) name.bytes parent (some c)).length =
      (journalBytes env (rs.take i)++(blobFrame (i+1) name.bytes parent (some c)).bytes).length := by
    simp
  rw [hbytes,hpos,blobStream_stream]

/-- A transaction all of whose calls succeeded, with the records of these calls. -/
inductive Written (env : Env) (db : Database) : List Record → World → Tx → Prop
  | begun {tx : Tx} {b : Option (ℕ × ℕ)} {m : Machine}
      (run : dmUndoBegin env ⟨⟨none,db.files⟩,tx,b⟩ = (.ok (),m)) : Written env db [] m.world m.tx
  | call {rs : List Record} {w : World} {tx : Tx} (before : Written env db rs w tx) (c : Call)
      {b : Option (ℕ × ℕ)} {m : Machine} (run : c.run env ⟨w,tx,b⟩ = (.ok (),m)) :
      Written env db (rs++c.records env w.files tx.blobs) m.world m.tx

theorem Written.active {db : Database} (h : Written env db rs w tx) :
    tx.state = .active ∧ Active env db.files rs w tx := by
  induction h with
  | @begun tx b m hrun =>
    have hspec : wp (dmUndoBegin env) ⟨⟨none,db.files⟩,tx,b⟩
        (fun _ m => m.tx.state = .active ∧ Active env db.files [] m.world m.tx) (fun _ _ => True) := by
      apply wp_dmUndoBegin
      · intro b' hpath
        exact ⟨rfl,db.active hpath⟩
      · intros
        trivial
    exact (wp_of_ok hrun).1 hspec
  | @call rs w tx _ c b m hrun ih =>
    have hspec : wp (c.run env) ⟨w,tx,b⟩ (fun _ m => m.tx.state = .active ∧
        Active env db.files (rs++c.records env w.files tx.blobs) m.world m.tx) (fun _ _ => True) := by
      apply wp_call c ih.2 ih.1
      · intro w' tx' b' hact hs
        exact ⟨hs,hact⟩
      · intros
        trivial
    exact (wp_of_ok hrun).1 hspec

/-- A commit that is cut before it removes the journal leaves the RESOLVED record. -/
theorem Active.marked {s0 : Files} (h : Active env s0 rs w tx) (hs : tx.state = .active) :
    (dmUndoCommit env ⟨w,tx,some (2,0)⟩).2.world = ⟨some (journalFile env rs true),w.files⟩ := by
  have hscan := scan_torn h.records.path (h.records.readable h.covered) h.records.count (.nil env rs.length)
  have hcut : truncateTo (journalBytes env rs) (journalBytes env rs).length = journalBytes env rs := by
    simpa using truncateTo_append (journalBytes env rs) []
  rw [List.append_nil] at hscan
  have hspec : wp (dmUndoCommit env) ⟨w,tx,some (2,0)⟩ (fun _ _ => False)
      (fun _ m => m.world = ⟨some (journalFile env rs true),w.files⟩) := by
    simp only [dmUndoCommit,wp_bind,wp_get,wp_ensure,UndoJournal.setState,wp_modify,hs,decide_true,if_true,
      finish,h.journal,wp_ofOption,hscan,Bool.false_eq_true,if_false,replay,wp_pure,wp_emit_next,resolve,
      append,retire,wp_emit_stop,Effect.apply,Effect.cut,Option.map_some,hcut,writeAt_end,journalFile]
  obtain ⟨_,_,_,hf⟩ | ⟨_,m,hrun,hm⟩ := wp_cases hspec
  · exact hf.elim
  · rw [hrun]
    exact hm

/-- A journal that a transaction wrote, cut anywhere behind its root path, is read as
the records that are wholly there, with what was written in each, and as resolved
only with its whole RESOLVED record; the contents of every blob can be read back. -/
theorem journal_prefix_decodable {db : Database} (h : Written env db rs w tx) (marked : Bool) {n : ℕ}
    (hn : headerSize+env.rootPath.bytes.length ≤ n) {s : Files}
    (hs : ∀ name∈rs.filterMap Record.blobName,s.slots name≠some .foreign) :
    (if marked then (dmUndoCommit env ⟨w,tx,some (2,0)⟩).2.world else w).journal =
        some (journalFile env rs marked) ∧
      (∀ name∈rs.filterMap Record.blobName,w.files.slots name≠some .foreign) ∧
      ∃ k ≤ rs.length,ScansCut env s rs marked n k ∧
        ∀ i < k,∀ name parent c,rs[i]? = some (.blob name parent (some c)) →
          blobStream ((journalFile env rs marked).take n)
            ((journalBytes env (rs.take i)).length+(blobFrame (i+1) name.bytes parent (some c)).length)
            c.bytes.length = some (chunks c.bytes) ∧ (chunks c.bytes).flatten = c.bytes := by
  obtain ⟨hstate,hact⟩ := h.active
  constructor
  · cases marked with
    | false => simpa [journalFile] using hact.journal
    | true => simpa using congrArg World.journal (hact.marked hstate)
  · constructor
    · exact hact.covered.own
    · obtain ⟨k,hk,tail,htake,hcut⟩ := exists_scansCut hact.records marked hn hs
      refine ⟨k,hk,hcut,?_⟩
      intro i hi name parent c hget
      exact ⟨blobStream_take htake hi hget _,flatten_chunks _⟩

/-- The write to `a` above, its journal cut in the middle of the record. -/
theorem journal_prefix_decodable_sample :
    ∃ k ≤ (sampleWrite.records sampleEnv sampleBegun.2.world.files sampleBegun.2.tx.blobs).length,
      ScansCut sampleEnv sampleDatabase.files
        (sampleWrite.records sampleEnv sampleBegun.2.world.files sampleBegun.2.tx.blobs) true 70 k := by
  have hbegun : sampleBegun.1 = .ok () := by decide +kernel
  have hwritten : sampleWritten.1 = .ok () := by decide +kernel
  have hsession : Written sampleEnv sampleDatabase [] sampleBegun.2.world sampleBegun.2.tx := .begun (run_eq hbegun)
  have hcall := hsession.call sampleWrite (run_eq hwritten)
  obtain ⟨_,_,k,hk,hcut,_⟩ := journal_prefix_decodable hcall true (n := 70) (by decide)
    (s := sampleDatabase.files) (fun _ _ => nofun)
  exact ⟨k,hk,hcut⟩

/-! ## A crash inside `dm_undo_begin` -/

/-- What `readHeader` has checked when it accepts. -/
theorem readHeader_some {journal : Bytes} {found : Version × ℕ} (h : readHeader env journal = some found) :
    ∃ hd path,readAt journal 0 headerSize = some hd ∧ get32 hd 48 = crc (hd.take 48) ∧ get32 hd 52 = 0 ∧
      readAt journal headerSize (get32 hd 40) = some path ∧ get32 hd 44 = crc path := by
  simp only [readHeader,Option.bind_eq_bind,Option.bind_eq_some_iff,guard_eq_some] at h
  obtain ⟨hd,hread,_,_,_,hsum,_,_,_,_,path,hpath,_,hcrc,_⟩ := h
  exact ⟨hd,path,hread,hsum.2.2.1,hsum.2.2.2,hpath,hcrc.2.2⟩

/-- A journal without its whole header and root path is not read. -/
theorem scan_opening {bs : Bytes} (hp : env.rootPath.bytes.length ≤ maxPath)
    (hbs : bs <+: header env++env.rootPath.bytes) (hne : bs≠header env++env.rootPath.bytes) :
    scan env w bs = none := by
  have hlt : bs.length < headerSize+env.rootPath.bytes.length := by
    have hle := hbs.length_le
    have hnl : bs.length≠(header env++env.rootPath.bytes).length := fun hl => hne (hbs.eq_of_length hl)
    rw [List.length_append,length_header] at hle hnl
    omega
  have hnone : readHeader env bs = none := by
    apply Option.eq_none_iff_forall_ne_some.2
    intro found hfound
    obtain ⟨hd,path,hread,_,_,hpath,_⟩ := readHeader_some hfound
    obtain ⟨hlen,hslice⟩ := readAt_eq_some.1 hread
    have hsize : headerSize ≤ bs.length := by
      unfold headerSize at hlen ⊢
      omega
    have hhd : hd = header env := by
      obtain ⟨more,hmore⟩ := hbs
      rw [← hslice]
      have hx := slice_append_left bs more 0 headerSize (by omega)
      rw [hmore,slice_append_exact _ _ _ (length_header env)] at hx
      exact hx.symm
    rw [hhd,get32_header_length hp] at hpath
    have hne0 := rootPath_ne_nil env
    obtain ⟨hin,_⟩ := readAt_eq_some.1 hpath
    omega
  simp only [scan,hnone,Option.bind_eq_bind,Option.bind_none]

theorem journalBytes_nil (env : Env) : journalBytes env [] = header env++env.rootPath.bytes := by
  simp [journalBytes,encodeFrom]

/-- The directory is usable after a crash: the next recovery returns 0, the files are
as they were, and a transaction can be begun. -/
def Reopens (env : Env) (s : Files) (w : World) : Prop :=
  ∀ tx,∃ m,dmUndoRecover env ⟨w,tx,none⟩ = (.ok (),m) ∧ m.world.files = s ∧
    ∀ tx',env.rootPath.bytes.length ≤ maxPath → ∃ m',dmUndoBegin env ⟨m.world,tx',none⟩ = (.ok (),m')

theorem begin_succeeds (hp : env.rootPath.bytes.length ≤ maxPath) (tx : Tx) :
    ∃ m,dmUndoBegin env ⟨⟨none,s⟩,tx,none⟩ = (.ok (),m) := by
  have hd : decide (env.rootPath.bytes.length ≤ maxPath) = true := decide_eq_true hp
  rw [dmUndoBegin,run_bind_ok (run_ensure hd _ _)]
  exact ⟨_,rfl⟩

theorem begin_opening (env : Env) (s : Files) (tx : Tx) (b : Option (ℕ × ℕ)) :
    ∃ j,Opening env j ∧ (dmUndoBegin env ⟨⟨none,s⟩,tx,b⟩).2.world = ⟨j,s⟩ := by
  have hspec : wp (dmUndoBegin env) ⟨⟨none,s⟩,tx,b⟩ (fun _ m => ∃ j,Opening env j ∧ m.world = ⟨j,s⟩)
      (fun _ m => ∃ j,Opening env j ∧ m.world = ⟨j,s⟩) := by
    apply wp_dmUndoBegin
    · intro b' hp
      exact ⟨_,.created hp (by rw [journalBytes_nil]),rfl⟩
    · intro e j b' hj
      exact ⟨j,hj,rfl⟩
  obtain ⟨_,_,hrun,hj⟩ | ⟨_,_,hrun,hj⟩ := wp_cases hspec
  · rwa [hrun]
  · rwa [hrun]

/-- After a crash inside `dm_undo_begin` the directory is usable again exactly when
the journal file was not created yet, or was written to the end. -/
theorem begin_crash_recoverable_iff (env : Env) (db : Database) (tx : Tx) (b : Option (ℕ × ℕ)) :
    Reopens env db.files (dmUndoBegin env ⟨⟨none,db.files⟩,tx,b⟩).2.world ↔
      (dmUndoBegin env ⟨⟨none,db.files⟩,tx,b⟩).2.world.journal = none ∨
        (dmUndoBegin env ⟨⟨none,db.files⟩,tx,b⟩).2.world.journal =
          some (header env++env.rootPath.bytes) := by
  obtain ⟨j,hopen,hw⟩ := begin_opening env db.files tx b
  rw [hw]
  constructor
  · intro h
    obtain ⟨m,hrun,_⟩ := h tx
    cases hopen with
    | absent => exact .inl rfl
    | @created bs hp hbs =>
      right
      by_contra hne
      have hnone : scan env ⟨some bs,db.files⟩ bs = none := scan_opening hp hbs (fun he => hne (congrArg some he))
      have hfail : wp (dmUndoRecover env) ⟨⟨some bs,db.files⟩,tx,none⟩ (fun _ _ => False) (fun _ _ => True) := by
        simp only [dmUndoRecover,wp_bind,wp_get,Option.isNone_some,Bool.false_eq_true,if_false,finish,
          wp_ofOption,hnone]
      exact (wp_of_ok hrun).1 hfail
  · intro h tx'
    have hpend : Pending env db.files ⟨j,db.files⟩ := by
      obtain h | h := h
      · exact .gone h rfl
      · cases hopen with
        | absent => simp at h
        | @created bs hp hbs =>
          obtain rfl : bs = header env++env.rootPath.bytes := Option.some.inj h
          rw [← journalBytes_nil]
          exact .unmarked (db.active hp).journaled
    have hspec : wp (dmUndoRecover env) ⟨⟨j,db.files⟩,tx',none⟩ _ _ := hpend.recover
    obtain ⟨_,m,hrun,hm⟩ | ⟨_,_,_,hb,_⟩ := wp_cases hspec
    · refine ⟨m,hrun,by rw [hm],?_⟩
      intro tx'' hp
      rw [hm]
      exact begin_succeeds hp tx''
    · exact absurd rfl hb

/-- A crash right after the journal file was created. -/
theorem begin_crash_blocks : ∃ m,(dmUndoBegin sampleEnv
    ⟨⟨none,sampleDatabase.files⟩,⟨.finished,0,0,[]⟩,some (1,0)⟩).2 = m ∧ m.world.journal = some [] ∧
      (dmUndoRecover sampleEnv ⟨m.world,m.tx,none⟩).1 = .error .corrupt ∧
      (dmUndoBegin sampleEnv ⟨m.world,m.tx,none⟩).1 = .error .io :=
  ⟨_,rfl,by decide +kernel,by decide +kernel,by decide +kernel⟩

end UndoJournal
end Dataman

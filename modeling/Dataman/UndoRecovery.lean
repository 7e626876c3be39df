import Dataman.UndoCalls

/-!
# Finishing and recovering

Undoing the records of a journal, from the last to the first, gives the files of the
start back; an undo that is cut anywhere leaves a journal that leads there again.
The RESOLVED record is what decides: once it is whole, nothing is undone any more.
-/

namespace Dataman
namespace UndoJournal
open ByteFiles FailState UndoLog

variable {env : Env} {s0 : Files} {rs : List Record} {w : World} {tx : Tx} {tail : Bytes}
  {b : Option (ℕ × ℕ)} {Q : Unit → Machine → Prop} {E : Fault → Machine → Prop}

/-! ## Undoing records -/

theorem wp_undoEntry {r : Record} (hr : r.Valid env) (hm : r∈rs) (hc : Covered s0 rs w.files)
    (hQ : ∀ b',(b = none → b' = none) → Covered s0 rs (w.files.undo r.entry) →
      Q () ⟨{ w with files := w.files.undo r.entry },tx,b'⟩)
    (hE : b≠none → ∀ s b',Covered s0 rs s → E .io ⟨{ w with files := s },tx,b'⟩) :
    wp (undoEntry env r.saved) ⟨w,tx,b⟩ Q E := by
  cases r with
  | undo name file im =>
    have him := Covered.mem_images hm
    have hlog := hc.logged.file file
    have hsize : im.size ≤ int64Max := by
      cases hr
      assumption
    have hback : ∀ n,(writeAt (w.files.files file) im.offset (im.before.take n)).length ≤ int64Max := by
      intro n
      cases hr with
      | undo _ _ _ _ hoff _ hin =>
        by_cases hnil : im.before = []
        · simpa [hnil] using hc.sized file
        · have := hin hnil
          apply length_writeAt_le (hc.sized file)
          rw [List.length_take]
          omega
    have hpart : ∀ n,Covered s0 rs (w.files.setFile file (writeAt (w.files.files file) im.offset (im.before.take n))) :=
      fun n => hc.setFile (hback n) (hlog.writeBack him n)
    have hwhole := hpart im.before.length
    rw [List.take_length] at hwhole
    have hundo : (w.files.setFile file (writeAt (w.files.files file) im.offset im.before)).setFile file
        (truncateTo (writeAt (w.files.files file) im.offset im.before) im.size) =
        w.files.undo (.image file im) := by
      simp [Store.undo,Store.setFile,Image.restore]
    have hdone : Covered s0 rs (w.files.undo (.image file im)) := by
      rw [← hundo]
      apply hwhole.setFile (by rw [length_truncateTo]; exact hsize)
      have hl := hwhole.logged.file file
      simp only [Store.setFile,Function.update_self] at hl
      exact hl.truncate him
    simp only [Record.saved,undoEntry,wp_bind]
    apply wp_emit
    · intro b1 hb1
      apply wp_emit
      · intro b2 hb2
        have hq := hQ b2 (hb2 ∘ hb1) hdone
        simp only [Record.entry,← hundo] at hq
        simpa [Effect.apply,World.setFile,Store.setFile] using hq
      · intro hb n b2
        have hne : b≠none := fun h0 => hb (hb1 h0)
        by_cases hn : n = 0
        · simpa [Effect.cut,Effect.apply,hn,World.setFile] using hE hne _ b2 hwhole
        · have he := hE hne _ b2 hdone
          rw [← hundo] at he
          simpa [Effect.cut,Effect.apply,hn,World.setFile,Store.setFile] using he
    · intro hb n b1
      exact hE hb _ b1 (hpart n)
  | blob name parent old =>
    have hname : name.bytes.drop 6∈rs.filterMap Record.blobName := List.mem_filterMap.2 ⟨_,hm,rfl⟩
    have hold : (old.map fun c => (⟨chunks c.bytes,c.bytes.length,c.attr⟩ : BlobImage)).map
        (fun im => BlobEntry.own im.file) = old.map .own := by
      cases old with
      | none => rfl
      | some c => simp [BlobImage.file,flatten_chunks]
    apply wp_restoreBlob (hc.own _ hname)
    · intro im him
      cases old with
      | none => simp at him
      | some c =>
        obtain rfl : _ = im := by simpa using him
        simp [flatten_chunks]
    · intro b' hb
      rw [hold]
      apply hQ b' hb
      apply hc.setSlot hname
      cases old with
      | none => exact BlobEntry.none_ne_foreign
      | some c => exact BlobEntry.own_ne_foreign c
    · intro hb v b' hv
      exact hE hb _ b' (hc.setSlot hname hv)

theorem wp_undoEntries {rs' : List Record} (hr : ∀ r∈rs,r.Valid env) (hsub : ∀ r∈rs',r∈rs)
    (hlog : Logged s0 w.files (rs'.map Record.entry)) (hc : Covered s0 rs w.files)
    (hQ : ∀ b',(b = none → b' = none) → Covered s0 rs s0 → Q () ⟨{ w with files := s0 },tx,b'⟩)
    (hE : b≠none → ∀ s b',Covered s0 rs s → E .io ⟨{ w with files := s },tx,b'⟩) :
    wp (undoEntries env (rs'.map Record.saved).reverse) ⟨w,tx,b⟩ Q E := by
  induction rs' using List.reverseRecOn generalizing w b with
  | nil =>
    have hs : w.files = s0 := hlog.eq_of_nil
    apply (wp_pure ()).2
    have hq := hQ b id (hs ▸ hc)
    rwa [← hs] at hq
  | append_singleton rs' r ih =>
    have hmem : r∈rs := hsub r (by simp)
    rw [List.map_append] at hlog
    simp only [List.map_append,List.map_cons,List.map_nil,List.reverse_append,List.reverse_cons,
      List.reverse_nil,List.nil_append,List.cons_append,undoEntries,wp_bind]
    apply wp_undoEntry (hr r hmem) hmem hc
    · intro b1 hb1 hc1
      apply ih
      · intro r' hr'
        exact hsub r' (List.mem_append_left _ hr')
      · exact hlog.undo
      · exact hc1
      · intro b2 hb2 hcs
        exact hQ b2 (hb2 ∘ hb1) hcs
      · intro hb s b2 hcs
        exact hE (fun h0 => hb (hb1 h0)) s b2 hcs
    · exact hE

/-! ## Closing the journal -/

/-- The journal file while `finish` closes it: as it was, with its tail cut off and
part of the RESOLVED record, with the whole of it, or removed. -/
inductive Closing (env : Env) (rs : List Record) (tail : Bytes) : Option Bytes → Prop
  | same : Closing env rs tail (some (journalBytes env rs++tail))
  | unmarked {bs : Bytes} (short : bs.length < recordSize) : Closing env rs tail (some (journalBytes env rs++bs))
  | marked : Closing env rs tail (some (journalBytes env rs++(resolvedFrame (rs.length+1)).bytes))
  | gone : Closing env rs tail none

theorem wp_retire {j : Bytes} (hj : w.journal = some j)
    (hQ : ∀ b',(b = none → b' = none) → Q () ⟨{ w with journal := none },tx,b'⟩)
    (hE : b≠none → ∀ j' b',j' = some j ∨ j' = none → E .io ⟨{ w with journal := j' },tx,b'⟩) :
    wp retire ⟨w,tx,b⟩ Q E := by
  apply wp_emit
  · intro b' hb
    exact hQ b' hb
  · intro hb n b'
    by_cases hn : n = 0
    · simpa [Effect.cut,hn,← hj] using hE hb (some j) b' (.inl rfl)
    · simpa [Effect.cut,hn,Effect.apply] using hE hb none b' (.inr rfl)

theorem truncateTo_append (xs ys : Bytes) : truncateTo (xs++ys) xs.length = xs := by
  simp [truncateTo]

theorem wp_close (hj : w.journal = some (journalBytes env rs++tail)) (hend : tx.endAt = (journalBytes env rs).length) (hseq : tx.sequence = rs.length)
    (hQ : ∀ tx' b',(b = none → b' = none) → Q () ⟨{ w with journal := none },tx',b'⟩)
    (hE : b≠none → ∀ j tx' b',Closing env rs tail j → E .io ⟨{ w with journal := j },tx',b'⟩) :
    wp (do emit (.journalTruncate tx.endAt); resolve) ⟨w,tx,b⟩ Q E := by
  simp only [wp_bind]
  have hcut : truncateTo (journalBytes env rs++tail) tx.endAt = journalBytes env rs := by
    rw [hend,truncateTo_append]
  apply wp_emit
  · intro b1 hb1
    simp only [Effect.apply,hj,Option.map_some,hcut,resolve,append,wp_bind,wp_get,wp_modify]
    apply wp_emit_append rfl hend
    · intro b2 hb2
      rw [hseq]
      apply wp_retire rfl
      · intro b3 hb3
        exact hQ _ b3 (hb3 ∘ hb2 ∘ hb1)
      · intro hb j b3 hjj
        have hne : b≠none := fun h0 => hb (hb2 (hb1 h0))
        obtain rfl | rfl := hjj
        · exact hE hne _ _ b3 .marked
        · exact hE hne _ _ b3 .gone
    · intro hb bs b2 hbs
      have hne : b≠none := fun h0 => hb (hb1 h0)
      apply hE hne
      rw [hseq] at hbs
      have hlen : ((resolvedFrame (rs.length+1)).bytes).length = recordSize := Frame.length_bytes _
      by_cases hlt : bs.length < recordSize
      · exact .unmarked hlt
      · have he : bs = (resolvedFrame (rs.length+1)).bytes := by
          apply hbs.eq_of_length
          have := hbs.length_le
          omega
        rw [he]
        exact .marked
  · intro hb n b1
    by_cases hn : n = 0
    · simpa [Effect.cut,hn,← hj] using hE hb _ tx b1 .same
    · have hshort : ([] : Bytes).length < recordSize := by decide
      have he := hE hb _ tx b1 (.unmarked hshort)
      simpa [Effect.cut,hn,Effect.apply,hj,hcut] using he

/-! ## Finishing -/

/-- `finish` on a journal without a RESOLVED record. -/
theorem wp_finish {undo : Bool} (h : Journaled env s0 rs tail w)
    (hQ : ∀ tx' b',(b = none → b' = none) →
      Q () ⟨⟨none,if undo then s0 else w.files⟩,tx',b'⟩)
    (hE : b≠none → ∀ j s tx' b',Closing env rs tail j → Covered s0 rs s →
      (undo = true ∧ (s = s0 ∨ j = w.journal) ∨ undo = false ∧ s = w.files) → E .io ⟨⟨j,s⟩,tx',b'⟩) :
    wp (finish env undo) ⟨w,tx,b⟩ Q E := by
  have hscan := scan_torn h.records.path (h.records.readable h.covered) h.records.count h.torn
  simp only [finish,wp_bind,wp_get,h.journal,wp_ofOption,hscan,wp_modify,Bool.false_eq_true,if_false]
  cases undo with
  | false =>
    apply (wp_pure ()).2
    have hclose := @wp_close env rs w
      { tx with endAt := (journalBytes env rs).length,sequence := rs.length } tail b Q E h.journal rfl rfl
    apply (wp_bind _ _).1
    apply hclose
    · intro tx' b' hb
      exact hQ tx' b' hb
    · intro hb j tx' b' hj
      exact hE hb j w.files tx' b' hj h.covered (.inr ⟨rfl,rfl⟩)
  | true =>
    apply wp_undoEntries h.records.valid (fun r hr => hr) h.covered.logged h.covered
    · intro b1 hb1 hcs
      have hclose := @wp_close env rs { w with files := s0 }
        { tx with endAt := (journalBytes env rs).length,sequence := rs.length } tail b1 Q E h.journal rfl rfl
      apply (wp_bind _ _).1
      apply hclose
      · intro tx' b' hb
        exact hQ tx' b' (hb ∘ hb1)
      · intro hb j tx' b' hj
        exact hE (fun h0 => hb (hb1 h0)) j s0 tx' b' hj hcs (.inl ⟨rfl,.inl rfl⟩)
    · intro hb s b1 hcs
      have hj : Closing env rs tail w.journal := by
        rw [h.journal]
        exact .same
      exact hE hb w.journal s _ b1 hj hcs (.inl ⟨rfl,.inr rfl⟩)

/-- A journal, or none, from which recovery comes to `s`. -/
inductive Pending (env : Env) (s : Files) (w : World) : Prop
  | unmarked {rs : List Record} {tail : Bytes} (journaled : Journaled env s rs tail w)
  | marked {rs : List Record} (records : Records env rs) (readable : Readable env w rs) (files : w.files = s)
      (journal : w.journal = some (journalBytes env rs++(resolvedFrame (rs.length+1)).bytes))
  | gone (journal : w.journal = none) (files : w.files = s)

/-- A closing journal either has its mark or leads back as before. -/
theorem Closing.cases {j : Option Bytes} (h : Closing env rs tail j) (ht : Torn env rs.length tail) :
    (∃ tail',Torn env rs.length tail' ∧ j = some (journalBytes env rs++tail')) ∨
      j = some (journalBytes env rs++(resolvedFrame (rs.length+1)).bytes) ∨ j = none := by
  cases h with
  | same => exact .inl ⟨tail,ht,rfl⟩
  | @unmarked bs hs => exact .inl ⟨bs,.short hs,rfl⟩
  | marked => exact .inr (.inl rfl)
  | gone => exact .inr (.inr rfl)

/-- Files that are where the records lead already. -/
theorem Closing.pending {j : Option Bytes} {s : Files} (h : Closing env rs tail j) (ht : Torn env rs.length tail)
    (hrec : Records env rs) (hc : Covered s0 rs s) (hs : s = s0) : Pending env s0 ⟨j,s⟩ := by
  subst hs
  obtain ⟨tail',ht',rfl⟩ | rfl | rfl := h.cases ht
  · exact .unmarked ⟨hrec,hc,rfl,ht'⟩
  · exact .marked hrec ⟨hrec.valid,hrec.once,hc.own⟩ rfl rfl
  · exact .gone rfl rfl

theorem wp_finish_marked {undo : Bool} (hrec : Records env rs) (hread : Readable env w rs)
    (hj : w.journal = some (journalBytes env rs++(resolvedFrame (rs.length+1)).bytes))
    (hQ : ∀ tx' b',(b = none → b' = none) → Q () ⟨{ w with journal := none },tx',b'⟩)
    (hE : b≠none → ∀ j tx' b',j = w.journal ∨ j = none → E .io ⟨{ w with journal := j },tx',b'⟩) :
    wp (finish env undo) ⟨w,tx,b⟩ Q E := by
  have hscan := scan_resolved hrec.path hread hrec.count
  simp only [finish,wp_bind,wp_get,hj,wp_ofOption,hscan,wp_modify,if_true]
  apply wp_retire hj
  · intro b' hb
    exact hQ _ b' hb
  · intro hb j' b' hjj
    rw [← hj] at hjj
    exact hE hb j' _ b' hjj

/-- Recovery reaches the state it leads to, or is cut and still leads there. -/
theorem Pending.recover {s : Files} (h : Pending env s w) : wp (dmUndoRecover env) ⟨w,tx,b⟩
    (fun _ m' => m'.world = ⟨none,s⟩) (fun _ m' => b≠none ∧ Pending env s m'.world) := by
  cases h with
  | @unmarked rs tail h =>
    simp only [dmUndoRecover,wp_bind,wp_get,h.journal,Option.isNone_some,Bool.false_eq_true,if_false]
    apply wp_finish h
    · intro tx' b' _
      rfl
    · intro hb j s' tx' b' hj hc hcase
      apply And.intro hb
      obtain ⟨_,hs | hs⟩ | ⟨hf,_⟩ := hcase
      · exact hj.pending h.torn h.records hc hs
      · exact .unmarked ⟨h.records,hc,hs.trans h.journal,h.torn⟩
      · simp at hf
  | @marked rs hrec hread hfiles hj =>
    subst hfiles
    simp only [dmUndoRecover,wp_bind,wp_get,hj,Option.isNone_some,Bool.false_eq_true,if_false]
    apply wp_finish_marked hrec hread hj
    · intro tx' b' _
      rfl
    · intro hb j tx' b' hjj
      apply And.intro hb
      obtain hjj | hjj := hjj
      · exact .marked hrec ⟨hread.valid,hread.once,hread.own⟩ rfl (hjj.trans hj)
      · exact .gone hjj rfl
  | gone hj hfiles =>
    simp only [dmUndoRecover,wp_bind,wp_get,hj,Option.isNone_none,if_true,wp_pure]
    rw [← hj,← hfiles]

end UndoJournal
end Dataman

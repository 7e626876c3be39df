import Dataman.JournalScan

/-!
# Single effects of the undo journal

The rule for one effect, and what the loops of effects leave behind: a stream
appended to the journal, and a blob written back.
-/

variable {e : Effect} {k pos off : ℕ} {name j data f : Bytes} {cs : List Bytes} {c : BlobFile}

namespace Dataman
namespace UndoJournal
open ByteFiles FailState UndoLog

variable {Q : Unit → Machine → Prop} {E : Fault → Machine → Prop} {w : World} {tx : Tx}
  {b : Option (ℕ × ℕ)} {env : Env}

/-- An effect before the one that is cut. -/
theorem wp_emit_next {n : ℕ} :
    wp (emit e) ⟨w,tx,some (n+1,k)⟩ Q E ↔ Q () ⟨e.apply w,tx,some (n,k)⟩ := by
  have hrun : emit e ⟨w,tx,some (n+1,k)⟩ = (.ok (),⟨e.apply w,tx,some (n,k)⟩) := rfl
  exact wp_of_ok hrun

/-- The effect that is cut. -/
theorem wp_emit_stop :
    wp (emit e) ⟨w,tx,some (0,k)⟩ Q E ↔ E .io ⟨e.cut w k,tx,some (0,k)⟩ := by
  have hrun : emit e ⟨w,tx,some (0,k)⟩ = (.error .io,⟨e.cut w k,tx,some (0,k)⟩) := rfl
  exact wp_of_error hrun

/-- An effect takes place, or is cut short because the budget says so. -/
theorem wp_emit (hQ : ∀ b',(b = none → b' = none) → Q () ⟨e.apply w,tx,b'⟩)
    (hE : b≠none → ∀ n b',E .io ⟨e.cut w n,tx,b'⟩) : wp (emit e) ⟨w,tx,b⟩ Q E := by
  match b with
  | none =>
    have hrun : emit e ⟨w,tx,none⟩ = (.ok (),⟨e.apply w,tx,none⟩) := rfl
    exact (wp_of_ok hrun).2 (hQ none (fun _ => rfl))
  | some (0,k) => exact wp_emit_stop.2 (hE nofun k _)
  | some (n+1,k) => exact wp_emit_next.2 (hQ (some (n,k)) nofun)

/-! ## Worlds -/

namespace World

@[simp] theorem setBlob_setBlob (w : World) (name : Bytes) (v v' : Option BlobEntry) :
    (w.setBlob name v).setBlob name v' = w.setBlob name v' := by
  simp [setBlob,Store.setSlot]

@[simp] theorem slots_setBlob (w : World) (name : Bytes) (v : Option BlobEntry) :
    (w.setBlob name v).files.slots name = v := by
  simp [setBlob,Store.setSlot]

@[simp] theorem onBlob_setBlob (w : World) (name : Bytes) (c : BlobFile) (f : BlobFile → BlobFile) :
    (w.setBlob name (some (.own c))).onBlob name f = w.setBlob name (some (.own (f c))) := by
  simp [onBlob]

theorem setBlob_self {w : World} {v : Option BlobEntry} (h : w.files.slots name = v) :
    w.setBlob name v = w := by
  subst h
  simp [setBlob,Store.setSlot]

end World

/-! ## Appending to the journal -/

theorem writeAt_end (j data : Bytes) : writeAt j j.length data = j++data := by
  by_cases hd : data = []
  · simp [hd]
  · simp [writeAt,hd]

/-- A write at the end of the journal appends its bytes, or the first of them. -/
theorem wp_emit_append (hj : w.journal = some j) (hpos : pos = j.length)
    (hQ : ∀ b',(b = none → b' = none) → Q () ⟨{ w with journal := some (j++data) },tx,b'⟩)
    (hE : b≠none → ∀ bs b',bs <+: data → E .io ⟨{ w with journal := some (j++bs) },tx,b'⟩) :
    wp (emit (.journalWrite pos data)) ⟨w,tx,b⟩ Q E := by
  subst hpos
  apply wp_emit
  · intro b' hb
    simpa only [Effect.apply,hj,Option.map_some,writeAt_end] using hQ b' hb
  · intro hb n b'
    simpa only [Effect.cut,Effect.apply,hj,Option.map_some,writeAt_end] using
      hE hb _ b' (List.take_prefix n data)

theorem wp_appendChunks (hj : w.journal = some j) (hpos : pos = j.length)
    (hQ : ∀ b',(b = none → b' = none) → Q () ⟨{ w with journal := some (j++streamBytes cs) },tx,b'⟩)
    (hE : b≠none → ∀ bs b',bs <+: streamBytes cs → E .io ⟨{ w with journal := some (j++bs) },tx,b'⟩) :
    wp (appendChunks pos cs) ⟨w,tx,b⟩ Q E := by
  induction cs generalizing w j pos b with
  | nil =>
    apply (wp_pure ()).2
    simpa [streamBytes,← hj] using hQ b id
  | cons c cs ih =>
    have hs : streamBytes (c::cs) = chunkHeader c++(c++streamBytes cs) := by simp [streamBytes]
    have hl : (chunkHeader c).length = 8 := by simp [chunkHeader]
    rw [hs] at hQ hE
    simp only [appendChunks,wp_bind]
    apply wp_emit_append hj hpos
    · intro b1 hb1
      apply wp_emit_append rfl (by simp [hl,hpos])
      · intro b2 hb2
        apply ih rfl (by simp [hl,hpos,Nat.add_assoc])
        · intro b3 hb3
          simpa using hQ b3 (hb3 ∘ hb2 ∘ hb1)
        · intro hb bs b3 hbs
          have hpre : chunkHeader c++(c++bs) <+: chunkHeader c++(c++streamBytes cs) := by
            simpa [List.prefix_append_right_inj] using hbs
          simpa using hE (fun h0 => hb (hb2 (hb1 h0))) _ b3 hpre
      · intro hb bs b2 hbs
        have hpre : chunkHeader c++bs <+: chunkHeader c++(c++streamBytes cs) := by
          rw [List.prefix_append_right_inj]
          exact hbs.trans (List.prefix_append _ _)
        simpa using hE (fun h0 => hb (hb1 h0)) _ b2 hpre
    · intro hb bs b1 hbs
      exact hE hb bs b1 (hbs.trans (List.prefix_append _ _))

/-! ## Writing a blob back -/

theorem take_writeAt (h : off ≤ f.length) :
    (writeAt f off data).take (off+data.length) = f.take off++data := by
  by_cases hd : data = []
  · simp [hd]
  · have hz : off - f.length = 0 := by omega
    have hl : (f.take off++data).length = off+data.length := by
      rw [List.length_append,List.length_take]
      omega
    simp only [writeAt,hd,if_false,hz,List.replicate_zero,List.append_nil]
    rw [List.take_left' hl]

theorem wp_writeChunks (hoff : off ≤ c.bytes.length)
    (hQ : ∀ b' f,(b = none → b' = none) → f.take (off+cs.flatten.length) = c.bytes.take off++cs.flatten →
      Q () ⟨w.setBlob name (some (.own ⟨f,c.attr⟩)),tx,b'⟩)
    (hE : b≠none → ∀ c' b',E .io ⟨w.setBlob name (some (.own c')),tx,b'⟩) :
    wp (writeChunks name off cs) ⟨w.setBlob name (some (.own c)),tx,b⟩ Q E := by
  induction cs generalizing off c b with
  | nil =>
    apply (wp_pure ()).2
    exact hQ b c.bytes id (by simp)
  | cons d cs ih =>
    simp only [writeChunks,wp_bind]
    apply wp_emit
    · intro b1 hb1
      simp only [Effect.apply,World.onBlob_setBlob]
      have ht : (writeAt c.bytes off d).take (off+d.length) = c.bytes.take off++d := take_writeAt hoff
      have hlen : off+d.length ≤ (writeAt c.bytes off d).length := by
        have := congrArg List.length ht
        simp only [List.length_take,List.length_append] at this
        omega
      apply ih hlen
      · intro b2 f hb2 hf
        apply hQ b2 f (hb2 ∘ hb1)
        rw [ht] at hf
        simpa [Nat.add_assoc] using hf
      · intro hb c' b2
        exact hE (fun h0 => hb (hb1 h0)) c' b2
    · intro hb n b1
      simp only [Effect.cut,Effect.apply,World.onBlob_setBlob]
      exact hE hb _ b1

/-- `blob_current` on a name that holds nothing it turns down. -/
theorem wp_blobCurrent {Q : Option BlobFile → Machine → Prop} {old : Option BlobFile}
    (h : w.files.slots name = old.map .own) (hQ : Q old ⟨w,tx,b⟩) :
    wp (blobCurrent name) ⟨w,tx,b⟩ Q E := by
  simp only [blobCurrent,wp_bind,wp_get,h]
  cases old with
  | none => exact (wp_pure _).2 hQ
  | some c => exact (wp_pure _).2 hQ

/-- A name that holds nothing `blob_current` turns down. -/
theorem exists_own (h : w.files.slots name≠some .foreign) :
    ∃ old : Option BlobFile,w.files.slots name = old.map .own := by
  cases hs : w.files.slots name with
  | none => exact ⟨none,rfl⟩
  | some e =>
    cases e with
    | own c => exact ⟨some c,rfl⟩
    | foreign => exact absurd hs h

theorem wp_createMissing {bits : ℕ} (h : w.files.slots name≠some .foreign)
    (hQ : ∀ c b',(b = none → b' = none) → Q () ⟨w.setBlob name (some (.own c)),tx,b'⟩)
    (hE : b≠none → ∀ v b',v≠some .foreign → E .io ⟨w.setBlob name v,tx,b'⟩) :
    wp (createMissing env name bits) ⟨w,tx,b⟩ Q E := by
  obtain ⟨old,hold⟩ := exists_own h
  simp only [createMissing,wp_bind]
  apply wp_blobCurrent hold
  cases old with
  | none =>
    apply wp_emit
    · intro b1 hb1
      exact hQ _ b1 hb1
    · intro hb n b1
      by_cases hn : n = 0
      · have hw : w.setBlob name none = w := World.setBlob_self hold
        simpa [Effect.cut,hn,hw] using hE hb none b1 BlobEntry.none_ne_foreign
      · simpa [Effect.cut,Effect.apply,hn] using hE hb (some (.own ⟨[],env.created bits⟩)) b1 (BlobEntry.own_ne_foreign _)
  | some c =>
    apply (wp_pure ()).2
    have hw : w.setBlob name (some (.own c)) = w := World.setBlob_self hold
    simpa [hw] using hQ c b id

/-- The blob that a record remembers. -/
def BlobImage.file (old : BlobImage) : BlobFile := ⟨old.chunks.flatten,old.attr⟩

theorem truncateTo_of_take {g : Bytes} (h : f.take g.length = g) : truncateTo f g.length = g := by
  have hl := congrArg List.length h
  rw [List.length_take] at hl
  have hz : g.length - f.length = 0 := by omega
  simp [truncateTo,h,hz]

theorem wp_emit_onBlob {f : BlobFile → BlobFile}
    (happly : ∀ w : World,e.apply w = w.onBlob name f)
    (hcut : ∀ (w : World) n,e.cut w n = w ∨ e.cut w n = w.onBlob name f)
    (hQ : ∀ b',(b = none → b' = none) → Q () ⟨w.setBlob name (some (.own (f c))),tx,b'⟩)
    (hE : b≠none → ∀ c' b',E .io ⟨w.setBlob name (some (.own c')),tx,b'⟩) :
    wp (emit e) ⟨w.setBlob name (some (.own c)),tx,b⟩ Q E := by
  apply wp_emit
  · intro b' hb
    simpa [happly] using hQ b' hb
  · intro hb n b'
    obtain h | h := hcut (w.setBlob name (some (.own c))) n
    · rw [h]
      exact hE hb c b'
    · rw [h,World.onBlob_setBlob]
      exact hE hb _ b'

theorem cut_whole (w : World) (n : ℕ) (e : Effect) (h : e.cut w n = if n = 0 then w else e.apply w) :
    e.cut w n = w ∨ e.cut w n = e.apply w := by
  rw [h]
  by_cases hn : n = 0
  · simp [hn]
  · simp [hn]

theorem wp_chownChanged {attr : Meta}
    (hQ : ∀ a b',(b = none → b' = none) → a.uid = attr.uid → a.gid = attr.gid →
      Q () ⟨w.setBlob name (some (.own ⟨c.bytes,a⟩)),tx,b'⟩)
    (hE : b≠none → ∀ c' b',E .io ⟨w.setBlob name (some (.own c')),tx,b'⟩) :
    wp (chownChanged name attr) ⟨w.setBlob name (some (.own c)),tx,b⟩ Q E := by
  simp only [chownChanged,wp_bind]
  apply wp_blobCurrent (World.slots_setBlob w name _ : _ = (some c).map BlobEntry.own)
  by_cases hd : c.attr.uid≠attr.uid ∨ c.attr.gid≠attr.gid
  · simp only [hd,if_true]
    apply wp_emit_onBlob (fun _ => rfl) (fun _ n => cut_whole _ n _ rfl)
    · intro b' hb
      exact hQ _ b' hb rfl rfl
    · exact hE
  · have hu : c.attr.uid = attr.uid := by
      by_contra h
      exact hd (.inl h)
    have hg : c.attr.gid = attr.gid := by
      by_contra h
      exact hd (.inr h)
    simp only [hd,if_false]
    exact (wp_pure ()).2 (hQ c.attr b id hu hg)

/-- A blob is restored, or stops somewhere at a private blob or at none. -/
theorem wp_restoreBlob {old : Option BlobImage} (h : w.files.slots name≠some .foreign)
    (hsize : ∀ im,old = some im → im.size = im.chunks.flatten.length)
    (hQ : ∀ b',(b = none → b' = none) →
      Q () ⟨w.setBlob name (old.map fun im => .own im.file),tx,b'⟩)
    (hE : b≠none → ∀ v b',v≠some .foreign → E .io ⟨w.setBlob name v,tx,b'⟩) :
    wp (restoreBlob env name old) ⟨w,tx,b⟩ Q E := by
  cases old with
  | none =>
    simp only [restoreBlob,wp_bind,wp_get]
    by_cases hs : w.files.slots name = none
    · rw [if_pos hs]
      apply (wp_pure ()).2
      simpa [World.setBlob_self hs] using hQ b id
    · rw [if_neg hs]
      apply wp_emit
      · intro b' hb
        exact hQ b' hb
      · intro hb n b'
        by_cases hn : n = 0
        · simpa [Effect.cut,hn,World.setBlob_self] using hE hb (w.files.slots name) b' h
        · simpa [Effect.cut,hn,Effect.apply] using hE hb none b' BlobEntry.none_ne_foreign
  | some im =>
    simp only [restoreBlob,wp_bind]
    apply wp_createMissing h
    · intro c b1 hb1
      have hE1 : b1≠none → ∀ c' b',E .io ⟨w.setBlob name (some (.own c')),tx,b'⟩ := by
        intro hb c' b'
        exact hE (fun h0 => hb (hb1 h0)) _ b' (BlobEntry.own_ne_foreign _)
      apply wp_writeChunks (Nat.zero_le _) _ hE1
      intro b2 f hb2 hf
      have hE2 : b2≠none → ∀ c' b',E .io ⟨w.setBlob name (some (.own c')),tx,b'⟩ := by
        intro hb
        exact hE1 (fun h0 => hb (hb2 h0))
      have hcut : truncateTo f im.size = im.chunks.flatten := by
        rw [hsize im rfl]
        apply truncateTo_of_take
        simpa using hf
      apply wp_emit_onBlob (fun _ => rfl) (fun _ n => cut_whole _ n _ rfl) _ hE2
      intro b3 hb3
      have hE3 : b3≠none → ∀ c' b',E .io ⟨w.setBlob name (some (.own c')),tx,b'⟩ := by
        intro hb
        exact hE2 (fun h0 => hb (hb3 h0))
      apply wp_chownChanged _ hE3
      intro a b4 hb4 hu hg
      have hE4 : b4≠none → ∀ c' b',E .io ⟨w.setBlob name (some (.own c')),tx,b'⟩ := by
        intro hb
        exact hE3 (fun h0 => hb (hb4 h0))
      apply wp_emit_onBlob (fun _ => rfl) (fun _ n => cut_whole _ n _ rfl) _ hE4
      intro b5 hb5
      have hmeta : ({ a with mode := im.attr.mode,mode_le := im.attr.mode_le } : Meta) = im.attr := by
        cases a
        cases hattr : im.attr
        simp_all
      simpa [hcut,hmeta,BlobImage.file] using hQ b5 (hb5 ∘ hb4 ∘ hb3 ∘ hb2 ∘ hb1)
    · exact hE

end UndoJournal
end Dataman

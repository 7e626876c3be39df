import Dataman.BlobRoundTrip
import Dataman.Rebuild

/-!
# What a failed rebuild leaves

After a failure the old blobs get their names back, but the copies stay. Only a failure before the
first copy leaves the blobs as they were.
-/

namespace Dataman.Rebuild
open ByteFiles Directories FixedWidthFields FieldText FailState Blobs
open DataFile (getLl headerLength)

/-! ## Names -/

variable {file : Text} {kind kind' : Kind} {slot slot' : Slot}

theorem printed_injective : Function.Injective printed := by
  have hminus : ∀ n,minus∉decimal n := fun n h => absurd (decimal_digit h) (by decide)
  intro a b h
  cases a with
  | ofNat n =>
    cases b with
    | ofNat m => exact congrArg Int.ofNat (decimal_injective h)
    | negSucc m =>
      have hmem : minus∈printed (.negSucc m) := List.mem_cons_self
      rw [← h] at hmem
      exact absurd hmem (hminus n)
  | negSucc n =>
    cases b with
    | ofNat m =>
      have hmem : minus∈printed (.negSucc n) := List.mem_cons_self
      rw [h] at hmem
      exact absurd hmem (hminus m)
    | negSucc m =>
      have hsucc := decimal_injective (List.cons.inj h).2
      rw [Nat.succ.inj hsucc]

theorem dot_notMem_printed (n : ℤ) : dot∉printed n := by
  cases n with
  | ofNat n => exact dot_notMem_decimal n
  | negSucc n =>
    intro h
    rcases List.mem_cons.1 h with h | h
    · exact absurd h (by decide)
    · exact dot_notMem_decimal _ h

theorem dot_notMem_ending (n : ℕ) (kind : Kind) : dot∉decimal n++kind.ending := by
  intro h
  rcases List.mem_append.1 h with h | h
  · exact dot_notMem_decimal n h
  · cases kind with
    | blob => cases h
    | tmp => exact absurd h (by decide)
    | new => exact absurd h (by decide)

theorem filter_ending (n : ℕ) (kind : Kind) : (decimal n++kind.ending).filter (fun b => !isDigit b) = kind.ending := by
  have hdigits : (decimal n).filter (fun b => !isDigit b) = [] := by
    refine List.filter_eq_nil_iff.2 fun b hb => ?_
    simp [decimal_digit hb]
  rw [List.filter_append,hdigits]
  cases kind with
  | blob => rfl
  | tmp => decide
  | new => decide

/-- A number and an ending can be told apart. -/
theorem ending_inj {n m : ℕ} (h : decimal n++kind.ending = decimal m++kind'.ending) : kind = kind' ∧ n = m := by
  have hend : kind.ending = kind'.ending := by rw [← filter_ending n,h,filter_ending]
  refine ⟨?_,decimal_injective (List.append_cancel_right (hend ▸ h))⟩
  cases kind <;> cases kind' <;> first | rfl | exact absurd hend (by decide)

theorem nameOf_eq (file : Text) (kind : Kind) (s : Slot) :
    nameOf file kind s =
      ((file++dot::decimal s.fmt)++dot::printed s.recno)++dot::(decimal s.fno++kind.ending) := by
  simp [nameOf]

/-- Every slot has its own name, with each of the endings. -/
theorem nameOf_inj (h : nameOf file kind slot = nameOf file kind' slot') : kind = kind' ∧ slot = slot' := by
  rw [nameOf_eq,nameOf_eq] at h
  obtain ⟨h,hfno⟩ := last_dot_inj h (dot_notMem_ending _ _) (dot_notMem_ending _ _)
  obtain ⟨h,hrecno⟩ := last_dot_inj h (dot_notMem_printed _) (dot_notMem_printed _)
  obtain ⟨-,hfmt⟩ := last_dot_inj h (dot_notMem_decimal _) (dot_notMem_decimal _)
  obtain ⟨hkind,hfno⟩ := ending_inj hfno
  cases slot
  cases slot'
  simp only [Slot.mk.injEq]
  exact ⟨hkind,decimal_injective hfmt,printed_injective hrecno,hfno⟩

theorem nameOf_ne_of_kind (h : kind≠kind') : nameOf file kind slot≠nameOf file kind' slot' := fun heq => h (nameOf_inj heq).1

theorem nameOf_ne_of_slot (h : slot≠slot') : nameOf file kind slot≠nameOf file kind' slot' := fun heq => h (nameOf_inj heq).2

/-! ## Copies -/

variable {calls : CopyCalls} {source dest n : Text} {dir dir' : Dir Text Bytes}

/-- A copy is made where nothing was, or what was there is left or removed. -/
theorem copyFile_cases (calls : CopyCalls) (source dest : Text) (dir : Dir Text Bytes) :
    (∃ data,data≠[] ∧ dir source = some data ∧ dir dest = none ∧ copyFile calls source dest dir = (true,put dir dest data)) ∨
    copyFile calls source dest dir = (false,dir) ∨ copyFile calls source dest dir = (false,remove dir dest) := by
  rw [copyFile]
  cases hdata : dir source with
  | none => exact .inr (.inr rfl)
  | some data =>
    dsimp only
    split
    · exact .inr (.inr rfl)
    split
    · exact .inr (.inl rfl)
    rename_i hdest
    split
    · exact .inr (.inr rfl)
    · rename_i hgood
      simp only [Bool.or_eq_true,decide_eq_true_eq,not_or] at hgood
      refine .inl ⟨data,?_,rfl,not_not.1 hdest,rfl⟩
      exact fun h => hgood.1.1.2 (by rw [h]; rfl)

/-! ## Progress -/

/-- Nothing is done yet. -/
structure Untouched (dir : Dir Text Bytes) (s : State) : Prop where
  maps : s.maps = []
  blobs : s.blobs = dir

/-- The copy of the first blob stands under a name that was free, and comes before this field of the record at `curr`. -/
structure CopyLeft (file : Text) (dir : Dir Text Bytes) (s : State) (curr : ℤ) (fno : ℕ) (m : Mapping) (rest : List Mapping) (k : ℕ) :
    Prop where
  maps : s.maps = m::rest
  free : dir (nameOf file .new ⟨k,m.new,m.fno⟩) = none
  left : s.blobs (nameOf file .new ⟨k,m.new,m.fno⟩)≠none
  before : m.new < curr ∨ m.new = curr ∧ m.fno < fno

def Tracked (file : Text) (dir : Dir Text Bytes) (s : State) (curr : ℤ) (fno : ℕ) : Prop :=
  Untouched dir s ∨ ∃ m rest k,CopyLeft file dir s curr fno m rest k

variable {src : Source} {s : State} {curr seekpt : ℤ} {fno fmt : ℕ} {copy : ℕ → CopyCalls}

/-- The state apart from the files that are read and written. -/
theorem Tracked.congr {s' : State} (h : Tracked file dir s curr fno) (hmaps : s'.maps = s.maps) (hblobs : s'.blobs = s.blobs) :
    Tracked file dir s' curr fno := by
  rcases h with h | ⟨m,rest,k,h⟩
  · exact .inl ⟨hmaps.trans h.maps,hblobs.trans h.blobs⟩
  · exact .inr ⟨m,rest,k,hmaps.trans h.maps,h.free,hblobs ▸ h.left,h.before⟩

/-- A copy was made under a free name, and the old blob has `$tmp` behind its name. -/
theorem Tracked.copied (h : Tracked file dir s curr fno) {data : Bytes} (hfree : s.blobs (nameOf file .new ⟨fmt,curr,fno⟩) = none)
    (seekpt : ℤ) :
    Tracked file dir { s with
      maps := s.maps++[⟨seekpt,curr,fno⟩]
      blobs := rename (put s.blobs (nameOf file .new ⟨fmt,curr,fno⟩) data) (nameOf file .blob ⟨fmt,seekpt,fno⟩)
        (nameOf file .tmp ⟨fmt,seekpt,fno⟩) } curr (fno+1) := by
  right
  rcases h with h | ⟨m,rest,k,h⟩
  · refine ⟨⟨seekpt,curr,fno⟩,[],fmt,by simp [h.maps],by rw [← h.blobs]; exact hfree,?_,.inr ⟨rfl,by simp⟩⟩
    dsimp only
    rw [rename_of_ne (nameOf_ne_of_kind (by decide)) (nameOf_ne_of_kind (by decide)),put_self]
    simp
  · have hb := h.before
    refine ⟨m,rest++[⟨seekpt,curr,fno⟩],k,by simp [h.maps],h.free,?_,by omega⟩
    dsimp only
    rw [rename_of_ne (nameOf_ne_of_kind (by decide)) (nameOf_ne_of_kind (by decide)),put]
    by_cases hn : nameOf file .new ⟨k,m.new,m.fno⟩ = nameOf file .new ⟨fmt,curr,fno⟩
    · simp [hn]
    · rw [Function.update_of_ne hn]
      exact h.left

theorem wp_readNext {ok : Bool} {n : ℕ} {e : Failure} {Q : Bytes → State → Prop} {E : Stop → State → Prop}
    (hQ : ∀ bytes,readAt src.bytes s.pos n = some bytes → Q bytes { s with pos := s.pos+n })
    (hE : (ok = true → readAt src.bytes s.pos n = none) → E (.fail e) s) : wp (readNext src ok n e) s Q E := by
  simp only [readNext,wp_bind,wp_get,wp_ofOption]
  split
  · rename_i bytes hbytes
    simp only [wp_modify,wp_pure]
    exact hQ bytes (Option.ite_none_right_eq_some.1 hbytes).2
  · rename_i hnone
    refine hE fun hok => ?_
    rwa [if_pos hok] at hnone

/-- What every turn keeps is true when the loop ends. -/
theorem wp_loop {I : Place → State → Prop} {E : Stop → State → Prop} {turns : ℕ → Turn} (hrunning : ∀ s,E .running s)
    (hturn : ∀ i p s,p.seekpt≠0 → I p s → wp (turn src (turns i) p) s I E) (fuel i : ℕ) {p : Place} (h : I p s) :
    wp (loop src turns fuel i p) s (fun _ s' => ∃ p',p'.seekpt = 0 ∧ I p' s') E := by
  induction fuel generalizing s i p with
  | zero =>
    rw [loop,wp_ite]
    split
    · exact (wp_pure _).2 ⟨p,‹_›,h⟩
    · exact (wp_fail _).2 (hrunning s)
  | succ fuel ih =>
    rw [loop,wp_ite]
    split
    · exact (wp_pure _).2 ⟨p,‹_›,h⟩
    · rw [wp_bind]
      exact wp_mono (hturn i p s ‹_› h) (fun p' s' h' => ih _ h') fun _ _ => id

/-- The word that `rebuild` starts from. -/
def Source.second (src : Source) : ℤ := getLl (slice src.bytes (src.hlen+10) 8)

/-- Nothing happens to the blobs before the loop. -/
theorem wp_copyRecords_any {Q : Unit → State → Prop} {E : Stop → State → Prop} (calls : Calls) (fuel uninit : ℕ)
    (hE : ∀ e out pos,e≠.backUpBlob → E (.fail e) ⟨out,pos,dir,[],uninit⟩)
    (hloop : ∀ out pos,wp (loop src calls.turn fuel 0 ⟨0,src.start,src.second⟩) ⟨out,pos,dir,[],uninit⟩ Q E) :
    wp (copyRecords src calls fuel) ⟨[],0,dir,[],uninit⟩ Q E := by
  have hensure : ∀ b e out pos (Q : Unit → State → Prop),e≠.backUpBlob → Q () ⟨out,pos,dir,[],uninit⟩ →
      wp (ensure b (.fail e)) ⟨out,pos,dir,[],uninit⟩ Q E := by
    intro b e out pos Q he hQ
    rw [wp_ensure]
    split
    · exact hQ
    · exact hE e out pos he
  have hread : ∀ ok e out pos (Q : Bytes → State → Prop),e≠.backUpBlob →
      Q (slice src.bytes pos 8) ⟨out,pos+8,dir,[],uninit⟩ → wp (readNext src ok 8 e) ⟨out,pos,dir,[],uninit⟩ Q E := by
    intro ok e out pos Q he hQ
    refine wp_readNext (fun bytes hbytes => ?_) fun _ => hE e out pos he
    rwa [← (readAt_eq_some.1 hbytes).2]
  have hpos : ((src.hlen : ℤ)+2).toNat+8 = src.hlen+10 := by omega
  rw [copyRecords,wp_bind]
  refine hensure _ _ _ _ _ (by decide) ?_
  rw [wp_bind,writeOut,wp_modify,wp_bind]
  refine hensure _ _ _ _ _ (by decide) ?_
  rw [wp_bind,writeOut,wp_modify,wp_bind]
  refine hensure _ _ _ _ _ (by decide) ?_
  rw [wp_bind,writeOut,wp_modify,wp_bind,seek,wp_modify,if_pos (by omega),wp_bind]
  refine hread _ _ _ _ _ (by decide) ?_
  rw [wp_bind]
  refine hread _ _ _ _ _ (by decide) ?_
  rw [hpos]
  exact hloop _ _

/-- The state in which the records are copied, or not. -/
def copied (src : Source) (calls : Calls) (fuel uninit : ℕ) (dir : Dir Text Bytes) : State :=
  (copyRecords src calls fuel ⟨[],0,dir,[],uninit⟩).2

theorem one_le_formats : 1 ≤ 63 := by decide

/-- A file with a deleted record at 26 and a live one at 43, whose format is one blob. -/
def movedSource : Source where
  filename := [65]
  hlen := 8
  desc := [0,1,0,1,0,0,0,0]
  formats := [oneBlob]
  formats_le := one_le_formats
  bytes := [0,8,0,1,0,1,0,0,0,0]++putBE 8 43++putBE 8 43++(129::putBE 8 0++putBE 8 43) ++
    (1::putBE 8 0++putBE 8 0)

def goodTurn : Turn := ⟨true,fun _ => ⟨true,true,true,true⟩,true,true⟩

def goodCalls : Calls := ⟨.all,.all,.all,true,true,fun _ => goodTurn⟩

def movedBlobs : Dir Text Bytes := put (fun _ => none) (nameOf [65] .blob ⟨1,43,0⟩) [5]

/-- The header of the record cannot be read. -/
def unreadable : Calls := { goodCalls with turn := fun _ => { goodTurn with header := false } }

end Dataman.Rebuild

import Dataman.FlushCommands

/-!
# The stores of `read_command_prefix`

The beginning of a command is read byte by byte into a buffer of `MAXSIZ` bytes. Each byte is stored behind a
test of the length, but the zero behind the sixth field is stored without one.
-/

namespace Dataman.PrefixReader
open FieldText FlushCommands

/-- What is returned, what is still in the socket, and where something was stored in the buffer. -/
structure Outcome where
  input : Input
  rest : List UInt8
  stores : List ℕ
deriving DecidableEq,Repr

/-- `shared_payload_header` takes the separator behind the number away and puts it back. -/
def headerStores (buf : List UInt8) : List ℕ :=
  match cut bar 5 buf with
  | none => []
  | some (head,field) =>
    match cut bar 1 field with
    | none => []
    | some (number,after) =>
      if number.dropLast = [] ∨ after≠[] then []
      else [head.length+number.dropLast.length,head.length+number.dropLast.length]

/-- What follows the loop. -/
def finish (n : ℕ) (buf rest : List UInt8) (stores : List ℕ) : Outcome :=
  ⟨(sharedPayloadHeader buf n).elim .invalid (.stream buf),rest,stores++buf.length::headerStores buf⟩

/-- The loop for a frame of `n` bytes. Behind the first separator the number is read as a string. -/
def readLoop (n : ℕ) (rest : List UInt8) (fields : ℕ) (buf : List UInt8) (stores : List ℕ) : Outcome :=
  if fields = 6 then finish n buf rest stores
  else if buf.length = n ∧ buf = [50,52] then ⟨.plain discon buf,rest,stores⟩
  else if maxsiz ≤ buf.length ∨ n ≤ buf.length then ⟨.invalid,rest,stores⟩
  else
    match rest with
    | [] => ⟨.invalid,[],stores⟩
    | ch::rest =>
      if ch≠bar then readLoop n rest fields (buf++[ch]) (stores++[buf.length])
      else if fields≠0 then readLoop n rest (fields+1) (buf++[ch]) (stores++[buf.length])
      else if atoi buf≠flush then ⟨.plain (atoi buf) (buf++[ch]),rest,stores++List.replicate 3 buf.length⟩
      else readLoop n rest 1 (buf++[ch]) (stores++List.replicate 3 buf.length)

/-- From a stream that may go on behind the frame, or end before. -/
def readCommandPrefix (n : ℕ) (stream : List UInt8) : Outcome := readLoop n stream 0 [] []

variable {n fields : ℕ} {stream buf rest : List UInt8} {stores : List ℕ}

theorem take_next {ch : UInt8} (hn : ¬ n ≤ buf.length) :
    (ch::rest).take (n - buf.length) = ch::rest.take (n - (buf++[ch]).length) := by
  obtain ⟨k,hk⟩ : ∃ k,n - buf.length = k+1 := ⟨n - buf.length - 1,by omega⟩
  rw [hk,List.take_succ_cons,List.length_append,List.length_singleton]
  congr 2
  omega

/-! ## What is read -/

/-- Six fields of a FLUSH command that take all of the buffer. -/
def Full (n : ℕ) (stream : List UInt8) : Prop :=
  ∃ head payload,cut bar 6 (stream.take n) = some (head,payload) ∧ head.length = maxsiz ∧ atoi head = flush

/-- What is taken for the command is what was taken from the stream: the first six fields of a FLUSH command, the first
field of another one, or a DISCON without a separator. -/
def Answered (n : ℕ) (frame taken : List UInt8) : Input → Prop
  | .invalid => True
  | .plain cmd command => command = taken ∧ ((∃ more,cut bar 1 frame = some (taken,more)) ∧ cmd = atoi taken ∧ cmd≠flush ∨
      n = 2 ∧ taken = [50,52] ∧ cmd = discon)
  | .stream command len => command = taken ∧ (∃ payload,cut bar 6 frame = some (taken,payload)) ∧ atoi taken = flush ∧
      (len : ℤ) = n - taken.length

/-- Nothing is stored outside of the buffer, and exactly the beginning of the command is taken. -/
structure Exact (n : ℕ) (stream : List UInt8) (o : Outcome) : Prop where
  stores : ∀ i∈o.stores,i < maxsiz
  taken : ∃ taken,taken++o.rest = stream ∧ taken.length ≤ n ∧ Answered n (stream.take n) taken o.input

/-- A turn of the loop begins. -/
structure Reading (n : ℕ) (stream : List UInt8) (fields : ℕ) (buf rest : List UInt8) (stores : List ℕ) : Prop where
  split : buf++rest = stream
  length_le : buf.length ≤ n
  room : buf.length ≤ maxsiz
  stores : ∀ i∈stores,i < maxsiz
  ended : ∃ head tail,buf = head++tail ∧ (∀ b∈tail,b≠bar) ∧ (fields = 6 → tail = []) ∧ cut bar fields head = some (head,[])
  first : fields≠0 → ∃ x y,buf = x++bar::y ∧ atoi x = flush

section Reading

theorem Reading.cut_frame {k : ℕ} {taken : List UInt8} (hcut : cut bar k taken = some (taken,[])) (hsplit : taken++rest = stream)
    (hle : taken.length ≤ n) : ∃ more,cut bar k (stream.take n) = some (taken,more) := by
  refine ⟨rest.take (n - taken.length),?_⟩
  rw [← hsplit,List.take_append,List.take_of_length_le hle]
  exact cut_replace hcut

theorem Reading.cut_next (h : Reading n stream fields buf rest stores) : cut bar (fields+1) (buf++[bar]) = some (buf++[bar],[]) := by
  obtain ⟨head,tail,rfl,htail,-,hcut⟩ := h.ended
  have hone : cut bar 1 (tail++[bar]) = some (tail++[bar],[]) := cut_one htail
  have hadd := cut_add (cut_replace hcut) hone
  rwa [← List.append_assoc] at hadd

theorem Reading.mem_stores (h : Reading n stream fields buf rest stores) (hroom : buf.length < maxsiz) {k : ℕ} :
    ∀ i∈stores++List.replicate k buf.length,i < maxsiz := by
  intro i hi
  rcases List.mem_append.1 hi with hi | hi
  · exact h.stores i hi
  · rw [List.eq_of_mem_replicate hi]
    exact hroom

/-- A byte that ends no field. -/
theorem Reading.byte {ch : UInt8} (h : Reading n stream fields buf (ch::rest) stores) (hfields : fields≠6) (hn : buf.length < n)
    (hroom : buf.length < maxsiz) (hch : ch≠bar) : Reading n stream fields (buf++[ch]) rest (stores++[buf.length]) := by
  have hlen : (buf++[ch]).length = buf.length+1 := List.length_append
  refine ⟨?_,by omega,by omega,h.mem_stores (k := 1) hroom,?_,?_⟩
  · rw [List.append_assoc]
    exact h.split
  · obtain ⟨head,tail,rfl,htail,-,hcut⟩ := h.ended
    refine ⟨head,tail++[ch],List.append_assoc _ _ _,?_,fun hsix => absurd hsix hfields,hcut⟩
    intro b hb
    rcases List.mem_append.1 hb with hb | hb
    · exact htail b hb
    · rwa [List.mem_singleton.1 hb]
  · intro hne
    obtain ⟨x,y,rfl,hx⟩ := h.first hne
    exact ⟨x,y++[ch],by rw [List.append_assoc,List.cons_append],hx⟩

/-- A byte that ends a field. -/
theorem Reading.separator (h : Reading n stream fields buf (bar::rest) stores) (hn : buf.length < n) (hroom : buf.length < maxsiz)
    (hflush : fields = 0 → atoi buf = flush) (k : ℕ) :
    Reading n stream (fields+1) (buf++[bar]) rest (stores++List.replicate k buf.length) := by
  have hlen : (buf++[bar]).length = buf.length+1 := List.length_append
  refine ⟨?_,by omega,by omega,h.mem_stores hroom,?_,?_⟩
  · rw [List.append_assoc]
    exact h.split
  · exact ⟨buf++[bar],[],(List.append_nil _).symm,by simp,fun _ => rfl,h.cut_next⟩
  · intro _
    by_cases hzero : fields = 0
    · exact ⟨buf,[],rfl,hflush hzero⟩
    · obtain ⟨x,y,rfl,hx⟩ := h.first hzero
      exact ⟨x,y++[bar],by rw [List.append_assoc,List.cons_append],hx⟩

theorem headerStores_lt {i : ℕ} (h : i∈headerStores buf) : i < buf.length := by
  rw [headerStores] at h
  split at h
  · cases h
  · rename_i head field hhead
    split at h
    · cases h
    · rename_i number after hnumber
      split at h
      · cases h
      · have hlen := congrArg List.length (cut_append hhead)
        have hlen' := congrArg List.length (cut_append hnumber)
        obtain ⟨body,rfl⟩ := cut_last hnumber
        rw [List.length_append] at hlen hlen'
        rw [List.dropLast_concat] at h
        rw [List.length_append,List.length_singleton] at hlen'
        simp only [List.mem_cons,List.not_mem_nil,or_false,or_self] at h
        omega

theorem sharedPayloadHeader_length {len : ℕ} (h : sharedPayloadHeader buf n = some len) : (len : ℤ) = n - buf.length := by
  rw [sharedPayloadHeader] at h
  split at h
  · cases h
  · split at h
    · cases h
    · dsimp only at h
      split at h
      · cases h
      · rename_i hgood
        simp only [not_or,not_lt] at hgood
        split at h
        · rename_i heq
          rw [← Option.some.inj h,Int.toNat_of_nonneg hgood.2.2.2.1,heq]
        · cases h

/-- The zero behind the sixth field is inside of the buffer unless the fields take all of it. -/
theorem finish_exact (h : Reading n stream 6 buf rest stores) :
    (∃ taken,taken++rest = stream ∧ taken.length ≤ n ∧ Answered n (stream.take n) taken (finish n buf rest stores).input) ∧
      ((∀ i∈(finish n buf rest stores).stores,i < maxsiz) ∨ Full n stream) := by
  obtain ⟨head,tail,rfl,-,htail,hcut⟩ := h.ended
  obtain rfl := htail rfl
  rw [List.append_nil] at h ⊢
  obtain ⟨more,hframe⟩ := Reading.cut_frame hcut h.split h.length_le
  obtain ⟨x,y,hxy,hx⟩ := h.first (by decide)
  have hflush : atoi head = flush := by rw [hxy,atoi_append ends_bar,hx]
  refine ⟨⟨head,h.split,h.length_le,?_⟩,?_⟩
  · rw [finish]
    cases hheader : sharedPayloadHeader head n with
    | none => trivial
    | some len => exact ⟨rfl,⟨more,hframe⟩,hflush,sharedPayloadHeader_length hheader⟩
  · by_cases hfull : head.length = maxsiz
    · exact .inr ⟨head,more,hframe,hfull,hflush⟩
    · left
      have hroom := h.room
      intro i hi
      rcases List.mem_append.1 hi with hi | hi
      · exact h.stores i hi
      · rcases List.mem_cons.1 hi with rfl | hi
        · omega
        · have := headerStores_lt hi
          omega

/-- The loop is left before another byte is read. -/
theorem Reading.stop (h : Reading n stream fields buf rest stores) {input : Input} (ha : Answered n (stream.take n) buf input) :
    (∃ taken,taken++rest = stream ∧ taken.length ≤ n ∧ Answered n (stream.take n) taken input) ∧
      ((∀ i∈stores,i < maxsiz) ∨ Full n stream) := ⟨⟨buf,h.split,h.length_le,ha⟩,.inl h.stores⟩

theorem Reading.answered_discon (h : buf.length = n ∧ buf = [50,52]) : Answered n (stream.take n) buf (.plain discon buf) := by
  obtain ⟨rfl,rfl⟩ := h
  exact ⟨rfl,.inr ⟨rfl,rfl,rfl⟩⟩

theorem Reading.answered_plain (h : Reading n stream 0 buf (bar::rest) stores) (hn : buf.length < n) (hroom : buf.length < maxsiz)
    (hcmd : atoi buf≠flush) :
    (∃ taken,taken++rest = stream ∧ taken.length ≤ n ∧ Answered n (stream.take n) taken (.plain (atoi buf) (buf++[bar]))) ∧
      ((∀ i∈stores++List.replicate 3 buf.length,i < maxsiz) ∨ Full n stream) := by
  have hsplit : (buf++[bar])++rest = stream := by
    rw [List.append_assoc]
    exact h.split
  have hle : (buf++[bar]).length ≤ n := by
    rw [List.length_append,List.length_singleton]
    omega
  refine ⟨⟨buf++[bar],hsplit,hle,rfl,.inl ⟨Reading.cut_frame h.cut_next hsplit hle,?_,hcmd⟩⟩,.inl (h.mem_stores hroom)⟩
  rw [atoi_append ends_bar]

/-- All turns together. -/
theorem readLoop_exact (h : Reading n stream fields buf rest stores) :
    (∃ taken,taken++(readLoop n rest fields buf stores).rest = stream ∧ taken.length ≤ n ∧
      Answered n (stream.take n) taken (readLoop n rest fields buf stores).input) ∧
      ((∀ i∈(readLoop n rest fields buf stores).stores,i < maxsiz) ∨ Full n stream) := by
  induction rest generalizing fields buf stores with
  | nil =>
    rw [readLoop]
    split
    · rename_i hsix
      subst hsix
      exact finish_exact h
    · split
      · rename_i hdiscon
        exact h.stop (Reading.answered_discon hdiscon)
      · split
        · exact h.stop trivial
        · exact h.stop trivial
  | cons ch rest ih =>
    rw [readLoop]
    split
    · rename_i hsix
      subst hsix
      exact finish_exact h
    · rename_i hsix
      split
      · rename_i hdiscon
        exact h.stop (Reading.answered_discon hdiscon)
      · split
        · exact h.stop trivial
        · rename_i hroom
          rw [not_or,not_le,not_le] at hroom
          split
          · rename_i hch
            exact ih (h.byte hsix hroom.2 hroom.1 hch)
          · rename_i hch
            obtain rfl : ch = bar := not_not.1 hch
            split
            · rename_i hzero
              exact ih (h.separator hroom.2 hroom.1 (fun heq => absurd heq hzero) 1)
            · rename_i hzero
              obtain rfl : fields = 0 := not_not.1 hzero
              split
              · rename_i hcmd
                exact h.answered_plain hroom.2 hroom.1 hcmd
              · rename_i hcmd
                exact ih (h.separator hroom.2 hroom.1 (fun _ => not_not.1 hcmd) 3)

end Reading

theorem readLoop_end {head payload : List UInt8} (hcut : cut bar (6 - 6) (rest.take (n - buf.length)) = some (head,payload))
    (hlen : (buf++head).length = maxsiz) : maxsiz∈(readLoop n rest 6 buf stores).stores := by
  rw [Nat.sub_self,cut_zero] at hcut
  obtain ⟨rfl,-⟩ := Prod.mk.inj (Option.some.inj hcut)
  rw [List.append_nil] at hlen
  rw [readLoop.eq_def,if_pos rfl,finish,hlen]
  exact List.mem_append_right _ List.mem_cons_self

/-- Six fields that take all of the buffer are read to their end. -/
theorem readLoop_full {head payload : List UInt8} (hfields : fields ≤ 6)
    (hcut : cut bar (6 - fields) (rest.take (n - buf.length)) = some (head,payload)) (hlen : (buf++head).length = maxsiz)
    (hflush : atoi (buf++head) = flush) : maxsiz∈(readLoop n rest fields buf stores).stores := by
  induction rest generalizing fields buf stores head with
  | nil =>
    rcases Nat.lt_or_eq_of_le hfields with hlt | rfl
    · obtain ⟨k,hk⟩ : ∃ k,6 - fields = k+1 := ⟨5 - fields,by omega⟩
      rw [hk,List.take_nil,cut] at hcut
      cases hcut
    · exact readLoop_end hcut hlen
  | cons ch rest ih =>
    rcases Nat.lt_or_eq_of_le hfields with hlt | rfl
    · obtain ⟨k,hk⟩ : ∃ k,6 - fields = k+1 := ⟨5 - fields,by omega⟩
      by_cases hn : n ≤ buf.length
      · rw [hk,Nat.sub_eq_zero_of_le hn,List.take_zero,cut] at hcut
        cases hcut
      · rw [hk,take_next hn] at hcut
        obtain ⟨more,rfl,hmore⟩ := cut_cons hcut
        have hassoc : (buf++[ch])++more = buf++ch::more := by rw [List.append_assoc,List.singleton_append]
        rw [← hassoc] at hlen
        have hroom : buf.length < maxsiz := by
          rw [List.length_append,List.length_append,List.length_singleton] at hlen
          omega
        rw [readLoop,if_neg (by omega),if_neg (by omega),if_neg (by omega)]
        by_cases hch : ch = bar
        · rw [if_pos hch] at hmore
          have hnext : cut bar (6 - (fields+1)) (rest.take (n - (buf++[ch]).length)) = some (more,payload) := by
            rwa [show 6 - (fields+1) = k by omega]
          rw [if_neg (not_not.2 hch)]
          split
          · exact ih (by omega) hnext hlen (hassoc ▸ hflush)
          · rename_i hzero
            obtain rfl : fields = 0 := not_not.1 hzero
            have hfirst : atoi buf = flush := by
              rw [hch,atoi_append ends_bar] at hflush
              exact hflush
            rw [if_neg (not_not.2 hfirst)]
            exact ih (by omega) hnext hlen (hassoc ▸ hflush)
        · rw [if_neg hch,← hk] at hmore
          rw [if_pos hch]
          exact ih hfields hmore hlen (hassoc ▸ hflush)
    · exact readLoop_end hcut hlen

theorem reading_start (n : ℕ) (stream : List UInt8) : Reading n stream 0 [] stream [] :=
  ⟨rfl,Nat.zero_le _,Nat.zero_le _,by simp,⟨[],[],rfl,by simp,fun _ => rfl,rfl⟩,fun h => absurd rfl h⟩

/-- The beginning of a command is read as it should be exactly if it is not that of a FLUSH command whose six fields take all of the
buffer. -/
theorem command_prefix_exact_iff (n : ℕ) (stream : List UInt8) : Exact n stream (readCommandPrefix n stream) ↔ ¬ Full n stream := by
  constructor
  · intro hexact hfull
    obtain ⟨head,payload,hcut,hlen,hflush⟩ := hfull
    have hmem := @readLoop_full n 0 [] stream [] head payload (by decide) hcut hlen hflush
    exact absurd (hexact.stores maxsiz hmem) (lt_irrefl _)
  · intro hfull
    obtain ⟨htaken,hstores⟩ := readLoop_exact (reading_start n stream)
    exact ⟨hstores.resolve_right hfull,htaken⟩

/-- The fields `23|0|0|32|1|` and a length with zeros in front, 256 bytes together, and the payload `abc`. -/
def fullPrefix : List UInt8 :=
  [50,51,124,48,124,48,124,51,50,124,49,124]++List.replicate 242 48++[51,124,97,98,99]

/-- The command is taken, and a zero is stored behind the buffer. -/
theorem full_prefix_overflows : fullPrefix.length = 259 ∧
    (readCommandPrefix 259 fullPrefix).input = .stream (fullPrefix.take 256) 3 ∧ 256∈(readCommandPrefix 259 fullPrefix).stores ∧
      ¬ Exact 259 fullPrefix (readCommandPrefix 259 fullPrefix) := by
  have hstore : 256∈(readCommandPrefix 259 fullPrefix).stores := by decide +kernel
  refine ⟨by decide +kernel,by decide +kernel,hstore,?_⟩
  intro hexact
  exact absurd (hexact.stores 256 hstore) (lt_irrefl _)

end Dataman.PrefixReader

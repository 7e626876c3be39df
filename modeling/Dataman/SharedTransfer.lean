import Mathlib.Data.List.Basic

/-!
# Transfers through the shared memory segment

The loops that move a payload through the segment of a connection, one chunk of at most
`shmsiz` bytes at a time, with the one semaphore of the connection between them. A copy is
made byte by byte, so that the other side may look at the segment in the middle of it.
-/

namespace Dataman.SharedTransfer

variable {α : Type} {shmsiz : ℕ}

/-- The semaphore and the segment of a connection. -/
structure Channel (α : Type) where
  value : ℕ
  segment : ℕ → α

namespace Channel

def setval (c : Channel α) (value : ℕ) : Channel α := { c with value := value }

/-- `sem_take_slot`, none while it blocks. -/
def takeSlot (c : Channel α) : Option (Channel α) := if 1 ≤ c.value then some (c.setval (c.value - 1)) else none

/-- `sem_wait_for_zero` and `sem_wait_for_chunk`, none while they block. -/
def waitForZero (c : Channel α) : Option (Channel α) := if c.value = 0 then some c else none

def publishChunk (c : Channel α) : Channel α := c.setval 0

def releaseSlot (c : Channel α) : Channel α := c.setval (c.value+2)

def put (c : Channel α) (i : ℕ) (b : α) : Channel α := { c with segment := Function.update c.segment i b }

@[simp] theorem setval_value (c : Channel α) (v : ℕ) : (c.setval v).value = v := rfl
@[simp] theorem releaseSlot_value (c : Channel α) : c.releaseSlot.value = c.value+2 := rfl

end Channel

/-! ## The two loops -/

inductive SendPc
  | take
  | copy (i : ℕ)
  | publish
deriving DecidableEq,Repr

/-- The sending loop of `send_to_server`, `send_to_server_stream` and of the response in
`dispatch`: the bytes that are not counted as sent, and the place in the loop. -/
structure Sender (α : Type) where
  rest : List α
  pc : SendPc := .take
deriving DecidableEq,Repr

inductive ReceivePc
  | wait
  | copy (i : ℕ)
  | release
deriving DecidableEq,Repr

/-- The receiving loop of `dispatch`, `recv_from_server` and `recv_from_server_stream`: the
bytes copied out, how many are still to come, and the place in the loop. -/
structure Receiver (α : Type) where
  got : List α := []
  left : ℕ
  pc : ReceivePc := .wait
deriving DecidableEq,Repr

/-- The next move of a sender, none while it blocks and once its loop has ended. -/
def Sender.next (shmsiz : ℕ) (s : Sender α) (c : Channel α) : Option (Sender α × Channel α) :=
  match s.pc with
  | .take => if s.rest = [] then none else c.takeSlot.map fun c => ({ s with pc := .copy 0 },c)
  | .copy i =>
    let size := min s.rest.length shmsiz
    match (s.rest.take size)[i]? with
    | some b => some ({ s with pc := .copy (i+1) },c.put i b)
    | none => some ({ rest := s.rest.drop size,pc := .publish },c)
  | .publish => some ({ s with pc := .take },c.publishChunk)

def Receiver.next (shmsiz : ℕ) (r : Receiver α) (c : Channel α) : Option (Receiver α × Channel α) :=
  match r.pc with
  | .wait => if r.left = 0 then none else c.waitForZero.map fun c => ({ r with pc := .copy 0 },c)
  | .copy i =>
    let size := min r.left shmsiz
    if i < size then some ({ r with got := r.got++[c.segment i],pc := .copy (i+1) },c)
    else some ({ r with left := r.left - size,pc := .release },c)
  | .release => some ({ r with pc := .wait },c.releaseSlot)

/-- The loop has ended. -/
def Sender.Over (s : Sender α) : Prop := s.rest = [] ∧ s.pc = .take

def Receiver.Over (r : Receiver α) : Prop := r.left = 0 ∧ r.pc = .wait

/-- The loop waits for the semaphore. -/
def Sender.Waits (s : Sender α) (c : Channel α) : Prop := s.rest≠[] ∧ s.pc = .take ∧ c.value = 0

/-! ## Both loops together -/

/-- The first bytes of the segment are a chunk, or the beginning of one. -/
def Holds (c : Channel α) (chunk : List α) : Prop := ∀ i b,chunk[i]? = some b → c.segment i = b

/-- The chunk that goes through the segment while this many bytes are to come. -/
structure Chunk (shmsiz : ℕ) (chunk rest : List α) : Prop where
  size : chunk.length = min (chunk.length+rest.length) shmsiz
  pos : 0 < chunk.length

/-- Who owns the segment while a payload goes through it. The value of the semaphore is 2
while the slot is free, 1 while the sender has it and 0 while the receiver may read it. -/
inductive Linked (shmsiz : ℕ) (payload : List α) : Sender α → Receiver α → Channel α → Prop
  | ended {c : Channel α} : Linked shmsiz payload { rest := [] } { got := payload,left := 0 } c
  | free {got rest : List α} {c : Channel α} (split : got++rest = payload) (more : rest≠[])
      (value : c.value = 2) :
      Linked shmsiz payload { rest := rest } { got := got,left := rest.length } c
  | filling {got chunk rest : List α} {i : ℕ} {c : Channel α} (split : got++(chunk++rest) = payload)
      (part : Chunk shmsiz chunk rest) (bound : i ≤ chunk.length) (value : c.value = 1)
      (held : Holds c (chunk.take i)) :
      Linked shmsiz payload { rest := chunk++rest,pc := .copy i }
        { got := got,left := chunk.length+rest.length } c
  | filled {got chunk rest : List α} {c : Channel α} (split : got++(chunk++rest) = payload)
      (part : Chunk shmsiz chunk rest) (value : c.value = 1) (held : Holds c chunk) :
      Linked shmsiz payload { rest := rest,pc := .publish }
        { got := got,left := chunk.length+rest.length } c
  | published {got chunk rest : List α} {c : Channel α} (split : got++(chunk++rest) = payload)
      (part : Chunk shmsiz chunk rest) (value : c.value = 0) (held : Holds c chunk) :
      Linked shmsiz payload { rest := rest } { got := got,left := chunk.length+rest.length } c
  | emptying {got chunk rest : List α} {i : ℕ} {c : Channel α} (split : got++(chunk++rest) = payload)
      (part : Chunk shmsiz chunk rest) (bound : i ≤ chunk.length) (value : c.value = 0)
      (held : Holds c chunk) :
      Linked shmsiz payload { rest := rest }
        { got := got++chunk.take i,left := chunk.length+rest.length,pc := .copy i } c
  | emptied {got rest : List α} {c : Channel α} (split : got++rest = payload) (value : c.value = 0) :
      Linked shmsiz payload { rest := rest } { got := got,left := rest.length,pc := .release } c

variable {payload : List α} {s s' : Sender α} {r r' : Receiver α} {c c' : Channel α}

theorem Sender.Over.next (h : s.Over) : s.next shmsiz c = none := by
  obtain ⟨hrest,hpc⟩ := h
  simp [Sender.next,hrest,hpc]

theorem Receiver.Over.next (h : r.Over) : r.next shmsiz c = none := by
  obtain ⟨hleft,hpc⟩ := h
  simp [Receiver.next,hleft,hpc]

theorem Sender.Over.eq (h : s.Over) : s = { rest := [] } := by
  obtain ⟨rest,pc⟩ := s
  obtain ⟨hrest,hpc⟩ := h
  simp only at hrest hpc
  rw [hrest,hpc]

theorem Receiver.Over.eq (h : r.Over) : r = { got := r.got,left := 0 } := by
  obtain ⟨got,left,pc⟩ := r
  obtain ⟨hleft,hpc⟩ := h
  simp only at hleft hpc
  rw [hleft,hpc]

/-- A payload and a free slot. -/
theorem linked_start (hvalue : payload≠[] → c.value = 2) :
    Linked shmsiz payload { rest := payload } { left := payload.length } c := by
  by_cases hnil : payload = []
  · subst hnil
    exact .ended
  · exact .free rfl hnil (hvalue hnil)

/-- The chunk a sender cuts off next. -/
theorem chunk_take (hshm : 1 ≤ shmsiz) {rest : List α} (hrest : rest≠[]) :
    Chunk shmsiz (rest.take (min rest.length shmsiz)) (rest.drop (min rest.length shmsiz)) := by
  have hpos : 0 < rest.length := List.length_pos_of_ne_nil hrest
  constructor <;> simp only [List.length_take,List.length_drop] <;> omega

theorem Chunk.take_append {chunk rest : List α} (h : Chunk shmsiz chunk rest) :
    (chunk++rest).take (min (chunk++rest).length shmsiz) = chunk := by
  rw [List.length_append,← h.size]
  exact List.take_left

theorem Chunk.drop_append {chunk rest : List α} (h : Chunk shmsiz chunk rest) :
    (chunk++rest).drop (min (chunk++rest).length shmsiz) = rest := by
  rw [List.length_append,← h.size]
  exact List.drop_left

theorem Holds.put {chunk : List α} {i : ℕ} {b : α} (h : Holds c (chunk.take i)) (hb : chunk[i]? = some b) :
    Holds (c.put i b) (chunk.take (i+1)) := by
  intro j x hj
  simp only [List.getElem?_take] at hj
  split at hj
  · rename_i hlt
    by_cases hji : j = i
    · subst hji
      rw [hb] at hj
      simpa [Channel.put] using hj
    · have hheld := h j x (by rw [List.getElem?_take,if_pos (by omega)]; exact hj)
      simpa [Channel.put,Function.update_of_ne hji] using hheld
  · exact absurd hj (by simp)

theorem Linked.send (hshm : 1 ≤ shmsiz) (h : Linked shmsiz payload s r c) (hnext : s.next shmsiz c = some (s',c')) :
    Linked shmsiz payload s' r c' := by
  cases h with
  | ended => simp [Sender.next] at hnext
  | @free got rest c split more value =>
    have htake : c.takeSlot = some (c.setval 1) := by simp [Channel.takeSlot,value]
    simp only [Sender.next,if_neg more,htake,Option.map_some,Option.some.injEq,Prod.mk.injEq] at hnext
    obtain ⟨rfl,rfl⟩ := hnext
    have hpart := chunk_take hshm more
    generalize hk : min rest.length shmsiz = k at hpart
    rw [← List.take_append_drop k rest] at split ⊢
    rw [List.length_append]
    exact .filling split hpart (Nat.zero_le _) rfl (by intro i b hi; simp at hi)
  | @filling got chunk rest i c split part bound value held =>
    simp only [Sender.next,part.take_append,part.drop_append] at hnext
    cases hb : chunk[i]? with
    | some b =>
      rw [hb] at hnext
      obtain ⟨rfl,rfl⟩ := Prod.mk.inj (Option.some.inj hnext)
      have hlt := (List.getElem?_eq_some_iff.1 hb).1
      exact .filling split part hlt value (held.put hb)
    | none =>
      rw [hb] at hnext
      obtain ⟨rfl,rfl⟩ := Prod.mk.inj (Option.some.inj hnext)
      rw [List.take_of_length_le (List.getElem?_eq_none_iff.1 hb)] at held
      exact .filled split part value held
  | filled split part value held =>
    obtain ⟨rfl,rfl⟩ := Prod.mk.inj (Option.some.inj hnext)
    exact .published split part rfl held
  | published split part value held => simp [Sender.next,Channel.takeSlot,value] at hnext
  | emptying split part bound value held => simp [Sender.next,Channel.takeSlot,value] at hnext
  | emptied split value => simp [Sender.next,Channel.takeSlot,value] at hnext

theorem Linked.receive (h : Linked shmsiz payload s r c) (hnext : r.next shmsiz c = some (r',c')) :
    Linked shmsiz payload s r' c' := by
  cases h with
  | ended => simp [Receiver.next] at hnext
  | free split more value => simp [Receiver.next,Channel.waitForZero,value] at hnext
  | filling split part bound value held => simp [Receiver.next,Channel.waitForZero,value] at hnext
  | filled split part value held => simp [Receiver.next,Channel.waitForZero,value] at hnext
  | @published got chunk rest c split part value held =>
    have hleft : chunk.length+rest.length≠0 := by have := part.pos; omega
    simp only [Receiver.next,if_neg hleft,Channel.waitForZero,value,if_true,Option.map_some,
      Option.some.injEq,Prod.mk.injEq] at hnext
    obtain ⟨rfl,rfl⟩ := hnext
    have hstart := Linked.emptying (i := 0) split part (Nat.zero_le _) value held
    simpa using hstart
  | @emptying got chunk rest i c split part bound value held =>
    simp only [Receiver.next,← part.size] at hnext
    split at hnext
    · rename_i hlt
      obtain ⟨rfl,rfl⟩ := Prod.mk.inj (Option.some.inj hnext)
      have hbyte := held i chunk[i] (List.getElem?_eq_getElem hlt)
      rw [hbyte,List.append_assoc,List.take_append_getElem hlt]
      exact .emptying split part hlt value held
    · rename_i hge
      obtain ⟨rfl,rfl⟩ := Prod.mk.inj (Option.some.inj hnext)
      rw [List.take_of_length_le (Nat.le_of_not_lt hge),Nat.add_sub_cancel_left]
      exact .emptied (by rw [List.append_assoc]; exact split) value
  | @emptied got rest c split value =>
    obtain ⟨rfl,rfl⟩ := Prod.mk.inj (Option.some.inj hnext)
    by_cases hnil : rest = []
    · subst hnil
      rw [List.append_nil] at split
      subst split
      exact .ended
    · exact .free split hnil (by simp [value])

/-! ## What a transfer guarantees -/

theorem Linked.received (h : Linked shmsiz payload s r c) (hover : r.Over) : r.got = payload ∧ s.Over := by
  obtain ⟨hleft,hpc⟩ := hover
  cases h with
  | ended => exact ⟨rfl,rfl,rfl⟩
  | free split more value => exact absurd (List.length_eq_zero_iff.1 hleft) more
  | filling split part bound value held => exact absurd hleft (by have := part.pos; simp only; omega)
  | filled split part value held => exact absurd hleft (by have := part.pos; simp only; omega)
  | published split part value held => exact absurd hleft (by have := part.pos; simp only; omega)
  | emptying split part bound value held => simp at hpc
  | emptied split value => simp at hpc

/-- Of two loops that have not both ended, one moves. -/
theorem Linked.progress (h : Linked shmsiz payload s r c) :
    r.Over ∨ (∃ out,s.next shmsiz c = some out) ∨ ∃ out,r.next shmsiz c = some out := by
  cases h with
  | ended => exact .inl ⟨rfl,rfl⟩
  | free split more value => exact .inr (.inl ⟨_,by simp [Sender.next,more,Channel.takeSlot,value]; rfl⟩)
  | filling split part bound value held =>
    refine .inr (.inl ?_)
    simp only [Sender.next,part.take_append]
    split
    · exact ⟨_,rfl⟩
    · exact ⟨_,rfl⟩
  | filled split part value held => exact .inr (.inl ⟨_,rfl⟩)
  | @published got chunk rest c split part value held =>
    have hleft : chunk.length+rest.length≠0 := by have := part.pos; omega
    exact .inr (.inr ⟨_,by simp only [Receiver.next,if_neg hleft,Channel.waitForZero,if_pos value]; rfl⟩)
  | emptying split part bound value held =>
    refine .inr (.inr ?_)
    simp only [Receiver.next]
    split
    · exact ⟨_,rfl⟩
    · exact ⟨_,rfl⟩
  | emptied split value => exact .inr (.inr ⟨_,rfl⟩)

/-! ## A transfer ends -/

/-- A bound on the moves that a loop has left. A chunk of k bytes takes k + 3 of them. -/
def Sender.effort (s : Sender α) : ℕ :=
  match s.pc with
  | .take => 4*s.rest.length
  | .copy i => 4*s.rest.length - 1 - i
  | .publish => 4*s.rest.length+1

def Receiver.effort (r : Receiver α) : ℕ :=
  match r.pc with
  | .wait => 4*r.left
  | .copy i => 4*r.left - 1 - i
  | .release => 4*r.left+1

/-- A payload of one chunk goes into the segment with no receiver at all. -/
theorem Linked.alone (h : Linked shmsiz payload s { left := payload.length } c) (hfits : payload.length ≤ shmsiz) :
    s.Over ∨ ∃ out,s.next shmsiz c = some out := by
  generalize hr : ({ left := payload.length } : Receiver α) = r at h
  cases h with
  | ended => exact .inl ⟨rfl,rfl⟩
  | free split more value => exact .inr ⟨_,by simp [Sender.next,more,Channel.takeSlot,value]; rfl⟩
  | filling split part bound value held =>
    refine .inr ?_
    simp only [Sender.next,part.take_append]
    split
    · exact ⟨_,rfl⟩
    · exact ⟨_,rfl⟩
  | filled split part value held => exact .inr ⟨_,rfl⟩
  | @published got chunk rest c split part value held =>
    have hleft := congrArg Receiver.left hr
    have hsize := part.size
    simp only at hleft
    have hrest : rest.length = 0 := by omega
    exact .inl ⟨List.length_eq_zero_iff.1 hrest,rfl⟩
  | emptying split part bound value held => simp at hr
  | emptied split value => simp at hr

/-- With more than one chunk it stops before the second. -/
theorem Linked.stuck (h : Linked shmsiz payload s { left := payload.length } c) (hmore : shmsiz < payload.length) :
    ¬ s.Over ∧ (s.Waits c ∨ ∃ out,s.next shmsiz c = some out) := by
  generalize hr : ({ left := payload.length } : Receiver α) = r at h
  have hleft := congrArg Receiver.left hr
  cases h with
  | ended => exact absurd hleft (by simp only; omega)
  | free split more value =>
    exact ⟨fun hover => more hover.1,.inr ⟨_,by simp [Sender.next,more,Channel.takeSlot,value]; rfl⟩⟩
  | filling split part bound value held =>
    refine ⟨fun hover => by simp [Sender.Over] at hover,.inr ?_⟩
    simp only [Sender.next,part.take_append]
    split
    · exact ⟨_,rfl⟩
    · exact ⟨_,rfl⟩
  | filled split part value held => exact ⟨fun hover => by simp [Sender.Over] at hover,.inr ⟨_,rfl⟩⟩
  | @published got chunk rest c split part value held =>
    have hsize := part.size
    simp only at hleft
    have hrest : rest≠[] := by
      intro hnil
      subst hnil
      simp only [List.length_nil] at hleft hsize
      omega
    exact ⟨fun hover => hrest hover.1,.inl ⟨hrest,rfl,value⟩⟩
  | emptying split part bound value held => simp at hr
  | emptied split value => simp at hr

end Dataman.SharedTransfer

import Dataman.FlushCommands

/-!
# The lengths of forwarded commands (`serial_service.c`, `server_comm.c`)

A connection puts its process id before the command of a frame and sends both as one message.
`dispatch` receives at most 256 bytes into a buffer of 256, and stores a zero behind them. The
length is tested before the process id is there, or against the whole buffer.
-/

namespace Dataman.CommandLengths
open FieldText FlushCommands

/-! ## The connection -/

/-- `shared_payload`: the command and the payload of a frame that was read as a whole. -/
def sharedPayload (frame : List UInt8) : Option (List UInt8 × List UInt8) :=
  match cut bar 5 frame with
  | none => none
  | some (head,field) =>
    match cut bar 1 field with
    | none => none
    | some (number,payload) =>
      let out := strtol number.dropLast
      if number.dropLast = [] ∨ out.2≠[] ∨ out.1 < 0 ∨ intMax < out.1 then none
      else if out.1 = payload.length then some (head++number,payload)
      else none

inductive Served
  /-- The connection is closed without an answer. -/
  | closed
  /-- The client gets EINVMSG. -/
  | invMsg
  | handed (text : List UInt8)
deriving DecidableEq,Repr

/-- `queue_command` refuses what is longer than the buffer. -/
def queueCommand (pid : ℕ) (command : List UInt8) : Served :=
  if maxsiz < (message pid command).length then .closed else .handed (message pid command)

/-- `send_to_server` copies without a test. -/
def sendToServer (pid : ℕ) (command : List UInt8) : Served := .handed (message pid command)

/-- What `serial_service` does with one frame. -/
def serialService (pid : ℕ) (frame : List UInt8) : Served :=
  if frame.length < 1 ∨ intMax ≤ frame.length then .closed
  else
    match readCommandPrefix frame with
    | .invalid => .closed
    | .stream command _ => if maxsiz < command.length then .invMsg else queueCommand pid command
    | .plain _ _ =>
      let cmd := atoi frame
      if cmd = discon then .closed
      else
        match if flush ≤ cmd then (sharedPayload frame).map Prod.fst else some frame with
        | none => .closed
        | some command => if maxsiz < command.length then .invMsg else sendToServer pid command

/-- The command in a frame, however long it is. -/
def commandOf (frame : List UInt8) : Option (List UInt8) :=
  match cut bar 1 frame with
  | none => none
  | some (first,_) =>
    if atoi first = discon then none
    else if flush ≤ atoi first then (sharedPayload frame).map Prod.fst
    else some frame

/-! ## Fields -/

variable {pid k n frameLen : ℕ} {sep : UInt8} {text head tail frame first rest buf x command payload : List UInt8}

/-- A cut is made in two steps. -/
theorem cut_split (h : cut sep (k+n) text = some (head,tail)) :
    ∃ head₁ tail₁ head₂,cut sep k text = some (head₁,tail₁) ∧ cut sep n tail₁ = some (head₂,tail) ∧ head = head₁++head₂ := by
  induction text generalizing k head with
  | nil =>
    cases k with
    | zero =>
      rw [Nat.zero_add] at h
      exact ⟨[],[],head,cut_zero,h,rfl⟩
    | succ k => simp [Nat.succ_add,cut] at h
  | cons b text ih =>
    cases k with
    | zero =>
      rw [Nat.zero_add] at h
      exact ⟨[],b::text,head,cut_zero,h,rfl⟩
    | succ k =>
      rw [Nat.succ_add] at h
      obtain ⟨rest,rfl,hrest⟩ := cut_cons h
      have hsum : (if b = sep then k+n else k+n+1) = (if b = sep then k else k+1)+n := by split <;> omega
      rw [hsum] at hrest
      obtain ⟨head₁,tail₁,head₂,h₁,h₂,rfl⟩ := ih hrest
      exact ⟨b::head₁,tail₁,head₂,cut_of_cons h₁,h₂,rfl⟩

/-- The first field has no separator before its end. -/
theorem cut_first (h : cut sep 1 text = some (head,tail)) : ∃ x,head = x++[sep] ∧ text = x++sep::tail ∧ ∀ b∈x,b≠sep := by
  induction text generalizing head with
  | nil => simp [cut] at h
  | cons b text ih =>
    obtain ⟨rest,rfl,hrest⟩ := cut_cons h
    by_cases hb : b = sep
    · rw [if_pos hb,cut_zero] at hrest
      obtain ⟨rfl,rfl⟩ := Prod.mk.inj (Option.some.inj hrest)
      exact ⟨[],by rw [hb]; rfl,by rw [hb]; rfl,by simp⟩
    · rw [if_neg hb] at hrest
      obtain ⟨x,rfl,rfl,hx⟩ := ih hrest
      refine ⟨b::x,rfl,rfl,?_⟩
      simpa using ⟨hb,hx⟩

theorem cut_none (h : cut sep 1 text = none) : ∀ b∈text,b≠sep := by
  induction text with
  | nil => simp
  | cons b text ih =>
    simp only [cut,Option.map_eq_none_iff] at h
    by_cases hb : b = sep
    · rw [if_pos hb,cut_zero] at h
      cases h
    · rw [if_neg hb] at h
      simpa using ⟨hb,ih h⟩

/-- Both functions look for the same command. -/
theorem sharedPayload_eq (frame : List UInt8) :
    sharedPayload frame =
      match cut bar 6 frame with
      | none => none
      | some (command,payload) =>
        match sharedPayloadHeader command frame.length with
        | none => none
        | some _ => some (command,payload) := by
  cases hsix : cut bar 6 frame with
  | none =>
    rw [sharedPayload]
    cases hfive : cut bar 5 frame with
    | none => rfl
    | some p =>
      obtain ⟨head,field⟩ := p
      cases hone : cut bar 1 field with
      | none => simp [hone]
      | some q =>
        obtain ⟨number,payload⟩ := q
        have := cut_add hfive hone
        rw [hsix] at this
        cases this
  | some p =>
    obtain ⟨command,payload⟩ := p
    obtain ⟨head,field,number,hfive,hone,rfl⟩ := cut_split (k := 5) (n := 1) hsix
    have hframe : (head++number)++payload = frame := cut_append hsix
    have hfive' : cut bar 5 (head++number) = some (head,number) := cut_replace hfive
    have hone' : cut bar 1 number = some (number,[]) := by
      have hnumber : cut bar 1 (number++[]) = some (number,[]) := cut_replace hone
      rwa [List.append_nil] at hnumber
    have hlen : (frame.length : ℤ) - (head++number).length = payload.length := by
      rw [← hframe,List.length_append]
      omega
    simp only [sharedPayload,hfive,hone,sharedPayloadHeader,hfive',hone',hlen,ne_eq,not_true_eq_false,false_or]
    split
    · rfl
    · split
      · rfl
      · rfl

/-! ## Reading the command -/

/-- A frame that is only DISCON. -/
def Bare (frameLen : ℕ) (buf : List UInt8) : Prop := buf.length = frameLen ∧ buf = [50,52]

variable {fields : ℕ} {ch : UInt8}

theorem readFields_nil (hfields : fields≠6) (hbare : ¬ Bare frameLen buf) : readFields frameLen [] fields buf = .invalid := by
  rw [readFields,if_neg hfields,if_neg (show ¬ (buf.length = frameLen ∧ buf = [50,52]) from hbare)]

theorem readFields_cons (hfields : fields≠6) (hbare : ¬ Bare frameLen buf) :
    readFields frameLen (ch::rest) fields buf =
      if maxsiz ≤ buf.length then .invalid
      else if ch≠bar then readFields frameLen rest fields (buf++[ch])
      else if fields = 0 ∧ atoi buf≠flush then .plain (atoi buf) (buf++[ch])
      else readFields frameLen rest (fields+1) (buf++[ch]) := by
  rw [readFields,if_neg hfields,if_neg (show ¬ (buf.length = frameLen ∧ buf = [50,52]) from hbare)]

/-- A command with all its fields. -/
def streamed (frameLen : ℕ) (command : List UInt8) : Input :=
  match sharedPayloadHeader command frameLen with
  | none => .invalid
  | some len => .stream command len

theorem readFields_six : readFields frameLen rest 6 buf = streamed frameLen buf := by
  cases rest with
  | nil => rw [readFields,if_pos rfl]; rfl
  | cons ch rest => rw [readFields,if_pos rfl]; rfl

/-- Without a separator there is no command, and DISCON ends the connection. -/
theorem readFields_noBar (hrest : ∀ b∈rest,b≠bar) (hlen : frameLen = buf.length+rest.length) :
    readFields frameLen rest 0 buf = .invalid ∨ buf++rest = [50,52] := by
  induction rest generalizing buf with
  | nil =>
    by_cases hbare : Bare frameLen buf
    · exact .inr (by rw [hbare.2]; rfl)
    · exact .inl (readFields_nil (by omega) hbare)
  | cons ch rest ih =>
    have hbare : ¬ Bare frameLen buf := by
      rintro ⟨h,-⟩
      rw [List.length_cons] at hlen
      omega
    rw [readFields_cons (by omega) hbare,if_pos (hrest ch List.mem_cons_self)]
    split
    · exact .inl rfl
    · have hlen' : frameLen = (buf++[ch]).length+rest.length := by rw [hlen]; simp; omega
      have hnext := ih (fun b hb => hrest b (List.mem_cons_of_mem _ hb)) hlen'
      simpa using hnext

/-- The first field. -/
theorem readFields_first (hx : ∀ b∈x,b≠bar) (hlen : frameLen = buf.length+(x++bar::rest).length) :
    readFields frameLen (x++bar::rest) 0 buf =
      if maxsiz < (buf++x++[bar]).length then .invalid
      else if atoi (buf++x)≠flush then .plain (atoi (buf++x)) (buf++x++[bar])
      else readFields frameLen rest 1 (buf++x++[bar]) := by
  have hbare : ¬ Bare frameLen buf := by
    rintro ⟨h,-⟩
    simp at hlen
    omega
  induction x generalizing buf with
  | nil =>
    rw [List.nil_append,readFields_cons (by omega) hbare,List.append_nil,if_neg (not_not.2 rfl)]
    by_cases hfull : maxsiz ≤ buf.length
    · rw [if_pos hfull,if_pos (by simp; omega)]
    · have hroom : ¬ maxsiz < (buf++[bar]).length := by simp; omega
      rw [if_neg hfull,if_neg hroom]
      by_cases hflush : atoi buf = flush
      · rw [if_neg (by simp [hflush]),if_neg (not_not.2 hflush)]
      · rw [if_pos ⟨rfl,hflush⟩,if_pos hflush]
  | cons ch x ih =>
    rw [List.cons_append,readFields_cons (by omega) hbare,if_pos (hx ch List.mem_cons_self)]
    by_cases hfull : maxsiz ≤ buf.length
    · rw [if_pos hfull,if_pos (by simp; omega)]
    · rw [if_neg hfull]
      have hlen' : frameLen = (buf++[ch]).length+(x++bar::rest).length := by rw [hlen]; simp; omega
      have hnext := ih (fun b hb => hx b (List.mem_cons_of_mem _ hb)) hlen' (by
        rintro ⟨h,-⟩
        simp at hlen' h
        omega)
      simpa using hnext

/-- The other fields of a FLUSH command. -/
theorem readFields_rest (hone : 1 ≤ fields) (hsix : fields ≤ 6) (hbar : bar∈buf) (hroom : buf.length ≤ maxsiz)
    (hlen : frameLen = buf.length+rest.length) :
    readFields frameLen rest fields buf =
      (cut bar (6 - fields) rest).elim .invalid fun p =>
        if maxsiz < (buf++p.1).length then .invalid else streamed frameLen (buf++p.1) := by
  have hbare : ∀ {buf},bar∈buf → ¬ Bare frameLen buf := by
    rintro _ hbar ⟨-,rfl⟩
    exact absurd hbar (by decide)
  induction rest generalizing buf fields with
  | nil =>
    by_cases hfields : fields = 6
    · subst hfields
      rw [readFields_six,Nat.sub_self,cut_zero,Option.elim_some,List.append_nil,if_neg (by omega)]
    · obtain ⟨k,hk⟩ : ∃ k,6 - fields = k+1 := ⟨5 - fields,by omega⟩
      rw [readFields_nil hfields (hbare hbar),hk]
      rfl
  | cons ch rest ih =>
    by_cases hfields : fields = 6
    · subst hfields
      rw [readFields_six,Nat.sub_self,cut_zero,Option.elim_some,List.append_nil,if_neg (by omega)]
    · obtain ⟨k,hk⟩ : ∃ k,6 - fields = k+1 := ⟨5 - fields,by omega⟩
      rw [readFields_cons hfields (hbare hbar),hk,cut,Option.elim_map]
      by_cases hfull : maxsiz ≤ buf.length
      · rw [if_pos hfull]
        cases cut bar (if ch = bar then k else k+1) rest with
        | none => rfl
        | some p => exact (if_pos (by simp; omega)).symm
      · rw [if_neg hfull]
        have hlen' : frameLen = (buf++[ch]).length+rest.length := by rw [hlen]; simp; omega
        have hmem : bar∈buf++[ch] := List.mem_append_left _ hbar
        by_cases hch : ch = bar
        · have hnext : readFields frameLen rest (fields+1) (buf++[ch]) = _ :=
            ih (by omega) (by omega) hmem (by simp; omega) hlen'
          have hsub : 6 - (fields+1) = k := by omega
          rw [if_neg (not_not.2 hch),if_neg (by omega),hnext,hsub,if_pos hch]
          congr 1
          funext p
          simp
        · rw [if_pos hch,ih hone hsix hmem (by simp; omega) hlen',hk,if_neg hch]
          congr 1
          funext p
          simp

/-! ## What becomes of a frame -/

theorem cut_after (hfirst : cut sep k frame = some (first,rest)) :
    cut sep (k+n) frame = (cut sep n rest).map fun p => (first++p.1,p.2) := by
  cases hmore : cut sep n rest with
  | some p => exact cut_add hfirst hmore
  | none =>
    by_contra hsome
    obtain ⟨⟨command,payload⟩,hall⟩ := Option.ne_none_iff_exists'.1 hsome
    obtain ⟨_,tail,head,hone,htail,-⟩ := cut_split hall
    obtain ⟨-,rfl⟩ := Prod.mk.inj (Option.some.inj (hfirst.symm.trans hone))
    rw [hmore] at htail
    cases htail

theorem readCommandPrefix_plain (hfirst : cut bar 1 frame = some (first,rest)) (hflush : atoi first≠flush) :
    readCommandPrefix frame = if maxsiz < first.length then .invalid else .plain (atoi first) first := by
  obtain ⟨x,rfl,rfl,hx⟩ := cut_first hfirst
  rw [atoi_append ends_bar] at hflush ⊢
  rw [readCommandPrefix,readFields_first hx (by simp)]
  simp only [List.nil_append]
  rw [if_pos hflush]

theorem readCommandPrefix_flush (hfirst : cut bar 1 frame = some (first,rest)) (hflush : atoi first = flush) :
    readCommandPrefix frame =
      (cut bar 6 frame).elim .invalid fun p => if maxsiz < p.1.length then .invalid else streamed frame.length p.1 := by
  rw [show 6 = 1+5 from rfl,cut_after hfirst,Option.elim_map]
  obtain ⟨x,rfl,rfl,hx⟩ := cut_first hfirst
  rw [atoi_append ends_bar] at hflush
  rw [readCommandPrefix,readFields_first hx (by simp)]
  simp only [List.nil_append]
  rw [if_neg (not_not.2 hflush)]
  by_cases hlong : maxsiz < (x++[bar]).length
  · rw [if_pos hlong]
    cases cut bar 5 rest with
    | none => rfl
    | some p => exact (if_pos (by rw [List.length_append]; omega)).symm
  · rw [if_neg hlong,readFields_rest le_rfl (by omega) (by simp) (not_lt.1 hlong) (by simp; omega)]
    rfl

/-- What becomes of a frame with a command. -/
def outcome (pid : ℕ) (frame first : List UInt8) : Option (List UInt8) → Served
  | none => .closed
  | some command =>
    if intMax ≤ frame.length then .closed
    else if atoi first = flush then queueCommand pid command
    else if maxsiz < first.length then .closed
    else if maxsiz < command.length then .invMsg
    else sendToServer pid command

theorem le_length_message (pid : ℕ) (command : List UInt8) : command.length < (message pid command).length := by
  simp [message]
  omega

theorem queueCommand_of_long (h : maxsiz < command.length) : queueCommand pid command = .closed :=
  if_pos (h.trans (le_length_message pid command))

theorem outcome_of_max (h : intMax ≤ frame.length) (found : Option (List UInt8)) : outcome pid frame first found = .closed := by
  cases found with
  | none => rfl
  | some command => exact if_pos h

/-- A FLUSH command is queued. -/
theorem serialService_flush (hmax : ¬ intMax ≤ frame.length) (hpos : ¬ frame.length < 1) (hfirst : cut bar 1 frame = some (first,rest))
    (hflush : atoi first = flush) : serialService pid frame = outcome pid frame first ((sharedPayload frame).map Prod.fst) := by
  rw [serialService,if_neg (by simp [hpos,hmax]),readCommandPrefix_flush hfirst hflush,sharedPayload_eq]
  cases cut bar 6 frame with
  | none => rfl
  | some p =>
    obtain ⟨command,payload⟩ := p
    dsimp only [Option.elim_some]
    rw [streamed]
    cases sharedPayloadHeader command frame.length with
    | none => simp [outcome]
    | some len =>
      by_cases hlong : maxsiz < command.length
      · simp [outcome,hlong,hmax,hflush,queueCommand_of_long]
      · simp [outcome,hlong,hmax,hflush]

theorem serialService_eq (hfirst : cut bar 1 frame = some (first,rest)) :
    serialService pid frame = outcome pid frame first (commandOf frame) := by
  have hpos : ¬ frame.length < 1 := by
    obtain ⟨x,-,rfl,-⟩ := cut_first hfirst
    simp
  have hatoi : atoi frame = atoi first := by
    obtain ⟨x,rfl,rfl,-⟩ := cut_first hfirst
    rw [atoi_append ends_bar,atoi_append ends_bar]
  by_cases hmax : intMax ≤ frame.length
  · rw [serialService,if_pos (.inr hmax),outcome_of_max hmax]
  by_cases hflush : atoi first = flush
  · rw [serialService_flush hmax hpos hfirst hflush,commandOf,hfirst]
    dsimp only
    rw [hflush,if_neg (by decide),if_pos le_rfl]
  rw [serialService,if_neg (by simp [hpos,hmax]),readCommandPrefix_plain hfirst hflush,commandOf,hfirst,hatoi]
  dsimp only
  by_cases hlong : maxsiz < first.length
  · rw [if_pos hlong]
    generalize (if atoi first = discon then none
      else if flush ≤ atoi first then (sharedPayload frame).map Prod.fst else some frame) = found
    cases found with
    | none => rfl
    | some command => simp [outcome,hmax,hflush,hlong]
  · rw [if_neg hlong]
    dsimp only
    by_cases hdiscon : atoi first = discon
    · rw [if_pos hdiscon,if_pos hdiscon]
      rfl
    · rw [if_neg hdiscon,if_neg hdiscon]
      generalize (if flush ≤ atoi first then (sharedPayload frame).map Prod.fst else some frame) = found
      cases found with
      | none => rfl
      | some command => simp [outcome,hmax,hflush,hlong]

theorem serialService_none (h : cut bar 1 frame = none) : serialService pid frame = .closed := by
  rw [serialService]
  split
  · rfl
  · have hread : readFields frame.length frame 0 [] = .invalid ∨ []++frame = [50,52] := readFields_noBar (cut_none h) (by simp)
    rcases hread with hinvalid | rfl
    · rw [readCommandPrefix,hinvalid]
    · rfl

/-! ## Commands that fit -/

/-- What is handed on is a command with the process id before it, and leaves room for a zero. A longer command is
answered with EINVMSG. -/
structure Forwards (pid : ℕ) (frame : List UInt8) : Prop where
  fits : ∀ text,serialService pid frame = .handed text →
    ∃ command,commandOf frame = some command ∧ text = message pid command ∧ text.length+1 ≤ maxsiz
  refused : ∀ command,commandOf frame = some command → maxsiz < (message pid command).length+1 →
    serialService pid frame = .invMsg

/-- The frame is read as a whole, and its length is tested. -/
structure Tested (frame command : List UInt8) : Prop where
  frame_lt : frame.length < intMax
  first : ∃ first rest,cut bar 1 frame = some (first,rest) ∧ first.length ≤ maxsiz ∧ atoi first≠flush
  long : maxsiz < command.length

theorem outcome_handed {text : List UInt8} (h : outcome pid frame first (some command) = .handed text) : text = message pid command := by
  simp only [outcome,queueCommand,sendToServer] at h
  split at h
  · cases h
  · split at h
    · split at h
      · cases h
      · exact (Served.handed.inj h).symm
    · split at h
      · cases h
      · split at h
        · cases h
        · exact (Served.handed.inj h).symm

theorem outcome_invMsg : outcome pid frame first (some command) = .invMsg ↔
    frame.length < intMax ∧ first.length ≤ maxsiz ∧ atoi first≠flush ∧ maxsiz < command.length := by
  simp only [outcome,queueCommand,sendToServer]
  constructor
  · intro h
    split at h
    · cases h
    · rename_i hmax
      split at h
      · split at h
        · cases h
        · cases h
      · rename_i hflush
        split at h
        · cases h
        · rename_i hfirst
          split at h
          · rename_i hlong
            exact ⟨not_le.1 hmax,not_lt.1 hfirst,hflush,hlong⟩
          · cases h
  · rintro ⟨hmax,hfirst,hflush,hlong⟩
    rw [if_neg (not_le.2 hmax),if_neg hflush,if_neg (not_lt.2 hfirst),if_pos hlong]

theorem forwards_none (h : commandOf frame = none) : Forwards pid frame := by
  have hclosed : serialService pid frame = .closed := by
    cases hfirst : cut bar 1 frame with
    | none => exact serialService_none hfirst
    | some p => rw [serialService_eq hfirst,h,outcome]
  constructor
  · intro text htext
    rw [hclosed] at htext
    cases htext
  · intro command hcommand
    rw [h] at hcommand
    cases hcommand

theorem forwards_some (h : commandOf frame = some command) :
    Forwards pid frame ↔ (message pid command).length+1 ≤ maxsiz ∨ Tested frame command := by
  obtain ⟨⟨first,rest⟩,hfirst⟩ : ∃ p,cut bar 1 frame = some p := by
    cases hfirst : cut bar 1 frame with
    | none => simp [commandOf,hfirst] at h
    | some p => exact ⟨p,rfl⟩
  have hserved : serialService pid frame = outcome pid frame first (some command) := by rw [serialService_eq hfirst,h]
  constructor
  · intro hf
    by_cases hfits : (message pid command).length+1 ≤ maxsiz
    · exact .inl hfits
    · have hinv := hf.refused command h (not_le.1 hfits)
      rw [hserved] at hinv
      obtain ⟨hmax,hshort,hflush,hlong⟩ := outcome_invMsg.1 hinv
      exact .inr ⟨hmax,⟨first,rest,hfirst,hshort,hflush⟩,hlong⟩
  · rintro (hfits | ⟨hmax,⟨first',rest',hfirst',hshort,hflush⟩,hlong⟩)
    · constructor
      · intro text htext
        rw [hserved] at htext
        obtain rfl := outcome_handed htext
        exact ⟨command,h,rfl,hfits⟩
      · intro command' h' hlong
        obtain rfl := Option.some.inj (h.symm.trans h')
        omega
    · obtain ⟨rfl,rfl⟩ := Prod.mk.inj (Option.some.inj (hfirst.symm.trans hfirst'))
      have hinv : serialService pid frame = .invMsg := by
        rw [hserved]
        exact outcome_invMsg.2 ⟨hmax,hshort,hflush,hlong⟩
      constructor
      · intro text htext
        rw [hinv] at htext
        cases htext
      · exact fun _ _ _ => hinv

/-- The commands fit exactly if there is room for the process id, or the command alone is longer than a message and
is no FLUSH. -/
theorem forwarded_commands_fit_iff (pid : ℕ) (frame : List UInt8) :
    Forwards pid frame ↔
      ∀ command,commandOf frame = some command → (message pid command).length+1 ≤ maxsiz ∨ Tested frame command := by
  cases h : commandOf frame with
  | none => exact ⟨fun _ command hcommand => by simp at hcommand,fun _ => forwards_none h⟩
  | some command => simp [forwards_some h]

/-- `1|` and spaces: a command of 256 bytes. -/
def fullCommand : List UInt8 := 49::bar::List.replicate 254 32

/-- The command fits into a message, but not with the process id before it. -/
theorem full_command_handed :
    serialService 77 fullCommand = .handed (message 77 fullCommand) ∧ (message 77 fullCommand).length = 259 ∧
      ¬ Forwards 77 fullCommand := by
  have hhanded : serialService 77 fullCommand = .handed (message 77 fullCommand) := by decide +kernel
  have hlen : (message 77 fullCommand).length = 259 := by decide +kernel
  refine ⟨hhanded,hlen,fun h => ?_⟩
  obtain ⟨_,-,-,hfits⟩ := h.fits _ hhanded
  rw [hlen] at hfits
  exact absurd hfits (by decide)

end Dataman.CommandLengths

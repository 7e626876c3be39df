import Dataman.ExchangeProgress
import Dataman.FieldText
import Dataman.TransactionWire

/-!
# FLUSH and its payload

The text of a FLUSH command as `serial_service` reads it from the client and as `dispatch`
reads it from the message queue, and what becomes of its payload when it is refused.
-/

namespace Dataman.FlushCommands
open FieldText SharedTransfer MessageExchange LabelledRuns Relation TransactionWire TransactionSession

def bar : UInt8 := 124

/-- The size of a message. -/
def maxsiz : ℕ := 256

def flush : ℤ := 23
def discon : ℤ := 24

def eNoShm : ℤ := -3
def eNoSem : ℤ := -4

theorem ends_bar : Ends bar := ⟨rfl,rfl,by decide,by decide⟩

/-! ## The connection -/

/-- The length field of a command that is complete, if it is that of the rest of the frame. -/
def sharedPayloadHeader (buf : List UInt8) (frameLen : ℕ) : Option ℕ :=
  match cut bar 5 buf with
  | none => none
  | some (_,field) =>
    match cut bar 1 field with
    | none => none
    | some (number,after) =>
      let out := strtol number.dropLast
      if number.dropLast = [] ∨ after≠[] ∨ out.2≠[] ∨ out.1 < 0 ∨ intMax < out.1 then none
      else if out.1 = frameLen - buf.length then some out.1.toNat
      else none

inductive Input
  | invalid
  | plain (cmd : ℤ) (command : List UInt8)
  | stream (command : List UInt8) (len : ℕ)
deriving DecidableEq,Repr

/-- The loop of `read_command_prefix`, with the bytes that are still in the socket. -/
def readFields (frameLen : ℕ) (rest : List UInt8) (fields : ℕ) (buf : List UInt8) : Input :=
  if fields = 6 then
    match sharedPayloadHeader buf frameLen with
    | none => .invalid
    | some len => .stream buf len
  else if buf.length = frameLen ∧ buf = [50,52] then .plain discon buf
  else
    match rest with
    | [] => .invalid
    | ch::rest =>
      if maxsiz ≤ buf.length then .invalid
      else if ch≠bar then readFields frameLen rest fields (buf++[ch])
      else if fields = 0 ∧ atoi buf≠flush then .plain (atoi buf) (buf++[ch])
      else readFields frameLen rest (fields+1) (buf++[ch])

def readCommandPrefix (frame : List UInt8) : Input := readFields frame.length frame 0 []

/-- The text `queue_command` sends. -/
def message (pid : ℕ) (command : List UInt8) : List UInt8 := decimal pid++bar::command

/-- A frame that `serial_service` sends on as a command and the payload that goes with it. -/
structure Accepted (pid : ℕ) (frame command payload : List UInt8) : Prop where
  split : command++payload = frame
  stream : readCommandPrefix frame = .stream command payload.length
  queued : (message pid command).length ≤ maxsiz

/-! ## The worker -/

/-- How the calls go that give access to the segment. -/
structure Attach where
  semget : Bool
  shmget : Bool
  shmat : Bool

def Attach.failure (a : Attach) : Option ℤ :=
  if ¬ a.semget then some eNoSem else if ¬ a.shmget then some eNoShm else if ¬ a.shmat then some eNoShm else none

/-- What a worker finds, and what `session_root_close` and `dm_tx_wire` return. -/
structure Env where
  blocked : Bool
  alloc : Bool
  up : Attach
  down : Attach
  setval : Bool
  close : ℤ
  wire : List UInt8 → ℤ × List UInt8

/-- The answer to a command that was carried out. -/
def Env.answer (env : Env) (got : List UInt8) : Reply UInt8 :=
  let out := env.wire got
  if out.1 < 1 then { code := out.1 }
  else if out.2 = [] then { code := 0 }
  else
    match env.down.failure with
    | some code => { code := code }
    | none => if ¬ env.setval then { code := eNoSem } else { code := out.2.length,payload := out.2 }

/-- `dispatch` up to the loop that reads the payload. -/
def dispatch (env : Env) (txt : List UInt8) : Plan UInt8 :=
  match cut bar 1 (cstr txt) with
  | none => .refuse eInvMsg
  | some (_,sptr) =>
    let cmd := atoi sptr
    if cmd < rollback ∨ discon < cmd then .refuse eInvMsg
    else
      match cut bar 1 sptr with
      | none => .refuse eInvMsg
      | some (_,sptr) =>
        if env.blocked then .refuse eRollback
        else if cmd = discon then .refuse env.close
        else if cmd < flush then .serve 0 env.answer
        else
          match cut bar 4 sptr with
          | none => .refuse eInvMsg
          | some (_,ptr) =>
            let len := atoi ptr
            if len < 1 then .refuse eInvMsg
            else if ¬ env.alloc then .refuse eNoAlloc
            else
              match env.up.failure with
              | some code => .refuse code
              | none => .serve len.toNat env.answer

/-! ## Both read the same length -/

variable {pid frameLen fields len : ℕ} {frame command payload rest buf : List UInt8} {env : Env}

/-- The length field of a command that was read. -/
theorem sharedPayloadHeader_some (h : sharedPayloadHeader buf frameLen = some len) :
    ∃ head number,cut bar 5 buf = some (head,number++[bar]) ∧ (strtol number).1 = len ∧ (len : ℤ) ≤ intMax := by
  simp only [sharedPayloadHeader] at h
  split at h
  · cases h
  · rename_i head field hhead
    split at h
    · cases h
    · rename_i ended after hfield
      obtain ⟨number,rfl⟩ := cut_last hfield
      have happend := cut_append hfield
      rw [List.dropLast_concat] at h
      split at h
      · cases h
      · rename_i hgood
        simp only [not_or,not_not,not_lt] at hgood
        obtain ⟨-,hafter,-,hnonneg,hmax⟩ := hgood
        rw [hafter,List.append_nil] at happend
        split at h
        · obtain rfl := Option.some.inj h
          exact ⟨head,number,by rw [hhead,happend],(Int.toNat_of_nonneg hnonneg).symm,
            by rwa [Int.toNat_of_nonneg hnonneg]⟩
        · cases h

theorem readFields_stream (h : readFields frameLen rest fields buf = .stream command len) :
    sharedPayloadHeader command frameLen = some len ∧ buf <+: command ∧
      (fields = 0 → ∃ first more,command = first++bar::more ∧ atoi first = flush) := by
  induction rest generalizing fields buf with
  | nil =>
    rw [readFields] at h
    split at h
    · rename_i hsix
      split at h
      · cases h
      · rename_i found hheader
        obtain ⟨rfl,rfl⟩ := Input.stream.inj h
        exact ⟨hheader,List.prefix_rfl,by omega⟩
    · split at h <;> cases h
  | cons ch rest ih =>
    rw [readFields] at h
    split at h
    · rename_i hsix
      split at h
      · cases h
      · rename_i found hheader
        obtain ⟨rfl,rfl⟩ := Input.stream.inj h
        exact ⟨hheader,List.prefix_rfl,by omega⟩
    · split at h
      · cases h
      · split at h
        · cases h
        · split at h
          · obtain ⟨hheader,hpre,hfirst⟩ := ih h
            exact ⟨hheader,(List.prefix_append _ _).trans hpre,hfirst⟩
          · rename_i hbar
            split at h
            · cases h
            · rename_i hflush
              obtain ⟨hheader,⟨more,rfl⟩,-⟩ := ih h
              refine ⟨hheader,⟨ch::more,by simp⟩,?_⟩
              intro hzero
              simp only [not_and,not_not] at hbar hflush
              exact ⟨buf,more,by simp [hbar],hflush hzero⟩

/-- A worker that serves a FLUSH command reads its length field. -/
theorem dispatch_serve {answer : List UInt8 → Reply UInt8} (hcmd : atoi command = flush)
    (h : dispatch env (message pid command) = .serve len answer) :
    ∃ head field,cut bar 5 command = some (head,field) ∧ len = (atoi field).toNat := by
  simp only [dispatch] at h
  split at h
  · cases h
  · rename_i head sptr hsptr
    obtain ⟨rest,hrest,rfl⟩ := cut_cstr hsptr
    have hpid : cut bar 1 (message pid command) = some (decimal pid++[bar],command) := by
      apply cut_one
      intro b hb heq
      have hdigit := decimal_digit hb
      rw [heq] at hdigit
      exact absurd hdigit (by decide)
    obtain ⟨-,rfl⟩ := Prod.mk.inj (Option.some.inj (hpid.symm.trans hrest))
    rw [atoi_cstr,hcmd] at h
    split at h
    · cases h
    · split at h
      · cases h
      · rename_i first args hargs
        obtain ⟨args',hfirst,rfl⟩ := cut_cstr hargs
        split at h
        · cases h
        · rw [if_neg (by decide),if_neg (by decide)] at h
          split at h
          · cases h
          · rename_i middle ptr hptr
            obtain ⟨field,hmiddle,rfl⟩ := cut_cstr hptr
            rw [atoi_cstr] at h
            refine ⟨_,field,cut_add hfirst hmiddle,?_⟩
            split at h
            · cases h
            · split at h
              · cases h
              · split at h
                · cases h
                · exact (Plan.serve.inj h).1.symm

/-- The worker and the connection agree on the length of the payload. -/
theorem Accepted.fits (h : Accepted pid frame command payload) :
    (dispatch env (message pid command)).Fits payload := by
  intro len answer hplan
  obtain ⟨hheader,-,hfirst⟩ := readFields_stream h.stream
  obtain ⟨head,number,hcut,hvalue,hmax⟩ := sharedPayloadHeader_some hheader
  have hcmd : atoi command = flush := by
    obtain ⟨first,more,rfl,hflush⟩ := hfirst rfl
    rw [atoi_append ends_bar,hflush]
  obtain ⟨head',field,hcut',rfl⟩ := dispatch_serve hcmd hplan
  obtain ⟨-,rfl⟩ := Prod.mk.inj (Option.some.inj (hcut.symm.trans hcut'))
  rw [atoi_append ends_bar,atoi_eq (by omega) (by omega),hvalue,Int.toNat_natCast]

/-! ## A refused payload -/

variable {shmsiz : ℕ} {c : Channel UInt8} {s : Sender UInt8} {code : ℤ}

def sampleEnv : Env where
  blocked := true
  alloc := true
  up := ⟨true,true,true⟩
  down := ⟨true,true,true⟩
  setval := true
  close := 0
  wire := fun _ => (0,[])

end Dataman.FlushCommands

import Dataman.LabelledRuns
import Dataman.SharedTransfer
import Mathlib.Algebra.Order.Ring.Int

/-!
# One request and its answer

A connection sends a command and then its payload, reads the answer and then the payload of
the answer. A worker of the server takes the command and either refuses it at once or reads
the payload, answers and sends what goes with the answer.
-/

namespace Dataman.MessageExchange
open SharedTransfer

variable {α : Type} {shmsiz : ℕ}

/-- The answer in the message queue; the length in it is that of the payload. -/
structure Reply (α : Type) where
  code : ℤ
  payload : List α := []
deriving DecidableEq,Repr

/-- What a worker does with a command: refuse it before it reads any payload, or read so many
bytes and answer. -/
inductive Plan (α : Type)
  | refuse (code : ℤ)
  | serve (len : ℕ) (answer : List α → Reply α)

inductive Conn (α : Type)
  | queueing
  | sending (s : Sender α)
  | waiting
  | receiving (code : ℤ) (r : Receiver α)
  | finished (code : ℤ) (got : List α)
  | gone
deriving DecidableEq,Repr

inductive Worker (α : Type)
  | idle
  | draining (r : Receiver α)
  | answering (m : Reply α)
  | replying (m : Reply α)
  | sending (s : Sender α)
  | left
deriving DecidableEq,Repr

structure Exchange (α : Type) where
  conn : Conn α := .queueing
  worker : Worker α := .idle
  request : Bool := false
  reply : Option (Reply α) := none
  channel : Channel α

def Plan.first : Plan α → Worker α
  | .refuse code => .answering { code := code }
  | .serve len _ => .draining { left := len }

/-- The connection is reading from its socket or writing to it. -/
inductive Talking : Conn α → Prop
  | sending {rest : List α} {i : ℕ} : Talking (.sending { rest := rest,pc := .copy i })
  | receiving {code : ℤ} {got : List α} {left : ℕ} {pc : ReceivePc} :
      Talking (.receiving code { got := got,left := left,pc := pc })

/-- Before an answer with a payload the worker frees the slot. -/
def prepared (m : Reply α) (c : Channel α) : Channel α := if m.payload = [] then c else c.setval 2

inductive Step (shmsiz : ℕ) (upload : List α) (plan : Plan α) : Exchange α → Exchange α → Prop
  | queue {e : Exchange α} (here : e.conn = .queueing) :
      Step shmsiz upload plan e { e with conn := .sending { rest := upload },request := true }
  | upload {e : Exchange α} {s s' : Sender α} {c : Channel α} (here : e.conn = .sending s)
      (next : s.next shmsiz e.channel = some (s',c)) :
      Step shmsiz upload plan e { e with conn := .sending s',channel := c }
  | sent {e : Exchange α} {s : Sender α} (here : e.conn = .sending s) (ended : s.Over) :
      Step shmsiz upload plan e { e with conn := .waiting }
  | receive {e : Exchange α} {m : Reply α} (here : e.conn = .waiting) (message : e.reply = some m) :
      Step shmsiz upload plan e
        { e with conn := .receiving m.code { left := m.payload.length },reply := none }
  | download {e : Exchange α} {code : ℤ} {r r' : Receiver α} {c : Channel α} (here : e.conn = .receiving code r)
      (next : r.next shmsiz e.channel = some (r',c)) :
      Step shmsiz upload plan e { e with conn := .receiving code r',channel := c }
  | finish {e : Exchange α} {code : ℤ} {r : Receiver α} (here : e.conn = .receiving code r) (ended : r.Over) :
      Step shmsiz upload plan e { e with conn := .finished code r.got }
  | hangup {e : Exchange α} (talking : Talking e.conn) : Step shmsiz upload plan e { e with conn := .gone }
  | fetch {e : Exchange α} (here : e.worker = .idle) (message : e.request = true) :
      Step shmsiz upload plan e { e with worker := plan.first,request := false }
  | drain {e : Exchange α} {r r' : Receiver α} {c : Channel α} (here : e.worker = .draining r)
      (next : r.next shmsiz e.channel = some (r',c)) :
      Step shmsiz upload plan e { e with worker := .draining r',channel := c }
  | drained {e : Exchange α} {r : Receiver α} {len : ℕ} {answer : List α → Reply α}
      (here : e.worker = .draining r) (ended : r.Over) (serve : plan = .serve len answer) :
      Step shmsiz upload plan e { e with worker := .answering (answer r.got) }
  | setup {e : Exchange α} {m : Reply α} (here : e.worker = .answering m) :
      Step shmsiz upload plan e { e with worker := .replying m,channel := prepared m e.channel }
  | reply {e : Exchange α} {m : Reply α} (here : e.worker = .replying m) :
      Step shmsiz upload plan e { e with worker := .sending { rest := m.payload },reply := some m }
  | respond {e : Exchange α} {s s' : Sender α} {c : Channel α} (here : e.worker = .sending s)
      (next : s.next shmsiz e.channel = some (s',c)) :
      Step shmsiz upload plan e { e with worker := .sending s',channel := c }
  | leave {e : Exchange α} {s : Sender α} (here : e.worker = .sending s) (ended : s.Over) :
      Step shmsiz upload plan e { e with worker := .left }

/-! ## The phases of an exchange -/

/-- The answer a plan comes to. -/
def Plan.outcome (upload : List α) : Plan α → Reply α
  | .refuse code => { code := code }
  | .serve _ answer => answer upload

/-- The bytes the connection has still to send. -/
inductive Uploads : Conn α → Sender α → Prop
  | sending {s : Sender α} : Uploads (.sending s) s
  | waiting : Uploads .waiting { rest := [] }

inductive Drains (len : ℕ) : Worker α → Bool → Receiver α → Prop
  | idle : Drains len .idle true { left := len }
  | draining {r : Receiver α} : Drains len (.draining r) false r

/-- A worker on its way out of a command that it refuses. -/
inductive Refuses (m : Reply α) : Worker α → Bool → Option (Reply α) → Prop
  | idle : Refuses m .idle true none
  | answering : Refuses m (.answering m) false none
  | replying : Refuses m (.replying m) false none
  | sending : Refuses m (.sending { rest := [] }) false (some m)
  | left : Refuses m .left false (some m)

/-- A worker that has an answer, with what it still has to send and what is in the queue
while the connection has not looked there. -/
inductive Replies (m : Reply α) : Worker α → Option (Reply α) → Sender α → Prop
  | replying : Replies m (.replying m) none { rest := m.payload }
  | sending {s : Sender α} : Replies m (.sending s) (some m) s
  | left : Replies m .left (some m) { rest := [] }

/-- A connection with nothing more to send. -/
inductive Idles : Conn α → Prop
  | sending : Idles (.sending { rest := [] })
  | waiting : Idles .waiting

/-- A connection that has its answer. -/
inductive Reads (m : Reply α) : Conn α → Receiver α → Prop
  | receiving {r : Receiver α} : Reads m (.receiving m.code r) r
  | finished {got : List α} : Reads m (.finished m.code got) { got := got,left := 0 }

inductive Phase (shmsiz : ℕ) (upload : List α) (plan : Plan α) : Exchange α → Prop
  | queueing {c : Channel α} (free : upload≠[] → c.value = 2) : Phase shmsiz upload plan { channel := c }
  | gone {w : Worker α} {request : Bool} {reply : Option (Reply α)} {c : Channel α} :
      Phase shmsiz upload plan ⟨.gone,w,request,reply,c⟩
  | uploading {conn : Conn α} {w : Worker α} {request : Bool} {c : Channel α} {s : Sender α} {r : Receiver α}
      {answer : List α → Reply α} (serve : plan = .serve upload.length answer) (uploads : Uploads conn s)
      (drains : Drains upload.length w request r) (linked : Linked shmsiz upload s r c) :
      Phase shmsiz upload plan ⟨conn,w,request,none,c⟩
  | refused {conn : Conn α} {w : Worker α} {request : Bool} {reply : Option (Reply α)} {c : Channel α} {s : Sender α}
      {code : ℤ} (refuse : plan = .refuse code) (uploads : Uploads conn s)
      (refuses : Refuses { code := code } w request reply)
      (linked : Linked shmsiz upload s { left := upload.length } c) :
      Phase shmsiz upload plan ⟨conn,w,request,reply,c⟩
  | answering {conn : Conn α} {c : Channel α} (idles : Idles conn) :
      Phase shmsiz upload plan ⟨conn,.answering (plan.outcome upload),false,none,c⟩
  | replying {conn : Conn α} {w : Worker α} {reply : Option (Reply α)} {c : Channel α} {s : Sender α}
      (replies : Replies (plan.outcome upload) w reply s) (idles : Idles conn)
      (linked : Linked shmsiz (plan.outcome upload).payload s
        { left := (plan.outcome upload).payload.length } c) :
      Phase shmsiz upload plan ⟨conn,w,false,reply,c⟩
  | reading {conn : Conn α} {w : Worker α} {reply : Option (Reply α)} {c : Channel α} {s : Sender α}
      {r : Receiver α} (replies : Replies (plan.outcome upload) w reply s) (sent : reply≠none)
      (reads : Reads (plan.outcome upload) conn r)
      (linked : Linked shmsiz (plan.outcome upload).payload s r c) :
      Phase shmsiz upload plan ⟨conn,w,false,none,c⟩

variable {upload : List α} {plan : Plan α} {conn : Conn α} {w : Worker α} {request : Bool}
  {reply : Option (Reply α)} {c c' : Channel α} {s s' : Sender α} {r : Receiver α} {e e' : Exchange α} {m : Reply α}

theorem prepared_free (m : Reply α) (c : Channel α) : m.payload≠[] → (prepared m c).value = 2 := by
  intro hne
  simp [prepared,hne]

/-! ## One step keeps the phase -/

theorem Phase.of_queueing (free : upload≠[] → c.value = 2) (hplan : ∀ len answer,plan = .serve len answer → len = upload.length)
    (h : Step shmsiz upload plan { channel := c } e') : Phase shmsiz upload plan e' := by
  cases h with
  | queue here =>
    cases plan with
    | refuse code => exact .refused rfl .sending .idle (linked_start free)
    | serve len answer =>
      obtain rfl := hplan len answer rfl
      exact .uploading rfl .sending .idle (linked_start free)
  | hangup talking => cases talking
  | fetch here message => cases message
  | _ => contradiction

theorem Phase.of_gone (h : Step shmsiz upload plan ⟨.gone,w,request,reply,c⟩ e') : Phase shmsiz upload plan e' := by
  cases h with
  | hangup talking => cases talking
  | fetch | drain | drained | setup | reply | respond | leave => exact .gone
  | _ => contradiction

theorem Phase.of_uploading (hshm : 1 ≤ shmsiz) {answer : List α → Reply α} (serve : plan = .serve upload.length answer)
    (uploads : Uploads conn s) (drains : Drains upload.length w request r) (linked : Linked shmsiz upload s r c)
    (h : Step shmsiz upload plan ⟨conn,w,request,none,c⟩ e') : Phase shmsiz upload plan e' := by
  cases h with
  | upload here next =>
    obtain rfl := here
    cases uploads
    exact .uploading serve .sending drains (linked.send hshm next)
  | sent here ended =>
    obtain rfl := here
    cases uploads
    rw [ended.eq] at linked
    exact .uploading serve .waiting drains linked
  | hangup talking => exact .gone
  | fetch here message =>
    obtain rfl := here
    cases drains
    subst serve
    exact .uploading rfl uploads .draining linked
  | drain here next =>
    obtain rfl := here
    cases drains
    exact .uploading serve uploads .draining (linked.receive next)
  | drained here ended serve' =>
    obtain rfl := here
    cases drains
    obtain ⟨hgot,hsent⟩ := linked.received ended
    obtain ⟨-,rfl⟩ := Plan.serve.inj (serve.symm.trans serve')
    rw [hsent.eq] at uploads
    have hphase : Phase shmsiz upload plan ⟨conn,.answering (plan.outcome upload),false,none,c⟩ := by
      apply Phase.answering
      cases uploads with
      | sending => exact .sending
      | waiting => exact .waiting
    rw [serve] at hphase ⊢
    rw [hgot]
    exact hphase
  | queue here => subst here; cases uploads
  | receive here message => cases message
  | download here next => subst here; cases uploads
  | finish here ended => subst here; cases uploads
  | setup here => subst here; cases drains
  | reply here => subst here; cases drains
  | respond here next => subst here; cases drains
  | leave here ended => subst here; cases drains

theorem Phase.of_refused (hshm : 1 ≤ shmsiz) {code : ℤ} (refuse : plan = .refuse code) (uploads : Uploads conn s)
    (refuses : Refuses { code := code } w request reply)
    (linked : Linked shmsiz upload s { left := upload.length } c)
    (h : Step shmsiz upload plan ⟨conn,w,request,reply,c⟩ e') : Phase shmsiz upload plan e' := by
  cases h with
  | upload here next =>
    obtain rfl := here
    cases uploads
    exact .refused refuse .sending refuses (linked.send hshm next)
  | sent here ended =>
    obtain rfl := here
    cases uploads
    rw [ended.eq] at linked
    exact .refused refuse .waiting refuses linked
  | receive here message =>
    obtain rfl := here
    obtain rfl := message
    subst refuse
    cases refuses with
    | sending => exact .reading .sending (by simp) .receiving .ended
    | left => exact .reading .left (by simp) .receiving .ended
  | hangup talking => exact .gone
  | fetch here message =>
    obtain rfl := here
    cases refuses
    subst refuse
    exact .refused rfl uploads .answering linked
  | setup here =>
    obtain rfl := here
    cases refuses
    exact .refused refuse uploads .replying linked
  | reply here =>
    obtain rfl := here
    cases refuses
    exact .refused refuse uploads .sending linked
  | respond here next =>
    subst here
    cases refuses
    rw [Sender.Over.next ⟨rfl,rfl⟩] at next
    cases next
  | leave here ended =>
    subst here
    cases refuses
    exact .refused refuse uploads .left linked
  | queue here => subst here; cases uploads
  | download here next => subst here; cases uploads
  | finish here ended => subst here; cases uploads
  | drain here next => subst here; cases refuses
  | drained here ended serve => subst here; cases refuses

theorem Phase.of_answering (idles : Idles conn)
    (h : Step shmsiz upload plan ⟨conn,.answering (plan.outcome upload),false,none,c⟩ e') :
    Phase shmsiz upload plan e' := by
  cases h with
  | upload here next =>
    subst here
    cases idles
    rw [Sender.Over.next ⟨rfl,rfl⟩] at next
    cases next
  | sent here ended => exact .answering .waiting
  | hangup talking => exact .gone
  | setup here =>
    obtain rfl := Worker.answering.inj here
    exact .replying .replying idles (linked_start (prepared_free _ _))
  | queue here => subst here; cases idles
  | receive here message => cases message
  | download here next => subst here; cases idles
  | finish here ended => subst here; cases idles
  | _ => contradiction

theorem Phase.of_replying (hshm : 1 ≤ shmsiz) (replies : Replies (plan.outcome upload) w reply s) (idles : Idles conn)
    (linked : Linked shmsiz (plan.outcome upload).payload s { left := (plan.outcome upload).payload.length } c)
    (h : Step shmsiz upload plan ⟨conn,w,false,reply,c⟩ e') : Phase shmsiz upload plan e' := by
  cases h with
  | upload here next =>
    subst here
    cases idles
    rw [Sender.Over.next ⟨rfl,rfl⟩] at next
    cases next
  | sent here ended => exact .replying replies .waiting linked
  | receive here message =>
    obtain rfl := message
    cases replies with
    | sending => exact .reading .sending (by simp) .receiving linked
    | left => exact .reading .left (by simp) .receiving linked
  | hangup talking => exact .gone
  | fetch here message => cases message
  | reply here =>
    subst here
    cases replies
    exact .replying .sending idles linked
  | respond here next =>
    subst here
    cases replies
    exact .replying .sending idles (linked.send hshm next)
  | leave here ended =>
    subst here
    cases replies
    rw [ended.eq] at linked
    exact .replying .left idles linked
  | queue here => subst here; cases idles
  | download here next => subst here; cases idles
  | finish here ended => subst here; cases idles
  | drain here next => subst here; cases replies
  | drained here ended serve => subst here; cases replies
  | setup here => subst here; cases replies

theorem Phase.of_reading (hshm : 1 ≤ shmsiz) (replies : Replies (plan.outcome upload) w reply s) (sent : reply≠none)
    (reads : Reads (plan.outcome upload) conn r) (linked : Linked shmsiz (plan.outcome upload).payload s r c)
    (h : Step shmsiz upload plan ⟨conn,w,false,none,c⟩ e') : Phase shmsiz upload plan e' := by
  cases h with
  | receive here message => cases message
  | download here next =>
    subst here
    cases reads
    exact .reading replies sent .receiving (linked.receive next)
  | finish here ended =>
    subst here
    cases reads
    rw [ended.eq] at linked
    exact .reading replies sent .finished linked
  | hangup talking => exact .gone
  | fetch here message => cases message
  | reply here =>
    subst here
    cases replies
    exact absurd rfl sent
  | respond here next =>
    subst here
    cases replies
    exact .reading .sending sent reads (linked.send hshm next)
  | leave here ended =>
    subst here
    cases replies
    rw [ended.eq] at linked
    exact .reading .left sent reads linked
  | queue here => subst here; cases reads
  | upload here next => subst here; cases reads
  | sent here ended => subst here; cases reads
  | drain here next => subst here; cases replies
  | drained here ended serve => subst here; cases replies
  | setup here => subst here; cases replies

/-- The worker reads as many bytes as the connection sends. -/
def Plan.Fits (upload : List α) (plan : Plan α) : Prop := ∀ len answer,plan = .serve len answer → len = upload.length

theorem Phase.step (hshm : 1 ≤ shmsiz) (hplan : plan.Fits upload) (h : Phase shmsiz upload plan e)
    (hstep : Step shmsiz upload plan e e') : Phase shmsiz upload plan e' := by
  cases h with
  | queueing free => exact of_queueing free hplan hstep
  | gone => exact of_gone hstep
  | uploading serve uploads drains linked => exact of_uploading hshm serve uploads drains linked hstep
  | refused refuse uploads refuses linked => exact of_refused hshm refuse uploads refuses linked hstep
  | answering idles => exact of_answering idles hstep
  | replying replies idles linked => exact of_replying hshm replies idles linked hstep
  | reading replies sent reads linked => exact of_reading hshm replies sent reads linked hstep

theorem Phase.run (hshm : 1 ≤ shmsiz) (hplan : plan.Fits upload) (h : Phase shmsiz upload plan e)
    (hrun : Relation.ReflTransGen (Step shmsiz upload plan) e e') : Phase shmsiz upload plan e' := by
  induction hrun with
  | refl => exact h
  | tail run last ih => exact ih.step hshm hplan last

/-! ## What the phases say -/

/-- The loop in which a connection sends, ended if it is not in it. -/
def Conn.sender : Conn α → Sender α
  | .sending s => s
  | _ => { rest := [] }

def Worker.sender : Worker α → Sender α
  | .sending s => s
  | _ => { rest := [] }

theorem Uploads.sender (h : Uploads conn s) : conn.sender = s := by
  cases h with
  | sending => rfl
  | waiting => rfl

theorem Replies.sender (h : Replies m w reply s) (sent : reply≠none) : w.sender = s := by
  cases h with
  | replying => exact absurd rfl sent
  | sending => rfl
  | left => rfl

/-- Whatever the worker says is the answer to the bytes that were sent. -/
theorem Phase.message (h : Phase shmsiz upload plan e) (live : e.conn≠.gone)
    (hm : e.reply = some m ∨ e.worker = .answering m ∨ e.worker = .replying m) : m = plan.outcome upload := by
  cases h with
  | queueing free => simp at hm
  | gone => exact absurd rfl live
  | uploading serve uploads drains linked => cases drains <;> simp at hm
  | refused refuse uploads refuses linked =>
    subst refuse
    cases refuses <;> simp at hm <;> exact hm.symm
  | answering idles => simpa [eq_comm] using hm
  | replying replies idles linked => cases replies <;> simpa [eq_comm] using hm
  | reading replies sent reads linked =>
    cases replies with
    | replying => exact absurd rfl sent
    | sending => simp at hm
    | left => simp at hm

theorem Phase.finished (h : Phase shmsiz upload plan e) {code : ℤ} {got : List α} (here : e.conn = .finished code got) :
    (⟨code,got⟩ : Reply α) = plan.outcome upload := by
  cases h with
  | queueing free => cases here
  | gone => cases here
  | uploading serve uploads drains linked =>
    obtain rfl := here
    cases uploads
  | refused refuse uploads refuses linked =>
    obtain rfl := here
    cases uploads
  | answering idles =>
    obtain rfl := here
    cases idles
  | replying replies idles linked =>
    obtain rfl := here
    cases idles
  | reading replies sent reads linked =>
    obtain rfl := here
    cases reads
    obtain ⟨hgot,-⟩ := linked.received ⟨rfl,rfl⟩
    simp only at hgot
    rw [hgot]

/-! ## Every step costs something -/

def Conn.effort (up down : ℕ) : Conn α → ℕ
  | .queueing => 4*up+4*down+4
  | .sending s => s.effort+4*down+3
  | .waiting => 4*down+2
  | .receiving _ r => r.effort+1
  | .finished _ _ => 0
  | .gone => 0

def Worker.effort (up down : ℕ) : Worker α → ℕ
  | .idle => 4*up+4*down+5
  | .draining r => r.effort+4*down+4
  | .answering _ => 4*down+3
  | .replying _ => 4*down+2
  | .sending s => s.effort+1
  | .left => 0

def Exchange.effort (upload : List α) (plan : Plan α) (e : Exchange α) : ℕ :=
  e.conn.effort upload.length (plan.outcome upload).payload.length +
    e.worker.effort upload.length (plan.outcome upload).payload.length

end Dataman.MessageExchange

import Dataman.MessageExchange

/-!
# Exchanges come to their end

The bytes of both transfers arrive as they were sent, and of the two processes one can
always go on, except where the worker has refused the command and the payload does not fit
into the segment.
-/

namespace Dataman.MessageExchange
open SharedTransfer LabelledRuns Relation

variable {α : Type} {shmsiz : ℕ} {upload : List α} {plan : Plan α} {conn : Conn α} {w : Worker α} {request : Bool}
  {reply : Option (Reply α)} {c : Channel α} {s : Sender α} {r : Receiver α} {e e' : Exchange α}

/-- Both are done, and the connection has the answer. -/
def Exchange.Ended (upload : List α) (plan : Plan α) (e : Exchange α) : Prop :=
  e.conn = .finished (plan.outcome upload).code (plan.outcome upload).payload ∧ e.worker = .left

/-- The connection waits for the slot and the worker, which has left the command, will not
release it. -/
def Exchange.Stranded (e : Exchange α) : Prop := ∃ s,e.conn = .sending s ∧ s.Waits e.channel ∧ e.worker = .left

/-- What the exchange comes to from here. -/
inductive Progress (shmsiz : ℕ) (upload : List α) (plan : Plan α) (e : Exchange α) : Prop
  | gone (lost : e.conn = .gone)
  | ended (ended : e.Ended upload plan)
  | stranded (long : shmsiz < upload.length) (stranded : e.Stranded)
  | moves {e' : Exchange α} (step : Step shmsiz upload plan e e')

/-! ## Progress in each phase -/

theorem Phase.progress_uploading {answer : List α → Reply α} (serve : plan = .serve upload.length answer)
    (uploads : Uploads conn s) (drains : Drains upload.length w request r) (linked : Linked shmsiz upload s r c) :
    Progress shmsiz upload plan ⟨conn,w,request,none,c⟩ := by
  cases drains with
  | idle => exact .moves (.fetch rfl rfl)
  | draining =>
    obtain ended | ⟨out,next⟩ | ⟨out,next⟩ := linked.progress
    · exact .moves (.drained rfl ended serve)
    · cases uploads with
      | sending => exact .moves (.upload rfl next)
      | waiting =>
        rw [Sender.Over.next ⟨rfl,rfl⟩] at next
        cases next
    · exact .moves (.drain rfl next)

theorem Phase.progress_refused {code : ℤ} (uploads : Uploads conn s) (refuses : Refuses { code := code } w request reply)
    (linked : Linked shmsiz upload s { left := upload.length } c) :
    Progress shmsiz upload plan ⟨conn,w,request,reply,c⟩ := by
  cases refuses with
  | idle => exact .moves (.fetch rfl rfl)
  | answering => exact .moves (.setup rfl)
  | replying => exact .moves (.reply rfl)
  | sending => exact .moves (.leave rfl ⟨rfl,rfl⟩)
  | left =>
    cases uploads with
    | waiting => exact .moves (.receive rfl rfl)
    | sending =>
      obtain hfits | hlong := le_or_gt upload.length shmsiz
      · obtain ended | ⟨out,next⟩ := linked.alone hfits
        · exact .moves (.sent rfl ended)
        · exact .moves (.upload rfl next)
      · obtain ⟨-,waits | ⟨out,next⟩⟩ := linked.stuck hlong
        · exact .stranded hlong ⟨_,rfl,waits,rfl⟩
        · exact .moves (.upload rfl next)

theorem Phase.progress_replying (replies : Replies (plan.outcome upload) w reply s) (idles : Idles conn) :
    Progress shmsiz upload plan ⟨conn,w,false,reply,c⟩ := by
  cases idles with
  | sending => exact .moves (.sent rfl ⟨rfl,rfl⟩)
  | waiting =>
    cases replies with
    | replying => exact .moves (.reply rfl)
    | sending => exact .moves (.receive rfl rfl)
    | left => exact .moves (.receive rfl rfl)

theorem Phase.progress_reading (replies : Replies (plan.outcome upload) w reply s) (sent : reply≠none)
    (reads : Reads (plan.outcome upload) conn r) (linked : Linked shmsiz (plan.outcome upload).payload s r c) :
    Progress shmsiz upload plan ⟨conn,w,false,none,c⟩ := by
  obtain ended | ⟨out,next⟩ | ⟨out,next⟩ := linked.progress
  · obtain ⟨hgot,hsent⟩ := linked.received ended
    cases reads with
    | receiving => exact .moves (.finish rfl ended)
    | finished =>
      cases replies with
      | replying => exact absurd rfl sent
      | sending => exact .moves (.leave rfl hsent)
      | left => exact .ended ⟨by rw [← hgot],rfl⟩
  · cases replies with
    | replying => exact absurd rfl sent
    | sending => exact .moves (.respond rfl next)
    | left =>
      rw [Sender.Over.next ⟨rfl,rfl⟩] at next
      cases next
  · cases reads with
    | receiving => exact .moves (.download rfl next)
    | finished =>
      rw [Receiver.Over.next ⟨rfl,rfl⟩] at next
      cases next

theorem Phase.progress (h : Phase shmsiz upload plan e) : Progress shmsiz upload plan e := by
  cases h with
  | queueing free => exact .moves (.queue rfl)
  | gone => exact .gone rfl
  | uploading serve uploads drains linked => exact progress_uploading serve uploads drains linked
  | refused refuse uploads refuses linked => exact progress_refused uploads refuses linked
  | answering idles => exact .moves (.setup rfl)
  | replying replies idles linked => exact progress_replying replies idles
  | reading replies sent reads linked => exact progress_reading replies sent reads linked

end Dataman.MessageExchange

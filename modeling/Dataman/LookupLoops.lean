import Dataman.LookupPruning

/-!
# How long lookups loop

The handlers do not look at what `rm_key` returns. A removal that fails leaves the entry in
its place and the next iteration finds it again. A record whose flag byte is 0 is treated as
a deleted one, but the mutex of its file stays locked.
-/

namespace Dataman.Lookups
open FixedWidthFields IndexFile DataFile

/-! ## The loop -/

/-- How far the loop of a handler has come. -/
inductive Progress
  | ended (reply : Reply) (db : Database)
  | searching (db : Database)
  /-- The handler waits for a mutex that it has locked itself. -/
  | deadlocked (db : Database)

def Progress.db : Progress → Database
  | ended _ db | searching db | deadlocked db => db

/-- `check_rec` unlocks the mutex only on its error exits; this is the exit with format 0. -/
def checkRecKeeps (rec : ℕ) (d : Disk) : Bool :=
  match (tryRead headerLength (llseek (offset rec) d).2).1 with
  | .ok (some name) => name.headD 0 = 0
  | _ => false

/-- Whether `upd_idx` returns 0 with the mutex of the file locked. -/
def updIdxKeeps (calls : Calls) (entry : Found) (rec : ℕ) (files : List (Option Member)) : Bool :=
  if files.length ≤ entry.fileId ∨ 255 ≤ entry.fileId then false
  else
    match files.getD entry.fileId none with
    | none => false
    | some data =>
      match data.file.elim calls.desc .ok with
      | .error _ => false
      | .ok file => checkRecKeeps rec (if data.file.isSome then data.disk else { data.disk with pos := file.hlen+2 })

/-- What `rm_key` leaves of the index in an iteration; its return value is not looked at. -/
abbrev Remover := ℕ → Found → Bytes → Bytes

/-- A handler with a loop, for at most this many iterations. -/
def Request.loop (r : Request) (remove : Remover) (calls : ℕ → Calls) : ℕ → Database → List ℕ → Progress
  | 0,db,_ => .searching db
  | n+1,db,held =>
    match r.find db.index with
    | none => .ended (r.missing db.index) db
    | some entry =>
      if entry.fileId∈held then .deadlocked db
      else
        let out := updIdx (calls n) entry (r.record entry) db.files
        if out.1 = .code 0 then
          Request.loop r remove calls n { index := remove n entry db.index,files := out.2 }
            (if updIdxKeeps (calls n) entry (r.record entry) db.files then entry.fileId::held else held)
        else .ended out.1 { db with files := out.2 }

/-- The iterations that go on although their entry is still there. -/
def Request.kept (r : Request) (remove : Remover) (calls : ℕ → Calls) : ℕ → Database → List ℕ → ℕ
  | 0,_,_ => 0
  | n+1,db,held =>
    match r.find db.index with
    | none => 0
    | some entry =>
      if entry.fileId∈held then 0
      else
        let out := updIdx (calls n) entry (r.record entry) db.files
        if out.1 = .code 0 then
          (if (entries (remove n entry db.index)).length < (entries db.index).length then 0 else 1) +
            Request.kept r remove calls n { index := remove n entry db.index,files := out.2 }
              (if updIdxKeeps (calls n) entry (r.record entry) db.files then entry.fileId::held else held)
        else 0

/-- The iterations that leave the mutex of a file locked. -/
def Request.locked (r : Request) (remove : Remover) (calls : ℕ → Calls) : ℕ → Database → List ℕ → ℕ
  | 0,_,_ => 0
  | n+1,db,held =>
    match r.find db.index with
    | none => 0
    | some entry =>
      if entry.fileId∈held then 0
      else
        let out := updIdx (calls n) entry (r.record entry) db.files
        if out.1 = .code 0 then
          (if updIdxKeeps (calls n) entry (r.record entry) db.files then 1 else 0) +
            Request.locked r remove calls n { index := remove n entry db.index,files := out.2 }
              (if updIdxKeeps (calls n) entry (r.record entry) db.files then entry.fileId::held else held)
        else 0

/-- What `rm_key` leaves, whatever it returns: an index with the same entries, or without that one. -/
def Remover.Sane (keylen : ℕ) (fileNames : List Bytes) (remove : Remover) : Prop :=
  ∀ n (entry : Found) f,Reachable keylen fileNames f → entry.composite.Fits keylen →
    Reachable keylen fileNames (remove n entry f) ∧ (entries (remove n entry f) = entries f ∨
      entries (remove n entry f) = (entries f).erase (entry.composite.encode keylen))

/-- `rm_key` itself, where it can write. -/
def rmKeyRemover (calls : ℕ → Calls) : Remover := fun n entry f => (rmKey (calls n).track entry f).getD f

theorem rmKeyRemover_sane {keylen : ℕ} {fileNames : List Bytes} (hcount : fileNames.length < 2 ^ 16) (calls : ℕ → Calls) :
    (rmKeyRemover calls).Sane keylen fileNames := by
  intro n entry f hr hfit
  rw [rmKeyRemover]
  cases hrun : rmKey (calls n).track entry f with
  | none => exact ⟨hr,.inl rfl⟩
  | some g =>
    cases hh : indexV2ReadHeader f with
    | none =>
      have hsame : rmKey (calls n).track entry f = some f := by simp [rmKey,indexV2FindExact,hh]
      obtain rfl := Option.some.inj (hsame.symm.trans hrun)
      exact ⟨hr,.inl rfl⟩
    | some hd =>
      obtain ⟨hkeylen,h,t,hn⟩ := navigable_of_reachable hcount hr hh
      obtain ⟨hreach,hentries⟩ := rmKey_entries hcount hr hn hkeylen hfit hrun
      exact ⟨hreach,hentries.imp_right And.right⟩

/-! ## One iteration -/

variable {n keylen : ℕ} {fileNames : List Bytes} {r : Request} {db db' : Database} {held : List ℕ} {remove : Remover}
  {calls : ℕ → Calls}

/-- An iteration that goes on, and what is counted in it. -/
structure Goes (r : Request) (remove : Remover) (calls : ℕ → Calls) (n : ℕ) (db db' : Database) (held held' : List ℕ)
    (entry : Found) : Prop where
  find : r.find db.index = some entry
  index : db'.index = remove n entry db.index
  loop : r.loop remove calls (n+1) db held = r.loop remove calls n db' held'
  kept : r.kept remove calls (n+1) db held =
    (if (entries db'.index).length < (entries db.index).length then 0 else 1)+r.kept remove calls n db' held'
  locked : held' = held ∧ r.locked remove calls (n+1) db held = r.locked remove calls n db' held' ∨
    0 < r.locked remove calls (n+1) db held

/-- An iteration that is the last one: it ends, or waits for itself. -/
structure Stays (r : Request) (remove : Remover) (calls : ℕ → Calls) (n : ℕ) (db : Database) (held : List ℕ) : Prop where
  kept : r.kept remove calls (n+1) db held = 0
  loop : (∃ reply db',db'.index = db.index ∧ r.loop remove calls (n+1) db held = .ended reply db') ∨
    held≠[] ∧ r.loop remove calls (n+1) db held = .deadlocked db

theorem Request.loop_cases (r : Request) (remove : Remover) (calls : ℕ → Calls) (n : ℕ) (db : Database) (held : List ℕ) :
    Stays r remove calls n db held ∨ ∃ entry db' held',Goes r remove calls n db db' held held' entry := by
  cases hfind : r.find db.index with
  | none => exact .inl ⟨by simp only [Request.kept,hfind],.inl ⟨r.missing db.index,db,rfl,by simp only [Request.loop,hfind]⟩⟩
  | some entry =>
    by_cases hmem : entry.fileId∈held
    · exact .inl ⟨by simp only [Request.kept,hfind,hmem,if_true],
        .inr ⟨List.ne_nil_of_mem hmem,by simp only [Request.loop,hfind,hmem,if_true]⟩⟩
    · by_cases hzero : (updIdx (calls n) entry (r.record entry) db.files).1 = .code 0
      · refine .inr ⟨entry,{ index := remove n entry db.index,files := (updIdx (calls n) entry (r.record entry) db.files).2 },
          if updIdxKeeps (calls n) entry (r.record entry) db.files then entry.fileId::held else held,hfind,rfl,?_,?_,?_⟩
        · simp only [Request.loop,hfind,hmem,hzero,if_false,if_true]
        · simp only [Request.kept,hfind,hmem,hzero,if_false,if_true]
        · simp only [Request.locked,hfind,hmem,hzero,if_false,if_true]
          cases updIdxKeeps (calls n) entry (r.record entry) db.files with
          | true => exact .inr (by simp only [if_true]; omega)
          | false => exact .inl ⟨by simp,by simp⟩
      · refine .inl ⟨by simp only [Request.kept,hfind,hmem,hzero,if_false],
          .inl ⟨(updIdx (calls n) entry (r.record entry) db.files).1,
            { db with files := (updIdx (calls n) entry (r.record entry) db.files).2 },rfl,?_⟩⟩
        simp only [Request.loop,hfind,hmem,hzero,if_false]

def sampleFound : Found := ⟨0,12,[0x61,0x62],((indexV2First sampleIndex).map (·.cursor)).getD ⟨0,0,0⟩⟩

end Dataman.Lookups

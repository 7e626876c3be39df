import Dataman.ByteFiles
import Dataman.FieldText

/-!
# The commands of a cleanfile

The INDEX section of a cleanfile holds one command a line. `get_command` looks for the end
of a line and goes back from there to the next blank: with a newline at the end that is
the newline itself, without one it is a blank before the last word.
-/

namespace Dataman.CleanCommands
open FieldText

/-! ## The scanner -/

def newline : UInt8 := 10

/-- The length of the destination, `cmd` in `main`. -/
def cmdSize : ℕ := 512

inductive Outcome
  | done (src : ℕ)
  | command (cmd : Bytes) (src : ℕ)
  /-- A byte before the text is read, or the destination overflows. -/
  | outside
  deriving DecidableEq

/-- The first byte from `src` on that is no blank of its line. -/
def skipBlanks (text : Bytes) (src : ℕ) : ℕ :=
  src+((text.drop src).takeWhile fun b => b≠newline ∧ isSpace b).length

/-- The newline at the end of a line, or the end of the text. -/
def lineEnd (text : Bytes) (cptr : ℕ) : ℕ := cptr+((text.drop cptr).takeWhile (· ≠ newline)).length

/-- `while(!isspace(*eptr)) eptr--` -/
def walkBack (text : Bytes) : ℕ → Option ℕ
  | 0 => if isSpace (text.getD 0 0) then some 0 else none
  | eptr+1 => if isSpace (text.getD (eptr+1) 0) then some (eptr+1) else walkBack text eptr

def getCommand (text : Bytes) (src : ℕ) : Outcome :=
  let cptr := skipBlanks text src
  if text.getD cptr 0 = 0 ∨ text.getD cptr 0 = newline then .done cptr
  else
    match walkBack text (lineEnd text cptr) with
    | none => .outside
    | some eptr =>
      -- a negative length is a huge one for `memcpy`
      if eptr < cptr ∨ cmdSize ≤ eptr - cptr then .outside
      else .command ((text.drop cptr).take (eptr - cptr)) (eptr+1)

/-- Successive calls return the commands of the list and then 0. -/
inductive Calls (text : Bytes) : ℕ → List Bytes → Prop
  | done {src cptr} : getCommand text src = .done cptr → Calls text src []
  | next {src cmd src' cmds} : getCommand text src = .command cmd src' → Calls text src' cmds →
      Calls text src (cmd::cmds)

/-! ## Lines -/

/-- A line that is not blank and leaves room for the zero behind the command. -/
structure Line (line : Bytes) : Prop where
  short : line.length < cmdSize
  zero : 0∉line
  oneLine : newline∉line
  word : ∃ b∈line,isSpace b = false

/-- The text of lines, the last of which may lack its newline. -/
def sectionText (final : Bool) : List Bytes → Bytes
  | [] => []
  | [line] => if final then line++[newline] else line
  | line::next::lines => line++newline::sectionText final (next::lines)

/-- A line without its leading blanks. -/
def command (line : Bytes) : Bytes := line.dropWhile isSpace

variable {line : Bytes}

theorem Line.exists_split (h : Line line) :
    ∃ blanks b body,line = blanks++b::body ∧ (∀ c∈blanks,isSpace c = true) ∧ isSpace b = false ∧
      command line = b::body := by
  obtain ⟨b,body,hcommand⟩ : ∃ b body,command line = b::body := by
    apply List.exists_cons_of_ne_nil
    intro hnil
    obtain ⟨c,hc,hspace⟩ := h.word
    rw [List.dropWhile_eq_nil_iff.1 hnil c hc] at hspace
    cases hspace
  refine ⟨line.takeWhile isSpace,b,body,?_,?_,?_,hcommand⟩
  · rw [← hcommand,command,List.takeWhile_append_dropWhile]
  · intro c hc
    exact List.mem_takeWhile_imp hc
  · rw [command] at hcommand
    have hne : line.dropWhile isSpace≠[] := hcommand ▸ List.cons_ne_nil b body
    have hhead := List.head_dropWhile_not isSpace hne
    simpa only [hcommand,List.head_cons] using hhead

/-- What a call does with a line depends only on how far it walks back from its end. -/
theorem Line.getCommand_eq (h : Line line) (before tail : Bytes) (htail : ∀ b∈tail.head?,b = newline) :
    ∃ cptr,cptr+(command line).length = before.length+line.length ∧
      getCommand (before++(line++tail)) before.length =
        match walkBack (before++(line++tail)) (before.length+line.length) with
        | none => .outside
        | some eptr =>
          if eptr < cptr ∨ cmdSize ≤ eptr - cptr then .outside
          else .command ((command line++tail).take (eptr - cptr)) (eptr+1) := by
  obtain ⟨blanks,b,body,hline,hblanks,hb,hcommand⟩ := h.exists_split
  have hnot : ∀ c∈line,c≠newline := by
    rintro c hc rfl
    exact h.oneLine hc
  have hmem : b∈line := by rw [hline]; simp
  have hzero : b≠0 := by
    rintro rfl
    exact h.zero hmem
  have hskip : skipBlanks (before++(line++tail)) before.length = before.length+blanks.length := by
    rw [skipBlanks,List.drop_left,hline,List.append_assoc,List.takeWhile_append_of_pos,List.cons_append,
      List.takeWhile_cons_of_neg,List.append_nil]
    · simp [hb]
    · intro c hc
      have := hnot c (by rw [hline]; exact List.mem_append_left _ hc)
      simp [this,hblanks c hc]
  have hdrop : (before++(line++tail)).drop (before.length+blanks.length) = command line++tail := by
    rw [hcommand,List.drop_append,hline,List.append_assoc]
    simp
  have hget : (before++(line++tail)).getD (before.length+blanks.length) 0 = b := by
    rw [List.getD_eq_getElem?_getD,← List.head?_drop,hdrop,hcommand]
    rfl
  have hend : lineEnd (before++(line++tail)) (before.length+blanks.length) = before.length+line.length := by
    rw [lineEnd,hdrop,List.takeWhile_append_of_pos]
    · have htake : tail.takeWhile (· ≠ newline) = [] := by
        cases tail with
        | nil => rfl
        | cons c tail => simp [htail c rfl]
      rw [htake,hcommand,hline]
      simp
      omega
    · intro c hc
      have := hnot c ((List.dropWhile_suffix isSpace).subset hc)
      simpa using this
  refine ⟨before.length+blanks.length,?_,?_⟩
  · rw [hcommand,hline]
    simp
    omega
  · have hmore : ¬ (b = 0 ∨ b = newline) := not_or.2 ⟨hzero,hnot b hmem⟩
    simp only [getCommand,hskip,hget,hend,hdrop]
    rw [if_neg hmore]

/-- A line with its newline is read as it is. -/
theorem Line.getCommand_newline (h : Line line) (before rest : Bytes) :
    getCommand (before++(line++newline::rest)) before.length =
      .command (command line) (before++line++[newline]).length := by
  obtain ⟨cptr,hcptr,heq⟩ := h.getCommand_eq before (newline::rest) (by simp)
  have hback : walkBack (before++(line++newline::rest)) (before.length+line.length) =
      some (before.length+line.length) := by
    have hget : (before++(line++newline::rest)).getD (before.length+line.length) 0 =
        newline := by
      rw [← List.append_assoc,← List.length_append,List.getD_eq_getElem?_getD]
      simp
    cases hlen : before.length+line.length with
    | zero => rw [hlen] at hget; rw [walkBack,hget]; rfl
    | succ n => rw [hlen] at hget; rw [walkBack,hget]; rfl
  have hlen : before.length+line.length - cptr = (command line).length := by omega
  have hroom : ¬ (before.length+line.length < cptr ∨ cmdSize ≤ (command line).length) := by
    have hle : (command line).length ≤ line.length := (List.dropWhile_suffix isSpace).length_le
    have hshort := h.short
    omega
  rw [heq,hback]
  dsimp only
  rw [hlen,if_neg hroom,List.take_left]
  simp [Nat.add_assoc]

theorem walkBack_le {text : Bytes} {eptr i : ℕ} (h : walkBack text i = some eptr) : eptr ≤ i := by
  induction i with
  | zero =>
    rw [walkBack] at h
    split_ifs at h
    cases h
    rfl
  | succ i ih =>
    rw [walkBack] at h
    split_ifs at h
    · cases h
      rfl
    · exact Nat.le_succ_of_le (ih h)

/-- Without its newline a line loses at least its last byte. -/
theorem Line.getCommand_end (h : Line line) (before : Bytes) (src : ℕ) :
    getCommand (before++line) before.length≠.command (command line) src := by
  obtain ⟨cptr,hcptr,heq⟩ := h.getCommand_eq before [] (by simp)
  rw [List.append_nil] at heq
  obtain ⟨last,hlast⟩ : ∃ last,before.length+line.length = last+1 := by
    obtain ⟨b,hb,-⟩ := h.word
    have := List.length_pos_of_mem hb
    exact ⟨before.length+line.length - 1,by omega⟩
  have hback : walkBack (before++line) (before.length+line.length) = walkBack (before++line) last := by
    have hget : (before++line).getD (last+1) 0 = 0 := by
      rw [← hlast,← List.length_append]
      simp
    rw [hlast,walkBack,hget]
    rfl
  rw [heq,hback]
  cases hwalk : walkBack (before++line) last with
  | none => simp
  | some eptr =>
    have hle := walkBack_le hwalk
    dsimp only
    split_ifs with hroom
    · simp
    · intro hcommand
      injection hcommand with hcommand
      have := congrArg List.length hcommand
      rw [List.append_nil,List.length_take] at this
      omega

/-! ## Successive calls -/

theorem Calls.cons_iff {text cmd : Bytes} {src src' : ℕ} {cmds : List Bytes} (h : getCommand text src = .command cmd src') :
    Calls text src (cmd::cmds) ↔ Calls text src' cmds := by
  constructor
  · intro hcalls
    cases hcalls with
    | next hcommand hnext =>
      rw [h] at hcommand
      cases hcommand
      exact hnext
  · exact Calls.next h

theorem calls_end (before : Bytes) : Calls before before.length [] := by
  have hskip : skipBlanks before before.length = before.length := by simp [skipBlanks]
  apply Calls.done
  simp only [getCommand,hskip]
  rw [if_pos]
  simp

theorem calls_from (final : Bool) (lines : List Bytes) (h : ∀ line∈lines,Line line) (before : Bytes) :
    Calls (before++sectionText final lines) before.length (lines.map command) ↔ final = true ∨ lines = [] := by
  induction lines generalizing before with
  | nil => simpa [sectionText] using calls_end before
  | cons line lines ih =>
    have hline := h line (List.mem_cons_self ..)
    cases lines with
    | nil =>
      cases final with
      | true =>
        rw [sectionText,if_pos rfl,List.map_cons,Calls.cons_iff (hline.getCommand_newline before [])]
        simpa using calls_end (before++line++[newline])
      | false =>
        simp only [sectionText,Bool.false_eq_true,reduceCtorEq,or_self,iff_false,List.map_cons]
        intro hcalls
        cases hcalls with
        | next hcommand _ => exact hline.getCommand_end before _ hcommand
    | cons next lines =>
      have hrest := ih (fun l hl => h l (List.mem_cons_of_mem _ hl)) (before++line++[newline])
      rw [sectionText,List.map_cons,Calls.cons_iff (hline.getCommand_newline before _)]
      simpa using hrest

theorem commands_read_iff (final : Bool) (lines : List Bytes) (h : ∀ line∈lines,Line line) :
    Calls (sectionText final lines) 0 (lines.map command) ↔ final = true ∨ lines = [] :=
  calls_from final lines h []

/-- `mkidx a b` -/
def sample : Bytes := [109,107,105,100,120,32,97,32,98]

theorem line_sample : Line sample := ⟨by decide,by decide,by decide,109,by decide,by decide⟩

/-- Without a newline at its end the command loses its last word, and the next call copies
a negative length. -/
theorem last_word_lost :
    getCommand (sectionText false [sample]) 0 = .command (sample.take 7) 8 ∧
      getCommand (sectionText false [sample]) 8 = .outside ∧
      ¬ Calls (sectionText false [sample]) 0 [sample] := by
  refine ⟨by decide,by decide,?_⟩
  intro hcalls
  cases hcalls with
  | next hcommand _ =>
    have hshort : getCommand (sectionText false [sample]) 0 = .command (sample.take 7) 8 := by decide
    rw [hshort] at hcommand
    cases hcommand

theorem commands_read_two : Line sample ∧ Calls (sectionText true [sample,sample]) 0 [sample,sample] :=
  ⟨line_sample,(commands_read_iff true [sample,sample] (by simpa using line_sample)).2 (.inl rfl)⟩

end Dataman.CleanCommands

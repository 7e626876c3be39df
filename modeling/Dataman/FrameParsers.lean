import Dataman.CommandLengths

/-!
# The two parsers of a long command (`serial_service.c`)

`shared_payload` reads a whole frame, `read_command_prefix` only as much as it needs of one and then calls
`shared_payload_header`. Both find the length between two separators, of which they take the second away for
`strtol` and put it back.
-/

namespace Dataman.FrameParsers
open FieldText FlushCommands CommandLengths

/-! ## In the buffer -/

/-- `memchr` from a position on. -/
def memchr (buf : List UInt8) (field : ℕ) : Option ℕ := ((buf.drop field).findIdx? (· = bar)).map (field + ·)

/-- The position behind the next fields. -/
def skipFields (buf : List UInt8) : ℕ → ℕ → Option ℕ
  | 0,field => some field
  | k+1,field => (memchr buf field).bind fun sep => skipFields buf k (sep+1)

/-- The number in front of a separator, and the buffer behind the call. -/
def lengthField (buf : List UInt8) (field sep : ℕ) : Option ℕ × List UInt8 :=
  let saved := buf.getD sep 0
  let ended := buf.set sep 0
  let text := cstr (ended.drop field)
  let value := strtol text
  let restored := ended.set sep saved
  let stop := field+(text.length - value.2.length)
  if outOfRange text ∨ restored.getD stop 0≠bar ∨ value.1 < 0 ∨ intMax < value.1 then (none,restored)
  else (some value.1.toNat,restored)

/-- The start and the length of the payload in a frame, and the frame behind the call. -/
def sharedPayload (buf : List UInt8) : Option (ℕ × ℕ) × List UInt8 :=
  match skipFields buf 5 0 with
  | none => (none,buf)
  | some field =>
    match memchr buf field with
    | none => (none,buf)
    | some sep =>
      if sep = field then (none,buf)
      else
        let out := lengthField buf field sep
        (out.1.bind fun len => if len = buf.length - (sep+1) then some (sep+1,len) else none,out.2)

def sharedPayloadHeader (buf : List UInt8) (frameLen : ℕ) : Option ℕ × List UInt8 :=
  match skipFields buf 5 0 with
  | none => (none,buf)
  | some field =>
    match memchr buf field with
    | none => (none,buf)
    | some sep =>
      if sep = field ∨ sep+1≠buf.length then (none,buf)
      else
        let out := lengthField buf field sep
        (out.1.bind fun len => if (len : ℤ) = frameLen - buf.length then some len else none,out.2)

/-- `read_command_prefix` with the bytes that are still in the socket: the start and the length of the payload of a FLUSH command, and
the buffer. The first separator is taken away for `atoi`. -/
def readPrefix (frameLen : ℕ) (rest : List UInt8) (fields : ℕ) (buf : List UInt8) : Option (ℕ × ℕ) × List UInt8 :=
  if fields = 6 then
    let out := sharedPayloadHeader buf frameLen
    (out.1.map fun len => (buf.length,len),out.2)
  else if buf.length = frameLen ∧ buf = [50,52] then (none,buf)
  else
    match rest with
    | [] => (none,buf)
    | ch::rest =>
      if maxsiz ≤ buf.length then (none,buf)
      else
        let buf := buf++[ch]
        if ch≠bar then readPrefix frameLen rest fields buf
        else if fields≠0 then readPrefix frameLen rest (fields+1) buf
        else
          let ended := buf.set (buf.length - 1) 0
          let buf := ended.set (ended.length - 1) bar
          if atoi (cstr ended)≠flush then (none,buf) else readPrefix frameLen rest 1 buf

variable {pre x post buf frame rest text : List UInt8} {n k fields frameLen : ℕ}

/-! ## Fields -/

theorem memchr_append (pre text : List UInt8) :
    memchr (pre++text) pre.length = (cut bar 1 text).map fun p => pre.length+(p.1.length - 1) := by
  rw [memchr,List.drop_left]
  cases hcut : cut bar 1 text with
  | none =>
    rw [List.findIdx?_eq_none_iff.2 (by simpa using cut_none hcut)]
    rfl
  | some p =>
    obtain ⟨head,tail⟩ := p
    obtain ⟨x,rfl,rfl,hx⟩ := cut_first hcut
    have hidx : (x++bar::tail).findIdx? (· = bar) = some x.length := by
      rw [List.findIdx?_append,List.findIdx?_eq_none_iff.2 (by simpa using hx)]
      simp [List.findIdx?_cons]
    simp [hidx]

theorem cut_succ_none (h : cut bar 1 text = none) : cut bar (k+1) text = none := by
  by_contra hsome
  obtain ⟨⟨head,tail⟩,hcut⟩ := Option.ne_none_iff_exists'.1 hsome
  rw [Nat.add_comm] at hcut
  obtain ⟨_,_,_,hone,-⟩ := cut_split hcut
  rw [h] at hone
  cases hone

theorem skipFields_append (k : ℕ) (pre text : List UInt8) :
    skipFields (pre++text) k pre.length = (cut bar k text).map fun p => pre.length+p.1.length := by
  induction k generalizing pre text with
  | zero => simp [skipFields]
  | succ k ih =>
    rw [skipFields,memchr_append]
    cases hone : cut bar 1 text with
    | none => rw [cut_succ_none hone]; rfl
    | some p =>
      obtain ⟨head,tail⟩ := p
      obtain ⟨x,rfl,rfl,-⟩ := cut_first hone
      have hlen : pre.length+((x++[bar]).length - 1)+1 = (pre++(x++[bar])).length := by simp; omega
      have htext : pre++(x++bar::tail) = (pre++(x++[bar]))++tail := by simp
      rw [Option.map_some,Option.bind_some,hlen,htext,ih,Nat.add_comm k 1,cut_after hone]
      rw [Option.map_map]
      congr 1
      funext q
      simp
      omega

/-! ## The number -/

theorem digits_all (h : (digits n text).2 = []) : ∀ b∈text,isDigit b = true := by
  induction text generalizing n with
  | nil => simp
  | cons b text ih =>
    rw [digits] at h
    split at h
    · rename_i hb
      simpa [hb] using ih h
    · cases h

/-- A zero stops `strtol` before the end. -/
theorem strtol_zero (h : (strtol text).2 = []) (hne : text≠[]) : (0 : UInt8)∉text := by
  intro hzero
  have hsplit := List.takeWhile_append_dropWhile (p := isSpace) (l := text)
  have hmem : (0 : UInt8)∈text.dropWhile isSpace := by
    rw [← hsplit,List.mem_append] at hzero
    exact hzero.resolve_left fun hspace => absurd (List.mem_takeWhile_imp hspace) (by decide)
  have hbody : (0 : UInt8)∈(if (text.dropWhile isSpace).head? = some minus ∨ (text.dropWhile isSpace).head? = some plus then
      (text.dropWhile isSpace).tail else text.dropWhile isSpace) := by
    split
    · rename_i hsign
      cases hsigned : text.dropWhile isSpace with
      | nil =>
        rw [hsigned] at hmem
        cases hmem
      | cons b body =>
        rw [hsigned] at hmem hsign
        rcases List.mem_cons.1 hmem with rfl | hmem
        · simp [minus,plus] at hsign
        · exact hmem
    · exact hmem
  simp only [strtol] at h
  generalize (if (text.dropWhile isSpace).head? = some minus ∨ (text.dropWhile isSpace).head? = some plus then
      (text.dropWhile isSpace).tail else text.dropWhile isSpace) = body at h hbody
  by_cases hdigit : body.head?.any isDigit = true
  · rw [if_pos hdigit] at h
    exact absurd (digits_all h 0 hbody) (by decide)
  · rw [if_neg hdigit] at h
    exact hne h

theorem outOfRange_refused (h : outOfRange text = true) : (strtol text).1 < 0 ∨ intMax < (strtol text).1 := by
  simp only [outOfRange,Bool.and_eq_true,Bool.or_eq_true,decide_eq_true_eq] at h
  simp only [strtol,if_pos h.1]
  have hlow : longMin < 0 := by decide
  have hhigh : intMax < longMax := by decide
  have hmax : (0 : ℤ) ≤ longMax := by decide
  rcases h.2 with h | h
  · exact .inl (by omega)
  · exact .inr (by omega)

/-- The length that a field stands for. -/
def numberOf (x : List UInt8) : Option ℕ :=
  if (strtol x).2≠[] ∨ (strtol x).1 < 0 ∨ intMax < (strtol x).1 then none else some (strtol x).1.toNat

/-- `strtol` must stop at the separator, so that the field is a number as a whole. -/
theorem lengthField_eq (pre post : List UInt8) (hx : ∀ b∈x,b≠bar) (hne : x≠[]) :
    lengthField (pre++(x++bar::post)) pre.length (pre.length+x.length) = (numberOf x,pre++(x++bar::post)) := by
  have hset (c : UInt8) (d : UInt8) : (pre++(x++c::post)).set (pre.length+x.length) d = pre++(x++d::post) := by
    rw [List.set_append_right _ _ (by omega),Nat.add_sub_cancel_left,List.set_append_right _ _ le_rfl,Nat.sub_self,List.set_cons_zero]
  have hget : (pre++(x++bar::post)).getD (pre.length+x.length) 0 = bar := by simp
  have hpre : cstr x <+: x := List.takeWhile_prefix _
  have htext : cstr (x++0::post) = cstr x := by
    rw [cstr,List.takeWhile_append]
    split
    · rename_i hall
      rw [List.takeWhile_cons_of_neg (by decide),List.append_nil]
      exact (hpre.eq_of_length hall).symm
    · rfl
  have hlen := hpre.length_le
  have hpos : 0 < x.length := List.length_pos_of_ne_nil hne
  simp only [lengthField,hget,hset,List.drop_left,htext]
  by_cases hend : (cstr x).length - (strtol (cstr x)).2.length = x.length
  · have hall : cstr x = x := hpre.eq_of_length (by omega)
    have hnil : (strtol x).2 = [] := by
      rw [hall] at hend
      exact List.eq_nil_of_length_eq_zero (by omega)
    have hrange := @outOfRange_refused x
    rw [hend,hget,hall,numberOf]
    by_cases hbad : (strtol x).1 < 0 ∨ intMax < (strtol x).1
    · rw [if_pos (.inr (.inr hbad)),if_pos (.inr hbad)]
    · rw [if_neg,if_neg]
      · simpa [hnil] using hbad
      · rintro (hout | hstop | hval)
        · exact hbad (hrange hout)
        · exact hstop rfl
        · exact hbad hval
  · -- the byte where it stops is one of the field
    have hlt : (cstr x).length - (strtol (cstr x)).2.length < x.length := by omega
    have hbyte : (pre++(x++bar::post)).getD (pre.length+((cstr x).length - (strtol (cstr x)).2.length)) 0≠bar := by
      rw [List.getD_eq_getElem?_getD,List.getElem?_append_right (by omega),Nat.add_sub_cancel_left,List.getElem?_append_left hlt,
        List.getElem?_eq_getElem hlt,Option.getD_some]
      exact hx _ (List.getElem_mem hlt)
    have hrest : (strtol x).2≠[] := by
      intro hnil
      have hzero := strtol_zero hnil hne
      have hall : cstr x = x := by
        apply List.takeWhile_eq_self_iff.2
        intro b hb
        apply decide_eq_true
        rintro rfl
        exact hzero hb
      rw [hall,hnil,List.length_nil,Nat.sub_zero] at hend
      exact hend rfl
    rw [if_pos (.inr (.inl hbyte)),numberOf,if_pos (.inl hrest)]

/-! ## The parsers -/

/-- A frame with its first six separators. -/
structure Sixth (frame command payload pre x : List UInt8) : Prop where
  five : cut bar 5 frame = some (pre,x++bar::payload)
  command : command = pre++(x++[bar])
  field : ∀ b∈x,b≠bar

variable {command payload more : List UInt8}

theorem sixth_of_cut (h : cut bar 6 frame = some (command,payload)) : ∃ pre x,Sixth frame command payload pre x := by
  obtain ⟨pre,field,number,hfive,hone,rfl⟩ := cut_split (k := 5) (n := 1) h
  obtain ⟨x,rfl,rfl,hx⟩ := cut_first hone
  exact ⟨pre,x,hfive,rfl,hx⟩

/-- Where the length stands, whatever follows it. -/
theorem Sixth.positions (h : Sixth frame command payload pre x) (post : List UInt8) :
    skipFields (pre++(x++bar::post)) 5 0 = some pre.length ∧
      memchr (pre++(x++bar::post)) pre.length = some (pre.length+x.length) := by
  have hskip := skipFields_append 5 [] (pre++(x++bar::post))
  rw [cut_replace h.five] at hskip
  refine ⟨by simpa using hskip,?_⟩
  rw [memchr_append,cut_one h.field]
  simp

/-- The length of the payload, if it is the one in the frame. -/
def declared (x payload : List UInt8) : Option ℕ :=
  if x = [] then none else (numberOf x).bind fun len => if len = payload.length then some len else none

theorem Sixth.sharedPayload (h : Sixth frame command payload pre x) :
    sharedPayload frame = ((declared x payload).map fun len => (command.length,len),frame) := by
  obtain rfl := cut_append h.five
  obtain ⟨hskip,hsep⟩ := h.positions payload
  have hlen : (pre++(x++bar::payload)).length - (pre.length+x.length+1) = payload.length := by simp; omega
  have hcommand : command.length = pre.length+x.length+1 := by rw [h.command]; simp; omega
  simp only [FrameParsers.sharedPayload,hskip,hsep,declared]
  by_cases hne : x = []
  · simp [hne]
  · have hpos : 0 < x.length := List.length_pos_of_ne_nil hne
    rw [if_neg (by omega),if_neg hne,lengthField_eq pre payload h.field hne,hlen,hcommand]
    cases numberOf x with
    | none => rfl
    | some len => by_cases heq : len = payload.length <;> simp [heq]

theorem Sixth.sharedPayloadHeader (h : Sixth frame command payload pre x) :
    sharedPayloadHeader command frame.length = (declared x payload,command) := by
  obtain rfl := cut_append h.five
  obtain ⟨hskip,hsep⟩ := h.positions []
  rw [← h.command] at hskip hsep
  have hcommand : command.length = pre.length+x.length+1 := by rw [h.command]; simp; omega
  have hrest (len : ℕ) : (len : ℤ) = (pre++(x++bar::payload)).length - command.length ↔ len = payload.length := by
    rw [hcommand]
    simp
    omega
  simp only [FrameParsers.sharedPayloadHeader,hskip,hsep,declared]
  by_cases hne : x = []
  · simp [hne]
  · have hpos : 0 < x.length := List.length_pos_of_ne_nil hne
    have hfield := lengthField_eq pre [] h.field hne
    rw [← h.command] at hfield
    rw [if_neg (by omega),if_neg hne,hfield]
    cases numberOf x with
    | none => rfl
    | some len => simp only [Option.bind_some,hrest]

/-- The first separator is put back. -/
theorem ended_buffer (buf : List UInt8) : (buf++[bar]).set ((buf++[bar]).length - 1) 0 = buf++[0] ∧
    (buf++[0]).set ((buf++[0]).length - 1) bar = buf++[bar] ∧ atoi (cstr (buf++[0])) = atoi buf := by
  refine ⟨by simp [List.set_append_right],by simp [List.set_append_right],?_⟩
  rw [atoi_cstr,atoi_append ends_nul]

theorem readPrefix_six (hsix : fields ≤ 6) (hcut : cut bar (6 - fields) rest = some (more,payload)) (hlen : (buf++more).length ≤ maxsiz)
    (hflush : fields = 0 → atoi (buf++more) = flush) (hframe : frameLen = buf.length+rest.length) :
    readPrefix frameLen rest fields buf = ((sharedPayloadHeader (buf++more) frameLen).1.map fun len => ((buf++more).length,len),
      (sharedPayloadHeader (buf++more) frameLen).2) := by
  induction rest generalizing fields buf more with
  | nil =>
    rcases Nat.lt_or_eq_of_le hsix with hlt | rfl
    · obtain ⟨k,hk⟩ : ∃ k,6 - fields = k+1 := ⟨5 - fields,by omega⟩
      rw [hk,cut] at hcut
      cases hcut
    · rw [Nat.sub_self,cut_zero] at hcut
      obtain ⟨rfl,-⟩ := Prod.mk.inj (Option.some.inj hcut)
      rw [readPrefix,if_pos rfl,List.append_nil]
  | cons ch rest ih =>
    rcases Nat.lt_or_eq_of_le hsix with hlt | rfl
    · obtain ⟨k,hk⟩ : ∃ k,6 - fields = k+1 := ⟨5 - fields,by omega⟩
      rw [hk] at hcut
      obtain ⟨more,rfl,hnext⟩ := cut_cons hcut
      have hassoc : buf++ch::more = (buf++[ch])++more := by simp
      have hroom : ¬ maxsiz ≤ buf.length := by
        rw [List.length_append,List.length_cons] at hlen
        omega
      have hbare : ¬ (buf.length = frameLen ∧ buf = [50,52]) := by
        rw [List.length_cons] at hframe
        omega
      have hframe' : frameLen = (buf++[ch]).length+rest.length := by
        rw [hframe,List.length_append,List.length_cons,List.length_singleton]
        omega
      rw [hassoc] at hlen hflush ⊢
      rw [readPrefix,if_neg (by omega),if_neg hbare]
      dsimp only
      rw [if_neg hroom]
      by_cases hch : ch = bar
      · subst hch
        have hcut' : cut bar (6 - (fields+1)) rest = some (more,payload) := by
          rw [if_pos rfl] at hnext
          rwa [show 6 - (fields+1) = k by omega]
        rw [if_neg (not_not.2 rfl)]
        by_cases hzero : fields = 0
        · subst hzero
          obtain ⟨hset,hback,hatoi⟩ := ended_buffer buf
          have hfirst : atoi buf = flush := by
            have hall := hflush rfl
            rwa [List.append_assoc,List.singleton_append,atoi_append ends_bar] at hall
          rw [if_neg (not_not.2 rfl),hset,hback,hatoi,if_neg (not_not.2 hfirst)]
          exact ih (by omega) hcut' hlen (by omega) hframe'
        · rw [if_pos hzero]
          exact ih (by omega) hcut' hlen (by omega) hframe'
      · rw [if_neg hch,← hk] at hnext
        rw [if_pos hch]
        exact ih hsix hnext hlen hflush hframe'
    · rw [Nat.sub_self,cut_zero] at hcut
      obtain ⟨rfl,-⟩ := Prod.mk.inj (Option.some.inj hcut)
      rw [readPrefix,if_pos rfl,List.append_nil]

/-- For a FLUSH frame whose sixth separator is one of the first 255 bytes both parsers give the same payload, the frame is as it was, and
the buffer holds its beginning. -/
theorem frame_parsers_agree (hflush : atoi frame = flush) (hsix : cut bar 6 frame = some (command,payload))
    (hlen : command.length ≤ 255) :
    (sharedPayload frame).1 = (readPrefix frame.length frame 0 []).1 ∧ (sharedPayload frame).2 = frame ∧
      (readPrefix frame.length frame 0 []).2 = command ∧ command <+: frame := by
  obtain ⟨pre,x,h⟩ := sixth_of_cut hsix
  have hcommand : atoi command = flush := by
    obtain ⟨body,hbody⟩ := cut_last (k := 5) hsix
    have happend := cut_append hsix
    rw [hbody,List.append_assoc,List.singleton_append] at happend
    rw [← happend,atoi_append ends_bar] at hflush
    rw [hbody,atoi_append ends_bar,hflush]
  have hread : readPrefix frame.length frame 0 [] = _ := readPrefix_six (by decide) hsix
    (by rw [List.nil_append,maxsiz]; omega) (fun _ => hcommand) (by simp)
  rw [List.nil_append,h.sharedPayloadHeader] at hread
  rw [hread,h.sharedPayload]
  exact ⟨rfl,rfl,rfl,cut_append hsix ▸ List.prefix_append command payload⟩

/-- `23|0|0|32|1| +3|` with a blank and a sign in the length, and a payload with a zero in it. -/
theorem frame_parsers_agree_sample :
    (sharedPayload [50,51,124,48,124,48,124,51,50,124,49,124,32,43,51,124,97,0,124]).1 = some (16,3) ∧
      (readPrefix 19 [50,51,124,48,124,48,124,51,50,124,49,124,32,43,51,124,97,0,124] 0 []).1 = some (16,3) := by
  have h := @frame_parsers_agree [50,51,124,48,124,48,124,51,50,124,49,124,32,43,51,124,97,0,124]
    [50,51,124,48,124,48,124,51,50,124,49,124,32,43,51,124] [97,0,124] (by decide) (by decide) (by decide)
  have hshared : (sharedPayload [50,51,124,48,124,48,124,51,50,124,49,124,32,43,51,124,97,0,124]).1 = some (16,3) := by
    decide
  exact ⟨hshared,h.1.symm.trans hshared⟩

end Dataman.FrameParsers

import Dataman.ByteFiles

/-! The bitwise CRC-32 loop of the index files. -/
namespace Dataman.Checksum

/-- One turn of the inner loop: shift out a bit and fold the polynomial back in. -/
def crcBit (crc : BitVec 32) : BitVec 32 :=
  let bit := crc &&& 1#32
  let shifted := crc >>> 1
  if bit≠0#32 then shifted ^^^ 0xedb88320#32 else shifted

/-- One turn of the outer loop. -/
def crcByte (crc : BitVec 32) (b : UInt8) : BitVec 32 :=
  Nat.repeat crcBit 8 (crc ^^^ b.toBitVec.setWidth 32)

def indexV2Crc32 (buf : Bytes) : BitVec 32 := ~~~(buf.foldl crcByte 0xffffffff#32)

/-! ## A changed byte shows

Every turn of the loop is injective in the register, so registers that differ once
differ to the end. -/

theorem and_one_ne_zero (v : BitVec 32) : v &&& 1#32≠0#32 ↔ v.getLsbD 0 = true := by
  constructor
  · intro h
    by_contra hb
    apply h
    apply BitVec.eq_of_getLsbD_eq
    intro i hi
    simp only [BitVec.getLsbD_and,BitVec.getLsbD_one,BitVec.getLsbD_zero]
    cases i with
    | zero => simp_all
    | succ i => simp
  · intro h hz
    have := congrArg (fun x : BitVec 32 => x.getLsbD 0) hz
    simp only [BitVec.getLsbD_and,h] at this
    exact absurd this (by decide)

theorem crcBit_eq (v : BitVec 32) : crcBit v = (v >>> 1) ^^^ (if v.getLsbD 0 then 0xedb88320#32 else 0#32) := by
  unfold crcBit
  by_cases h : v.getLsbD 0 = true
  · rw [if_pos ((and_one_ne_zero v).2 h),if_pos h]
  · rw [if_neg (mt (and_one_ne_zero v).1 h),if_neg h,BitVec.xor_zero]

theorem getLsbD_crcBit (v : BitVec 32) : (crcBit v).getLsbD 31 = v.getLsbD 0 := by
  rw [crcBit_eq,BitVec.getLsbD_xor,BitVec.getLsbD_ushiftRight,BitVec.getLsbD_of_ge v 32 le_rfl]
  by_cases h : v.getLsbD 0 = true
  · rw [if_pos h,h]
    rfl
  · rw [if_neg h]
    simp_all

theorem crcBit_injective : Function.Injective crcBit := by
  intro a b h
  have h0 : a.getLsbD 0 = b.getLsbD 0 := by rw [← getLsbD_crcBit,h,getLsbD_crcBit]
  have hshift : a >>> 1 = b >>> 1 := by
    rw [crcBit_eq,crcBit_eq,h0] at h
    exact (BitVec.xor_left_inj _).1 h
  apply BitVec.eq_of_getLsbD_eq
  intro i hi
  cases i with
  | zero => exact h0
  | succ i =>
    have := congrArg (fun x : BitVec 32 => x.getLsbD i) hshift
    simpa [Nat.add_comm 1] using this

theorem repeat_injective {α : Type} {f : α → α} (hf : Function.Injective f) (n : ℕ) :
    Function.Injective (Nat.repeat f n) := by
  induction n with
  | zero => exact Function.injective_id
  | succ n ih => exact hf.comp ih

theorem crcByte_injective (b : UInt8) : Function.Injective (fun crc => crcByte crc b) := by
  intro u v h
  have hx := repeat_injective crcBit_injective 8 h
  exact (BitVec.xor_left_inj _).1 hx

theorem foldl_crcByte_injective (bs : Bytes) : Function.Injective (fun crc => bs.foldl crcByte crc) := by
  induction bs with
  | nil => exact Function.injective_id
  | cons b bs ih =>
    intro u v h
    exact crcByte_injective b (ih h)

/-! ## A changed word shows

The loop is linear, so four bytes go through it as one word of 32 bits that is folded into the
register before its 32 turns. -/

theorem crcBit_xor (u v : BitVec 32) : crcBit (u ^^^ v) = crcBit u ^^^ crcBit v := by
  simp only [crcBit_eq,BitVec.getLsbD_xor,BitVec.ushiftRight_xor_distrib]
  rw [BitVec.xor_assoc,BitVec.xor_assoc,BitVec.xor_right_inj,← BitVec.xor_assoc _ (v >>> 1),BitVec.xor_comm _ (v >>> 1),
    BitVec.xor_assoc,BitVec.xor_right_inj]
  cases u.getLsbD 0 <;> cases v.getLsbD 0 <;> rfl

theorem repeat_xor (n : ℕ) (u v : BitVec 32) :
    Nat.repeat crcBit n (u ^^^ v) = Nat.repeat crcBit n u ^^^ Nat.repeat crcBit n v := by
  induction n with
  | zero => rfl
  | succ n ih => rw [Nat.repeat,ih,crcBit_xor,Nat.repeat,Nat.repeat]

/-- Bits that are clear are only shifted out. -/
theorem repeat_clear {n : ℕ} {v : BitVec 32} (h : ∀ i < n,v.getLsbD i = false) : Nat.repeat crcBit n v = v >>> n := by
  induction n with
  | zero => rfl
  | succ n ih =>
    have hlow : (v >>> n).getLsbD 0 = false := by simpa using h n (Nat.lt_succ_self n)
    rw [Nat.repeat,ih fun i hi => h i (by omega),crcBit_eq,hlow,BitVec.shiftRight_add]
    simp

theorem repeat_add (m n : ℕ) (v : BitVec 32) : Nat.repeat crcBit (m+n) v = Nat.repeat crcBit m (Nat.repeat crcBit n v) := by
  induction m with
  | zero => rw [Nat.zero_add,Nat.repeat]
  | succ m ih => rw [Nat.succ_add,Nat.repeat,ih,Nat.repeat]

/-- Bytes as a word, the first one lowest. -/
def word : Bytes → BitVec 32
  | [] => 0#32
  | b::w => b.toBitVec.setWidth 32 ^^^ (word w <<< 8)

theorem getLsbD_word {w : Bytes} {i : ℕ} (h : 8*w.length ≤ i) : (word w).getLsbD i = false := by
  induction w generalizing i with
  | nil => simp [word]
  | cons b w ih =>
    rw [List.length_cons] at h
    have hrest := @ih (i - 8) (by omega)
    simp [word,hrest,BitVec.getLsbD_of_ge b.toBitVec i (by omega)]

theorem shiftLeft_word {w : Bytes} (h : w.length < 4) : Nat.repeat crcBit 8 (word w <<< 8) = word w := by
  rw [repeat_clear fun i hi => by simp [hi]]
  apply BitVec.eq_of_getLsbD_eq
  intro i hi
  by_cases hlow : i < 24
  · have hlt : 8+i < 32 := by omega
    have hge : ¬ 8+i < 8 := by omega
    simp [BitVec.getLsbD_eq_getElem hi,hlt,hge]
  · have hzero := @getLsbD_word w i (by omega)
    simp [hzero]

/-- Up to four bytes are folded in at once. -/
theorem foldl_crcByte_word {w : Bytes} (h : w.length ≤ 4) (crc : BitVec 32) :
    w.foldl crcByte crc = Nat.repeat crcBit (8*w.length) (crc ^^^ word w) := by
  induction w generalizing crc with
  | nil => simp [word,Nat.repeat]
  | cons b w ih =>
    rw [List.length_cons] at h
    rw [List.foldl_cons,ih (by omega),List.length_cons,Nat.mul_succ,repeat_add,crcByte,word,← BitVec.xor_assoc,
      repeat_xor 8 _ (word w <<< 8),shiftLeft_word (by omega)]

theorem word_injective {w w' : Bytes} (hlen : w.length = w'.length) (h4 : w.length ≤ 4) (h : word w = word w') : w = w' := by
  induction w generalizing w' with
  | nil => exact (List.length_eq_zero_iff.1 hlen.symm).symm
  | cons b w ih =>
    cases w' with
    | nil => cases hlen
    | cons b' w' =>
      rw [List.length_cons] at h4
      have hlen' : w.length = w'.length := Nat.succ.inj hlen
      have hbit (i : ℕ) : (word (b::w)).getLsbD i = (word (b'::w')).getLsbD i := by rw [h]
      have hb : b = b' := by
        apply UInt8.toBitVec_inj.1
        apply BitVec.eq_of_getLsbD_eq
        intro i hi
        have hi' : i < 32 := by omega
        simpa [word,hi,hi'] using hbit i
      have hw : word w = word w' := by
        apply BitVec.eq_of_getLsbD_eq
        intro i hi
        by_cases hlow : i < 24
        · have hlt : i+8 < 32 := by omega
          have hge : ¬ i+8 < 8 := by omega
          simpa [word,BitVec.getLsbD_eq_getElem hi,hlt,hge,hb] using hbit (i+8)
        · rw [getLsbD_word (by omega),getLsbD_word (by omega)]
      rw [hb,ih hlen' (by omega) hw]

/-- Strings that differ in up to four bytes one after the other have different checksums. -/
theorem indexV2Crc32_ne_of_burst (pre post : Bytes) {w w' : Bytes} (hlen : w.length = w'.length) (h4 : w.length ≤ 4) (h : w≠w') :
    indexV2Crc32 (pre++w++post)≠indexV2Crc32 (pre++w'++post) := by
  intro he
  have hx := BitVec.not_inj.1 he
  simp only [List.foldl_append] at hx
  have hw := foldl_crcByte_injective post hx
  rw [foldl_crcByte_word h4 (pre.foldl crcByte _),foldl_crcByte_word (hlen ▸ h4) (pre.foldl crcByte _),← hlen] at hw
  have hword := (BitVec.xor_right_inj _).1 (repeat_injective crcBit_injective _ hw)
  exact h (word_injective hlen h4 hword)

/-- Strings that differ in one byte have different checksums. -/
theorem indexV2Crc32_ne (pre post : Bytes) {a b : UInt8} (h : a≠b) :
    indexV2Crc32 (pre++a::post)≠indexV2Crc32 (pre++b::post) := by
  have hburst := @indexV2Crc32_ne_of_burst pre post [a] [b] rfl (by simp) (by simpa using h)
  simpa using hburst

end Dataman.Checksum

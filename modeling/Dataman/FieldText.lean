import Mathlib.Data.List.TakeWhile
import Mathlib.Data.Nat.Digits.Lemmas

/-!
# Text fields as C reads them

Bytes with fields that end in a separator, numbers as `strtol` and `atoi` read them, and
the part of a buffer that is a string.
-/

namespace Dataman.FieldText

/-- The bytes before the first NUL. -/
def cstr (text : List UInt8) : List UInt8 := text.takeWhile (· ≠ 0)

/-! ## Separators -/

section Cut

variable {sep : UInt8} {k n : ℕ} {text head tail head' tail' : List UInt8}

/-- The text up to and with the k-th separator, and what follows it. -/
def cut (sep : UInt8) : ℕ → List UInt8 → Option (List UInt8 × List UInt8)
  | 0,text => some ([],text)
  | _+1,[] => none
  | k+1,b::text => (cut sep (if b = sep then k else k+1) text).map fun out => (b::out.1,out.2)

@[simp] theorem cut_zero : cut sep 0 text = some ([],text) := by cases text <;> rfl

theorem cut_cons {b : UInt8} (h : cut sep (k+1) (b::text) = some (head,tail)) :
    ∃ rest,head = b::rest ∧ cut sep (if b = sep then k else k+1) text = some (rest,tail) := by
  simp only [cut,Option.map_eq_some_iff] at h
  obtain ⟨⟨rest,tail⟩,hcut,heq⟩ := h
  obtain ⟨rfl,rfl⟩ := Prod.mk.inj heq
  exact ⟨rest,rfl,hcut⟩

theorem cut_of_cons {b : UInt8} (h : cut sep (if b = sep then k else k+1) text = some (head,tail)) :
    cut sep (k+1) (b::text) = some (b::head,tail) := by simp [cut,h]

theorem cut_append (h : cut sep k text = some (head,tail)) : head++tail = text := by
  induction k,text using cut.induct sep generalizing head with
  | case1 text =>
    rw [cut_zero] at h
    obtain ⟨rfl,rfl⟩ := Prod.mk.inj (Option.some.inj h)
    rfl
  | case2 k => simp [cut] at h
  | case3 k b text ih =>
    obtain ⟨rest,rfl,hcut⟩ := cut_cons h
    rw [List.cons_append,ih hcut]

theorem cut_last (h : cut sep (k+1) text = some (head,tail)) : ∃ body,head = body++[sep] := by
  induction text generalizing k head with
  | nil => simp [cut] at h
  | cons b text ih =>
    obtain ⟨rest,rfl,hcut⟩ := cut_cons h
    split at hcut
    · rename_i heq
      cases k with
      | zero =>
        rw [cut_zero] at hcut
        obtain ⟨rfl,-⟩ := Prod.mk.inj (Option.some.inj hcut)
        exact ⟨[],by rw [heq]; rfl⟩
      | succ k =>
        obtain ⟨body,rfl⟩ := ih hcut
        exact ⟨b::body,rfl⟩
    · obtain ⟨body,rfl⟩ := ih hcut
      exact ⟨b::body,rfl⟩

/-- The cut looks at nothing behind it. -/
theorem cut_replace (h : cut sep k text = some (head,tail)) : cut sep k (head++tail') = some (head,tail') := by
  induction k,text using cut.induct sep generalizing head with
  | case1 text =>
    rw [cut_zero] at h
    obtain ⟨rfl,rfl⟩ := Prod.mk.inj (Option.some.inj h)
    exact cut_zero
  | case2 k => simp [cut] at h
  | case3 k b text ih =>
    obtain ⟨rest,rfl,hcut⟩ := cut_cons h
    exact cut_of_cons (ih hcut)

theorem cut_add (h : cut sep k text = some (head,tail)) (h' : cut sep n tail = some (head',tail')) :
    cut sep (k+n) text = some (head++head',tail') := by
  induction k,text using cut.induct sep generalizing head with
  | case1 text =>
    rw [cut_zero] at h
    obtain ⟨rfl,rfl⟩ := Prod.mk.inj (Option.some.inj h)
    rwa [Nat.zero_add]
  | case2 k => simp [cut] at h
  | case3 k b text ih =>
    obtain ⟨rest,rfl,hcut⟩ := cut_cons h
    have hrest := ih hcut
    rw [Nat.succ_add]
    apply cut_of_cons
    split
    · rename_i heq
      rwa [if_pos heq] at hrest
    · rename_i hne
      rwa [if_neg hne,Nat.add_right_comm] at hrest

/-- Fields found in a string are the fields of the buffer. -/
theorem cut_cstr (h : cut sep k (cstr text) = some (head,tail)) :
    ∃ rest,cut sep k text = some (head,rest) ∧ tail = cstr rest := by
  induction k,text using cut.induct sep generalizing head with
  | case1 text =>
    rw [cut_zero] at h
    obtain ⟨rfl,rfl⟩ := Prod.mk.inj (Option.some.inj h)
    exact ⟨text,cut_zero,rfl⟩
  | case2 k => simp [cut,cstr] at h
  | case3 k b text ih =>
    by_cases hb : b = 0
    · simp [cstr,hb,cut] at h
    · have hcons : cstr (b::text) = b::cstr text := by simp [cstr,hb]
      rw [hcons] at h
      obtain ⟨rest,rfl,hcut⟩ := cut_cons h
      obtain ⟨back,hback,htail⟩ := ih hcut
      exact ⟨back,cut_of_cons hback,htail⟩

end Cut

/-! ## Numbers -/

def isSpace (b : UInt8) : Bool := b = 32 ∨ (9 ≤ b ∧ b ≤ 13)

def isDigit (b : UInt8) : Bool := 48 ≤ b ∧ b ≤ 57

/-- The value of the digits in front, after the value so far, and what follows them. -/
def digits : ℕ → List UInt8 → ℕ × List UInt8
  | n,[] => (n,[])
  | n,b::text => if isDigit b then digits (10*n+(b.toNat - 48)) text else (n,b::text)

def plus : UInt8 := 43
def minus : UInt8 := 45

def longMax : ℤ := 2 ^ 63 - 1
def longMin : ℤ := -2 ^ 63
def intMax : ℤ := 2 ^ 31 - 1

/-- The number after blanks and a sign, and what follows it; all of the text follows if there
are no digits. -/
def strtol (text : List UInt8) : ℤ × List UInt8 :=
  let signed := text.dropWhile isSpace
  let body := if signed.head? = some minus ∨ signed.head? = some plus then signed.tail else signed
  if body.head?.any isDigit then
    let out := digits 0 body
    let value : ℤ := if signed.head? = some minus then -out.1 else out.1
    (max longMin (min value longMax),out.2)
  else (0,text)

/-- Whether `strtol` reports that the number does not fit. -/
def outOfRange (text : List UInt8) : Bool :=
  let signed := text.dropWhile isSpace
  let body := if signed.head? = some minus ∨ signed.head? = some plus then signed.tail else signed
  let out := digits 0 body
  let value : ℤ := if signed.head? = some minus then -out.1 else out.1
  body.head?.any isDigit && (value < longMin || longMax < value)

/-- The number as an int of 32 bits. -/
def atoi (text : List UInt8) : ℤ := (strtol text).1.bmod (2 ^ 32)

variable {n : ℕ} {text tail : List UInt8} {b : UInt8}

theorem head?_append_of_ne_nil (h : text≠[]) : (text++tail).head? = text.head? := by
  cases text with
  | nil => exact absurd rfl h
  | cons b text => rfl

theorem digits_append (hb : isDigit b = false) : (digits n (text++b::tail)).1 = (digits n text).1 := by
  induction text generalizing n with
  | nil => simp [digits,hb]
  | cons c text ih =>
    by_cases hc : isDigit c
    · simp only [digits,List.cons_append,if_pos hc]
      exact ih
    · simp [digits,hc]

/-- A byte that no number has in it. -/
structure Ends (b : UInt8) : Prop where
  space : isSpace b = false
  digit : isDigit b = false
  minus : b≠minus
  plus : b≠plus

theorem ends_nul : Ends 0 := ⟨rfl,rfl,by decide,by decide⟩

/-- A number ends there. -/
theorem strtol_append (hb : Ends b) : (strtol (text++b::tail)).1 = (strtol text).1 := by
  simp only [strtol]
  set signed := text.dropWhile isSpace with hsigned
  by_cases hnil : signed = []
  · have hdrop : (text++b::tail).dropWhile isSpace = b::tail := by
      rw [List.dropWhile_append,if_pos (by rw [List.isEmpty_iff]; exact hnil)]
      simp [hb.space]
    simp [hdrop,hnil,hb.minus,hb.plus,hb.digit]
  · have hdrop : (text++b::tail).dropWhile isSpace = signed++b::tail := by
      rw [List.dropWhile_append,if_neg (by rw [List.isEmpty_iff]; exact hnil)]
    rw [hdrop,head?_append_of_ne_nil hnil]
    set body := if signed.head? = some minus ∨ signed.head? = some plus then signed.tail else signed with hbody
    have hrest : (if signed.head? = some minus ∨ signed.head? = some plus then (signed++b::tail).tail
        else signed++b::tail) = body++b::tail := by
      rw [List.tail_append_of_ne_nil hnil,hbody]
      split <;> rfl
    rw [hrest]
    by_cases hempty : body = []
    · simp [hempty,hb.digit]
    · rw [head?_append_of_ne_nil hempty]
      split
      · simp only [digits_append hb.digit]
      · rfl

/-- Nothing behind the string matters. -/
theorem strtol_cstr : (strtol (cstr text)).1 = (strtol text).1 := by
  have hsplit := List.takeWhile_append_dropWhile (p := (· ≠ (0 : UInt8))) (l := text)
  cases hrest : text.dropWhile (· ≠ (0 : UInt8)) with
  | nil =>
    rw [hrest,List.append_nil] at hsplit
    rw [cstr,hsplit]
  | cons b rest =>
    have hb : b = 0 := by
      have hhead := List.head?_dropWhile_not (· ≠ (0 : UInt8)) text
      rw [hrest] at hhead
      simpa using hhead
    rw [hrest,hb] at hsplit
    nth_rewrite 2 [← hsplit]
    exact (strtol_append ends_nul).symm

theorem atoi_append (hb : Ends b) : atoi (text++b::tail) = atoi text := by rw [atoi,strtol_append hb,atoi]

theorem atoi_cstr : atoi (cstr text) = atoi text := by rw [atoi,strtol_cstr,atoi]

theorem atoi_eq (h : 0 ≤ (strtol text).1) (h' : (strtol text).1 ≤ intMax) : atoi text = (strtol text).1 := by
  simp only [intMax] at h'
  rw [atoi,Int.bmod_eq_of_le] <;> omega

/-! ## Printed numbers -/

/-- `%d` of a number. -/
def decimal (n : ℕ) : List UInt8 :=
  if n = 0 then [48] else (Nat.digits 10 n).reverse.map fun d => UInt8.ofNat (48+d)

theorem decimal_digit (h : b∈decimal n) : isDigit b := by
  simp only [decimal] at h
  split at h
  · obtain rfl := List.mem_singleton.1 h
    rfl
  · obtain ⟨d,hd,rfl⟩ := List.mem_map.1 h
    have hlt := Nat.digits_lt_base (by decide) (List.mem_reverse.1 hd)
    interval_cases d <;> rfl

theorem digits_map {ds : List ℕ} (hds : ∀ d∈ds,d < 10) :
    digits n (ds.map fun d => UInt8.ofNat (48+d)) = (ds.foldl (fun m d => 10*m+d) n,[]) := by
  induction ds generalizing n with
  | nil => rfl
  | cons d ds ih =>
    have hd := hds d List.mem_cons_self
    have hdigit : isDigit (UInt8.ofNat (48+d)) = true := by interval_cases d <;> rfl
    have hval : (UInt8.ofNat (48+d)).toNat - 48 = d := by interval_cases d <;> rfl
    rw [List.map_cons,digits,if_pos hdigit,hval,ih fun x hx => hds x (List.mem_cons_of_mem _ hx),List.foldl_cons]

/-- The digits of a number, the first one first, have its value. -/
theorem foldl_digits (n : ℕ) : (Nat.digits 10 n).reverse.foldl (fun m d => 10*m+d) 0 = n := by
  have hfold := Nat.ofDigits_eq_foldr 10 (Nat.digits 10 n)
  rw [Nat.ofDigits_digits] at hfold
  rw [List.foldl_reverse]
  refine Eq.trans ?_ hfold.symm
  congr 1
  funext x y
  rw [Nat.add_comm]
  rfl

theorem digits_decimal (n : ℕ) : digits 0 (decimal n) = (n,[]) := by
  rw [decimal]
  split
  · rename_i hn
    rw [hn]
    rfl
  · rw [digits_map fun d hd => Nat.digits_lt_base (by decide) (List.mem_reverse.1 hd),foldl_digits]

theorem decimal_injective : Function.Injective decimal := by
  intro n m h
  have hn := digits_decimal n
  rw [h,digits_decimal] at hn
  exact (Prod.mk.inj hn).1.symm

theorem decimal_ne_nil (n : ℕ) : decimal n≠[] := by
  rw [decimal]
  split
  · exact List.cons_ne_nil _ _
  · rename_i hn
    intro hnil
    exact Nat.digits_ne_nil_iff_ne_zero.2 hn (List.reverse_eq_nil_iff.1 (List.map_eq_nil_iff.1 hnil))

theorem length_decimal_le {n k : ℕ} (hk : 1 ≤ k) (h : n < 10 ^ k) : (decimal n).length ≤ k := by
  rw [decimal]
  split
  · exact hk
  · rw [List.length_map,List.length_reverse]
    exact (Nat.digits_length_le_iff (by decide) n).2 h

theorem strtol_decimal (hn : (n : ℤ) ≤ longMax) : (strtol (decimal n)).1 = n := by
  obtain ⟨d,ds,hds⟩ := List.exists_cons_of_ne_nil (decimal_ne_nil n)
  have hdigit : isDigit d = true := decimal_digit (n := n) (by rw [hds]; exact List.mem_cons_self)
  have hspace : isSpace d = false := by
    simp only [isDigit,isSpace,decide_eq_true_eq,decide_eq_false_iff_not,UInt8.le_iff_toNat_le,← UInt8.toNat_inj] at hdigit ⊢
    have h48 : (48 : UInt8).toNat = 48 := rfl
    have h32 : (32 : UInt8).toNat = 32 := rfl
    have h13 : (13 : UInt8).toNat = 13 := rfl
    omega
  have hsign : d≠minus ∧ d≠plus := by
    constructor
    · rintro rfl
      cases hdigit
    · rintro rfl
      cases hdigit
  have hdrop : (decimal n).dropWhile isSpace = decimal n := by rw [hds,List.dropWhile_cons,if_neg (by rw [hspace]; decide)]
  have hhead : (decimal n).head? = some d := by rw [hds,List.head?_cons]
  have hminus : ¬ (some d = some minus ∨ some d = some plus) := by simpa using hsign
  simp only [strtol,hdrop,hhead,if_neg hminus,digits_decimal,Option.any_some,hdigit,if_true]
  have hneg : ¬ (some d = some minus) := fun h => hminus (.inl h)
  rw [if_neg hneg]
  simp only [longMax,longMin] at hn ⊢
  omega

theorem atoi_decimal (hn : (n : ℤ) ≤ intMax) : atoi (decimal n) = n := by
  have hval : (strtol (decimal n)).1 = n := by
    apply strtol_decimal
    simp only [intMax,longMax] at hn ⊢
    omega
  rw [atoi_eq (by rw [hval]; exact Int.natCast_nonneg n) (by rw [hval]; exact hn),hval]

/-- The cut is at the first separator. -/
theorem cut_one {sep : UInt8} (h : ∀ b∈text,b≠sep) : cut sep 1 (text++sep::tail) = some (text++[sep],tail) := by
  induction text with
  | nil => simp [cut]
  | cons b text ih =>
    apply cut_of_cons
    rw [if_neg (h b (by simp))]
    exact ih fun x hx => h x (by simp [hx])

/-! ## Numbers with a base in front -/

/-- The value of a hexadecimal digit. -/
def hexDigit (b : UInt8) : Option ℕ :=
  if isDigit b then some (b.toNat - 48)
  else if 97 ≤ b ∧ b ≤ 102 then some (b.toNat - 87)
  else if 65 ≤ b ∧ b ≤ 70 then some (b.toNat - 55)
  else none

/-- The value of the digits of a base in front, after the value so far. -/
def digitsIn (base : ℕ) : ℕ → List UInt8 → ℕ
  | n,[] => n
  | n,b::text =>
    match hexDigit b with
    | none => n
    | some d => if d < base then digitsIn base (base*n+d) text else n

/-- The sign and the value with base 0: hexadecimal behind 0x, octal behind another 0. -/
def magnitude (text : List UInt8) : Bool × ℕ :=
  let signed := text.dropWhile isSpace
  let body := if signed.head? = some minus ∨ signed.head? = some plus then signed.tail else signed
  let value := match body with
    | 48::x::h::rest =>
      if (x = 120 ∨ x = 88) ∧ (hexDigit h).isSome then digitsIn 16 0 (h::rest) else digitsIn 8 0 (x::h::rest)
    | 48::rest => digitsIn 8 0 rest
    | body => digitsIn 10 0 body
  (signed.head? = some minus,value)

/-- `strtoll` with base 0. -/
def strtoll (text : List UInt8) : ℤ :=
  let out := magnitude text
  max longMin (min (if out.1 then -(out.2 : ℤ) else out.2) longMax)

/-- `strtoull` with base 0. A sign is taken back from the result. -/
def strtoull (text : List UInt8) : ℕ :=
  let out := magnitude text
  if 2 ^ 64 ≤ out.2 then 2 ^ 64 - 1 else if out.1 then (2 ^ 64 - out.2) % 2 ^ 64 else out.2

/-- A byte that ends a number in any base. -/
structure EndsAny (b : UInt8) : Prop extends Ends b where
  hex : hexDigit b = none
  mark : b≠120 ∧ b≠88

theorem digitsIn_map {ds : List ℕ} (hds : ∀ d∈ds,d < 10) (hb : hexDigit b = none) :
    digitsIn 10 n (ds.map (fun d => UInt8.ofNat (48+d))++b::tail) = ds.foldl (fun m d => 10*m+d) n := by
  induction ds generalizing n with
  | nil => simp [digitsIn,hb]
  | cons d ds ih =>
    have hd := hds d List.mem_cons_self
    have hhex : hexDigit (UInt8.ofNat (48+d)) = some d := by interval_cases d <;> rfl
    simp only [List.map_cons,List.cons_append,digitsIn,hhex,hd,if_true,List.foldl_cons]
    exact ih fun x hx => hds x (List.mem_cons_of_mem _ hx)

/-- A printed number does not begin with a zero that would change the base. -/
theorem magnitude_decimal (hb : EndsAny b) : magnitude (decimal n++b::tail) = (false,n) := by
  by_cases hn : n = 0
  · subst hn
    have hbody : decimal 0++b::tail = 48::b::tail := rfl
    have hoct : ∀ rest,digitsIn 8 0 (b::rest) = 0 := fun rest => by simp [digitsIn,hb.hex]
    cases tail with
    | nil => simp [magnitude,hbody,isSpace,minus,plus,hoct]
    | cons h tail => simp [magnitude,hbody,isSpace,minus,plus,hoct,hb.mark]
  · have hlt : ∀ d∈(Nat.digits 10 n).reverse,d < 10 := fun d hd => Nat.digits_lt_base (by decide) (List.mem_reverse.1 hd)
    have hvalue : digitsIn 10 0 (decimal n++b::tail) = n := by
      rw [decimal,if_neg hn,digitsIn_map hlt hb.hex,foldl_digits]
    obtain ⟨d,ds,hds⟩ : ∃ d ds,(Nat.digits 10 n).reverse = d::ds := by
      cases hrev : (Nat.digits 10 n).reverse with
      | nil => exact absurd (List.reverse_eq_nil_iff.1 hrev) (Nat.digits_ne_nil_iff_ne_zero.2 hn)
      | cons d ds => exact ⟨d,ds,rfl⟩
    have hd : d < 10 := hlt d (hds ▸ List.mem_cons_self)
    have hd0 : d≠0 := by
      have hlast := Nat.getLast_digit_ne_zero 10 hn
      have hhead : (Nat.digits 10 n).getLast? = some d := by rw [← List.head?_reverse,hds,List.head?_cons]
      rw [List.getLast?_eq_some_getLast (Nat.digits_ne_nil_iff_ne_zero.2 hn),Option.some.injEq] at hhead
      rwa [hhead] at hlast
    have hcons : decimal n++b::tail = UInt8.ofNat (48+d)::(ds.map (fun d => UInt8.ofNat (48+d))++b::tail) := by
      rw [decimal,if_neg hn,hds]
      rfl
    rw [hcons] at hvalue ⊢
    -- the first digit is one of 1 to 9
    interval_cases d <;> simp_all [magnitude,isSpace,minus,plus]

theorem strtoull_decimal (hb : EndsAny b) (hn : n < 2 ^ 64) : strtoull (decimal n++b::tail) = n := by
  rw [strtoull,magnitude_decimal hb]
  simp only [if_neg (Nat.not_le.2 hn),Bool.false_eq_true,if_false]

theorem strtoll_decimal (hb : EndsAny b) (hn : n < 2 ^ 63) : strtoll (decimal n++b::tail) = n := by
  rw [strtoll,magnitude_decimal hb]
  simp only [Bool.false_eq_true,if_false,longMin,longMax]
  omega

end Dataman.FieldText

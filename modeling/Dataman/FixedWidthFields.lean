import Dataman.ByteFiles
import Mathlib.Algebra.Order.Ring.Nat
import Mathlib.Data.List.Lex
import Mathlib.Data.UInt

/-!
# Fixed-width integer fields

Big-endian and little-endian byte fields of a given width, and the lexicographic
order on byte strings that `memcmp` computes on strings of one length.
-/

namespace Dataman
namespace FixedWidthFields

/-- The low `w` bytes of `v`, most significant first. -/
def putBE : ℕ → ℕ → Bytes
  | 0,_ => []
  | w+1,v => putBE w (v / 256)++[UInt8.ofNat v]

/-- The number a big-endian field denotes. -/
def getBE (bs : Bytes) : ℕ := bs.foldl (fun v b => v*256+b.toNat) 0

/-- The low `w` bytes of `v`, least significant first. -/
def putLE (w v : ℕ) : Bytes := (putBE w v).reverse

/-- The number a little-endian field denotes. -/
def getLE (bs : Bytes) : ℕ := getBE bs.reverse

@[simp] theorem length_putBE (w v : ℕ) : (putBE w v).length = w := by
  induction w generalizing v with
  | zero => rfl
  | succ w ih => simp [putBE,ih]

@[simp] theorem length_putLE (w v : ℕ) : (putLE w v).length = w := by simp [putLE]

theorem getBE_append_singleton (bs : Bytes) (b : UInt8) : getBE (bs++[b]) = getBE bs*256+b.toNat := by
  simp [getBE]

theorem getBE_append (as bs : Bytes) : getBE (as++bs) = getBE as*256 ^ bs.length+getBE bs := by
  induction bs using List.reverseRecOn with
  | nil => simp [getBE]
  | append_singleton bs b ih =>
    rw [← List.append_assoc,getBE_append_singleton,getBE_append_singleton,ih,List.length_append,List.length_singleton,pow_succ,
      Nat.add_mul,Nat.mul_assoc,Nat.add_assoc]

/-- A field of `k + w` bytes begins with the high `k` bytes. -/
theorem putBE_add (k w v : ℕ) : putBE (k+w) v = putBE k (v / 256 ^ w)++putBE w v := by
  induction w generalizing v with
  | zero => simp [putBE]
  | succ w ih => rw [← Nat.add_assoc,putBE,ih,putBE,Nat.div_div_eq_div_mul,← pow_succ',List.append_assoc]

theorem getElem?_putBE {w i : ℕ} (v : ℕ) (h : i < w) : (putBE w v)[i]? = some (UInt8.ofNat (v / 256 ^ (w - 1 - i))) := by
  induction w generalizing v with
  | zero => omega
  | succ w ih =>
    rw [putBE]
    by_cases hi : i < w
    · have hpow : w+1 - 1 - i = (w - 1 - i)+1 := by omega
      rw [List.getElem?_append_left (by rw [length_putBE]; exact hi),ih _ hi,hpow,pow_succ',Nat.div_div_eq_div_mul]
    · obtain rfl : i = w := by omega
      rw [List.getElem?_append_right (by rw [length_putBE]),length_putBE,Nat.sub_self]
      simp

theorem getBE_putBE_mod (w v : ℕ) : getBE (putBE w v) = v % 256 ^ w := by
  induction w generalizing v with
  | zero => simp [putBE,getBE,Nat.mod_one]
  | succ w ih =>
    have hb : (UInt8.ofNat v).toNat = v % 256 := UInt8.toNat_ofNat'
    rw [putBE,getBE_append_singleton,ih,hb,pow_succ' 256 w,Nat.mod_mul]
    omega

@[simp] theorem getBE_putBE {w v : ℕ} (h : v < 256 ^ w) : getBE (putBE w v) = v := by
  rw [getBE_putBE_mod,Nat.mod_eq_of_lt h]

@[simp] theorem getLE_putLE {w v : ℕ} (h : v < 256 ^ w) : getLE (putLE w v) = v := by
  simp [getLE,putLE,h]

theorem getBE_lt (bs : Bytes) : getBE bs < 256 ^ bs.length := by
  induction bs using List.reverseRecOn with
  | nil => simp [getBE]
  | append_singleton bs b ih =>
    rw [getBE_append_singleton,List.length_append,List.length_singleton,pow_succ]
    have hb := b.toNat_lt
    omega

theorem putBE_getBE (bs : Bytes) : putBE bs.length (getBE bs) = bs := by
  induction bs using List.reverseRecOn with
  | nil => rfl
  | append_singleton bs b ih =>
    have hb := b.toNat_lt
    rw [List.length_append,List.length_singleton,putBE,getBE_append_singleton,
      show (getBE bs*256+b.toNat) / 256 = getBE bs by omega,ih]
    congr 2
    apply UInt8.toNat_inj.mp
    have hv : (UInt8.ofNat (getBE bs*256+b.toNat)).toNat = (getBE bs*256+b.toNat) % 256 :=
      UInt8.toNat_ofNat'
    omega

/-- Equal numbers of one width have equal fields only. -/
theorem putBE_inj {w u v : ℕ} (hu : u < 256 ^ w) (hv : v < 256 ^ w) (h : putBE w u = putBE w v) : u = v := by
  rw [← getBE_putBE hu,h,getBE_putBE hv]

/-! ## The order of `memcmp` -/

instance linearOrderUInt8 : LinearOrder UInt8 where
  le_refl a := UInt8.le_refl a
  le_trans a b c := UInt8.le_trans
  lt_iff_le_not_ge a b := by
    rw [UInt8.le_iff_toNat_le,UInt8.le_iff_toNat_le,UInt8.lt_iff_toNat_lt]
    omega
  le_antisymm a b := UInt8.le_antisymm
  le_total a b := UInt8.le_total a b
  toDecidableLE := inferInstance
  toDecidableLT := inferInstance
  toDecidableEq := inferInstance

instance decidableMemByte (b : UInt8) (bs : Bytes) : Decidable (b∈bs) := inferInstance

instance decidableMemBytes (bs : Bytes) (bss : List Bytes) : Decidable (bs∈bss) := inferInstance

/-- Compare byte by byte, as far as both strings reach. -/
def memcmp : Bytes → Bytes → Ordering
  | x::xs,y::ys => if x < y then .lt else if y < x then .gt else memcmp xs ys
  | _,_ => .eq

theorem memcmp_eq_lt_iff {xs ys : Bytes} (h : xs.length = ys.length) : memcmp xs ys = .lt ↔ xs < ys := by
  induction xs generalizing ys with
  | nil => cases ys <;> simp_all [memcmp]
  | cons x xs ih =>
    cases ys with
    | nil => simp at h
    | cons y ys =>
      rw [memcmp,List.cons_lt_cons_iff]
      rcases lt_trichotomy x y with hxy | rfl | hxy
      · simp [hxy]
      · simpa using ih (by simpa using h)
      · simp [hxy,hxy.not_gt,hxy.ne']

theorem memcmp_eq_gt_iff {xs ys : Bytes} (h : xs.length = ys.length) : memcmp xs ys = .gt ↔ ys < xs := by
  induction xs generalizing ys with
  | nil => cases ys <;> simp_all [memcmp]
  | cons x xs ih =>
    cases ys with
    | nil => simp at h
    | cons y ys =>
      rw [memcmp,List.cons_lt_cons_iff]
      rcases lt_trichotomy x y with hxy | rfl | hxy
      · simp [hxy,hxy.not_gt,hxy.ne']
      · simpa using ih (by simpa using h)
      · simp [hxy,hxy.not_gt]

theorem memcmp_eq_eq_iff {xs ys : Bytes} (h : xs.length = ys.length) : memcmp xs ys = .eq ↔ xs = ys := by
  have hl := memcmp_eq_lt_iff h
  have hg := memcmp_eq_gt_iff h
  rcases lt_trichotomy xs ys with hxy | rfl | hxy
  · simp [hl.mpr hxy,hxy.ne]
  · cases hm : memcmp xs xs <;> simp_all
  · simp [hg.mpr hxy,hxy.ne']

end FixedWidthFields
end Dataman

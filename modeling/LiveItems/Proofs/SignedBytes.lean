import Mathlib.Data.Nat.Digits.Lemmas
import Mathlib.Order.Bounds.Basic
import Mathlib.Tactic.Ring
import LiveItems.Item.Key
set_option autoImplicit false

namespace LiveItems

variable {k : Nat} {n : Int}

/-- The numbers that have a two's complement form of `k` bytes. -/
def FitsBytes (k : Nat) (n : Int) : Prop :=
  1 ≤ k ∧ -2 ^ (8 * k - 1) ≤ n ∧ n < 2 ^ (8 * k - 1)

theorem bitLength_le_iff (m j : Nat) : bitLength m ≤ j ↔ m < 2 ^ j := by
  unfold bitLength
  split
  · subst_vars
    simp
  · rename_i nonzero
    rw [Nat.succ_le_iff, Nat.log2_lt nonzero]

/-- One bit of the bytes is for the sign. -/
theorem bytes_le_iff (b k : Nat) : b / 8 + 1 ≤ k ↔ 1 ≤ k ∧ b ≤ 8 * k - 1 := by
  omega

theorem signedByteLength_le_iff : signedByteLength n ≤ k ↔ FitsBytes k n := by
  have bound : (2 : Int) ^ (8 * k - 1) = ((2 ^ (8 * k - 1) : Nat) : Int) := by push_cast; rfl
  cases n with
  | ofNat m =>
    rw [signedByteLength, bytes_le_iff, bitLength_le_iff, FitsBytes, bound, Int.ofNat_eq_natCast]
    omega
  | negSucc m =>
    rw [signedByteLength, bytes_le_iff, bitLength_le_iff, FitsBytes, bound]
    omega

/-- The size is the least number of bytes in which the number fits. -/
theorem signedByteLength_isLeast (n : Int) : IsLeast {k | FitsBytes k n} (signedByteLength n) :=
  ⟨signedByteLength_le_iff.1 le_rfl, fun _ fits => signedByteLength_le_iff.2 fits⟩

def unsignedValue (bytes : List UInt8) : Nat := Nat.ofDigits 256 (bytes.map UInt8.toNat)

/-- The number in two's complement. In the upper half of the range the sign bit is set. -/
def signedValue (bytes : List UInt8) : Int :=
  if 2 * unsignedValue bytes < 256 ^ bytes.length then unsignedValue bytes
  else unsignedValue bytes - 256 ^ bytes.length

/-- The bytes are a two's complement form of the number, and no other one is shorter. -/
structure ShortestForm (n : Int) (bytes : List UInt8) : Prop where
  nonempty : bytes ≠ []
  value : signedValue bytes = n
  shortest : ∀ other, other ≠ [] → signedValue other = n → bytes.length ≤ other.length

theorem unsignedValue_lt (bytes : List UInt8) : unsignedValue bytes < 256 ^ bytes.length := by
  have digits : ∀ d ∈ bytes.map UInt8.toNat, d < 256 := by
    intro d hd
    obtain ⟨b, -, rfl⟩ := List.mem_map.1 hd
    exact b.toNat_lt
  have bound := Nat.ofDigits_lt_base_pow_length (by norm_num) digits
  rwa [List.length_map] at bound

theorem pow_bytes (hk : 1 ≤ k) : (256 : Int) ^ k = 2 * 2 ^ (8 * k - 1) := by
  have eight : (256 : Int) = 2 ^ 8 := by norm_num
  rw [eight, ← pow_mul, ← pow_succ']
  congr 1
  omega

theorem fitsBytes_signedValue {bytes : List UInt8} (nonempty : bytes ≠ []) :
    FitsBytes bytes.length (signedValue bytes) := by
  have long := List.length_pos_of_ne_nil nonempty
  have below : (unsignedValue bytes : Int) < 256 ^ bytes.length := by
    exact_mod_cast unsignedValue_lt bytes
  have half : 2 * unsignedValue bytes < 256 ^ bytes.length ↔
      2 * (unsignedValue bytes : Int) < 256 ^ bytes.length := by
    exact_mod_cast Iff.rfl
  refine ⟨long, ?_⟩
  rw [signedValue]
  simp only [half]
  rw [pow_bytes long] at below ⊢
  split <;> omega

def signedBytes : Nat → Int → List UInt8
  | 0, _ => []
  | k + 1, n => UInt8.ofNat (n % 256).toNat :: signedBytes k (n / 256)

theorem length_signedBytes (k : Nat) (n : Int) : (signedBytes k n).length = k := by
  induction k generalizing n with
  | zero => rfl
  | succ k ih => rw [signedBytes, List.length_cons, ih]

theorem unsignedValue_signedBytes (k : Nat) (n : Int) :
    (unsignedValue (signedBytes k n) : Int) = n % 256 ^ k := by
  induction k generalizing n with
  | zero => rw [pow_zero, Int.emod_one]; rfl
  | succ k ih =>
    have digit : ((UInt8.ofNat (n % 256).toNat).toNat : Int) = n % 256 := by
      rw [UInt8.toNat_ofNat']
      omega
    have split : n % 256 ^ (k + 1) = n % 256 + 256 * (n / 256 % 256 ^ k) := by
      rw [pow_succ', Int.emod_def, Int.emod_def n 256, Int.emod_def (n / 256),
        Int.ediv_ediv_of_nonneg (by norm_num)]
      ring
    rw [split, ← digit, ← ih]
    rfl

theorem signedValue_signedBytes (fits : FitsBytes k n) : signedValue (signedBytes k n) = n := by
  obtain ⟨long, least, most⟩ := fits
  have value := unsignedValue_signedBytes k n
  have half : 2 * unsignedValue (signedBytes k n) < 256 ^ k ↔
      2 * (unsignedValue (signedBytes k n) : Int) < 256 ^ k := by
    exact_mod_cast Iff.rfl
  rw [signedValue, length_signedBytes]
  simp only [half, value]
  rw [pow_bytes long] at *
  by_cases negative : n < 0
  · have shifted : n % (2 * 2 ^ (8 * k - 1)) = n + 2 * 2 ^ (8 * k - 1) := by
      rw [← Int.add_emod_right]
      exact Int.emod_eq_of_lt (by omega) (by omega)
    rw [shifted, if_neg (by omega)]
    omega
  · have same : n % (2 * 2 ^ (8 * k - 1)) = n := Int.emod_eq_of_lt (by omega) (by omega)
    rw [same, if_pos (by omega)]

/-- Each number has a shortest form, and the size is the length of it. -/
theorem shortestForm_signedBytes (n : Int) :
    ShortestForm n (signedBytes (signedByteLength n) n) := by
  have fits := (signedByteLength_isLeast n).1
  refine ⟨fun none => ?_, signedValue_signedBytes fits, fun other nonempty value => ?_⟩
  · have empty := congrArg List.length none
    rw [length_signedBytes] at empty
    exact absurd (empty ▸ fits.1) (by decide)
  · rw [length_signedBytes, signedByteLength_le_iff, ← value]
    exact fitsBytes_signedValue nonempty

theorem ShortestForm.length_eq {bytes : List UInt8} (shortest : ShortestForm n bytes) :
    bytes.length = signedByteLength n := by
  obtain ⟨nonempty, value, least⟩ := shortest
  have form := shortestForm_signedBytes n
  have above := least _ form.nonempty form.value
  rw [length_signedBytes] at above
  refine le_antisymm above (signedByteLength_le_iff.2 ?_)
  rw [← value]
  exact fitsBytes_signedValue nonempty

end LiveItems

import Mathlib.Algebra.Group.Nat.Defs
import Mathlib.Data.List.Basic

-- Numbers of a fixed width in bytes, the least significant byte first.
namespace Bytes

variable {n w k : ℕ} {b : UInt8} {bs bs' : List UInt8}

def ofNat : ℕ → ℕ → List UInt8
  | 0, _     => []
  | w + 1, n => .ofNat n :: ofNat w (n / 256)

def toNat : List UInt8 → ℕ
  | []      => 0
  | b :: bs => b.toNat + 256 * toNat bs

@[simp]
theorem length_ofNat (w n : ℕ) : (ofNat w n).length = w := by
  induction w generalizing n
  case zero      => rfl
  case succ w hi => simp [ofNat, hi]

theorem toNat_ofNat_mod (w n : ℕ) : toNat (ofNat w n) = n % 256 ^ w := by
  induction w generalizing n
  case zero => rw [ofNat, toNat, Nat.pow_zero, Nat.mod_one]
  case succ w hi =>
    rw [ofNat, toNat, hi, UInt8.toNat_ofNat', @Nat.pow_succ' 256 w]
    exact Nat.mod_mul.symm

theorem toNat_ofNat (h : n < 256 ^ w) : toNat (ofNat w n) = n := by
  rw [toNat_ofNat_mod, Nat.mod_eq_of_lt h]

theorem toNat_lt (bs : List UInt8) : toNat bs < 256 ^ bs.length := by
  induction bs
  case nil => simp [toNat]
  case cons b bs hi =>
    have := b.toNat_lt
    rw [toNat, List.length_cons, Nat.pow_succ]
    omega

-- The least significant byte comes first.
theorem toNat_mod (bs : List UInt8) : toNat (b :: bs) % 256 = b.toNat := by
  have := b.toNat_lt
  rw [toNat]
  omega

theorem ofNat_toNat (bs : List UInt8) : ofNat bs.length (toNat bs) = bs := by
  induction bs
  case nil => rfl
  case cons b bs hi =>
    have hb := b.toNat_lt
    have hd : (b.toNat + 256 * toNat bs) / 256 = toNat bs := by omega
    have hm : UInt8.ofNat (b.toNat + 256 * toNat bs) = b := by
      refine UInt8.toNat_inj.mp ?_
      rw [UInt8.toNat_ofNat']
      omega
    rw [List.length_cons, toNat, ofNat, hd, hm, hi]

/-! ### Reading out of a longer list -/

def read (bs : List UInt8) (offset width : ℕ) : ℕ :=
  toNat ((bs.drop offset).take width)

theorem toNat_field (bs : List UInt8) (offset width : ℕ) :
    toNat ((bs.drop offset).take width) = read bs offset width := by
  rw [read]

theorem read_lt (bs : List UInt8) (offset width : ℕ) : read bs offset width < 256 ^ width := by
  refine Nat.lt_of_lt_of_le (toNat_lt _) <| Nat.pow_le_pow_right (by decide) ?_
  exact List.length_take_le ..

theorem read_append_left (h : k + w ≤ bs.length) : read (bs ++ bs') k w = read bs k w := by
  rw [read, List.drop_append_of_le_length (by omega), List.take_append_of_le_length, read]
  rw [List.length_drop]
  omega

theorem read_append_right (h : bs.length ≤ k) : read (bs ++ bs') k w = read bs' (k - bs.length) w := by
  rw [read, List.drop_append, List.drop_eq_nil_of_le h, List.nil_append, read]

theorem read_at (h : bs.length = k) : read (bs ++ bs') k w = read bs' 0 w := by
  rw [read_append_right (by omega), h, Nat.sub_self]

theorem read_ofNat_mod (w n : ℕ) : read (ofNat w n) 0 w = n % 256 ^ w := by
  rw [read, List.drop_zero, List.take_of_length_le (by simp), toNat_ofNat_mod]

theorem read_ofNat (h : n < 256 ^ w) : read (ofNat w n) 0 w = n := by
  rw [read_ofNat_mod, Nat.mod_eq_of_lt h]

theorem ofNat_read (h : k + w ≤ bs.length) : ofNat w (read bs k w) = (bs.drop k).take w := by
  have hlen : ((bs.drop k).take w).length = w := by
    rw [List.length_take, List.length_drop]
    omega
  have := ofNat_toNat ((bs.drop k).take w)
  rwa [hlen] at this

end Bytes

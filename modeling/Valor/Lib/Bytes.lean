import Mathlib.Algebra.Group.Nat.Defs
import Mathlib.Logic.Function.Basic

/-! Byte memories with little-endian loads and stores of a fixed number of bytes. -/
namespace Bytes

abbrev Memory := Nat → UInt8

/-- The number held by the `n` bytes from address `a` on. -/
def load (m : Memory) : Nat → Nat → Nat
  | 0, _ => 0
  | n + 1, a => (m a).toNat + 256 * load m n (a + 1)

/-- The memory with the low `n` bytes of `v` written from address `a` on. -/
def store (m : Memory) : Nat → Nat → Nat → Memory
  | 0, _, _ => m
  | n + 1, a, v => Function.update (store m n (a + 1) (v / 256)) a (UInt8.ofNat v)

variable {m m' : Memory} {n a b v : Nat}

theorem load_congr (same : ∀ x, a ≤ x → x < a + n → m x = m' x) : load m n a = load m' n a := by
  induction n generalizing a with
  | zero => rfl
  | succ n ih =>
    have first : m a = m' a := same a (Nat.le_refl a) (by omega)
    have rest : load m n (a + 1) = load m' n (a + 1) := ih fun x lo hi => same x (by omega) (by omega)
    simp only [load, first, rest]

theorem store_outside {x : Nat} (outside : x < a ∨ a + n ≤ x) : store m n a v x = m x := by
  induction n generalizing a v with
  | zero => rfl
  | succ n ih =>
    have ne : x ≠ a := by omega
    have rest : store m n (a + 1) (v / 256) x = m x := ih (by omega)
    simp only [store, Function.update_of_ne ne, rest]

theorem load_store (m : Memory) (n a v : Nat) : load (store m n a v) n a = v % 256 ^ n := by
  induction n generalizing a v with
  | zero => simp [load, Nat.mod_one]
  | succ n ih =>
    have first : store m (n + 1) a v a = UInt8.ofNat v := by simp [store]
    have rest : load (store m (n + 1) a v) n (a + 1) = v / 256 % 256 ^ n := by
      rw [← ih (a + 1) (v / 256)]
      apply load_congr
      intro x lo _
      have ne : x ≠ a := by omega
      simp only [store, Function.update_of_ne ne]
    have low : (UInt8.ofNat v).toNat = v % 256 := UInt8.toNat_ofNat'
    calc load (store m (n + 1) a v) (n + 1) a = v % 256 + 256 * (v / 256 % 256 ^ n) := by
          simp only [load, first, rest, low]
      _ = v % 256 ^ (n + 1) := by rw [Nat.pow_succ', Nat.mod_mul]

theorem load_store_disjoint {k : Nat} (apart : a + n ≤ b ∨ b + k ≤ a) :
    load (store m k b v) n a = load m n a := by
  apply load_congr
  intro x lo hi
  exact store_outside (by omega)

theorem load_store_of_lt (small : v < 256 ^ n) : load (store m n a v) n a = v := by
  rw [load_store, Nat.mod_eq_of_lt small]

end Bytes

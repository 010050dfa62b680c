import Mathlib.Algebra.Group.Nat.Defs
import Mathlib.Logic.Function.Basic
import Mathlib.Tactic.Common

/-!
# Bytes

Memory as a function from addresses to bytes, and the writes of C programs to it: a word
in the order of its digits, the lowest first; a run of words that are zero; a copy.  Each
write has one lemma that says what every byte is after it.

* `store`, `load`: words of `n` bytes, and `load_store`, the round trip.
* `copy`: `memcpy` between areas that do not overlap.
* `align`: the first multiple of `n` from an address on.
-/

namespace Partee
namespace Memory

/-- A byte for every address. -/
abbrev Bytes := ℕ → UInt8

/-- The lowest `n` digits of `x`, from `p` on. -/
def store : ℕ → Bytes → ℕ → ℕ → Bytes
  | 0, b, _, _ => b
  | n + 1, b, p, x => Function.update (store n b (p + 1) (x / 256)) p (UInt8.ofNat x)

/-- The number whose `n` digits stand from `p` on. -/
def load : ℕ → Bytes → ℕ → ℕ
  | 0, _, _ => 0
  | n + 1, b, p => (b p).toNat + 256 * load n b (p + 1)

/-- `memcpy(dest, source, n)`, between areas that do not overlap. -/
def copy (b : Bytes) (dest source n : ℕ) : Bytes :=
  fun a => if dest ≤ a ∧ a < dest + n then b (source + (a - dest)) else b a

/-- The first multiple of `n` from `x` on. -/
def align (x n : ℕ) : ℕ := (x + (n - 1)) / n * n

variable {b b' : Bytes} {a n p x : ℕ}

/-! ## Words -/

/-- Bytes off the word stay. -/
theorem store_of_not (h : ¬ (p ≤ a ∧ a < p + n)) : store n b p x a = b a := by
  induction n generalizing p x with
  | zero => rfl
  | succ n ih =>
    have hp : a ≠ p := by
      rintro rfl
      exact h ⟨Nat.le_refl a, by omega⟩
    rw [store, Function.update_of_ne hp]
    exact ih fun hin => h ⟨by omega, by omega⟩

/-- Only the bytes of the word are read. -/
theorem load_congr (h : ∀ a, p ≤ a → a < p + n → b' a = b a) : load n b' p = load n b p := by
  induction n generalizing p with
  | zero => rfl
  | succ n ih =>
    rw [load, load, h p (Nat.le_refl p) (by omega)]
    rw [ih fun a hle hlt => h a (by omega) (by omega)]

/-- A word is read as it was written, as far as it has room. -/
theorem load_store (n : ℕ) (b : Bytes) (p x : ℕ) : load n (store n b p x) p = x % 256 ^ n := by
  induction n generalizing p x with
  | zero => exact (Nat.mod_one x).symm
  | succ n ih =>
    have htail : load n (store (n + 1) b p x) (p + 1) =
        load n (store n b (p + 1) (x / 256)) (p + 1) := by
      refine load_congr fun a hle _ => ?_
      rw [store, Function.update_of_ne (by omega)]
    have hhead : (store (n + 1) b p x p).toNat = x % 256 := by
      rw [store, Function.update_self]
      exact UInt8.toNat_ofNat'
    rw [load, hhead, htail, ih, Nat.pow_succ', Nat.mod_mul]

/-! ## Addresses -/

theorem align_one (x : ℕ) : align x 1 = x := by
  rw [align]
  omega

theorem le_align (x : ℕ) {n : ℕ} (hn : 0 < n) : x ≤ align x n := by
  have hdiv := Nat.div_add_mod (x + (n - 1)) n
  have hmod := Nat.mod_lt (x + (n - 1)) hn
  rw [align, Nat.mul_comm]
  omega

theorem align_lt (x : ℕ) {n : ℕ} (hn : 0 < n) : align x n < x + n := by
  have hle := Nat.div_mul_le_self (x + (n - 1)) n
  rw [align]
  omega

theorem dvd_align (x n : ℕ) : n ∣ align x n := Nat.dvd_mul_left n _

end Memory
end Partee

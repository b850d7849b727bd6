/-!
Words of 128 bits as two halves of 64, with sums and products that wrap.

`toNat` is the number that a word stands for. Sums and products are those of the numbers, less the
multiples of `modulus` that do not fit.
-/

namespace TrajectorySafety.Random

/-- A word of 128 bits. -/
structure Wide where
  high : UInt64
  low : UInt64
deriving Repr, DecidableEq

namespace Wide

/-- The number of words of half the width. -/
def half : Nat := 0x10000000000000000

/-- The number of words. -/
def modulus : Nat := half * half

/-- The number that a word stands for. -/
def toNat (w : Wide) : Nat := w.high.toNat * half + w.low.toNat

/-- The sum; the carry of the lower half shows in that it wrapped below a summand. -/
def add (a b : Wide) : Wide :=
  let low := a.low + b.low
  ⟨a.high + b.high + (if low < a.low then 1 else 0), low⟩

/-- The whole product of two halves, by the quarters of their digits. -/
def product (a b : UInt64) : Wide :=
  let r : UInt64 := 0x100000000
  let low := a % r * (b % r)
  let cross := a % r * (b / r)
  let other := a / r * (b % r)
  let middle := low / r + cross % r + other % r
  ⟨a / r * (b / r) + cross / r + other / r + middle / r, middle % r * r + low % r⟩

/-- The product. -/
def mul (a b : Wide) : Wide :=
  let p := product a.low b.low
  ⟨p.high + a.high * b.low + a.low * b.high, p.low⟩

theorem toNat_add (a b : Wide) : (a.add b).toNat = (a.toNat + b.toNat) % modulus := by
  have h1 := a.high.toNat_lt
  have h2 := a.low.toNat_lt
  have h3 := b.high.toNat_lt
  have h4 := b.low.toNat_lt
  simp only [add, toNat, modulus, half, UInt64.toNat_add, UInt64.lt_iff_toNat_lt]
  split
  · simp only [UInt64.toNat_one]
    omega
  · simp only [UInt64.toNat_zero]
    omega

theorem mul_of_digits (p q s u r : Nat) :
    (p * r + q) * (s * r + u) = p * s * (r * r) + (q * s + p * u) * r + q * u := by
  grind

theorem toNat_product (a b : UInt64) : (product a b).toNat = a.toNat * b.toNat := by
  have ha := a.toNat_lt
  have hb := b.toNat_lt
  have hr : (0x100000000 : UInt64).toNat = 0x100000000 := rfl
  have ea : a.toNat = a.toNat / 0x100000000 * 0x100000000 + a.toNat % 0x100000000 := by omega
  have eb : b.toNat = b.toNat / 0x100000000 * 0x100000000 + b.toNat % 0x100000000 := by omega
  have a1 : a.toNat / 0x100000000 ≤ 0xffffffff := by omega
  have a0 : a.toNat % 0x100000000 ≤ 0xffffffff := by omega
  have b1 : b.toNat / 0x100000000 ≤ 0xffffffff := by omega
  have b0 : b.toNat % 0x100000000 ≤ 0xffffffff := by omega
  simp only [product, toNat, half, UInt64.toNat_add, UInt64.toNat_mul, UInt64.toNat_div,
    UInt64.toNat_mod, hr]
  generalize a.toNat / 0x100000000 = p at *
  generalize a.toNat % 0x100000000 = q at *
  generalize b.toNat / 0x100000000 = s at *
  generalize b.toNat % 0x100000000 = u at *
  have h00 := Nat.mul_le_mul a0 b0
  have h01 := Nat.mul_le_mul a0 b1
  have h10 := Nat.mul_le_mul a1 b0
  have h11 := Nat.mul_le_mul a1 b1
  have key : a.toNat * b.toNat =
      p * s * 0x10000000000000000 + (q * s + p * u) * 0x100000000 + q * u := by
    rw [ea, eb]
    exact mul_of_digits p q s u 0x100000000
  rw [key]
  generalize p * s = x11 at *
  generalize q * s = x01 at *
  generalize p * u = x10 at *
  generalize q * u = x00 at *
  omega

theorem toNat_mul (a b : Wide) : (a.mul b).toNat = a.toNat * b.toNat % modulus := by
  have hp : (product a.low b.low).high.toNat * half + (product a.low b.low).low.toNat =
      a.low.toNat * b.low.toNat := toNat_product ..
  have hl := (product a.low b.low).low.toNat_lt
  have key : a.toNat * b.toNat = a.high.toNat * b.high.toNat * modulus +
      (a.low.toNat * b.high.toNat + a.high.toNat * b.low.toNat) * half +
      a.low.toNat * b.low.toNat := mul_of_digits ..
  have hm : (a.mul b).toNat =
      ((product a.low b.low).high.toNat + a.high.toNat * b.low.toNat +
        a.low.toNat * b.high.toNat) % half * half + (product a.low b.low).low.toNat := by
    simp only [mul, toNat, half, UInt64.toNat_add, UInt64.toNat_mul]
    omega
  rw [key, hm, ← hp]
  generalize a.high.toNat * b.high.toNat = x
  generalize a.high.toNat * b.low.toNat = y
  generalize a.low.toNat * b.high.toNat = z
  generalize (product a.low b.low).high.toNat = h
  generalize (product a.low b.low).low.toNat = l at *
  simp only [modulus, half]
  omega

end Wide

end TrajectorySafety.Random

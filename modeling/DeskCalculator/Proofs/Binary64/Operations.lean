import DeskCalculator.Binary64.Arithmetic
import DeskCalculator.Proofs.Binary64.Roots
import DeskCalculator.Proofs.Binary64.Truncation

/-!
# Operations by their exact results

What an operation comes to is said over the reals first (`Exact`), with the rules for infinities and for the sign of
zero; `RoundsTo` then rounds that once. Every operation of the format does what its exact counterpart says.
-/

namespace DeskCalculator

-- Powers mean the same whatever else is imported.
attribute [local instance (high)] instPowNat

/-- A result before it is rounded. A real has its sign beside it, for zero has one. -/
inductive Exact where
  | undefined
  | infinite (negative : Bool)
  | real (negative : Bool) (x : ℝ)

namespace Exact

noncomputable section

def neg : Exact → Exact
  | undefined => undefined
  | infinite s => infinite (!s)
  | real s x => real (!s) (-x)

/-- A sum of zero is negative only if both terms are. -/
def add : Exact → Exact → Exact
  | undefined, _ | _, undefined => undefined
  | infinite s, infinite t => if s = t then infinite s else undefined
  | infinite s, real _ _ => infinite s
  | real _ _, infinite t => infinite t
  | real s x, real t y => real (if x + y = 0 then s && t else x + y < 0) (x + y)

def sub (a b : Exact) : Exact := a.add b.neg

def mul : Exact → Exact → Exact
  | undefined, _ | _, undefined => undefined
  | infinite s, infinite t => infinite (s != t)
  | infinite s, real t y => if y = 0 then undefined else infinite (s != t)
  | real s x, infinite t => if x = 0 then undefined else infinite (s != t)
  | real s x, real t y => real (s != t) (x * y)

def div : Exact → Exact → Exact
  | undefined, _ | _, undefined => undefined
  | infinite _, infinite _ => undefined
  | infinite s, real t _ => infinite (s != t)
  | real s _, infinite t => real (s != t) 0
  | real s x, real t y =>
    if y = 0 then
      if x = 0 then undefined else infinite (s != t)
    else
      real (s != t) (x / y)

/-- What is left of the dividend when the divisor has been taken away from it as often as it goes. -/
def mod : Exact → Exact → Exact
  | undefined, _ | _, undefined => undefined
  | infinite _, _ => undefined
  | real s x, infinite _ => real s x
  | real s x, real _ y =>
    if y = 0 then undefined else real s (Binary64.withSign s (|x| - |y| * ⌊|x| / |y|⌋₊))

def sqrt : Exact → Exact
  | undefined => undefined
  | infinite s => if s then undefined else infinite false
  | real s x => if x < 0 then undefined else real s √x

end

/-- Rounding to the format. Where the result is not defined, the sign and the payload of the NaN are open, and they are
those of `quietNaN` here. -/
def RoundsTo : Exact → Binary64 → Prop
  | undefined, z => z = .quietNaN
  | infinite s, z => z = .infinity s
  | real s x, z => z.Rounds s x

theorem RoundsTo.unique {a : Exact} {z w : Binary64} (hz : a.RoundsTo z) (hw : a.RoundsTo w) : z = w := by
  cases a with
  | undefined => exact Eq.trans hz hw.symm
  | infinite s => exact Eq.trans hz hw.symm
  | real s x => exact Binary64.Rounds.unique hz hw

end Exact

namespace Binary64

noncomputable def exact : Binary64 → Exact
  | .nan .. => .undefined
  | .infinity s => .infinite s
  | .finite s units _ => .real s (withSign s (units / unitsPerOne))

theorem exact_of_toRat? {z : Binary64} {y : ℚ} (h : z.toRat? = some y) : z.exact = .real z.isNegative y := by
  cases z with
  | nan _ _ _ | infinity _ => cases h
  | finite s u hu =>
    rw [toRat?_finite, Option.some.injEq] at h
    rw [← h, cast_toRat?]
    rfl

/-! ## Signs -/

section
variable (s t : Bool) (x y : ℝ)

theorem withSign_mul : withSign s x * withSign t y = withSign (s != t) (x * y) := by
  cases s <;> cases t <;> simp [withSign]

theorem withSign_div_withSign : withSign s x / withSign t y = withSign (s != t) (x / y) := by
  cases s <;> cases t <;> simp [withSign, neg_div, div_neg]

theorem neg_withSign : -withSign s x = withSign (!s) x := by
  cases s <;> simp [withSign]

end

theorem size_eq_zero_iff {units : Nat} : (units : ℝ) / unitsPerOne = 0 ↔ units = 0 := by
  rw [div_eq_zero_iff, or_iff_left cast_unitsPerOne_pos.ne', Nat.cast_eq_zero]

theorem size_nonneg {units : Nat} : (0 : ℝ) ≤ units / unitsPerOne :=
  div_nonneg (Nat.cast_nonneg _) cast_unitsPerOne_pos.le

theorem remainder_size (u v : Nat) :
    (u / unitsPerOne : ℝ) - v / unitsPerOne * ⌊u / unitsPerOne / (v / unitsPerOne : ℝ)⌋₊ =
      (u % v : Nat) / unitsPerOne := by
  have hsplit : (v : ℝ) * (u / v : Nat) + (u % v : Nat) = u := by exact_mod_cast Nat.div_add_mod u v
  rw [div_div_div_cancel_right₀ cast_unitsPerOne_pos.ne', Nat.floor_div_eq_div, div_mul_eq_mul_div, ← sub_div]
  congr 1
  linarith

theorem rounds_units (s : Bool) (units : Nat) : Rounds s (withSign s (units / unitsPerOne)) (ofRatio s units 1) := by
  have h := rounds_ofRatio s units Nat.one_pos
  rwa [Nat.cast_one, div_one] at h

theorem rounds_zero (s : Bool) : Rounds s 0 (zero s) := by
  have h := rounds_units s 0
  rwa [Nat.cast_zero, zero_div, (withSign_eq_zero_iff s 0).mpr rfl, ← zero_eq_ofRatio] at h

theorem rounds_signed (n : Int) : Rounds (n < 0) (n / unitsPerOne) (ofRatio (n < 0) n.natAbs 1) := by
  have h := rounds_units (n < 0) n.natAbs
  rwa [withSign_div, ← cast_signed, signed_natAbs] at h

theorem rounds_finite (s : Bool) {units : Nat} (h : Representable units) :
    Rounds s (withSign s (units / unitsPerOne)) (finite s units h) := by
  rw [← ofRatio_eq (nearestUnits_self h) h]
  exact rounds_units s units

theorem isNegative_of_pos {z : Binary64} {y : ℚ} (h : z.toRat? = some y) (hy : 0 < y) : z.isNegative = false := by
  cases z with
  | nan _ _ _ | infinity _ => cases h
  | finite s u hu =>
    cases s with
    | false => rfl
    | true =>
      rw [toRat?, if_pos rfl, Option.some.injEq] at h
      have : (0 : ℚ) ≤ u / unitsPerOne := by positivity
      linarith

theorem toRat?_one : one.toRat? = some 1 := by
  have h := toRat?_ofInt (n := 1) (by decide)
  rw [ofInt, Int.natAbs_one, Nat.one_mul] at h
  exact h

theorem exact_one : one.exact = .real false 1 := by
  rw [exact_of_toRat? toRat?_one, isNegative_of_pos toRat?_one one_pos, Rat.cast_one]

/-! ## One rounding each -/

section
variable (x y : Binary64)

theorem neg_spec : (-x).isNegative = !x.isNegative ∧ (-x).magnitude = x.magnitude := by
  cases x <;> exact ⟨rfl, rfl⟩

theorem exact_neg : (-x).exact = x.exact.neg := by
  cases x with
  | nan _ _ _ | infinity _ => rfl
  | finite s u hu => exact congrArg (Exact.real (!s)) (neg_withSign s _).symm

theorem add_spec : (x.exact.add y.exact).RoundsTo (x + y) := by
  cases x with
  | nan _ _ _ => rfl
  | infinity s =>
    cases y with
    | nan _ _ _ | finite _ _ _ => rfl
    | infinity t => cases s <;> cases t <;> rfl
  | finite s u hu =>
    cases y with
    | nan _ _ _ | infinity _ => rfl
    | finite t v hv =>
      have hsum : withSign s (u / unitsPerOne) + withSign t (v / unitsPerOne) =
          ((signed s u + signed t v : Int) : ℝ) / unitsPerOne := by
        rw [withSign_div, withSign_div, ← cast_signed, ← cast_signed, ← add_div, Int.cast_add]
      change (Exact.real _ _).RoundsTo (if _ = 0 then _ else _)
      rw [hsum]
      generalize signed s u + signed t v = sum
      by_cases h0 : sum = 0
      · rw [if_pos h0, h0, Int.cast_zero, zero_div, if_pos rfl]
        exact rounds_zero (s && t)
      · have hne : (sum : ℝ) / unitsPerOne ≠ 0 := div_ne_zero (Int.cast_ne_zero.mpr h0) cast_unitsPerOne_pos.ne'
        have hneg : ((sum : ℝ) / unitsPerOne < 0) ↔ sum < 0 := by
          rw [div_lt_iff₀ cast_unitsPerOne_pos, zero_mul, Int.cast_lt_zero]
        rw [if_neg h0, if_neg hne]
        simp only [hneg]
        exact rounds_signed sum

theorem sub_spec : (x.exact.sub y.exact).RoundsTo (x - y) := by
  rw [Exact.sub, ← exact_neg]
  exact add_spec x (-y)

theorem mul_spec : (x.exact.mul y.exact).RoundsTo (x * y) := by
  cases x with
  | nan _ _ _ => rfl
  | infinity s =>
    cases y with
    | nan _ _ _ | infinity _ => rfl
    | finite t v hv =>
      change (if _ then _ else _ : Exact).RoundsTo (if v = 0 then _ else _)
      simp only [withSign_eq_zero_iff, size_eq_zero_iff]
      split <;> rfl
  | finite s u hu =>
    cases y with
    | nan _ _ _ => rfl
    | infinity t =>
      change (if _ then _ else _ : Exact).RoundsTo (if u = 0 then _ else _)
      simp only [withSign_eq_zero_iff, size_eq_zero_iff]
      split <;> rfl
    | finite t v hv =>
      have h := rounds_ofRatio (s != t) (u * v) unitsPerOne_pos
      change Exact.RoundsTo _ (Binary64.mul _ _)
      rw [Binary64.mul]
      rwa [Nat.cast_mul, mul_div_right_comm, mul_div_assoc, ← withSign_mul] at h

theorem div_spec : (x.exact.div y.exact).RoundsTo (x / y) := by
  cases x with
  | nan _ _ _ => rfl
  | infinity s => cases y <;> rfl
  | finite s u hu =>
    cases y with
    | nan _ _ _ => rfl
    | infinity t => exact rounds_zero (s != t)
    | finite t v hv =>
      change (if _ then (if _ then _ else _) else _ : Exact).RoundsTo
        (if v = 0 then (if u = 0 then _ else _) else _)
      simp only [withSign_eq_zero_iff, size_eq_zero_iff]
      by_cases hv : v = 0
      · rw [if_pos hv, if_pos hv]
        split <;> rfl
      · have h := rounds_ofRatio (s != t) (u * unitsPerOne) (Nat.pos_of_ne_zero hv)
        have hquotient : ((u * unitsPerOne : Nat) : ℝ) / v / unitsPerOne = u / unitsPerOne / (v / unitsPerOne) := by
          have := cast_unitsPerOne_pos.ne'
          field_simp
          push_cast
          ring
        rw [hquotient, ← withSign_div_withSign] at h
        rw [if_neg hv, if_neg hv]
        exact h

theorem div_spec_of_exact {x : Binary64} {a : Exact} (h : x.exact = a) (y : Binary64) :
    (a.div y.exact).RoundsTo (x / y) := by
  subst h
  exact div_spec x y

theorem mod_spec : (x.exact.mod y.exact).RoundsTo (x % y) := by
  cases x with
  | nan _ _ _ => rfl
  | infinity s => cases y <;> rfl
  | finite s u hu =>
    cases y with
    | nan _ _ _ => rfl
    | infinity t => exact rounds_finite s hu
    | finite t v hv =>
      change (if _ then _ else _ : Exact).RoundsTo (if v = 0 then _ else _)
      simp only [withSign_eq_zero_iff, size_eq_zero_iff]
      by_cases hv : v = 0
      · rw [if_pos hv, if_pos hv]
        rfl
      · have h := rounds_units s (u % v)
        rw [← remainder_size] at h
        rw [if_neg hv, if_neg hv, abs_withSign, abs_withSign, abs_of_nonneg size_nonneg, abs_of_nonneg size_nonneg]
        exact h

theorem sqrt_spec : x.exact.sqrt.RoundsTo x.sqrt := by
  cases x with
  | nan _ _ _ => rfl
  | infinity s => cases s <;> rfl
  | finite s u hu =>
    rw [sqrt, exact, Exact.sqrt]
    by_cases h0 : u = 0
    · have hzero : withSign s ((u : ℝ) / unitsPerOne) = 0 := by rw [withSign_eq_zero_iff, size_eq_zero_iff, h0]
      have hr := rounds_finite s hu
      rw [if_pos h0, hzero, if_neg (lt_irrefl _), Real.sqrt_zero]
      rwa [hzero] at hr
    · have hpos : (0 : ℝ) < u / unitsPerOne := size_nonneg.lt_of_ne' (mt size_eq_zero_iff.mp h0)
      cases s with
      | false =>
        rw [if_neg h0, if_neg Bool.false_ne_true, withSign_false, if_neg hpos.le.not_gt]
        exact rounds_sqrt h0
      | true =>
        rw [if_neg h0, if_pos rfl, withSign_true, if_pos (neg_neg_of_pos hpos)]
        rfl

end

/-! ## Powers -/

/-- The power to a whole number that has the binary digits `n`. Each of the `squares` is the one before it times itself,
and a product takes in the square that a digit stands for; all of them are rounded. -/
structure Raises (base : Binary64) (n : Nat) (squares products : Nat → Binary64) : Prop where
  base : squares 0 = base
  square (i : Nat) : ((squares i).exact.mul (squares i).exact).RoundsTo (squares (i + 1))
  one : (products 0).toRat? = some 1
  take (i : Nat) (h : n.testBit i = true) : ((products i).exact.mul (squares i).exact).RoundsTo (products (i + 1))
  skip (i : Nat) (h : n.testBit i = false) : products (i + 1) = products i

/-- The power to a whole exponent. A negative one has the power to its opposite as a divisor. -/
def IsPower (base : Binary64) (n : Int) (z : Binary64) : Prop :=
  ∃ squares products k, Raises base n.natAbs squares products ∧ n.natAbs < 2 ^ k ∧
    if n < 0 then ((Exact.real false 1).div (products k).exact).RoundsTo z else z = products k

namespace Raises

variable {base : Binary64} {n : Nat} {squares products squares' products' : Nat → Binary64}

theorem squares_unique (h : Raises base n squares products) (h' : Raises base n squares' products') (i : Nat) :
    squares i = squares' i := by
  induction i with
  | zero => rw [h.base, h'.base]
  | succ i ih =>
    have hi := h'.square i
    rw [← ih] at hi
    exact (h.square i).unique hi

theorem products_unique (h : Raises base n squares products) (h' : Raises base n squares' products') (i : Nat) :
    products i = products' i := by
  induction i with
  | zero =>
    have hs := (isNegative_of_pos h.one one_pos).trans (isNegative_of_pos h'.one one_pos).symm
    exact eq_of_toRat? h.one h'.one hs
  | succ i ih =>
    cases hb : n.testBit i with
    | false => rw [h.skip i hb, h'.skip i hb, ih]
    | true =>
      have hi := h'.take i hb
      rw [← ih, ← h.squares_unique h' i] at hi
      exact (h.take i hb).unique hi

/-- Behind the last digit the product does not change. -/
theorem products_eq (h : Raises base n squares products) {j k : Nat} (hj : n < 2 ^ j) (hjk : j ≤ k) :
    products k = products j := by
  induction hjk with
  | refl => rfl
  | step hle ih =>
    rw [h.skip _ (Nat.testBit_lt_two_pow (Nat.lt_of_lt_of_le hj (Nat.pow_le_pow_right (by decide) hle))), ih]

end Raises

theorem IsPower.unique {base : Binary64} {n : Int} {z w : Binary64} (hz : IsPower base n z) (hw : IsPower base n w) :
    z = w := by
  obtain ⟨squares, products, j, h, hj, hz⟩ := hz
  obtain ⟨squares', products', k, h', hk, hw⟩ := hw
  have hsame : products j = products' k := by
    rw [← h.products_unique h' k]
    rcases Nat.le_total j k with hjk | hjk
    · exact (h.products_eq hj hjk).symm
    · exact h.products_eq hk hjk
  rw [hsame] at hz
  split at hz
  · next hneg =>
    rw [if_pos hneg] at hw
    exact hz.unique hw
  · next hneg =>
    rw [if_neg hneg] at hw
    rw [hz, hw]

def square (base : Binary64) : Nat → Binary64
  | 0 => base
  | i + 1 => square base i * square base i

def product (base : Binary64) (n : Nat) : Nat → Binary64
  | 0 => one
  | i + 1 => if n.testBit i then product base n i * square base i else product base n i

theorem raises (base : Binary64) (n : Nat) : Raises base n (square base) (product base n) where
  base := rfl
  square i := mul_spec (square base i) (square base i)
  one := toRat?_one
  take i h := by
    rw [product, if_pos h]
    exact mul_spec (product base n i) (square base i)
  skip i h := by
    rw [product, if_neg (by rw [h]; exact Bool.false_ne_true)]

/-- What is left to do after some digits, and what has been done, are the same power throughout. -/
theorem powNat_eq_product (base : Binary64) (n i : Nat) :
    ∃ k, n < 2 ^ k ∧ powNat (square base i) (n / 2 ^ i) (product base n i) = product base n k := by
  induction hm : n / 2 ^ i using Nat.strongRecOn generalizing i with
  | ind m ih =>
    subst hm
    have hsplit : n / 2 ^ i / 2 = n / 2 ^ (i + 1) := by rw [Nat.div_div_eq_div_mul, Nat.pow_succ]
    have htake : (if n / 2 ^ i % 2 = 1 then product base n i * square base i else product base n i) =
        product base n (i + 1) := by
      rw [product, Nat.testBit_eq_decide_div_mod_eq]
      simp only [decide_eq_true_eq]
    rw [powNat]
    simp only [htake, hsplit]
    split
    · next hlast =>
      refine ⟨i + 1, ?_, rfl⟩
      rwa [Nat.div_lt_iff_lt_mul (Nat.two_pow_pos i), ← Nat.pow_succ'] at hlast
    · next hmore => exact ih _ (by omega) (i + 1) rfl

theorem pow_spec (base : Binary64) (n : Int) : IsPower base n (base.pow n) := by
  obtain ⟨k, hk, heq⟩ := powNat_eq_product base n.natAbs 0
  refine ⟨square base, product base n.natAbs, k, raises base n.natAbs, hk, ?_⟩
  rw [Nat.pow_zero, Nat.div_one, square, product] at heq
  rw [← heq, pow]
  split
  · exact div_spec_of_exact exact_one _
  · rfl

end Binary64

end DeskCalculator

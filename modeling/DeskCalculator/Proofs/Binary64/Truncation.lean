import DeskCalculator.Proofs.Binary64.Patterns
import DeskCalculator.TokenStream
import DeskCalculator.Evaluation

/-!
# Narrowing exponents

The exponent of `pow` is narrowed in steps: its whole part, whether that is finite, two comparisons with the limits
as numbers, and the cast. Each step is exact where the next one needs it, so an exponent is narrowed exactly when
it is less than one beyond the 32 bits that it has to fit in.
-/

namespace DeskCalculator

-- Powers mean the same whatever else is imported.
attribute [local instance (high)] instPowNat

/-! ## Whole parts of numbers -/

/-- A number and the whole number that is left of it without its fraction. -/
structure Truncates (x : ℚ) (n : Int) : Prop where
  le : n.natAbs ≤ |x|
  lt : |x| < n.natAbs + 1
  pos : 0 < n → 0 < x
  neg : n < 0 → x < 0

theorem Truncates.unique {x : ℚ} {m n : Int} (hm : Truncates x m) (hn : Truncates x n) : m = n := by
  have hmn : m.natAbs < n.natAbs + 1 := by exact_mod_cast lt_of_le_of_lt hm.le hn.lt
  have hnm : n.natAbs < m.natAbs + 1 := by exact_mod_cast lt_of_le_of_lt hn.le hm.lt
  have hopposite : ¬(0 < m ∧ n < 0) := fun h => lt_asymm (hm.pos h.1) (hn.neg h.2)
  have hopposite' : ¬(m < 0 ∧ 0 < n) := fun h => lt_asymm (hn.pos h.2) (hm.neg h.1)
  omega

/-- A fraction beyond the last whole numbers of 32 bits is dropped, so numbers up to one further out fit. -/
def Fits (x : ℚ) : Prop := -2147483649 < x ∧ x < 2147483648

theorem Truncates.fits_iff {x : ℚ} {n : Int} (h : Truncates x n) :
    Fits x ↔ minInt32 ≤ n ∧ n ≤ maxInt32 := by
  have hle := h.le
  have hlt := h.lt
  have hmin : minInt32 = -2147483648 := rfl
  have hmax : maxInt32 = 2147483647 := rfl
  unfold Fits
  rcases Int.lt_trichotomy n 0 with hn | rfl | hn
  · obtain ⟨k, rfl⟩ := Int.exists_eq_neg_ofNat (Int.le_of_lt hn)
    rw [abs_of_neg (h.neg hn), Int.natAbs_neg, Int.natAbs_natCast] at hle hlt
    constructor
    · rintro ⟨hlo, -⟩
      have hk : (k : ℚ) < 2147483649 := by linarith
      have hk' : k < 2147483649 := by exact_mod_cast hk
      omega
    · rintro ⟨hlo, -⟩
      have hk : k ≤ 2147483648 := by omega
      have hk' : (k : ℚ) ≤ 2147483648 := by exact_mod_cast hk
      constructor <;> linarith
  · obtain ⟨hlo, hhi⟩ := abs_lt.mp hlt
    simp only [Int.natAbs_zero, Nat.cast_zero] at hlo hhi
    refine iff_of_true ⟨?_, ?_⟩ (by decide) <;> linarith
  · obtain ⟨k, rfl⟩ := Int.eq_ofNat_of_zero_le (Int.le_of_lt hn)
    rw [abs_of_pos (h.pos hn), Int.natAbs_natCast] at hle hlt
    constructor
    · rintro ⟨-, hhi⟩
      have hk : (k : ℚ) < 2147483648 := by linarith
      have hk' : k < 2147483648 := by exact_mod_cast hk
      omega
    · rintro ⟨-, hhi⟩
      have hk : k + 1 ≤ 2147483648 := by omega
      have hk' : (k : ℚ) + 1 ≤ 2147483648 := by exact_mod_cast hk
      constructor <;> linarith

theorem truncates_of_quotient {negative : Bool} {q : Nat} {x : ℚ} (lo : q ≤ x) (hi : x < q + 1) :
    Truncates (if negative then -x else x) (if negative then -q else q : Int) := by
  have hx : 0 ≤ x := le_trans (Nat.cast_nonneg q) lo
  have hpos : 0 < q → 0 < x := fun hq => lt_of_lt_of_le (by exact_mod_cast hq) lo
  cases negative with
  | false =>
    refine ⟨?_, ?_, ?_, ?_⟩
    · simpa [abs_of_nonneg hx] using lo
    · simpa [abs_of_nonneg hx] using hi
    · exact fun hq => hpos (by simpa using hq)
    · exact fun hq => absurd hq (by simp)
  | true =>
    refine ⟨?_, ?_, ?_, ?_⟩
    · simpa [abs_of_nonneg hx] using lo
    · simpa [abs_of_nonneg hx] using hi
    · exact fun hq => absurd hq (by simp)
    · exact fun hq => neg_neg_of_pos (hpos (by simpa using hq))

/-! ## The steps -/

namespace Binary64

theorem isFinite_iff {v : Binary64} : v.isFinite = true ↔ ∃ x, v.toRat? = some x := by
  cases v with
  | nan _ _ _ | infinity _ => exact iff_of_false Bool.false_ne_true fun ⟨_, h⟩ => nomatch h
  | finite _ _ _ => exact iff_of_true rfl ⟨_, rfl⟩

theorem spacing_mono {units units' : Nat} (h : units ≤ units') : spacing units ≤ spacing units' := by
  rcases Nat.eq_zero_or_pos units with rfl | hpos
  · simp [spacing]
  · have hlog : units.log2 ≤ units'.log2 :=
      (Nat.le_log2 (by omega)).mpr (Nat.le_trans (Nat.log2_self_le (by omega)) h)
    simp only [spacing]
    omega

theorem representable_whole {units : Nat} (h : Representable units) :
    Representable (units / unitsPerOne * unitsPerOne) := by
  have hle := Nat.div_mul_le_self units unitsPerOne
  refine ⟨?_, Nat.lt_of_le_of_lt hle h.2⟩
  rcases Nat.le_total (spacing (units / unitsPerOne * unitsPerOne)) unitPlaces with hk | hk
  · exact Nat.dvd_trans (Nat.pow_dvd_pow 2 hk) (Nat.dvd_mul_left _ _)
  · -- Neighbours are whole numbers here, so there was no fraction to drop.
    have hmono : spacing (units / unitsPerOne * unitsPerOne) ≤ spacing units := spacing_mono hle
    have hdvd : unitsPerOne ∣ units := Nat.dvd_trans (Nat.pow_dvd_pow 2 (Nat.le_trans hk hmono)) h.1
    rw [Nat.div_mul_cancel hdvd]
    exact h.1

/-- The whole part of a number is a number. -/
theorem trunc_finite (negative : Bool) {units : Nat} (h : Representable units) :
    (finite negative units h).trunc =
      finite negative (units / unitsPerOne * unitsPerOne) (representable_whole h) :=
  ofRatio_eq (nearestUnits_self (representable_whole h)) _

theorem trunc_of_toRat? {v : Binary64} {x : ℚ} (h : v.toRat? = some x) :
    ∃ n : Int, Truncates x n ∧ v.trunc.toRat? = some (n : ℚ) := by
  cases v with
  | nan _ _ _ => cases h
  | infinity _ => cases h
  | finite negative units hr =>
    obtain rfl := Option.some.inj h
    have hone := unitsPerOne_pos
    have hlo : ((units / unitsPerOne : Nat) : ℚ) ≤ units / unitsPerOne := Nat.cast_div_le
    have hhi : (units / unitsPerOne : ℚ) < (units / unitsPerOne : Nat) + 1 := by
      rw [div_lt_iff₀ (by exact_mod_cast hone)]
      exact_mod_cast Nat.mul_comm unitsPerOne _ ▸ Nat.lt_mul_div_succ units hone
    refine ⟨signed negative (units / unitsPerOne), truncates_of_quotient hlo hhi, ?_⟩
    rw [trunc_finite, toRat?_finite, signed_mul]
    push_cast
    rw [mul_div_cancel_right₀ _ cast_unitsPerOne_ne_zero]

theorem trunc_of_none {v : Binary64} (h : v.toRat? = none) : v.trunc = v := by
  cases v with
  | nan _ _ _ => rfl
  | infinity _ => rfl
  | finite _ _ _ => cases h

theorem lt_iff {x y : Binary64} {a b : ℚ} (hx : x.toRat? = some a) (hy : y.toRat? = some b) :
    x.lt y = true ↔ a < b := by
  cases x with
  | nan _ _ _ | infinity _ => cases hx
  | finite s u hu =>
    cases y with
    | nan _ _ _ | infinity _ => cases hy
    | finite t v hv =>
      have hone : (0 : ℚ) < unitsPerOne := Nat.cast_pos.mpr unitsPerOne_pos
      rw [toRat?_finite, Option.some.injEq] at hx hy
      rw [← hx, ← hy, div_lt_div_iff_of_pos_right hone, Int.cast_lt]
      simp [lt]

theorem representable_of_lt {n : Nat} (h : n < 2 ^ (fractionBits + 1)) : Representable (n * unitsPerOne) := by
  have hlt : n * unitsPerOne < 2 ^ (fractionBits + 1 + unitPlaces) := by
    rw [unitsPerOne, Nat.pow_add]
    exact Nat.mul_lt_mul_of_pos_right h (Nat.two_pow_pos _)
  have hk : spacing (n * unitsPerOne) ≤ unitPlaces := by
    rcases Nat.eq_zero_or_pos (n * unitsPerOne) with h0 | hpos
    · rw [h0]
      exact Nat.zero_le _
    · have := (Nat.log2_lt (by omega)).mpr hlt
      simp only [spacing, fractionBits, unitPlaces] at this ⊢
      omega
  refine ⟨Nat.dvd_trans (Nat.pow_dvd_pow 2 hk) (Nat.dvd_mul_left _ _), Nat.lt_trans hlt ?_⟩
  exact Nat.pow_lt_pow_right (by decide) (by decide)

/-- Limits are converted without rounding. -/
theorem toRat?_ofInt {n : Int} (h : n.natAbs < 2 ^ (fractionBits + 1)) : (ofInt n).toRat? = some (n : ℚ) := by
  have hr := representable_of_lt h
  rw [ofInt, ofRatio_eq (nearestUnits_self hr) hr, toRat?_finite, signed_mul, signed_natAbs]
  push_cast
  rw [mul_div_cancel_right₀ _ cast_unitsPerOne_ne_zero]

/-- The cast keeps a whole number within the limits, and replaces another by a limit. -/
theorem toInt32_of_toRat? {v : Binary64} {n : Int} (h : v.toRat? = some (n : ℚ)) :
    v.toInt32 = max minInt32 (min maxInt32 n) := by
  cases v with
  | nan _ _ _ | infinity _ => cases h
  | finite negative units hr =>
    rw [toRat?_finite, Option.some.injEq, div_eq_iff cast_unitsPerOne_ne_zero] at h
    have hn : signed negative units = n * unitsPerOne := by exact_mod_cast h
    have hdvd : (unitsPerOne : Int) ∣ signed negative units := ⟨n, by rw [hn, Int.mul_comm]⟩
    replace hdvd : unitsPerOne ∣ units := by
      cases negative with
      | false => exact Int.natCast_dvd_natCast.mp hdvd
      | true => exact Int.natCast_dvd_natCast.mp (Int.dvd_neg.mp hdvd)
    rw [← Nat.div_mul_cancel hdvd, signed_mul] at hn
    rw [toInt32, Int.eq_of_mul_eq_mul_right (Int.natCast_ne_zero.mpr unitsPerOne_pos.ne') hn]

end Binary64

/-! ## All of them together -/

namespace Evaluation

open Binary64 (ofBits patternValue)

variable {bits : UInt64}

theorem toRat?_minInt32 : (Binary64.ofInt minInt32).toRat? = some (minInt32 : ℚ) :=
  Binary64.toRat?_ofInt (by decide)

theorem toRat?_maxInt32 : (Binary64.ofInt maxInt32).toRat? = some (maxInt32 : ℚ) :=
  Binary64.toRat?_ofInt (by decide)

/-- The tests of a finite number are those of its whole part. -/
theorem truncate_of_whole {v : Binary64} {n : Int} (h : v.trunc.toRat? = some (n : ℚ)) :
    truncate v = if minInt32 ≤ n ∧ n ≤ maxInt32 then .ok n else .error (.exponentOutOfRange v) := by
  have hfinite : v.trunc.isFinite = true := Binary64.isFinite_iff.mpr ⟨_, h⟩
  have hmin : v.trunc.lt (.ofInt minInt32) = true ↔ n < minInt32 := by
    rw [Binary64.lt_iff h toRat?_minInt32, Int.cast_lt]
  have hmax : (Binary64.ofInt maxInt32).lt v.trunc = true ↔ maxInt32 < n := by
    rw [Binary64.lt_iff toRat?_maxInt32 h, Int.cast_lt]
  have hcast := Binary64.toInt32_of_toRat? h
  simp only [truncate, hfinite, Bool.not_true, Bool.false_or, Bool.or_eq_true, hmin, hmax, hcast]
  split <;> split
  · omega
  · rfl
  · congr 1
    omega
  · omega

theorem truncate_of_fits {x : ℚ} (h : patternValue bits = some x) (hx : Fits x) :
    ∃ n, truncate (ofBits bits) = .ok n ∧ Truncates x n := by
  obtain ⟨n, hn, hv⟩ := Binary64.trunc_of_toRat? ((Binary64.toRat?_ofBits bits).trans h)
  exact ⟨n, (truncate_of_whole hv).trans (if_pos (hn.fits_iff.mp hx)), hn⟩

theorem truncate_of_not_fits (h : ¬∃ x, patternValue bits = some x ∧ Fits x) :
    truncate (ofBits bits) = .error (.exponentOutOfRange (ofBits bits)) := by
  have hread := Binary64.toRat?_ofBits bits
  cases hx : patternValue bits with
  | none =>
    -- What is not finite has no whole part, and no other test is needed.
    rw [hx] at hread
    have hfinite : (ofBits bits).isFinite = false := by
      rw [Bool.eq_false_iff, ne_eq, Binary64.isFinite_iff, hread]
      simp
    simp [truncate, Binary64.trunc_of_none hread, hfinite]
  | some x =>
    obtain ⟨n, hn, hv⟩ := Binary64.trunc_of_toRat? (hread.trans hx)
    exact (truncate_of_whole hv).trans (if_neg fun hrange => h ⟨x, hx, hn.fits_iff.mpr hrange⟩)

theorem truncate_ok_iff {n : Int} :
    truncate (ofBits bits) = .ok n ↔ ∃ x, patternValue bits = some x ∧ Fits x ∧ Truncates x n := by
  constructor
  · intro h
    by_cases hfits : ∃ x, patternValue bits = some x ∧ Fits x
    · obtain ⟨x, hx, hfit⟩ := hfits
      obtain ⟨m, hm, hxm⟩ := truncate_of_fits hx hfit
      obtain rfl := Except.ok.inj (h.symm.trans hm)
      exact ⟨x, hx, hfit, hxm⟩
    · cases h.symm.trans (truncate_of_not_fits hfits)
  · rintro ⟨x, hx, hfit, hxn⟩
    obtain ⟨m, hm, hxm⟩ := truncate_of_fits hx hfit
    rw [hm, hxm.unique hxn]

theorem power_of_truncate {v : Binary64} {n : Int} (base : Binary64) (h : truncate v = .ok n) :
    power base v = .ok (base.pow n) := by
  rw [power, h]
  rfl

theorem power_of_error {v : Binary64} {cause : Cause} (base : Binary64) (h : truncate v = .error cause) :
    power base v = .error cause := by
  rw [power, h]
  rfl

/-- Narrowing succeeds exactly on the finite numbers that fit, with what is left of them without the fraction; all
else fails at the line it is checked for, and the error carries the number as it was, to the last bit. A power depends
on its exponent through the whole number alone, and fails on the same exponents whatever its base. -/
theorem narrowing_exact (bits : UInt64) :
    (∀ n, truncate (ofBits bits) = .ok n ↔ ∃ x, patternValue bits = some x ∧ Fits x ∧ Truncates x n) ∧
      ((∃ n, truncate (ofBits bits) = .ok n) ↔ ∃ x, patternValue bits = some x ∧ Fits x) ∧
      ((¬∃ x, patternValue bits = some x ∧ Fits x) → ∀ line s, ∃ value : Binary64, value.toBits = bits ∧
        TokenStream.check line (truncate (ofBits bits)) s =
          (.error (.statement (.exponentOutOfRange value) line), s)) ∧
      (∀ base other x y n, patternValue bits = some x → Fits x → Truncates x n →
        patternValue other = some y → Fits y → Truncates y n →
        power base (ofBits bits) = .ok (base.pow n) ∧ power base (ofBits bits) = power base (ofBits other)) ∧
      ∀ base, (∃ cause, power base (ofBits bits) = .error cause) ↔ ¬∃ x, patternValue bits = some x ∧ Fits x := by
  refine ⟨fun n => truncate_ok_iff, ?_, ?_, ?_, ?_⟩
  · constructor
    · rintro ⟨n, hn⟩
      obtain ⟨x, hx, hfit, -⟩ := truncate_ok_iff.mp hn
      exact ⟨x, hx, hfit⟩
    · rintro ⟨x, hx, hfit⟩
      obtain ⟨n, hn, -⟩ := truncate_of_fits hx hfit
      exact ⟨n, hn⟩
  · intro h line s
    refine ⟨ofBits bits, Binary64.toBits_ofBits bits, ?_⟩
    rw [truncate_of_not_fits h]
    rfl
  · intro base other x y n hx hfx hxn hy hfy hyn
    have hpower := power_of_truncate base (truncate_ok_iff.mpr ⟨x, hx, hfx, hxn⟩)
    exact ⟨hpower, hpower.trans (power_of_truncate base (truncate_ok_iff.mpr ⟨y, hy, hfy, hyn⟩)).symm⟩
  · intro base
    constructor
    · rintro ⟨cause, hc⟩ ⟨x, hx, hfit⟩
      obtain ⟨n, hn, -⟩ := truncate_of_fits hx hfit
      cases hc.symm.trans (power_of_truncate base hn)
    · intro h
      exact ⟨_, power_of_error base (truncate_of_not_fits h)⟩

-- A fraction beyond the least exponent is dropped; one above the largest, there is none to drop.
example : truncate (ofBits 0xc1e00000001ccccd) = .ok (-2147483648) := by decide +kernel
example : truncate (ofBits 0x41e0000000000000) = .error (.exponentOutOfRange (ofBits 0x41e0000000000000)) := by
  decide +kernel

end Evaluation

end DeskCalculator

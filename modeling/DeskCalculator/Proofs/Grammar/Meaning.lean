import DeskCalculator.Proofs.Binary64.Operations
import DeskCalculator.Proofs.Grammar.Derivation

/-!
# What expressions mean

`Expr.Yields` says what an expression comes to by the exact results of its operations, each rounded once, and by what
they fail on: a zero divisor, an exponent that does not fit, a root of less than zero. Operands come first, from left
to right, and nothing behind a failure counts. Evaluation comes to just that (`yields_iff`).
-/

namespace DeskCalculator

variable {x y : Binary64} {r : Except Cause Binary64}

/-! ## Operations -/

namespace Exact

/-- There is a result, and it is the exact one rounded. -/
def Gives (a : Exact) (r : Except Cause Binary64) : Prop := ∃ z, r = .ok z ∧ a.RoundsTo z

def GivesUnless (a : Exact) (bad : Prop) (cause : Cause) (r : Except Cause Binary64) : Prop :=
  (bad ∧ r = .error cause) ∨ (¬bad ∧ a.Gives r)

def IsBelowZero : Exact → Prop
  | undefined => False
  | infinite negative => negative = true
  | real _ x => x < 0

theorem gives_iff {a : Exact} {z : Binary64} (h : a.RoundsTo z) : a.Gives r ↔ .ok z = r := by
  constructor
  · rintro ⟨w, rfl, hw⟩
    rw [h.unique hw]
  · rintro rfl
    exact ⟨z, rfl, h⟩

theorem givesUnless_iff {a : Exact} {z : Binary64} {bad : Prop} {test : Bool} (h : a.RoundsTo z)
    (ht : test = true ↔ bad) (cause : Cause) :
    a.GivesUnless bad cause r ↔ (if test then .error cause else .ok z) = r := by
  rw [GivesUnless, gives_iff h, ← ht]
  cases test <;> simp [eq_comm]

end Exact

/-- Nothing is divided by a zero of either sign. -/
def Connective.Gives : Connective → Binary64 → Binary64 → Except Cause Binary64 → Prop
  | .plus, x, y, r => (x.exact.add y.exact).Gives r
  | .minus, x, y, r => (x.exact.sub y.exact).Gives r
  | .times, x, y, r => (x.exact.mul y.exact).Gives r
  | .divide, x, y, r => (x.exact.div y.exact).GivesUnless (y.toRat? = some 0) .divideByZero r
  | .remainder, x, y, r => (x.exact.mod y.exact).GivesUnless (y.toRat? = some 0) .moduloByZero r

/-- A minus turns the sign around, that of a zero or a NaN as well. -/
def Sign.Gives : Sign → Binary64 → Binary64 → Prop
  | .plus, x, z => z = x
  | .minus, x, z => z.isNegative = !x.isNegative ∧ z.magnitude = x.magnitude

/-- What is left of an exponent without its fraction, if that has 32 bits. -/
def Narrows (y : Binary64) (n : Int) : Prop := ∃ q, y.toRat? = some q ∧ Fits q ∧ Truncates q n

def PowerGives (x y : Binary64) (r : Except Cause Binary64) : Prop :=
  (∃ n z, Narrows y n ∧ x.IsPower n z ∧ r = .ok z) ∨
    ((∀ n, ¬Narrows y n) ∧ r = .error (.exponentOutOfRange y))

def RootGives (x : Binary64) (r : Except Cause Binary64) : Prop :=
  x.exact.sqrt.GivesUnless x.exact.IsBelowZero (.negativeSqrt x) r

namespace Evaluation

theorem isZero_iff : y.isZero = true ↔ y.toRat? = some 0 := by
  cases y with
  | nan _ _ _ | infinity _ => exact iff_of_false (by simp [Binary64.isZero]) (by simp [Binary64.toRat?])
  | finite s u hu =>
    have hone := Binary64.cast_unitsPerOne_ne_zero
    rw [Binary64.toRat?_finite, Option.some.injEq, div_eq_zero_iff, or_iff_left hone]
    cases s <;> simp [Binary64.isZero, Binary64.signed]

theorem isBelowZero_iff : x.isBelowZero = true ↔ x.exact.IsBelowZero := by
  cases x with
  | nan _ _ _ => exact iff_of_false Bool.false_ne_true not_false
  | infinity s => exact Iff.rfl
  | finite s u hu =>
    have hsize : (0 : ℝ) ≤ u / unitsPerOne := Binary64.size_nonneg
    rw [Binary64.exact, Exact.IsBelowZero]
    cases s with
    | false => exact iff_of_false Bool.false_ne_true hsize.not_gt
    | true =>
      rw [Binary64.withSign_true, neg_neg_iff_pos, hsize.lt_iff_ne', ne_eq, Binary64.size_eq_zero_iff]
      simp [Binary64.isBelowZero]

theorem divide_spec : Connective.divide.Gives x y r ↔ divide x y = r :=
  Exact.givesUnless_iff (Binary64.div_spec x y) isZero_iff .divideByZero

theorem remainder_spec : Connective.remainder.Gives x y r ↔ remainder x y = r :=
  Exact.givesUnless_iff (Binary64.mod_spec x y) isZero_iff .moduloByZero

theorem squareRoot_spec : RootGives x r ↔ squareRoot x = r :=
  Exact.givesUnless_iff (Binary64.sqrt_spec x) isBelowZero_iff (.negativeSqrt x)

theorem truncate_spec {n : Int} : Narrows y n ↔ truncate y = .ok n := by
  have h := @truncate_ok_iff y.toBits n
  rw [← Binary64.toRat?_ofBits, Binary64.ofBits_toBits] at h
  exact h.symm

theorem truncate_cases (y : Binary64) : (∃ n, truncate y = .ok n) ∨ truncate y = .error (.exponentOutOfRange y) := by
  simp only [truncate]
  split
  · exact .inr rfl
  · exact .inl ⟨_, rfl⟩

theorem power_spec : PowerGives x y r ↔ power x y = r := by
  simp only [PowerGives, truncate_spec]
  rcases truncate_cases y with ⟨n, hn⟩ | hn
  · rw [power_of_truncate x hn]
    constructor
    · rintro (⟨m, z, hm, hz, rfl⟩ | ⟨h, -⟩)
      · cases hn.symm.trans hm
        rw [(Binary64.pow_spec x n).unique hz]
      · exact absurd hn (h n)
    · rintro rfl
      exact .inl ⟨n, _, hn, Binary64.pow_spec x n, rfl⟩
  · rw [power_of_error x hn]
    constructor
    · rintro (⟨m, z, hm, -⟩ | ⟨-, rfl⟩)
      · cases hn.symm.trans hm
      · rfl
    · rintro rfl
      refine .inr ⟨?_, rfl⟩
      intro n h
      cases hn.symm.trans h

end Evaluation

theorem Connective.gives_iff (k : Connective) : k.Gives x y r ↔ k.apply x y = r := by
  cases k with
  | plus => exact Exact.gives_iff (Binary64.add_spec x y)
  | minus => exact Exact.gives_iff (Binary64.sub_spec x y)
  | times => exact Exact.gives_iff (Binary64.mul_spec x y)
  | divide => exact Evaluation.divide_spec
  | remainder => exact Evaluation.remainder_spec

theorem Sign.gives_iff (sign : Sign) {z : Binary64} : sign.Gives x z ↔ sign.apply x = z := by
  cases sign with
  | plus => exact eq_comm
  | minus =>
    obtain ⟨hs, hm⟩ := Binary64.neg_spec x
    constructor
    · rintro ⟨hs', hm'⟩
      apply Binary64.toBits_injective
      rw [← UInt64.toNat_inj, Binary64.toNat_toBits, Binary64.toNat_toBits, Sign.apply, hs, hm, hs', hm']
    · rintro rfl
      exact ⟨hs, hm⟩

/-! ## Expressions -/

section
variable {α : Type}

/-- What an expression comes to, given what its leaves do. -/
inductive Expr.Yields (leaf : α → Except Cause Binary64 → Prop) : Expr α → Except Cause Binary64 → Prop where
  | leaf {a r} (h : leaf a r) : Yields leaf (.leaf a) r
  | sign {sign e x z} (he : Yields leaf e (.ok x)) (h : sign.Gives x z) : Yields leaf (.sign sign e) (.ok z)
  | sign_operand {sign e cause} (he : Yields leaf e (.error cause)) : Yields leaf (.sign sign e) (.error cause)
  | binary {k left right x y r} (hl : Yields leaf left (.ok x)) (hr : Yields leaf right (.ok y)) (h : k.Gives x y r) :
      Yields leaf (.binary k left right) r
  | binary_left {k left right cause} (hl : Yields leaf left (.error cause)) :
      Yields leaf (.binary k left right) (.error cause)
  | binary_right {k left right x cause} (hl : Yields leaf left (.ok x)) (hr : Yields leaf right (.error cause)) :
      Yields leaf (.binary k left right) (.error cause)
  | power {base exponent x y r} (hb : Yields leaf base (.ok x)) (he : Yields leaf exponent (.ok y))
      (h : PowerGives x y r) : Yields leaf (.power base exponent) r
  | power_base {base exponent cause} (hb : Yields leaf base (.error cause)) :
      Yields leaf (.power base exponent) (.error cause)
  | power_exponent {base exponent x cause} (hb : Yields leaf base (.ok x)) (he : Yields leaf exponent (.error cause)) :
      Yields leaf (.power base exponent) (.error cause)
  | root {e x r} (he : Yields leaf e (.ok x)) (h : RootGives x r) : Yields leaf (.root e) r
  | root_operand {e cause} (he : Yields leaf e (.error cause)) : Yields leaf (.root e) (.error cause)

variable {leaf : α → Except Cause Binary64 → Prop} {value : α → Except Cause Binary64} {e : Expr α}
  (hleaf : ∀ a r, leaf a r ↔ value a = r)
include hleaf

theorem evaluate_of_yields (h : e.Yields leaf r) : e.evaluate value = r := by
  induction h with
  | leaf h => exact (hleaf _ _).mp h
  | @sign sign _ _ _ _ h ih => rw [Expr.evaluate, ih, ← sign.gives_iff.mp h]; rfl
  | sign_operand _ ih => rw [Expr.evaluate, ih]; rfl
  | @binary k _ _ _ _ _ _ _ h ihl ihr => rw [Expr.evaluate_binary k ihl ihr, k.gives_iff.mp h]
  | binary_left _ ih => exact Expr.evaluate_binary_left _ _ ih
  | binary_right _ _ ihl ihr => exact Expr.evaluate_binary_right _ ihl ihr
  | power _ _ h ihb ihe => rw [Expr.evaluate_power ihb ihe, Evaluation.power_spec.mp h]
  | power_base _ ih => exact Expr.evaluate_power_base _ ih
  | power_exponent _ _ ihb ihe => exact Expr.evaluate_power_exponent ihb ihe
  | root _ h ih => rw [Expr.evaluate_root ih, Evaluation.squareRoot_spec.mp h]
  | root_operand _ ih => exact Expr.evaluate_root_operand ih

theorem yields_of_evaluate (h : e.evaluate value = r) : e.Yields leaf r := by
  induction e generalizing r with
  | leaf a => exact .leaf ((hleaf _ _).mpr h)
  | sign sign e ih =>
    cases he : e.evaluate value with
    | error cause =>
      rw [Expr.evaluate, he] at h
      cases h
      exact .sign_operand (ih he)
    | ok x =>
      rw [Expr.evaluate, he] at h
      cases h
      exact .sign (ih he) (sign.gives_iff.mpr rfl)
  | binary k left right ihl ihr =>
    cases hl : left.evaluate value with
    | error cause =>
      cases (Expr.evaluate_binary_left k right hl).symm.trans h
      exact .binary_left (ihl hl)
    | ok x =>
      cases hr : right.evaluate value with
      | error cause =>
        cases (Expr.evaluate_binary_right k hl hr).symm.trans h
        exact .binary_right (ihl hl) (ihr hr)
      | ok y => exact .binary (ihl hl) (ihr hr) (k.gives_iff.mpr ((Expr.evaluate_binary k hl hr).symm.trans h))
  | power base exponent ihb ihe =>
    cases hb : base.evaluate value with
    | error cause =>
      cases (Expr.evaluate_power_base exponent hb).symm.trans h
      exact .power_base (ihb hb)
    | ok x =>
      cases he : exponent.evaluate value with
      | error cause =>
        cases (Expr.evaluate_power_exponent hb he).symm.trans h
        exact .power_exponent (ihb hb) (ihe he)
      | ok y =>
        exact .power (ihb hb) (ihe he) (Evaluation.power_spec.mpr ((Expr.evaluate_power hb he).symm.trans h))
  | root e ih =>
    cases he : e.evaluate value with
    | error cause =>
      cases (Expr.evaluate_root_operand he).symm.trans h
      exact .root_operand (ih he)
    | ok x => exact .root (ih he) (Evaluation.squareRoot_spec.mpr ((Expr.evaluate_root he).symm.trans h))

/-- Evaluation comes to what the expression means, and to nothing else. -/
theorem yields_iff : e.Yields leaf r ↔ e.evaluate value = r :=
  ⟨evaluate_of_yields hleaf, yields_of_evaluate hleaf⟩

end

/-- The tree comes to the value, its numbers being what they are. -/
def Expr.HasValue (tree : Expr Binary64) (value : Binary64) : Prop :=
  tree.Yields (fun number r => .ok number = r) (.ok value)

theorem hasValue_iff {tree : Expr Binary64} {value : Binary64} :
    tree.HasValue value ↔ tree.evaluate .ok = .ok value :=
  yields_iff fun _ _ => Iff.rfl

end DeskCalculator

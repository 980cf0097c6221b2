import DeskCalculator.Grammar

/-!
# Fuel for the grammar

Every call that goes deeper has taken a token first, so fuel in proportion to what a stream still
holds is enough. Whatever comes of a phrase, its first token is used up, unless that is the
terminator or the end; `runs` says so for any way of counting.
-/

namespace DeskCalculator

namespace Grammar

open TokenStream

/-! ## Readings that end -/

/-- The action ends on the stream, with a result and a stream of which `post` holds. -/
def Ends {α : Type} (action : Attempt α) (s : TokenStream)
    (post : Except Error α → TokenStream → Prop) : Prop :=
  ∃ r s', action s = some (r, s') ∧ post r s'

/-- What is left, together with the cost of a value that was read, is within a bound. -/
def Within {α : Type} (size : LineReader → Nat) (bound : Nat) (cost : α → Nat) :
    Except Error α → TokenStream → Prop
  | .ok a, s => s.load size + cost a ≤ bound
  | .error _, s => s.load size ≤ bound

section
variable {α β : Type} {size : LineReader → Nat} {s : TokenStream} {bound : Nat}

theorem ends_pure {cost : α → Nat} {a : α} (h : s.load size + cost a ≤ bound) :
    Ends (pure a) s (Within size bound cost) := ⟨_, _, rfl, h⟩

theorem bind_ok {x : Attempt α} {f : α → Attempt β} {a : α} {s' : TokenStream}
    (h : x s = some (.ok a, s')) : (x >>= f) s = f a s' := by
  simp only [bind, ExceptT.bind, ExceptT.mk, ExceptT.bindCont, StateT.bind, h, Option.bind_some]

theorem bind_error {x : Attempt α} {f : α → Attempt β} {e : Error} {s' : TokenStream}
    (h : x s = some (.error e, s')) : (x >>= f) s = some (.error e, s') := by
  simp only [bind, ExceptT.bind, ExceptT.mk, ExceptT.bindCont, StateT.bind, h, Option.bind_some]
  rfl

theorem ends_bind {x : Attempt α} {f : α → Attempt β} {b : Nat} {cost : α → Nat}
    {cost' : β → Nat} (hx : Ends x s (Within size b cost)) (hb : b ≤ bound)
    (hf : ∀ a s', s'.load size + cost a ≤ b → Ends (f a) s' (Within size bound cost')) :
    Ends (x >>= f) s (Within size bound cost') := by
  obtain ⟨r, s', hr, hp⟩ := hx
  cases r with
  | ok a =>
    obtain ⟨r, s'', hr', hp'⟩ := hf a s' hp
    exact ⟨r, s'', (bind_ok hr).trans hr', hp'⟩
  | error e => exact ⟨.error e, s', bind_error hr, Nat.le_trans hp hb⟩

theorem ends_lift {x : Reading α} {cost : α → Nat} (h : Within size bound cost (x s).1 (x s).2) :
    Ends (liftM x) s (Within size bound cost) := ⟨_, _, rfl, h⟩

theorem lift_bind (x : Reading α) (f : α → Reading β) :
    (liftM (x >>= f) : Attempt β) = liftM x >>= fun a => liftM (f a) := by
  funext s
  show some ((x >>= f) s) = _
  simp only [bind, ExceptT.bind, ExceptT.mk, ExceptT.bindCont, StateT.bind, liftM, monadLift,
    MonadLift.monadLift, Option.bind_some]
  generalize x s = r
  obtain ⟨_ | a, s'⟩ := r <;> rfl

theorem Ends.mono {x : Attempt α} {b : Nat} {cost cost' : α → Nat}
    (h : Ends x s (Within size b cost)) (hb : b ≤ bound)
    (hc : ∀ a, b + cost' a ≤ bound + cost a) : Ends x s (Within size bound cost') := by
  obtain ⟨r, s', hr, hp⟩ := h
  refine ⟨r, s', hr, ?_⟩
  cases r with
  | ok a => have := hc a; simp only [Within] at hp ⊢; omega
  | error e => exact Nat.le_trans hp hb

theorem Ends.isSome {x : Attempt α} {post : Except Error α → TokenStream → Prop}
    (h : Ends x s post) : (x s).isSome := by
  obtain ⟨r, s', h, _⟩ := h
  simp [h]

theorem ends_currentLine : Ends (liftM currentLine) s (Within size (s.load size) fun _ => 0) :=
  ends_lift (Nat.le_refl _)

theorem ends_fail {cost : α → Nat} (cause : Cause) (h : s.load size ≤ bound) :
    Ends (liftM (fail cause : Reading α)) s (Within size bound cost) := ends_lift h

theorem ends_check {line : Nat} {r : Except Cause α} (h : s.load size ≤ bound) :
    Ends (liftM (check line r)) s (Within size bound fun _ => 0) := by
  cases r <;> exact ends_lift h

theorem ends_bind_check {line : Nat} {r : Except Cause α} {f : α → Attempt β} {cost : β → Nat}
    (hs : s.load size ≤ bound)
    (hf : ∀ a s', s'.load size ≤ s.load size → Ends (f a) s' (Within size bound cost)) :
    Ends (liftM (check line r) >>= f) s (Within size bound cost) :=
  ends_bind (ends_check (Nat.le_refl _)) hs hf

theorem ends_putBack {token : Token} (h : s.load size + weight token ≤ bound) :
    Ends (liftM (putBack token)) s (Within size bound fun _ => 0) := by
  refine ends_lift ?_
  have : (putBack token s).2.load size ≤ s.load size + weight token := load_putBack token s
  unfold Within
  split
  · dsimp only; omega
  · omega

theorem ends_reject {cost : α → Nat} {offender : Token} (cause : Cause)
    (h : s.load size ≤ bound) :
    Ends (liftM (reject offender cause : Reading α)) s (Within size bound cost) := by
  obtain ⟨e, s', hr, hs⟩ := @load_reject size α offender cause s
  refine ends_lift ?_
  rw [hr]
  exact Nat.le_trans hs h

end

/-! ## Enough fuel -/

section
variable {α β : Type} {size : LineReader → Nat} (shrinks : LineReader.Shrinks size)
  (symbols : SymbolTable) {s : TokenStream}

/-- A reading that takes the next token and, if it succeeds, at least one token that counts. -/
def Takes (size : LineReader → Nat) (symbols : SymbolTable) (x : Attempt α)
    (s : TokenStream) : Prop :=
  match next symbols s with
  | (.ok token, s₁) => Ends x s (Within size (s₁.load size) fun _ => 1 - weight token)
  | (.error e, s₁) => x s = some (.error e, s₁)

/-- A reading that may take nothing. -/
def Keeps (size : LineReader → Nat) (x : Attempt α) (s : TokenStream) : Prop :=
  Ends x s (Within size (s.load size) fun _ => 0)

include shrinks

theorem ends_next : Ends (liftM (next symbols)) s (Within size (s.load size) weight) := by
  refine ends_lift ?_
  have := load_next shrinks symbols s
  unfold Within
  split <;> simp_all [spent]
  omega

theorem ends_expect (op : Operator) :
    Ends (liftM (expect symbols op)) s (Within size (s.load size) fun _ => 0) := by
  rw [expect, lift_bind]
  refine ends_bind (ends_next shrinks symbols) (Nat.le_refl _) fun t s' h => ?_
  split
  · exact ends_pure (by omega)
  · exact ends_reject _ (by omega)

theorem Takes.ends {x : Attempt α} (h : Takes size symbols x s) :
    Ends x s (Within size (s.load size) fun _ => 1) := by
  have hn := load_next shrinks symbols s
  unfold Takes at h
  split at h <;> rename_i h₁ <;> simp only [h₁, spent] at hn
  · next token s₁ =>
    have := weight_le_one token
    exact h.mono (by omega) (by intro; omega)
  · exact ⟨_, _, h, Nat.le_trans (Nat.le_add_right _ _) hn⟩

/-- A phrase goes on as its first part begins. -/
theorem Takes.bind {x : Attempt α} {f : α → Attempt β}
    (hx : Takes size symbols x s)
    (hf : ∀ a s', s'.load size + 1 ≤ s.load size → Keeps size (f a) s') :
    Takes size symbols (x >>= f) s := by
  have hn := load_next shrinks symbols s
  unfold Takes at hx ⊢
  split <;> rename_i h₁ <;> simp only [h₁, spent] at hx hn
  · next token s₁ =>
    have := weight_le_one token
    refine ends_bind hx (Nat.le_refl _) fun a s' h => ?_
    exact (hf a s' (by omega)).mono (by omega) (by intro; omega)
  · exact bind_error hx

theorem takes_next {f : Token → Attempt α}
    (hf : ∀ token s', s'.load size + weight token ≤ s.load size → s'.pushedBack = none →
      Ends (f token) s' (Within size (s'.load size) fun _ => 1 - weight token)) :
    Takes size symbols (liftM (next symbols) >>= f) s := by
  have hn := load_next shrinks symbols s
  have hb := pushedBack_next symbols s
  unfold Takes
  split <;> rename_i h₁ <;> simp only [h₁, spent] at hn hb
  · next token s₁ =>
    have h : (liftM (next symbols) : Attempt Token) s = some (.ok token, s₁) := congrArg some h₁
    obtain ⟨r, s', hr, hp⟩ := hf token s₁ hn hb
    exact ⟨r, s', (bind_ok h).trans hr, hp⟩
  · exact bind_error (congrArg some h₁)

/-- Fuel of three for each token still to be delivered, and three more, is enough. -/
theorem runs (n : Nat) :
    (∀ s : TokenStream, 3 * s.load size + 3 ≤ n →
      Takes size symbols (expression symbols n) s) ∧
    (∀ (s : TokenStream) left, 3 * s.load size + 1 ≤ n →
      Keeps size (expressionRest symbols n left) s) ∧
    (∀ s : TokenStream, 3 * s.load size + 2 ≤ n → Takes size symbols (term symbols n) s) ∧
    (∀ (s : TokenStream) left, 3 * s.load size + 1 ≤ n →
      Keeps size (termRest symbols n left) s) ∧
    (∀ s : TokenStream, 3 * s.load size + 1 ≤ n →
      Takes size symbols (primary symbols n) s) := by
  induction n with
  | zero => exact ⟨by omega, by omega, by omega, by omega, by omega⟩
  | succ n ih =>
    obtain ⟨ihe, iher, iht, ihtr, ihp⟩ := ih
    have takes {x : Attempt Binary64} {s : TokenStream} (h : Takes size symbols x s) :=
      h.ends shrinks
    refine ⟨fun s h => ?_, fun s left h => ?_, fun s h => ?_, fun s left h => ?_, fun s h => ?_⟩
    · rw [expression]
      exact (iht s (by omega)).bind shrinks symbols fun a s' hs => iher s' a (by omega)
    · rw [expressionRest]
      refine ends_bind (ends_next shrinks symbols) (Nat.le_refl _) fun t s₁ h₁ => ?_
      split
      · simp only [weight] at h₁
        refine ends_bind (takes (iht s₁ (by omega))) (by omega) fun a s₂ h₂ => ?_
        exact (iher s₂ _ (by omega)).mono (by omega) (by intro; omega)
      · simp only [weight] at h₁
        refine ends_bind (takes (iht s₁ (by omega))) (by omega) fun a s₂ h₂ => ?_
        exact (iher s₂ _ (by omega)).mono (by omega) (by intro; omega)
      · refine ends_bind (ends_putBack h₁) (Nat.le_refl _) fun _ s₂ h₂ => ?_
        exact ends_pure h₂
    · rw [term]
      exact (ihp s (by omega)).bind shrinks symbols fun a s' hs => ihtr s' a (by omega)
    · rw [termRest]
      refine ends_bind (ends_next shrinks symbols) (Nat.le_refl _) fun t s₁ h₁ => ?_
      refine ends_bind ends_currentLine (by omega) fun line s₂ h₂ => ?_
      split
      · simp only [weight] at h₁
        refine ends_bind (takes (ihp s₂ (by omega))) (by omega) fun a s₃ h₃ => ?_
        exact (ihtr s₃ _ (by omega)).mono (by omega) (by intro; omega)
      · simp only [weight] at h₁
        refine ends_bind (takes (ihp s₂ (by omega))) (by omega) fun a s₃ h₃ => ?_
        refine ends_bind_check (by omega) fun q s₄ h₄ => ?_
        exact (ihtr s₄ _ (by omega)).mono (by omega) (by intro; omega)
      · simp only [weight] at h₁
        refine ends_bind (takes (ihp s₂ (by omega))) (by omega) fun a s₃ h₃ => ?_
        refine ends_bind_check (by omega) fun q s₄ h₄ => ?_
        exact (ihtr s₄ _ (by omega)).mono (by omega) (by intro; omega)
      · refine ends_bind (ends_putBack (by omega)) (Nat.le_refl _) fun _ s₃ h₃ => ?_
        exact ends_pure h₃
    · rw [primary]
      refine takes_next shrinks symbols fun t s₁ h₁ _ => ?_
      split
      · exact ends_pure (by simp [weight])
      · simp only [weight] at h₁
        refine ends_bind (takes (ihe s₁ (by omega))) (by omega) fun a s₂ h₂ => ?_
        refine ends_bind (ends_expect shrinks symbols _) (by omega) fun _ s₃ h₃ => ?_
        exact ends_pure (by omega)
      · simp only [weight] at h₁
        refine ends_bind (takes (ihp s₁ (by omega))) (by omega) fun a s₂ h₂ => ?_
        exact ends_pure (by omega)
      · simp only [weight] at h₁
        exact (takes (ihp s₁ (by omega))).mono (by omega) (by intro; omega)
      · simp only [weight] at h₁
        refine ends_bind (ends_expect shrinks symbols _) (by omega) fun _ s₂ h₂ => ?_
        refine ends_bind (takes (ihe s₂ (by omega))) (by omega) fun base s₃ h₃ => ?_
        refine ends_bind (ends_expect shrinks symbols _) (by omega) fun _ s₄ h₄ => ?_
        refine ends_bind (takes (ihe s₄ (by omega))) (by omega) fun exponent s₅ h₅ => ?_
        refine ends_bind ends_currentLine (by omega) fun line s₆ h₆ => ?_
        refine ends_bind_check (by omega) fun q s₇ h₇ => ?_
        refine ends_bind (ends_expect shrinks symbols _) (by omega) fun _ s₈ h₈ => ?_
        exact ends_pure (by omega)
      · simp only [weight] at h₁
        refine ends_bind (ends_expect shrinks symbols _) (by omega) fun _ s₂ h₂ => ?_
        refine ends_bind (takes (ihe s₂ (by omega))) (by omega) fun base s₃ h₃ => ?_
        refine ends_bind ends_currentLine (by omega) fun line s₆ h₆ => ?_
        refine ends_bind_check (by omega) fun q s₇ h₇ => ?_
        refine ends_bind (ends_expect shrinks symbols _) (by omega) fun _ s₈ h₈ => ?_
        exact ends_pure (by omega)
      · exact ends_fail _ (by omega)
      · exact ends_reject _ (by omega)

end

/-! ## Reading without fuel -/

/-- Fuel that no phrase on the stream uses up. -/
def fuel (s : TokenStream) : Nat := 3 * s.load LineReader.characters + 3

theorem le_fuel {size : LineReader → Nat} (shrinks : LineReader.Shrinks size) (s : TokenStream) :
    3 * s.load size + 3 ≤ fuel s := by
  have := shrinks.le_characters s.reader
  simp only [fuel, load]
  omega

end Grammar

namespace TokenStream

open Grammar

variable (symbols : SymbolTable)

def expression : Reading Binary64 := fun s =>
  (Grammar.expression symbols (fuel s) s).get
    (((runs LineReader.shrinks_characters symbols _).1 s (Nat.le_refl _)).ends
      LineReader.shrinks_characters).isSome

def term : Reading Binary64 := fun s =>
  (Grammar.term symbols (fuel s) s).get
    (((runs LineReader.shrinks_characters symbols _).2.2.1 s (Nat.le_succ _)).ends
      LineReader.shrinks_characters).isSome

def primary : Reading Binary64 := fun s =>
  (Grammar.primary symbols (fuel s) s).get
    (((runs LineReader.shrinks_characters symbols _).2.2.2.2 s (Nat.le_add_right _ 2)).ends
      LineReader.shrinks_characters).isSome

theorem lift_expression (s : TokenStream) :
    (liftM (expression symbols) : Attempt Binary64) s = Grammar.expression symbols (fuel s) s :=
  Option.some_get _

theorem takes_expression {size : LineReader → Nat} (shrinks : LineReader.Shrinks size)
    (s : TokenStream) : Takes size symbols (liftM (expression symbols)) s := by
  have h := (runs shrinks symbols (fuel s)).1 s (le_fuel shrinks s)
  unfold Takes at h ⊢
  unfold Ends at h ⊢
  rw [lift_expression]
  exact h

end TokenStream

end DeskCalculator

import DeskCalculator.Proofs.Decimal.Reading
import DeskCalculator.Proofs.Grammar.Meaning
import DeskCalculator.Proofs.Programs.Spelling
import DeskCalculator.Proofs.SymbolTable.Environment

/-!
# Programs and what they come to

A program is a list of sentences. `Verdicts` says what they come to one after the other, by what their expressions
mean, and `Written` how they may be written, one behind the other with terminators. The terminator of the last one may
be missing, and there may be more of them than needed.
-/

namespace DeskCalculator

inductive Sentence where
  | declaration (name : Name) (e : Expr Atom)
  | expression (e : Expr Atom)

/-! ## Values -/

namespace Environment

variable {env env' : Environment}

/-- What a session begins with: two names, for the numbers nearest to the constants with ten decimals. -/
structure IsInitial (env : Environment) : Prop where
  pi : ∃ z, env "pi" = some z ∧ Binary64.Rounds false 3.1415926535 z
  e : ∃ z, env "e" = some z ∧ Binary64.Rounds false 2.7182818284 z
  others : ∀ name, name ≠ "pi" → name ≠ "e" → env name = none

theorem IsInitial.unique (h : env.IsInitial) (h' : env'.IsInitial) : env = env' := by
  funext name
  by_cases hpi : name = "pi"
  · subst hpi
    obtain ⟨z, hz, hr⟩ := h.pi
    obtain ⟨w, hw, hr'⟩ := h'.pi
    rw [hz, hw, hr.unique hr']
  by_cases he : name = "e"
  · subst he
    obtain ⟨z, hz, hr⟩ := h.e
    obtain ⟨w, hw, hr'⟩ := h'.e
    rw [hz, hw, hr.unique hr']
  · rw [h.others name hpi he, h'.others name hpi he]

theorem find?_pair (x y : Binary64) (name : String) : (SymbolTable.ofList [("pi", x), ("e", y)]).find? name =
    if name = "pi" then some x else if name = "e" then some y else none := by
  by_cases hpi : name = "pi"
  · subst hpi
    rfl
  by_cases he : name = "e"
  · subst he
    rfl
  · have hentries : (SymbolTable.ofList [("pi", x), ("e", y)]).entries = [("pi", x), ("e", y)] := rfl
    rw [if_neg hpi, if_neg he, SymbolTable.find?_eq_none_iff, hentries]
    simp [hpi, he]

theorem isInitial_constants : IsInitial SymbolTable.constants.find? where
  pi := by
    refine ⟨_, find?_pair _ _ "pi", ?_⟩
    have h := Decimal.rounds_toBinary64 ⟨31415926535, -10⟩
    have hvalue : ((Decimal.toRat ⟨31415926535, -10⟩ : ℚ) : ℝ) = 3.1415926535 := by norm_num [Decimal.toRat]
    rwa [hvalue] at h
  e := by
    refine ⟨_, find?_pair _ _ "e", ?_⟩
    have h := Decimal.rounds_toBinary64 ⟨27182818284, -10⟩
    have hvalue : ((Decimal.toRat ⟨27182818284, -10⟩ : ℚ) : ℝ) = 2.7182818284 := by norm_num [Decimal.toRat]
    rwa [hvalue] at h
  others name hpi he := by rw [SymbolTable.constants, find?_pair, if_neg hpi, if_neg he]

/-- A literal comes to the number nearest to what it is written as, and a name to its value. -/
inductive Gives (env : Environment) : Atom → Except Cause Binary64 → Prop where
  | literal {l z} (h : Binary64.Rounds false l.literal.number z) : Gives env (.literal l) (.ok z)
  | name {n z} (h : env n.text = some z) : Gives env (.name n) (.ok z)
  | undefined {n} (h : env n.text = none) : Gives env (.name n) (.error (.undefinedVariable n.text))

def value (env : Environment) : Atom → Except Cause Binary64
  | .literal l => .ok l.literal.value
  | .name n =>
    match env n.text with
    | some value => .ok value
    | none => .error (.undefinedVariable n.text)

theorem gives_iff (a : Atom) (r : Except Cause Binary64) : env.Gives a r ↔ env.value a = r := by
  constructor
  · intro h
    cases h with
    | literal h => rw [value, h.unique (NumberLiteral.rounds_value _)]
    | name h => rw [value, h]
    | undefined h => rw [value, h]
  · rintro rfl
    cases a with
    | literal l => exact .literal l.literal.rounds_value
    | name n =>
      rw [value]
      split
      · next h => exact .name h
      · next h => exact .undefined h

end Environment

namespace Sentence

def tree : Sentence → Expr Atom
  | .declaration _ e => e
  | .expression e => e

/-- What a sentence comes to: the value of its expression, or the first reason that it has none. -/
def Yields (env : Environment) (s : Sentence) (r : Except Cause Binary64) : Prop := s.tree.Yields env.Gives r

/-- The values of names behind a sentence. One without a value declares nothing. -/
def after (env : Environment) : Sentence → Except Cause Binary64 → Environment
  | .declaration name _, .ok value => env.declare name.text value
  | _, _ => env

theorem yields_iff {env : Environment} {s : Sentence} {r : Except Cause Binary64} :
    s.Yields env r ↔ s.tree.evaluate env.value = r :=
  DeskCalculator.yields_iff env.gives_iff

inductive Spelled : Sentence → List Spelling → Prop where
  | declaration {name e ws} (h : Derives .spellings (.chain .sum) e ws) :
      Spelled (.declaration name e) (.keyword .declare :: .atom (.name name) :: .operator .equals :: ws)
  | expression {e ws} (h : Derives .spellings (.chain .sum) e ws) : Spelled (.expression e) ws

/-- May the sentence stand here, spelled so? A declared name has to be new, and an expression that begins
with the name `x` asks to quit if that has no value. -/
def Admissible (env : Environment) : Sentence → List Spelling → Prop
  | .declaration name _, _ => env name.text = none
  | .expression _, ws => ∀ name : Name, ws.head? = some (.atom (.name name)) → name.text = "x" → env "x" ≠ none

end Sentence

/-- What the sentences of a program come to, each with the names that those before it have declared. -/
inductive Verdicts : Environment → List Sentence → List (Except Cause Binary64) → Prop where
  | nil {env} : Verdicts env [] []
  | cons {env s r p rs} (h : s.Yields env r) (rest : Verdicts (s.after env r) p rs) : Verdicts env (s :: p) (r :: rs)

def verdicts : Environment → List Sentence → List (Except Cause Binary64)
  | _, [] => []
  | env, s :: p => s.tree.evaluate env.value :: verdicts (s.after env (s.tree.evaluate env.value)) p

theorem verdicts_iff {env : Environment} {p : List Sentence} {rs : List (Except Cause Binary64)} :
    Verdicts env p rs ↔ rs = verdicts env p := by
  induction p generalizing env rs with
  | nil =>
    constructor
    · rintro ⟨⟩
      rfl
    · rintro rfl
      exact .nil
  | cons s p ih =>
    constructor
    · rintro (_ | ⟨h, rest⟩)
      rw [verdicts, Sentence.yields_iff.mp h, ih.mp rest]
    · rintro rfl
      exact .cons (Sentence.yields_iff.mpr rfl) (ih.mpr rfl)

inductive Written : Environment → List Sentence → List Spelling → Prop where
  | nil {env} : Written env [] []
  | terminator {env p ws} (h : Written env p ws) : Written env p (.operator .equals :: ws)
  | cons {env s r p ws ws'} (hs : Sentence.Spelled s ws) (ha : s.Admissible env ws) (hy : s.Yields env r)
      (h : Written (s.after env r) p ws') : Written env (s :: p) (ws ++ .operator .equals :: ws')
  | last {env s ws} (hs : Sentence.Spelled s ws) (ha : s.Admissible env ws) : Written env [s] ws

theorem isChain_of_spelled {s : Sentence} {ws : List Spelling} (h : s.Spelled ws) : ws.IsChain Separable := by
  cases h with
  | expression h => exact isChain_of_derives h
  | declaration h =>
    refine .cons_cons (Or.inr (Or.inr rfl)) (.cons_cons (Or.inr (Or.inl rfl)) ?_)
    exact isChain_operator (isChain_of_derives h)

theorem isChain_of_written {env : Environment} {p : List Sentence} {ws : List Spelling}
    (h : Written env p ws) : ws.IsChain Separable := by
  induction h with
  | nil => exact .nil
  | terminator _ ih => exact isChain_operator ih
  | cons hs _ _ _ ih =>
    refine isChain_append (isChain_of_spelled hs) (isChain_operator ih) ?_
    intro w hw
    cases hw
    rfl
  | last hs _ => exact isChain_of_spelled hs

/-! ## Everything can be written -/

section
variable {α τ : Type} {A : Alphabet α τ} {e : Expr α}

theorem exists_derives_binary (k : Connective) {left right : Expr α} {ws ws' : List τ}
    (hl : Derives A .primary left ws) (hr : Derives A .primary right ws') :
    ∃ ws, Derives A (.chain .sum) (.binary k left right) ws := by
  cases hc : k.chain with
  | sum => exact ⟨_, .chain (c := .sum) (derives_product hl) (.rest_cons hc (derives_product hr) .rest_nil)⟩
  | product =>
    have h := Derives.chain (c := .product) hl (.rest_cons hc hr .rest_nil)
    exact ⟨_, .chain (c := .sum) h .rest_nil⟩

/-- With enough parentheses every expression can be written. -/
theorem exists_derives (A : Alphabet α τ) (e : Expr α) : ∃ ws, Derives A .primary e ws := by
  induction e with
  | leaf a => exact ⟨_, .leaf a⟩
  | sign sign e ih =>
    obtain ⟨ws, h⟩ := ih
    exact ⟨_, .sign h⟩
  | binary k left right ihl ihr =>
    obtain ⟨ws, hl⟩ := ihl
    obtain ⟨ws', hr⟩ := ihr
    obtain ⟨ws, h⟩ := exists_derives_binary k hl hr
    exact ⟨_, .group h⟩
  | power base exponent ihb ihe =>
    obtain ⟨ws, hb⟩ := ihb
    obtain ⟨ws', he⟩ := ihe
    exact ⟨_, .power (derives_sum hb) (derives_sum he)⟩
  | root e ih =>
    obtain ⟨ws, h⟩ := ih
    exact ⟨_, .root (derives_sum h)⟩

end

end DeskCalculator

import Mathlib.Data.Set.Card
import DeskCalculator.Proofs.Binary64.Patterns
import DeskCalculator.SymbolTable

/-!
# Symbol tables as environments

An environment gives values to some names. A table stands for one, and whatever is asked of it, it answers as an
environment does in which a name is declared at most once: `runs_iff`. Since no name is in a table twice, its
size is the number of the names that have a value.
-/

namespace DeskCalculator

abbrev Environment := String → Option Binary64

/-- The name has the value from now on, whatever it had before. -/
def Environment.declare (env : Environment) (name : String) (value : Binary64) : Environment :=
  fun n => if n = name then some value else env n

namespace SymbolTable

variable {table table' : SymbolTable} {name : String} {value : Binary64} {cause : Cause}

/-! ## Names and sizes -/

theorem find?_eq_none_iff : table.find? name = none ↔ name ∉ table.entries.map Prod.fst := by
  refine ⟨not_mem_of_find?_eq_none, fun h => List.lookup_eq_none_iff.mpr fun entry he => bne_iff_ne.mpr ?_⟩
  rintro rfl
  exact h (List.mem_map_of_mem he)

theorem isDeclared_iff : table.isDeclared name = true ↔ name ∈ table.entries.map Prod.fst := by
  rw [isDeclared, Option.isSome_iff_ne_none, Ne, find?_eq_none_iff, not_not]

/-- No name counts twice. -/
theorem size_eq_ncard (table : SymbolTable) : table.size = {name | table.isDeclared name = true}.ncard := by
  have hset : {name | table.isDeclared name = true} = ((table.entries.map Prod.fst).toFinset : Set String) := by
    ext name
    simp [isDeclared_iff]
  rw [hset, Set.ncard_coe_finset, List.toFinset_card_of_nodup table.nodup, List.length_map, size]

/-! ## Declaring -/

theorem of_declare (h : table.declare name value = .ok table') :
    table.find? name = none ∧ table'.entries = table.entries ++ [(name, value)] := by
  unfold declare at h
  split at h
  · cases h
  · next hf => cases h; exact ⟨hf, rfl⟩

theorem find?_declare (h : table.declare name value = .ok table') (n : String) :
    table'.find? n = if n = name then some value else table.find? n := by
  obtain ⟨hf, he⟩ := of_declare h
  unfold find? at hf ⊢
  rw [he, List.lookup_append]
  by_cases hnn : n = name
  · subst hnn
    simp [hf]
  · have hb : (n == name) = false := by simpa using hnn
    simp [hnn, List.lookup_cons, hb]

theorem size_declare (h : table.declare name value = .ok table') : table'.size = table.size + 1 := by
  rw [size, (of_declare h).2, List.length_append]
  rfl

theorem declare_of_find? (h : table.find? name = none) (value : Binary64) :
    ∃ table', table.declare name value = .ok table' := by
  unfold declare
  split
  · next hf => rw [h] at hf; cases hf
  · exact ⟨_, rfl⟩

theorem of_declare_error (h : table.declare name value = .error cause) :
    table.find? name ≠ none ∧ cause = .duplicateDeclaration name := by
  unfold declare at h
  split at h
  · next hf =>
    cases h
    exact ⟨by simp [hf], rfl⟩
  · cases h

theorem cause_of_declare (h : table.declare name value = .error cause) : cause = .duplicateDeclaration name :=
  (of_declare_error h).2

/-! ## Setting -/

theorem lookup_map_overwrite (entries : List (String × Binary64)) (name : String) (value : Binary64) (n : String) :
    (entries.map fun entry => if entry.1 = name then (name, value) else entry).lookup n =
      if n = name then (entries.lookup name).map fun _ => value else entries.lookup n := by
  induction entries with
  | nil => simp
  | cons entry entries ih =>
    obtain ⟨first, old⟩ := entry
    by_cases hn : n = first
    · subst hn
      by_cases hf : n = name <;> simp [hf]
    · have hb : (n == first) = false := by simpa using hn
      by_cases hf : first = name
      · subst hf
        simp [List.lookup_cons, hb, hn, ih]
      · have hb' : (name == first) = false := by simpa using Ne.symm hf
        simp [List.lookup_cons, hb, hb', hf, ih]

theorem of_set (h : table.set name value = .ok table') : table.find? name ≠ none ∧ table'.entries =
    table.entries.map fun entry => if entry.1 = name then (name, value) else entry := by
  unfold set at h
  split at h
  · cases h
  · next hf =>
    cases h
    exact ⟨by simp [hf], rfl⟩

theorem find?_set (h : table.set name value = .ok table') (n : String) :
    table'.find? n = if n = name then some value else table.find? n := by
  obtain ⟨hf, he⟩ := of_set h
  obtain ⟨old, hold⟩ := Option.ne_none_iff_exists'.mp hf
  unfold find? at hold ⊢
  rw [he, lookup_map_overwrite, hold]
  rfl

theorem size_set (h : table.set name value = .ok table') : table'.size = table.size := by
  rw [size, (of_set h).2, List.length_map, size]

theorem of_set_error (h : table.set name value = .error cause) :
    table.find? name = none ∧ cause = .undefinedVariable name := by
  unfold set at h
  split at h
  · next hf =>
    cases h
    exact ⟨hf, rfl⟩
  · cases h

/-! ## Requests -/

/-- What a table can be asked. An error is reported at the line that comes with the request. -/
inductive Request where
  | declare (name : String) (value : Binary64) (line : Nat)
  | set (name : String) (value : Binary64) (line : Nat)
  | lookup (name : String) (line : Nat)
  | isDeclared (name : String)

/-- The only name that the request is about. -/
def Request.subject : Request → String
  | .declare name _ _ | .set name _ _ | .lookup name _ | .isDeclared name => name

/-- What a request that succeeds is answered with. -/
inductive Reply where
  | value (value : Binary64)
  | done
  | declared (known : Bool)
  deriving DecidableEq

def perform (table : SymbolTable) : Request → Except Error Reply × SymbolTable
  | .declare name value line =>
    match table.declare name value with
    | .ok table' => (.ok (.value value), table')
    | .error cause => (.error (.statement cause line), table)
  | .set name value line =>
    match table.set name value with
    | .ok table' => (.ok .done, table')
    | .error cause => (.error (.statement cause line), table)
  | .lookup name line =>
    match table.lookup name with
    | .ok value => (.ok (.value value), table)
    | .error cause => (.error (.statement cause line), table)
  | .isDeclared name => (.ok (.declared (table.isDeclared name)), table)

/-- The replies to some requests, one after the other. -/
def replies : SymbolTable → List Request → List (Except Error Reply)
  | _, [] => []
  | table, request :: requests => (table.perform request).1 :: (table.perform request).2.replies requests

/-- The table that some requests leave behind, whatever the replies. -/
def after (table : SymbolTable) (requests : List Request) : SymbolTable :=
  requests.foldl (fun table request => (table.perform request).2) table

/-- The request is a declaration, and the reply says that it succeeded. -/
def Request.Declares : Request × Except Error Reply → Bool
  | (.declare .., .ok _) => true
  | _ => false

end SymbolTable

open SymbolTable

/-! ## What environments answer -/

namespace Environment

/-- A name is declared only once, and has to be declared before its value is asked for or overwritten. A request that
fails changes nothing. -/
inductive Step : Environment → Request → Except Error Reply → Environment → Prop where
  | declared {env name value line} (h : env name = none) :
      Step env (.declare name value line) (.ok (.value value)) (env.declare name value)
  | duplicate {env name value line} (h : env name ≠ none) :
      Step env (.declare name value line) (.error (.statement (.duplicateDeclaration name) line)) env
  | overwritten {env name value line} (h : env name ≠ none) :
      Step env (.set name value line) (.ok .done) (env.declare name value)
  | unset {env name value line} (h : env name = none) :
      Step env (.set name value line) (.error (.statement (.undefinedVariable name) line)) env
  | found {env name value line} (h : env name = some value) :
      Step env (.lookup name line) (.ok (.value value)) env
  | undefined {env name line} (h : env name = none) :
      Step env (.lookup name line) (.error (.statement (.undefinedVariable name) line)) env
  | isDeclared {env name} : Step env (.isDeclared name) (.ok (.declared (env name).isSome)) env

/-- Some requests one after the other, and their replies. -/
inductive Runs : Environment → List Request → List (Except Error Reply) → Environment → Prop where
  | nil {env} : Runs env [] [] env
  | cons {env request reply env' requests replies env''} (step : Step env request reply env')
      (rest : Runs env' requests replies env'') : Runs env (request :: requests) (reply :: replies) env''

variable {env env' env'' : Environment} {request : Request} {reply reply' : Except Error Reply}

theorem Step.unique (h : Step env request reply env') (h' : Step env request reply' env'') :
    reply = reply' ∧ env' = env'' := by
  cases h <;> cases h' <;> simp_all

theorem Step.frame (h : Step env request reply env') {name : String} (hn : name ≠ request.subject) :
    env' name = env name := by
  cases h with
  | declared | overwritten => exact if_neg hn
  | _ => rfl

end Environment

/-! ## Tables against environments -/

namespace SymbolTable

/-- One request: the table replies as its environment, and stands for what that becomes. -/
theorem step_perform (table : SymbolTable) (request : Request) :
    Environment.Step table.find? request (table.perform request).1 (table.perform request).2.find? := by
  cases request with
  | declare name value line =>
    cases hd : table.declare name value with
    | ok table' =>
      have henv : table'.find? = Environment.declare table.find? name value := funext (find?_declare hd)
      simp only [perform, hd, henv]
      exact .declared (of_declare hd).1
    | error cause =>
      obtain ⟨hf, rfl⟩ := of_declare_error hd
      simp only [perform, hd]
      exact .duplicate hf
  | set name value line =>
    cases hs : table.set name value with
    | ok table' =>
      have henv : table'.find? = Environment.declare table.find? name value := funext (find?_set hs)
      simp only [perform, hs, henv]
      exact .overwritten (of_set hs).1
    | error cause =>
      obtain ⟨hf, rfl⟩ := of_set_error hs
      simp only [perform, hs]
      exact .unset hf
  | lookup name line =>
    cases hf : table.find? name with
    | some value =>
      simp only [perform, lookup, hf]
      exact .found hf
    | none =>
      simp only [perform, lookup, hf]
      exact .undefined hf
  | isDeclared name => exact .isDeclared

theorem size_perform (table : SymbolTable) (request : Request) : (table.perform request).2.size =
    table.size + if Request.Declares (request, (table.perform request).1) then 1 else 0 := by
  cases request with
  | declare name value line =>
    cases hd : table.declare name value with
    | ok table' => simp [perform, hd, size_declare hd, Request.Declares]
    | error cause => simp [perform, hd, Request.Declares]
  | set name value line =>
    cases hs : table.set name value with
    | ok table' => simp [perform, hs, size_set hs, Request.Declares]
    | error cause => simp [perform, hs, Request.Declares]
  | lookup name line => cases hl : table.lookup name <;> simp [perform, hl, Request.Declares]
  | isDeclared name => simp [perform, Request.Declares]

/-! ## Whole runs -/

theorem after_cons (table : SymbolTable) (request : Request) (requests : List Request) :
    table.after (request :: requests) = (table.perform request).2.after requests := rfl

theorem runs_iff (table : SymbolTable) (requests : List Request) (replies : List (Except Error Reply))
    (env : Environment) : Environment.Runs table.find? requests replies env ↔
      table.replies requests = replies ∧ (table.after requests).find? = env := by
  induction requests generalizing table replies with
  | nil =>
    constructor
    · intro h
      cases h
      exact ⟨rfl, rfl⟩
    · rintro ⟨rfl, rfl⟩
      exact .nil
  | cons request requests ih =>
    have hstep := table.step_perform request
    constructor
    · intro h
      cases h with
      | cons step rest =>
        obtain ⟨rfl, rfl⟩ := hstep.unique step
        obtain ⟨rfl, rfl⟩ := (ih _ _).mp rest
        exact ⟨rfl, rfl⟩
    · rintro ⟨rfl, rfl⟩
      exact .cons hstep ((ih _ _).mpr ⟨rfl, rfl⟩)

theorem size_after (table : SymbolTable) (requests : List Request) : (table.after requests).size =
    table.size + (requests.zip (table.replies requests)).countP Request.Declares := by
  induction requests generalizing table with
  | nil => rfl
  | cons request requests ih =>
    rw [after_cons, ih, size_perform, replies, List.zip_cons_cons, List.countP_cons]
    omega

/-- The value that a name has been given is there bit for bit. -/
theorem bits_of_bound {table table' : SymbolTable} {name : String} {bits : UInt64}
    (h : table.declare name (.ofBits bits) = .ok table' ∨ table.set name (.ofBits bits) = .ok table') :
    (table'.find? name).map Binary64.toBits = some bits := by
  have hf : table'.find? name = some (.ofBits bits) := by
    rcases h with h | h
    · simp [find?_declare h]
    · simp [find?_set h]
  rw [hf, Option.map_some, Binary64.toBits_ofBits]

/-- Whatever is asked of a table, it replies as an environment that declares each name once, and no request changes the
value of another name. What is declared or overwritten is kept bit for bit. Its size is the number of the names with a
value, and goes up with each declaration that succeeds and with nothing else. -/
theorem table_declares_once (table : SymbolTable) (requests : List Request) :
    (∀ replies env, Environment.Runs table.find? requests replies env ↔
      table.replies requests = replies ∧ (table.after requests).find? = env) ∧
    (∀ request name, name ≠ request.subject →
      ((table.after requests).perform request).2.find? name = (table.after requests).find? name) ∧
    (∀ name bits table', (table.after requests).declare name (.ofBits bits) = .ok table' ∨
      (table.after requests).set name (.ofBits bits) = .ok table' →
      (table'.find? name).map Binary64.toBits = some bits) ∧
    (table.after requests).size = table.size + (requests.zip (table.replies requests)).countP Request.Declares ∧
    (table.after requests).size = {name | (table.after requests).isDeclared name = true}.ncard ∧
    ((table.after requests).isEmpty = true ↔ (table.after requests).size = 0) := by
  refine ⟨table.runs_iff requests, ?_, fun _ _ _ => bits_of_bound, table.size_after requests, size_eq_ncard _, ?_⟩
  · intro request name hn
    exact ((table.after requests).step_perform request).frame hn
  · rw [isEmpty, size, List.isEmpty_iff, List.length_eq_zero_iff]

end SymbolTable

end DeskCalculator

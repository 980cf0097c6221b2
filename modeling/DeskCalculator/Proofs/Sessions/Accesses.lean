import DeskCalculator.Proofs.Sessions.Endings

/-!
# What a session asks of its streams

A session reads a statement, then writes what it has to report, and so on; the output is flushed when nothing
is left. The first of these that a stream refuses ends the session, and what has come through until then is a
prefix of what would have come through without it. A writer may refuse a line from any byte of it on.
-/

namespace DeskCalculator

open TokenStream

/-- Reading up to the end of a statement, which may fail at the end of the input, writing, and flushing. -/
inductive Access where
  | read (refusal : Option String)
  | write (event : Event)
  | flush

namespace Access

def output (precision : Nat) : Access → List UInt8
  | .write (.result value) => Event.bytes precision (.result value)
  | _ => []

def diagnostics (precision : Nat) : Access → List UInt8
  | .write (.mistake cause line) => Event.bytes precision (.mistake cause line)
  | _ => []

end Access

/-- Why a writer does not take so many bytes in all, if it does not. -/
def Writer.refusal (w : Writer) (count : Nat) : Option String :=
  match w.limit with
  | none => none
  | some (room, reason) => if room < count then some reason else none

/-- Accesses to streams with two writers, and what is written at which precision. -/
structure Streams where
  precision : Nat
  output : Writer
  diagnostics : Writer

namespace Streams

variable (streams : Streams)

/-- Why an access is refused that comes behind others, if it is. A writer refuses by what has been written in all. -/
def refusal (before : List Access) (access : Access) : Option String :=
  match access with
  | .read reason => reason
  | .write (.result _) =>
    streams.output.refusal ((before ++ [access]).flatMap (Access.output streams.precision)).length
  | .write (.mistake ..) =>
    streams.diagnostics.refusal ((before ++ [access]).flatMap (Access.diagnostics streams.precision)).length
  | .flush => streams.output.flushFailure

/-- The reason of the first access that is refused, if one is. -/
def firstRefusal (before : List Access) : List Access → Option String
  | [] => none
  | access :: rest => (streams.refusal before access).or (firstRefusal (before ++ [access]) rest)

end Streams

/-! ## Writers that have taken something -/

namespace Writer

variable {w : Writer} {m n : Nat} {reason : String}

/-- What a writer is when it has taken so many bytes. -/
def after (w : Writer) (count : Nat) : Writer :=
  { w with limit := w.limit.map fun (room, reason) => (room - count, reason) }

theorem after_zero (w : Writer) : w.after 0 = w := by
  obtain ⟨limit, flushFailure⟩ := w
  cases limit <;> rfl

theorem refusal_zero (w : Writer) : w.refusal 0 = none := by
  obtain ⟨limit, flushFailure⟩ := w
  cases limit <;> simp [refusal]

theorem after_after (w : Writer) (m n : Nat) : (w.after m).after n = w.after (m + n) := by
  obtain ⟨limit, flushFailure⟩ := w
  cases limit <;> simp [after, Nat.sub_sub]

theorem refusal_after (h : w.refusal m = none) (n : Nat) : (w.after m).refusal n = w.refusal (m + n) := by
  obtain ⟨limit, flushFailure⟩ := w
  cases limit with
  | none => rfl
  | some limit =>
    obtain ⟨room, reason⟩ := limit
    simp only [refusal, ite_eq_right_iff, reduceCtorEq, imp_false, Nat.not_lt] at h
    simp only [refusal, after, Option.map_some]
    congr 1
    rw [eq_iff_iff]
    omega

theorem take_of_refusal_none {bytes : List UInt8} (h : w.refusal bytes.length = none) :
    w.take bytes = (bytes, .ok (w.after bytes.length)) := by
  obtain ⟨limit, flushFailure⟩ := w
  cases limit with
  | none => rfl
  | some limit =>
    obtain ⟨room, reason⟩ := limit
    simp only [refusal, ite_eq_right_iff, reduceCtorEq, imp_false, Nat.not_lt] at h
    simp [take, after, h]

theorem take_of_refusal_some {bytes : List UInt8} (h : w.refusal bytes.length = some reason) :
    ∃ taken, taken <+: bytes ∧ w.take bytes = (taken, .error reason) := by
  obtain ⟨limit, flushFailure⟩ := w
  cases limit with
  | none => cases h
  | some limit =>
    obtain ⟨room, reason'⟩ := limit
    simp only [refusal] at h
    split at h
    · next hlt =>
      cases h
      exact ⟨bytes.take room, List.take_prefix room bytes, by simp [take, Nat.not_le.mpr hlt]⟩
    · cases h

theorem take_cases (w : Writer) (bytes : List UInt8) :
    w.take bytes = (bytes, .ok (w.after bytes.length)) ∨
      ∃ taken reason, taken <+: bytes ∧ w.take bytes = (taken, .error reason) := by
  cases h : w.refusal bytes.length with
  | none => exact Or.inl (take_of_refusal_none h)
  | some reason =>
    obtain ⟨taken, ht, hw⟩ := take_of_refusal_some h
    exact Or.inr ⟨taken, reason, ht, hw⟩

end Writer

theorem Delivery.failure_behind (d : Delivery) (event : Event) (taken : List UInt8) :
    (d.behind event taken).failure = d.failure := by
  cases event <;> rfl

namespace Session

/-- The accesses of a session to its streams in their order, as long as none is refused. -/
def accesses (s : Session) : List Access :=
  match _h : s.step with
  | .event event s' => .read none :: .write event :: s'.accesses
  | .finished => [.read none, .flush]
  | .failed _ => [.read s.calculator.stream.failure]
termination_by s.calculator.stream.load LineReader.characters
decreasing_by exact load_of_step _h

theorem accesses_eq (s : Session) : s.accesses = match s.step with
    | .event event s' => .read none :: .write event :: s'.accesses
    | .finished => [.read none, .flush]
    | .failed _ => [.read s.calculator.stream.failure] := by
  rw [accesses]
  split <;> rename_i h <;> rw [h]

theorem failure_go (streams : Streams) {s : Session} {h : History} {before : List Access} {m n : Nat}
    (hf : h.failure = s.history.failure)
    (hm : (before.flatMap (Access.output streams.precision)).length = m)
    (hn : (before.flatMap (Access.diagnostics streams.precision)).length = n)
    (ho : streams.output.refusal m = none) (hd : streams.diagnostics.refusal n = none) :
    (History.deliver.go streams.precision h s.history.events (streams.output.after m)
        (streams.diagnostics.after n)).failure = (streams.firstRefusal before s.accesses).map .io := by
  -- Writers remember how much they have taken, and `before` is what they have taken it of.
  induction s using history.induct generalizing before m n with
  | case1 s event s' hs ih =>
    rw [history_of_event hs] at hf ⊢
    rw [accesses_eq, hs]
    simp only [Streams.firstRefusal, Streams.refusal, Option.none_or]
    cases event with
    | result value =>
      have hsent : ((before ++ [Access.read none] ++ [Access.write (.result value)]).flatMap
          (Access.output streams.precision)).length = m + (Event.bytes streams.precision (.result value)).length := by
        simp [List.flatMap_append, Access.output, ← hm]
      have hrefusal := Writer.refusal_after ho (Event.bytes streams.precision (.result value)).length
      simp only [hsent]
      rw [History.deliver.go]
      cases hr : streams.output.refusal (m + (Event.bytes streams.precision (.result value)).length) with
      | none =>
        rw [Writer.take_of_refusal_none (hrefusal.trans hr), Writer.after_after]
        refine (Delivery.failure_behind _ _ _).trans (ih hf hsent ?_ hr hd)
        simpa [List.flatMap_append, Access.diagnostics] using hn
      | some reason =>
        obtain ⟨taken, -, ht⟩ := Writer.take_of_refusal_some (hrefusal.trans hr)
        rw [ht]
        exact Delivery.failure_behind _ _ _
    | mistake cause line =>
      have hsent : ((before ++ [Access.read none] ++ [Access.write (.mistake cause line)]).flatMap
          (Access.diagnostics streams.precision)).length =
            n + (Event.bytes streams.precision (.mistake cause line)).length := by
        simp [List.flatMap_append, Access.diagnostics, ← hn]
      have hrefusal := Writer.refusal_after hd (Event.bytes streams.precision (.mistake cause line)).length
      simp only [hsent]
      rw [History.deliver.go]
      cases hr : streams.diagnostics.refusal (n + (Event.bytes streams.precision (.mistake cause line)).length) with
      | none =>
        rw [Writer.take_of_refusal_none (hrefusal.trans hr), Writer.after_after]
        refine (Delivery.failure_behind _ _ _).trans (ih hf ?_ hsent ho hr)
        simpa [List.flatMap_append, Access.output] using hm
      | some reason =>
        obtain ⟨taken, -, ht⟩ := Writer.take_of_refusal_some (hrefusal.trans hr)
        rw [ht]
        exact Delivery.failure_behind _ _ _
  | case2 s hs =>
    rw [s.history_eq, hs] at hf ⊢
    rw [accesses_eq, hs]
    simp only [History.deliver.go, hf, Streams.firstRefusal, Streams.refusal, Writer.after]
    cases streams.output.flushFailure <;> rfl
  | case3 s e hs =>
    obtain ⟨reason, hreason, rfl⟩ := of_step_failed hs
    rw [s.history_eq, hs] at hf ⊢
    rw [accesses_eq, hs]
    simp only [History.deliver.go, hf, Streams.firstRefusal, Streams.refusal, hreason]
    rfl

/-- A session ends well if nothing is refused, and otherwise for the reason of the first refusal. -/
theorem failure_deliver (streams : Streams) (s : Session) :
    (s.history.deliver streams.precision streams.output streams.diagnostics).failure =
      (streams.firstRefusal [] s.accesses).map .io := by
  have h := @failure_go streams s s.history [] 0 0 rfl rfl rfl (Writer.refusal_zero _) (Writer.refusal_zero _)
  simp only [Writer.after_zero] at h
  exact h

end Session

/-! ## What comes through -/

/-- The first delivery is a beginning of the second, and all of it if it ends well. -/
structure Delivery.CutShort (d d' : Delivery) : Prop where
  output : d.output <+: d'.output
  diagnostics : d.diagnostics <+: d'.diagnostics
  whole : d.failure = none → d' = d

namespace Delivery

variable {d d' : Delivery}

theorem CutShort.behind {event : Event} (bytes : List UInt8) (h : CutShort d d') :
    CutShort (d.behind event bytes) (d'.behind event bytes) := by
  obtain ⟨houtput, hdiagnostics, hwhole⟩ := h
  cases event with
  | result value => exact ⟨List.prefix_append_right_inj _ |>.mpr houtput, hdiagnostics, fun hf => by rw [hwhole hf]⟩
  | mistake cause line =>
    exact ⟨houtput, List.prefix_append_right_inj _ |>.mpr hdiagnostics, fun hf => by rw [hwhole hf]⟩

theorem CutShort.of_refused {event : Event} {taken bytes : List UInt8} (reason : String) (ht : taken <+: bytes) :
    CutShort ((refused reason).behind event taken) (d.behind event bytes) := by
  cases event with
  | result value =>
    refine ⟨?_, List.nil_prefix, nofun⟩
    change taken ++ [] <+: bytes ++ d.output
    rw [List.append_nil]
    exact ht.trans (List.prefix_append _ _)
  | mistake cause line =>
    refine ⟨List.nil_prefix, ?_, nofun⟩
    change taken ++ [] <+: bytes ++ d.diagnostics
    rw [List.append_nil]
    exact ht.trans (List.prefix_append _ _)

end Delivery

/-- Where the events of a history are a beginning of those of another that ends well, so is what comes through of
them, whatever the writers do. -/
theorem cutShort_go (precision : Nat) {h h' : History} (hf : h'.failure = none) (events more : List Event)
    (hm : h.failure = none → more = []) (output diagnostics : Writer) :
    (History.deliver.go precision h events output diagnostics).CutShort
      (History.deliver.go precision h' (events ++ more) ⟨none, none⟩ ⟨none, none⟩) := by
  induction events generalizing output diagnostics with
  | nil =>
    cases hfailure : h.failure with
    | some e =>
      simp only [History.deliver.go, hfailure]
      refine ⟨List.nil_prefix, List.nil_prefix, fun hw => ?_⟩
      cases hw
    | none =>
      rw [hm hfailure]
      simp only [History.deliver.go, hfailure, hf, List.append_nil]
      refine ⟨List.prefix_rfl, List.prefix_rfl, fun hw => ?_⟩
      cases hflush : output.flushFailure with
      | none => rfl
      | some reason =>
        simp only [hflush] at hw
        cases hw
  | cons event events ih =>
    rw [List.cons_append]
    cases event with
    | result value =>
      rw [History.deliver.go, History.deliver.go]
      rcases output.take_cases (Event.bytes precision (.result value)) with hw | ⟨taken, reason, ht, hw⟩
      · rw [hw]
        exact (ih _ _).behind _
      · rw [hw]
        exact .of_refused reason ht
    | mistake cause line =>
      rw [History.deliver.go, History.deliver.go]
      rcases diagnostics.take_cases (Event.bytes precision (.mistake cause line)) with hw | ⟨taken, reason, ht, hw⟩
      · rw [hw]
        exact (ih _ _).behind _
      · rw [hw]
        exact .of_refused reason ht

end DeskCalculator

import DeskCalculator.Text.Decoding

/-!
# Decoding line by line

A newline byte ends whatever sequence has begun, and no other byte decodes to a newline: bytes have the
text of their lines, one behind the other, however broken they are. What is encoded is decoded again.
-/

namespace DeskCalculator.Text

/-- The sequence goes on with continuation bytes only, and too many bits have been read for its
character to be a single byte. -/
structure Pending.Proper (p : Pending) : Prop where
  continues : 0x80 ≤ p.least
  beyond : (if p.owed = 0 then 0x80 else 2) ≤ p.bits * 64 + (p.least - 0x80)

theorem proper_of_lead {byte : UInt8} {p : Pending} (h : Lead.of byte = .sequence p) : p.Proper := by
  unfold Lead.of at h
  simp only at h
  split at h
  · exact nomatch h
  split at h
  · exact nomatch h
  split at h
  · injection h with h
    subst h
    exact ⟨Nat.le_refl _, by simp; omega⟩
  split at h
  · injection h with h
    subst h
    refine ⟨?_, ?_⟩
    · simp only
      split <;> omega
    · simp only [Nat.one_ne_zero, if_false]
      split <;> omega
  split at h
  · injection h with h
    subst h
    refine ⟨?_, ?_⟩
    · simp only
      split <;> omega
    · simp only [Nat.succ_ne_zero, if_false]
      split <;> omega
  · exact nomatch h

theorem Pending.Proper.next {p : Pending} (h : p.Proper) {byte : UInt8} {owed : Nat} (ho : p.owed = owed + 1)
    (hb : p.least ≤ byte.toNat) :
    (⟨p.bits * 64 + (byte.toNat - 0x80), owed, 0x80, 0xbf⟩ : Pending).Proper := by
  have := h.continues
  have hbeyond := h.beyond
  rw [if_neg (by omega)] at hbeyond
  refine ⟨Nat.le_refl _, ?_⟩
  simp only
  split <;> omega

/-! ## One byte -/

section
variable {p : Pending} {byte : UInt8}

theorem decodeFrom_of_character {c : Char} (h : Lead.of byte = .character c) (bytes : List UInt8) :
    decodeFrom none (byte :: bytes) = c :: decode bytes := by
  rw [decodeFrom, h]
  rfl

theorem decodeFrom_of_sequence (h : Lead.of byte = .sequence p) (bytes : List UInt8) :
    decodeFrom none (byte :: bytes) = decodeFrom (some p) bytes := by
  rw [decodeFrom, h]

theorem decodeFrom_of_malformed (h : Lead.of byte = .malformed) (bytes : List UInt8) :
    decodeFrom none (byte :: bytes) = replacement :: decode bytes := by
  rw [decodeFrom, h]
  rfl

theorem decodeFrom_of_last (h : p.least ≤ byte.toNat ∧ byte.toNat ≤ p.greatest) (ho : p.owed = 0)
    (bytes : List UInt8) :
    decodeFrom (some p) (byte :: bytes) = Char.ofNat (p.bits * 64 + (byte.toNat - 0x80)) :: decode bytes := by
  rw [decodeFrom, if_pos h]
  simp only [ho]
  rfl

theorem decodeFrom_of_within (h : p.least ≤ byte.toNat ∧ byte.toNat ≤ p.greatest) {owed : Nat}
    (ho : p.owed = owed + 1) (bytes : List UInt8) : decodeFrom (some p) (byte :: bytes) =
      decodeFrom (some ⟨p.bits * 64 + (byte.toNat - 0x80), owed, 0x80, 0xbf⟩) bytes := by
  rw [decodeFrom, if_pos h]
  simp only [ho]

/-- A byte that does not belong to the sequence is read as if nothing had begun. -/
theorem decodeFrom_of_broken (h : ¬ (p.least ≤ byte.toNat ∧ byte.toNat ≤ p.greatest)) (bytes : List UInt8) :
    decodeFrom (some p) (byte :: bytes) = replacement :: decodeFrom none (byte :: bytes) := by
  simp only [decodeFrom, if_neg h]
  cases Lead.of byte <;> rfl

end

/-! ## Newlines -/

theorem lead_newline : Lead.of 10 = .character '\n' := rfl

theorem decodeFrom_append_newline {pending : Option Pending} (h : ∀ p ∈ pending, p.Proper)
    (line rest : List UInt8) :
    decodeFrom pending (line ++ 10 :: rest) = decodeFrom pending line ++ '\n' :: decode rest := by
  induction line generalizing pending with
  | nil =>
    cases pending with
    | none => exact decodeFrom_of_character lead_newline rest
    | some p =>
      have hp : ¬ (p.least ≤ (10 : UInt8).toNat ∧ (10 : UInt8).toNat ≤ p.greatest) := by
        have := (h p rfl).continues
        simp
        omega
      rw [List.nil_append, decodeFrom_of_broken hp, decodeFrom_of_character lead_newline]
      rfl
  | cons byte line ih =>
    have first : decodeFrom none (byte :: (line ++ 10 :: rest)) =
        decodeFrom none (byte :: line) ++ '\n' :: decode rest := by
      cases hb : Lead.of byte with
      | character c =>
        rw [decodeFrom_of_character hb, decodeFrom_of_character hb, decode, ih (by simp)]
        rfl
      | sequence p =>
        rw [decodeFrom_of_sequence hb, decodeFrom_of_sequence hb, ih]
        intro q hq
        rw [← Option.some.inj hq]
        exact proper_of_lead hb
      | malformed =>
        rw [decodeFrom_of_malformed hb, decodeFrom_of_malformed hb, decode, ih (by simp)]
        rfl
    cases pending with
    | none => exact first
    | some p =>
      rw [List.cons_append]
      by_cases hr : p.least ≤ byte.toNat ∧ byte.toNat ≤ p.greatest
      · cases ho : p.owed with
        | zero =>
          rw [decodeFrom_of_last hr ho, decodeFrom_of_last hr ho, decode, ih (by simp)]
          rfl
        | succ owed =>
          rw [decodeFrom_of_within hr ho, decodeFrom_of_within hr ho, ih]
          intro q hq
          rw [← Option.some.inj hq]
          exact (h p rfl).next ho hr.1
      · rw [decodeFrom_of_broken hr, decodeFrom_of_broken hr, first]
        rfl

theorem decode_append_newline (line rest : List UInt8) :
    decode (line ++ 10 :: rest) = decode line ++ '\n' :: decode rest :=
  decodeFrom_append_newline (by simp) line rest

theorem ofNat_ne_newline {n : Nat} (h : n ≠ 10) : Char.ofNat n ≠ '\n' := by
  intro hn
  by_cases hv : n.isValidChar
  · rw [Char.ofNat, dif_pos hv] at hn
    exact h (congrArg Char.toNat hn)
  · rw [Char.ofNat, dif_neg hv] at hn
    cases hn

theorem character_ne_newline {byte : UInt8} {c : Char} (h : Lead.of byte = .character c) (hb : byte ≠ 10) :
    c ≠ '\n' := by
  have hn : byte.toNat ≠ 10 := fun he => hb (UInt8.toNat_inj.mp he)
  unfold Lead.of at h
  simp only at h
  split at h
  · injection h with h
    rw [← h]
    exact ofNat_ne_newline hn
  all_goals
    repeat (split at h; exact nomatch h)
    exact nomatch h

theorem newline_not_mem_decodeFrom {pending : Option Pending} (h : ∀ p ∈ pending, p.Proper) {line : List UInt8}
    (hn : 10 ∉ line) : '\n' ∉ decodeFrom pending line := by
  induction line generalizing pending with
  | nil => cases pending <;> simp [decodeFrom, replacement]
  | cons byte line ih =>
    rw [List.mem_cons, not_or] at hn
    have none_rest : '\n' ∉ decode line := ih (by simp) hn.2
    have first : '\n' ∉ decodeFrom none (byte :: line) := by
      cases hb : Lead.of byte with
      | character c =>
        rw [decodeFrom_of_character hb, List.mem_cons, not_or]
        exact ⟨(character_ne_newline hb (Ne.symm hn.1)).symm, none_rest⟩
      | sequence p =>
        rw [decodeFrom_of_sequence hb]
        refine ih ?_ hn.2
        intro q hq
        rw [← Option.some.inj hq]
        exact proper_of_lead hb
      | malformed =>
        rw [decodeFrom_of_malformed hb, List.mem_cons, not_or]
        exact ⟨by decide, none_rest⟩
    cases pending with
    | none => exact first
    | some p =>
      have hp := h p rfl
      by_cases hr : p.least ≤ byte.toNat ∧ byte.toNat ≤ p.greatest
      · cases ho : p.owed with
        | zero =>
          rw [decodeFrom_of_last hr ho, List.mem_cons, not_or]
          refine ⟨(ofNat_ne_newline ?_).symm, none_rest⟩
          have hbeyond := hp.beyond
          rw [if_pos ho] at hbeyond
          omega
        | succ owed =>
          rw [decodeFrom_of_within hr ho]
          refine ih ?_ hn.2
          intro q hq
          rw [← Option.some.inj hq]
          exact hp.next ho hr.1
      · rw [decodeFrom_of_broken hr, List.mem_cons, not_or]
        exact ⟨by decide, first⟩

theorem newline_not_mem_decode {line : List UInt8} (h : 10 ∉ line) : '\n' ∉ decode line :=
  newline_not_mem_decodeFrom (by simp) h

theorem decodeFrom_some_ne_nil (pending : Pending) (bytes : List UInt8) : decodeFrom (some pending) bytes ≠ [] := by
  induction bytes generalizing pending with
  | nil => simp [decodeFrom]
  | cons byte bytes ih =>
    by_cases hr : pending.least ≤ byte.toNat ∧ byte.toNat ≤ pending.greatest
    · cases ho : pending.owed with
      | zero => simp [decodeFrom_of_last hr ho]
      | succ owed =>
        rw [decodeFrom_of_within hr ho]
        exact ih _
    · simp [decodeFrom_of_broken hr]

theorem decode_ne_nil {line : List UInt8} (h : line ≠ []) : decode line ≠ [] := by
  cases line with
  | nil => exact absurd rfl h
  | cons byte line =>
    unfold decode
    cases hb : Lead.of byte with
    | character c => simp [decodeFrom_of_character hb]
    | sequence pending =>
      rw [decodeFrom_of_sequence hb]
      exact decodeFrom_some_ne_nil pending line
    | malformed => simp [decodeFrom_of_malformed hb]

/-! ## Encoding -/

theorem lead_of_two {d : Nat} (h : 2 ≤ d) (h' : d < 32) :
    Lead.of (UInt8.ofNat (d + 0xc0)) = .sequence ⟨d, 0, 0x80, 0xbf⟩ := by
  have hn : (UInt8.ofNat (d + 0xc0)).toNat = d + 0xc0 := by
    simp
    omega
  simp only [Lead.of, hn]
  rw [if_neg (by omega), if_neg (by omega), if_pos (by omega), Nat.add_sub_cancel]

theorem lead_of_three {d : Nat} (h : d < 16) : Lead.of (UInt8.ofNat (d + 0xe0)) =
    .sequence ⟨d, 1, if d = 0 then 0xa0 else 0x80, if d = 13 then 0x9f else 0xbf⟩ := by
  have hn : (UInt8.ofNat (d + 0xe0)).toNat = d + 0xe0 := by
    simp
    omega
  simp only [Lead.of, hn]
  rw [if_neg (by omega), if_neg (by omega), if_neg (by omega), if_pos (by omega), Nat.add_sub_cancel]
  simp

theorem lead_of_four {d : Nat} (h : d < 5) : Lead.of (UInt8.ofNat (d + 0xf0)) =
    .sequence ⟨d, 2, if d = 0 then 0x90 else 0x80, if d = 4 then 0x8f else 0xbf⟩ := by
  have hn : (UInt8.ofNat (d + 0xf0)).toNat = d + 0xf0 := by
    simp
    omega
  simp only [Lead.of, hn]
  rw [if_neg (by omega), if_neg (by omega), if_neg (by omega), if_neg (by omega), if_pos (by omega),
    Nat.add_sub_cancel]
  simp

section
variable {p : Pending} {d : Nat} (hd : d < 64) (h : p.least ≤ d + 0x80 ∧ d + 0x80 ≤ p.greatest)
include hd h

theorem within_continuation : (UInt8.ofNat (d + 0x80)).toNat = d + 0x80 ∧
    p.least ≤ (UInt8.ofNat (d + 0x80)).toNat ∧ (UInt8.ofNat (d + 0x80)).toNat ≤ p.greatest := by
  have hn : (UInt8.ofNat (d + 0x80)).toNat = d + 0x80 := by
    simp
    omega
  rw [hn]
  exact ⟨rfl, h⟩

theorem decodeFrom_continuation {owed : Nat} (ho : p.owed = owed + 1) (bytes : List UInt8) :
    decodeFrom (some p) (UInt8.ofNat (d + 0x80) :: bytes) =
      decodeFrom (some ⟨p.bits * 64 + d, owed, 0x80, 0xbf⟩) bytes := by
  obtain ⟨hn, hr⟩ := within_continuation hd h
  rw [decodeFrom_of_within hr ho, hn, Nat.add_sub_cancel]

theorem decodeFrom_last (ho : p.owed = 0) (bytes : List UInt8) :
    decodeFrom (some p) (UInt8.ofNat (d + 0x80) :: bytes) = Char.ofNat (p.bits * 64 + d) :: decode bytes := by
  obtain ⟨hn, hr⟩ := within_continuation hd h
  rw [decodeFrom_of_last hr ho, hn, Nat.add_sub_cancel]

end

theorem decode_utf8EncodeChar (c : Char) (bytes : List UInt8) :
    decode (String.utf8EncodeChar c ++ bytes) = c :: decode bytes := by
  have hv : c.toNat.isValidChar := c.valid
  have hc : Char.ofNat c.toNat = c := Char.ofNat_toNat c
  unfold Nat.isValidChar at hv
  simp only [String.utf8EncodeChar]
  show decodeFrom none _ = _
  generalize hn : c.val.toNat = n
  replace hn : c.toNat = n := hn
  rw [hn] at hv hc
  split
  · have hl : Lead.of (UInt8.ofNat n) = .character c := by
      have ht : (UInt8.ofNat n).toNat = n := by
        simp
        omega
      simp only [Lead.of, ht]
      rw [if_pos (by omega), hc]
    exact decodeFrom_of_character hl bytes
  split
  · simp only [List.cons_append, List.nil_append]
    rw [decodeFrom_of_sequence (lead_of_two (by omega) (by omega)),
      decodeFrom_last (by omega) (by simp; omega) rfl]
    simp only
    rw [show n / 64 % 32 * 64 + n % 64 = n by omega, hc]
  split
  · simp only [List.cons_append, List.nil_append]
    rw [decodeFrom_of_sequence (lead_of_three (by omega)),
      decodeFrom_continuation (by omega) (by constructor <;> simp only <;> split <;> omega) rfl,
      decodeFrom_last (by omega) (by simp; omega) rfl]
    simp only
    rw [show (n / 4096 % 16 * 64 + n / 64 % 64) * 64 + n % 64 = n by omega, hc]
  · simp only [List.cons_append, List.nil_append]
    rw [decodeFrom_of_sequence (lead_of_four (by omega)),
      decodeFrom_continuation (by omega) (by constructor <;> simp only <;> split <;> omega) rfl,
      decodeFrom_continuation (by omega) (by simp; omega) rfl,
      decodeFrom_last (by omega) (by simp; omega) rfl]
    simp only
    rw [show ((n / 262144 % 8 * 64 + n / 4096 % 64) * 64 + n / 64 % 64) * 64 + n % 64 = n by omega, hc]

theorem decode_bytesOf (text : List Char) : decode (bytesOf text) = text := by
  induction text with
  | nil => rfl
  | cons c text ih =>
    rw [bytesOf, List.flatMap_cons, decode_utf8EncodeChar]
    exact congrArg (c :: ·) ih

end DeskCalculator.Text

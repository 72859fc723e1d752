/-
# What numerals denote

`Denotes` says what a numeral is, apart from how one is read: a string of at least one digit, after a
minus sign or not. Another digit behind makes ten times the number and the digit. Leading zeros are
allowed, and so is a negative zero. Reading finds the number if it fits a 64-bit word
(`parse?_eq_some_iff`), and written numbers are numerals for themselves (`denotes_integer`).

A numeral is read in words, and every step may leave their range. That it does so only if the number of
the whole numeral is out of the range comes from the order of the digits: more digits take a number away
from zero, on the side of its sign (`le_foldl_digits`), and what lies between zero and a word is a word
(`exists_word_of_le`).

Key definitions: `Digits`, `Denotes`.
Key theorems: `push?_eq_some_iff`, `foldlM_push?_eq_some_iff`, `parse?_eq_some_iff`, `denotes_integer`,
`Denotes.unique`, `reading_exact`.
-/
import Keyspace.Text.Decimal

namespace Keyspace
namespace Decimal

/-- A nonempty string of digits and its number. -/
inductive Digits : Bytes → Nat → Prop where
  | single {b : UInt8} : isDigit b = true → Digits [b] (b.toNat - 48)
  | snoc {ds : Bytes} {n : Nat} {b : UInt8} : Digits ds n → isDigit b = true →
      Digits (ds ++ [b]) (10 * n + (b.toNat - 48))

/-- A numeral and its number. -/
inductive Denotes : Bytes → Int → Prop where
  | plain {ds : Bytes} {n : Nat} : Digits ds n → Denotes ds n
  | negated {ds : Bytes} {n : Nat} : Digits ds n → Denotes (minus :: ds) (-n)

variable {bs : Bytes}

theorem Digits.ne_nil {n : Nat} (h : Digits bs n) : bs ≠ [] := by
  cases h <;> simp

theorem Digits.isDigit {n : Nat} (h : Digits bs n) : ∀ b ∈ bs, isDigit b = true := by
  induction h with
  | single hb => simpa using hb
  | snoc _ hb ih =>
    intro c hc
    rcases List.mem_append.mp hc with hc | hc
    · exact ih c hc
    · exact List.mem_singleton.mp hc ▸ hb

/-- A numeral is made of digits and the minus sign. -/
theorem Denotes.octets {n : Int} (h : Denotes bs n) : ∀ b ∈ bs, b = minus ∨ isDigit b = true := by
  intro b hb
  cases h with
  | plain hds => exact .inr (hds.isDigit b hb)
  | negated hds =>
    rcases List.mem_cons.mp hb with rfl | hb
    · exact .inl rfl
    · exact .inr (hds.isDigit b hb)

/-- The number written by a string of digits, most significant first. -/
def digitsValue (digits : Bytes) : Nat := digits.foldl (fun n b => 10 * n + (b.toNat - 48)) 0

theorem Digits.value {n : Nat} (h : Digits bs n) : digitsValue bs = n := by
  induction h with
  | single _ => exact Nat.zero_add _
  | snoc _ _ ih => rw [← ih, digitsValue, digitsValue, List.foldl_append]; rfl

theorem Digits.unique {m n : Nat} (hm : Digits bs m) (hn : Digits bs n) : m = n :=
  hm.value.symm.trans hn.value

theorem Digits.append : ∀ (ds : Bytes) {bs : Bytes} {n : Nat}, Digits bs n →
    (∀ b ∈ ds, Decimal.isDigit b = true) →
    Digits (bs ++ ds) (ds.foldl (fun n b => 10 * n + (b.toNat - 48)) n)
  | [], _, _, h, _ => by rwa [List.append_nil]
  | b :: ds, bs, n, h, hds => by
    rw [show bs ++ b :: ds = bs ++ [b] ++ ds by simp]
    exact Digits.append ds (h.snoc (hds b List.mem_cons_self)) fun c hc => hds c (List.mem_cons_of_mem b hc)

theorem digits_digitsValue (hne : bs ≠ []) (h : ∀ b ∈ bs, isDigit b = true) : Digits bs (digitsValue bs) := by
  cases bs with
  | nil => exact absurd rfl hne
  | cons b bs =>
    have hall := Digits.append bs (.single (h b List.mem_cons_self)) fun c hc =>
      h c (List.mem_cons_of_mem b hc)
    rwa [digitsValue, List.foldl_cons, Nat.mul_zero, Nat.zero_add]

theorem not_digits_minus {n : Nat} : ¬ Digits (minus :: bs) n := fun h =>
  absurd (h.isDigit minus List.mem_cons_self) (by decide)

/-- A numeral has one number. -/
theorem Denotes.unique {m n : Int} (hm : Denotes bs m) (hn : Denotes bs n) : m = n := by
  cases hm with
  | plain hds =>
    cases hn with
    | plain hds' => rw [hds.unique hds']
    | negated _ => exact absurd hds not_digits_minus
  | negated hds =>
    cases hn with
    | plain hds' => exact absurd hds' not_digits_minus
    | negated hds' => rw [hds.unique hds']

/-! ### Reading -/

/-- The number on the side of zero that the sign tells. -/
def signed (negative : Bool) (n : Nat) : Int := if negative then -n else n

variable {negative : Bool} {value w : Int64}

/-- Whatever lies between zero and a word is a word. -/
theorem exists_word_of_le {m n : Nat} (hw : w.toInt = signed negative n) (hle : m ≤ n) :
    ∃ v : Int64, v.toInt = signed negative m := by
  obtain ⟨hlo, hhi⟩ := Word.toInt_range w
  obtain ⟨v, -, hv⟩ : ∃ v, Word.ofInt? (signed negative m) = some v ∧ v.toInt = signed negative m := by
    unfold signed at hw ⊢
    cases negative with
    | true =>
      simp only [if_true] at hw ⊢
      exact Word.exists_ofInt? (by omega) (by omega)
    | false =>
      simp only [Bool.false_eq_true, if_false] at hw ⊢
      exact Word.exists_ofInt? (by omega) (by omega)
  exact ⟨v, hv⟩

/-- **One more digit** makes ten times the number and the digit. Neither step on the way is refused if that
number is a word. -/
theorem push?_eq_some_iff {n : Nat} {b : UInt8} (hvalue : value.toInt = signed negative n) :
    push? negative value b = some w ↔
      isDigit b = true ∧ w.toInt = signed negative (10 * n + (b.toNat - 48)) := by
  have hten : (10 : Int64).toInt = 10 := rfl
  have hdigit : (Int64.ofNat (b.toNat - 48)).toInt = (b.toNat - 48 : Nat) :=
    Int64.toInt_ofNat_of_lt (Nat.lt_of_le_of_lt (Nat.sub_le _ _) (Nat.lt_trans b.toNat_lt (by decide)))
  have htens : value.toInt * (10 : Int64).toInt = signed negative (10 * n) := by
    rw [hvalue, hten]
    unfold signed
    split <;> omega
  -- what the second step makes of the tens
  have hlast {tens : Int64} (ht : tens.toInt = signed negative (10 * n)) :
      (if negative then Word.sub? tens (Int64.ofNat (b.toNat - 48))
        else Word.add? tens (Int64.ofNat (b.toNat - 48))) = some w ↔
      w.toInt = signed negative (10 * n + (b.toNat - 48)) := by
    unfold signed at ht ⊢
    cases negative with
    | true =>
      simp only [if_true] at ht ⊢
      rw [Word.sub?, Word.ofInt?_eq_some_iff, ht, hdigit]
      omega
    | false =>
      simp only [Bool.false_eq_true, if_false] at ht ⊢
      rw [Word.add?, Word.ofInt?_eq_some_iff, ht, hdigit]
      omega
  cases hb : isDigit b with
  | false => simp [push?, hb]
  | true =>
    rw [push?, if_pos hb, Word.mul?, htens]
    constructor
    · intro h
      obtain ⟨tens, htens?, h⟩ := Option.bind_eq_some_iff.mp h
      exact ⟨rfl, (hlast (Word.ofInt?_eq_some_iff.mp htens?)).mp h⟩
    · rintro ⟨-, hw⟩
      obtain ⟨tens, ht⟩ := exists_word_of_le hw (Nat.le_add_right _ _)
      rw [Word.ofInt?_eq_some_iff.mpr ht]
      exact (hlast ht).mpr hw

/-- More digits never make a number smaller. -/
theorem le_foldl_digits : ∀ (digits : Bytes) (n : Nat),
    n ≤ digits.foldl (fun n b => 10 * n + (b.toNat - 48)) n
  | [], _ => Nat.le_refl _
  | b :: digits, n => by
    have hrest := le_foldl_digits digits (10 * n + (b.toNat - 48))
    rw [List.foldl_cons]
    omega

/-- **Digit by digit**, reading finds the number if it is a word, for then the numbers on the way are words, too. -/
theorem foldlM_push?_eq_some_iff : ∀ (digits : Bytes) {value : Int64} {n : Nat},
    value.toInt = signed negative n →
    (digits.foldlM (push? negative) value = some w ↔ (∀ b ∈ digits, isDigit b = true) ∧
      w.toInt = signed negative (digits.foldl (fun n b => 10 * n + (b.toNat - 48)) n))
  | [], value, n, hvalue => by
    rw [List.foldlM_nil, List.foldl_nil, ← hvalue, Int64.toInt_inj]
    exact ⟨fun h => ⟨nofun, (Option.some.inj h).symm⟩, fun h => congrArg some h.2.symm⟩
  | b :: digits, value, n, hvalue => by
    rw [List.foldlM_cons, List.foldl_cons, List.forall_mem_cons]
    constructor
    · intro h
      obtain ⟨next, hnext, h⟩ := Option.bind_eq_some_iff.mp h
      obtain ⟨hb, hnext⟩ := (push?_eq_some_iff hvalue).mp hnext
      obtain ⟨hdigits, hw⟩ := (foldlM_push?_eq_some_iff digits hnext).mp h
      exact ⟨⟨hb, hdigits⟩, hw⟩
    · rintro ⟨⟨hb, hdigits⟩, hw⟩
      obtain ⟨next, hnext⟩ := exists_word_of_le hw (le_foldl_digits digits _)
      rw [(push?_eq_some_iff hvalue).mpr ⟨hb, hnext⟩]
      exact (foldlM_push?_eq_some_iff digits hnext).mpr ⟨hdigits, hw⟩

theorem parseDigits?_eq_some_iff :
    parseDigits? negative bs = some w ↔ ∃ n, Digits bs n ∧ w.toInt = signed negative n := by
  have hzero : (0 : Int64).toInt = signed negative 0 := by cases negative <;> rfl
  unfold parseDigits?
  split
  · next hnil => exact ⟨nofun, fun ⟨_, hds, _⟩ => absurd hnil hds.ne_nil⟩
  · next hne =>
    rw [foldlM_push?_eq_some_iff bs hzero]
    constructor
    · rintro ⟨hdigits, hw⟩
      exact ⟨digitsValue bs, digits_digitsValue hne hdigits, hw⟩
    · rintro ⟨n, hds, hw⟩
      exact ⟨hds.isDigit, hw.trans (congrArg _ hds.value.symm)⟩

/-- Reading finds exactly the 64-bit numbers that numerals denote. -/
theorem parse?_eq_some_iff {n : Int64} : parse? bs = some n ↔ Denotes bs n.toInt := by
  unfold parse?
  constructor
  · intro h
    split at h
    · cases h
    · split at h
      · next hb =>
        obtain ⟨k, hds, hn⟩ := parseDigits?_eq_some_iff.mp h
        exact hb ▸ hn ▸ .negated hds
      · obtain ⟨k, hds, hn⟩ := parseDigits?_eq_some_iff.mp h
        exact hn ▸ .plain hds
  · intro h
    generalize hm : n.toInt = m at h
    cases h with
    | negated hds => exact (if_pos rfl).trans (parseDigits?_eq_some_iff.mpr ⟨_, hds, hm⟩)
    | plain hds =>
      cases bs with
      | nil => exact absurd rfl hds.ne_nil
      | cons b bs =>
        have hb : b ≠ minus := by
          rintro rfl
          exact not_digits_minus hds
        exact (if_neg hb).trans (parseDigits?_eq_some_iff.mpr ⟨_, hds, hm⟩)

/-- A numeral is read if its number fits a 64-bit word. -/
theorem Denotes.exists_parse? {m : Int} (h : Denotes bs m) (hlo : -9223372036854775808 ≤ m)
    (hhi : m < 9223372036854775808) : ∃ n : Int64, parse? bs = some n ∧ n.toInt = m := by
  have hn := Int64.toInt_ofInt_of_le hlo hhi
  exact ⟨Int64.ofInt m, parse?_eq_some_iff.mpr (by rwa [hn]), hn⟩

theorem eq_neg_one_iff {n : Int64} : n = -1 ↔ n.toInt = -1 := by
  rw [← Int64.toInt_inj]
  rfl

theorem neg_iff {n : Int64} : n < 0 ↔ n.toInt < 0 := by
  rw [Int64.lt_iff_toInt_lt]
  rfl

/-! ### Writing -/

theorem toNat_toUInt8_of_isDigit {c : Char} (h : c.isDigit = true) :
    c.toUInt8.toNat = c.toNat ∧ 48 ≤ c.toNat ∧ c.toNat ≤ 57 := by
  obtain ⟨hlo, hhi⟩ : 48 ≤ c.toNat ∧ c.toNat ≤ 57 := Char.isDigit_iff_toNat.mp h
  refine ⟨?_, hlo, hhi⟩
  rw [← Char.toUInt8_val, UInt32.toNat_toUInt8]
  exact Nat.mod_eq_of_lt (show c.toNat < 256 by omega)

/-- The octets of decimal digits have the value of the digits. -/
theorem foldl_toUInt8 : ∀ (cs : List Char) (init : Nat), (∀ c ∈ cs, c.isDigit = true) →
    (cs.map Char.toUInt8).foldl (fun n b => 10 * n + (b.toNat - 48)) init =
      Nat.ofDigitChars 10 cs init
  | [], _, _ => by rw [Nat.ofDigitChars_nil]; rfl
  | c :: cs, init, h => by
    have hc := (toNat_toUInt8_of_isDigit (h c List.mem_cons_self)).1
    rw [List.map_cons, List.foldl_cons, foldl_toUInt8 cs _ fun d hd => h d (List.mem_cons_of_mem c hd),
      Nat.ofDigitChars_cons, hc]
    rfl

theorem digits_natural (n : Nat) : Digits (natural n) n := by
  have hdigits : ∀ c ∈ Nat.toDigits 10 n, c.isDigit = true := fun c hc =>
    Nat.isDigit_of_mem_toDigits (by decide) (by decide) hc
  have hvalue : digitsValue (natural n) = n :=
    (foldl_toUInt8 _ 0 hdigits).trans Nat.ofDigitChars_ten_toDigits
  have h : Digits (natural n) (digitsValue (natural n)) := by
    refine digits_digitsValue (by simp [natural]) fun b hb => ?_
    obtain ⟨c, hc, rfl⟩ := List.mem_map.mp hb
    obtain ⟨heq, hlo, hhi⟩ := toNat_toUInt8_of_isDigit (hdigits c hc)
    simp only [isDigit, Bool.and_eq_true, decide_eq_true_eq, UInt8.le_iff_toNat_le, heq]
    exact ⟨hlo, hhi⟩
  rwa [hvalue] at h

theorem denotes_natural (n : Nat) : Denotes (natural n) n := .plain (digits_natural n)

/-- What is written for a number is a numeral for it. -/
theorem denotes_integer (n : Int) : Denotes (integer n) n := by
  cases n with
  | ofNat n => exact denotes_natural n
  | negSucc n => exact .negated (digits_natural (n + 1))

/-! ### Reading is exact -/

/-- **Reading is exact.** What is read is a numeral, and the word read is its number; a numeral is refused
only if its number is out of the range of a word, so never over a number on the way, and none is taken for
another number. Every word, the least one included, is read back from what is written for it. -/
theorem reading_exact :
    (∀ (bs : Bytes) (n : Int), (∃ w : Int64, parse? bs = some w ∧ w.toInt = n) ↔
      Denotes bs n ∧ -9223372036854775808 ≤ n ∧ n ≤ 9223372036854775807) ∧
    (∀ (bs : Bytes) (n : Int), Denotes bs n ∧ parse? bs = none ↔
      Denotes bs n ∧ (n < -9223372036854775808 ∨ 9223372036854775807 < n)) ∧
    ∀ w : Int64, parse? (integer w.toInt) = some w := by
  refine ⟨fun bs n => ⟨?_, ?_⟩, fun bs n => and_congr_right fun h => ⟨fun hnone => ?_, fun hrange => ?_⟩,
    fun w => parse?_eq_some_iff.mpr (denotes_integer _)⟩
  · rintro ⟨w, hw, rfl⟩
    exact ⟨parse?_eq_some_iff.mp hw, Word.toInt_range w⟩
  · rintro ⟨h, hlo, hhi⟩
    exact h.exists_parse? hlo (by omega)
  · refine Decidable.byContradiction fun hrange => ?_
    obtain ⟨w, hw, -⟩ := h.exists_parse? (by omega) (by omega)
    rw [hnone] at hw
    cases hw
  · cases hw : parse? bs with
    | none => rfl
    | some w =>
      have hn : w.toInt = n := (parse?_eq_some_iff.mp hw).unique h
      have hword := Word.toInt_range w
      omega

example : parse? (Bytes.ofString "-0009223372036854775808") = some Int64.minValue := by decide

example : parse? (Bytes.ofString "9223372036854775808") = none := by decide

end Decimal
end Keyspace

/-
# The octets of replies

`Spelled room` is the grammar of values that are enclosed by arrays so far that `room - 1` more levels
may open inside them. A status or an error is a line of UTF-8 without a CR LF in it, and the lengths
are any numerals that denote them; both a bulk and an array of length -1 are the null value.

Reading a value accepts what the grammar spells (`reads_spelled`) and nothing else
(`yields_spelled`).

Key definitions: `Form`, `Spelled`.
-/
import Keyspace.Proofs.Wire.Reading
import Keyspace.Wire.Reply

namespace Keyspace
namespace Wire
namespace Reply

open Reader Decimal

/-! ### The grammar -/

/-- The octets of a value, in terms of those of the elements of an array. -/
inductive Form (Item : Bytes → Value → Prop) : Bytes → Value → Prop where
  | status {line : Bytes} {text : String} : ¬ crlf <:+: line → Utf8.decode line = .ok text →
      Form Item (statusMark :: (line ++ crlf)) (.status text)
  | error {line : Bytes} {text : String} : ¬ crlf <:+: line → Utf8.decode line = .ok text →
      Form Item (errorMark :: (line ++ crlf)) (.error text)
  | integer {numeral : Bytes} {n : Int64} : Denotes numeral n.toInt →
      Form Item (integerMark :: (numeral ++ crlf)) (.integer n)
  | bulk {length data : Bytes} : Denotes length data.length → data.length ≤ maxBulk →
      Form Item (bulkMark :: (length ++ crlf ++ (data ++ crlf))) (.bulk data)
  | nullBulk {length : Bytes} : Denotes length (-1) → Form Item (bulkMark :: (length ++ crlf)) .null
  | nullArray {length : Bytes} : Denotes length (-1) → Form Item (arrayMark :: (length ++ crlf)) .null
  | array {length octets : Bytes} {items : List Value} : Denotes length items.length →
      items.length ≤ maxArray → Sequence Item octets items →
      Form Item (arrayMark :: (length ++ crlf ++ octets)) (.array items)

/-- The octets of a value for which there is `room`. -/
def Spelled : Nat → Bytes → Value → Prop
  | 0 => fun _ _ => False
  | room + 1 => Form (Spelled room)

/-! ### Lines -/

theorem reads_text {line : Bytes} {text : String} (h : Utf8.decode line = .ok text) :
    Reads (Reply.text line) [] text := by
  rw [Reply.text, h]
  exact Reads.pure text

theorem yields_text (line : Bytes) : Yields (text line) fun xs s => xs = [] ∧ Utf8.decode line = .ok s := by
  unfold text
  split
  · next h => exact Yields.pure ⟨rfl, h⟩
  · exact Yields.fail _

theorem reads_integer {numeral : Bytes} {n : Int64} (h : Denotes numeral n.toInt) :
    Reads (integer numeral) [] n := by
  rw [integer, parse?_eq_some_iff.mpr h]
  exact Reads.pure n

theorem yields_integer (numeral : Bytes) :
    Yields (integer numeral) fun xs n => xs = [] ∧ Denotes numeral n.toInt := by
  unfold integer
  split
  · next h => exact Yields.pure ⟨rfl, parse?_eq_some_iff.mp h⟩
  · exact Yields.fail _

theorem reads_length {max k : Nat} {numeral : Bytes} (h : Denotes numeral k) (hk : k ≤ max)
    (hmax : max < 9223372036854775808) : Reads (length? max numeral) [] (some k) := by
  obtain ⟨n, hparse, hn⟩ := h.exists_parse? (by omega) (by omega)
  refine (reads_integer (parse?_eq_some_iff.mp hparse)).bind_nil ?_
  rw [if_neg (by rw [eq_neg_one_iff]; omega), if_neg (by rw [neg_iff]; omega), if_neg (by omega),
    show n.toInt.toNat = k by omega]
  exact Reads.pure (some k)

theorem reads_no_length {max : Nat} {numeral : Bytes} (h : Denotes numeral (-1)) :
    Reads (length? max numeral) [] none := by
  obtain ⟨n, hparse, hn⟩ := h.exists_parse? (by decide) (by decide)
  refine (reads_integer (parse?_eq_some_iff.mp hparse)).bind_nil ?_
  rw [if_pos (eq_neg_one_iff.mpr hn)]
  exact Reads.pure none

/-- A length within the limit, or none for -1. -/
def Length (max : Nat) (numeral : Bytes) : Option Nat → Prop
  | none => Denotes numeral (-1)
  | some k => Denotes numeral k ∧ k ≤ max

theorem yields_length (max : Nat) (numeral : Bytes) :
    Yields (length? max numeral) fun xs k => xs = [] ∧ Length max numeral k := by
  refine (yields_integer numeral).bind fun xs n hn => ?_
  obtain ⟨rfl, hn⟩ := hn
  refine Yields.ite (fun hnull => ?_) fun hsome => Yields.ite (fun _ => Yields.fail _) fun hpos =>
    Yields.ite (fun _ => Yields.fail _) fun hle => ?_
  · rw [eq_neg_one_iff.mp hnull] at hn
    exact Yields.pure ⟨rfl, hn⟩
  · rw [neg_iff] at hpos
    rw [show n.toInt = n.toInt.toNat by omega] at hn
    exact Yields.pure ⟨rfl, hn, by omega⟩

/-! ### Values -/

variable {item : Reader Value} {p : Bytes → Value → Prop}

/-- A reader reads the form over what it reads for the elements. -/
theorem reads_form {octets : Bytes} {v : Value} (h : Form (Reads item) octets v) :
    Reads (do
      let mark ← octet
      let field ← line
      body item mark field) octets v := by
  cases h with
  | status hline htext =>
    refine (reads_octet statusMark).bind ((reads_line hline).bind_nil ?_)
    exact (reads_text htext).map Value.status
  | error hline htext =>
    refine (reads_octet errorMark).bind ((reads_line hline).bind_nil ?_)
    exact (reads_text htext).map Value.error
  | integer hn =>
    refine (reads_octet integerMark).bind ((reads_line (crlf_not_infix_numeral hn)).bind_nil ?_)
    exact (reads_integer hn).map Value.integer
  | bulk hlength hle =>
    refine (reads_octet bulkMark).bind ((reads_line (crlf_not_infix_numeral hlength)).bind ?_)
    exact (reads_length hlength hle (by decide)).bind (reads_content _ Value.bulk)
  | nullBulk hlength =>
    refine (reads_octet bulkMark).bind ((reads_line (crlf_not_infix_numeral hlength)).bind_nil ?_)
    exact (reads_no_length hlength).bind (Reads.pure Value.null)
  | nullArray hlength =>
    refine (reads_octet arrayMark).bind ((reads_line (crlf_not_infix_numeral hlength)).bind_nil ?_)
    exact (reads_no_length hlength).bind (Reads.pure Value.null)
  | array hlength hle hitems =>
    refine (reads_octet arrayMark).bind ((reads_line (crlf_not_infix_numeral hlength)).bind ?_)
    exact (reads_length hlength hle (by decide)).bind ((Reads.times hitems).map Value.array)

theorem yields_body (hitem : Yields item p) (mark : UInt8) {field : Bytes} (hline : ¬ crlf <:+: field) :
    Yields (body item mark field) fun xs v => Form p (mark :: (field ++ crlf ++ xs)) v := by
  refine Yields.ite ?_ fun _ => Yields.ite ?_ fun _ => Yields.ite ?_ fun _ => Yields.ite ?_ fun _ =>
    Yields.ite ?_ fun _ => Yields.fail _
  · rintro rfl
    refine Yields.map _ ((yields_text field).imp ?_)
    rintro _ s ⟨rfl, hs⟩
    rw [List.append_nil]
    exact .status hline hs
  · rintro rfl
    refine Yields.map _ ((yields_text field).imp ?_)
    rintro _ s ⟨rfl, hs⟩
    rw [List.append_nil]
    exact .error hline hs
  · rintro rfl
    refine Yields.map _ ((yields_integer field).imp ?_)
    rintro _ n ⟨rfl, hn⟩
    rw [List.append_nil]
    exact .integer hn
  · rintro rfl
    refine (yields_length maxBulk field).bind fun xs k hk => ?_
    obtain ⟨rfl, hk⟩ := hk
    cases k with
    | none => exact Yields.pure (by rw [List.append_nil, List.append_nil]; exact .nullBulk hk)
    | some k =>
      refine (yields_content k Value.bulk).imp ?_
      rintro _ _ ⟨data, rfl, rfl, rfl⟩
      exact .bulk hk.1 hk.2
  · rintro rfl
    refine (yields_length maxArray field).bind fun xs k hk => ?_
    obtain ⟨rfl, hk⟩ := hk
    cases k with
    | none => exact Yields.pure (by rw [List.append_nil, List.append_nil]; exact .nullArray hk)
    | some k =>
      refine Yields.map _ ((hitem.times k).imp ?_)
      rintro _ items ⟨rfl, hitems⟩
      exact .array hk.1 hk.2 hitems

theorem Form.imp {p q : Bytes → Value → Prop} (hpq : ∀ xs v, p xs v → q xs v) {octets : Bytes} {v : Value}
    (h : Form p octets v) : Form q octets v := by
  cases h with
  | status hline htext => exact .status hline htext
  | error hline htext => exact .error hline htext
  | integer hn => exact .integer hn
  | bulk hlength hle => exact .bulk hlength hle
  | nullBulk hlength => exact .nullBulk hlength
  | nullArray hlength => exact .nullArray hlength
  | array hlength hle hitems => exact .array hlength hle (hitems.imp hpq)

theorem reads_spelled : ∀ {room : Nat} {octets : Bytes} {v : Value}, Spelled room octets v →
    Reads (value room) octets v
  | 0, _, _, h => h.elim
  | _ + 1, _, _, h => reads_form (h.imp fun _ _ => reads_spelled)

theorem yields_spelled (room : Nat) : Yields (value room) (Spelled room) := by
  induction room with
  | zero =>
    refine Yields.bind (p := fun _ _ => True) (fun _ _ _ _ => trivial) fun _ _ _ => Yields.fail _
  | succ room ih =>
    refine yields_octet.bind ?_
    rintro _ mark rfl
    refine yields_line.bind ?_
    rintro _ field ⟨rfl, hline⟩
    exact yields_body ih mark hline

/-- A complete value has the octets of one at the front of the buffer. -/
theorem read_eq_complete_iff_spelled {buf : Bytes} {v : Value} {n : Nat} :
    read buf = .complete v n ↔ n ≤ buf.length ∧ Spelled (maxDepth + 1) (buf.take n) v := by
  constructor
  · intro h
    exact ⟨read_bounded _ _ _ h, yields_spelled _ _ _ _ h⟩
  · rintro ⟨hn, h⟩
    have hread := reads_spelled h (buf.drop n)
    rwa [List.take_append_drop, List.length_take, Nat.min_eq_left hn] at hread

end Reply
end Wire
end Keyspace

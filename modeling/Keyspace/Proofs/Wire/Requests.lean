/-
# The octets of requests

`Framed` is the grammar of requests, said apart from reading: a line with the number of arguments,
then each argument as a bulk or as the null bulk, which stands for an empty one. The numbers are any
numerals that denote them, and the octets of a bulk are arbitrary.

Reading accepts this grammar and nothing else (`read_eq_complete_iff`), and what it says about the
octets received so far is final (`read_resumable`).

Key definitions: `Argument`, `Framed`.
Key theorems: `reads_framed`, `yields_framed`, `read_eq_complete_iff`, `read_resumable`.
-/
import Keyspace.Proofs.Wire.Reading
import Keyspace.Wire.Request

namespace Keyspace
namespace Wire
namespace Request

open Reader Decimal

/-! ### The grammar -/

/-- The octets of an argument: a bulk of the declared length, or the null bulk. -/
inductive Argument : Bytes → Bytes → Prop where
  | bulk {length data : Bytes} : Denotes length data.length → data.length ≤ maxBulk →
      Argument (bulkMark :: (length ++ crlf ++ (data ++ crlf))) data
  | null {length : Bytes} : Denotes length (-1) → Argument (bulkMark :: (length ++ crlf)) []

/-- The octets of a request: the number of arguments, then the arguments. -/
inductive Framed : Bytes → List Bytes → Prop where
  | array {count octets : Bytes} {args : List Bytes} : Denotes count args.length →
      args.length ≤ maxArray → Sequence Argument octets args →
      Framed (arrayMark :: (count ++ crlf ++ octets)) args

/-! ### All of it is read -/

theorem reads_argument {octets arg : Bytes} (h : Argument octets arg) : Reads argument octets arg := by
  cases h with
  | bulk hlength hle =>
    have hsmall : maxBulk < 9223372036854775808 := by decide
    obtain ⟨n, hparse, hn⟩ := hlength.exists_parse? (by omega) (by omega)
    refine Reads.opening ((reads_line (crlf_not_infix_numeral hlength)).bind ?_)
    simp only [hparse]
    rw [if_neg (by rw [eq_neg_one_iff]; omega), if_neg (by rw [neg_iff]; omega), if_neg (by omega),
      show n.toInt.toNat = arg.length by omega]
    exact reads_content arg id
  | null hlength =>
    obtain ⟨n, hparse, hn⟩ := hlength.exists_parse? (by decide) (by decide)
    refine Reads.opening ((reads_line (crlf_not_infix_numeral hlength)).bind_nil ?_)
    simp only [hparse]
    rw [if_pos (eq_neg_one_iff.mpr hn)]
    exact Reads.pure []

theorem reads_framed {octets : Bytes} {args : List Bytes} (h : Framed octets args) :
    Reads read octets args := by
  cases h with
  | array hcount hle hargs =>
    have hsmall : maxArray < 9223372036854775808 := by decide
    obtain ⟨n, hparse, hn⟩ := hcount.exists_parse? (by omega) (by omega)
    refine Reads.opening ((reads_line (crlf_not_infix_numeral hcount)).bind ?_)
    simp only [hparse]
    rw [if_neg (by rw [neg_iff]; omega), if_neg (by omega), show n.toInt.toNat = args.length by omega]
    exact Reads.times (hargs.imp fun _ _ => reads_argument)

/-! ### Nothing else is read -/

theorem yields_argument : Yields argument Argument := by
  refine Yields.opening (yields_line.bind fun xs length hline => ?_)
  obtain rfl := hline.1
  split
  · exact Yields.fail _
  · next n hparse =>
    have hlength := parse?_eq_some_iff.mp hparse
    refine Yields.ite (fun hnull => ?_) fun hbulk => Yields.ite (fun _ => Yields.fail _) fun hpos =>
      Yields.ite (fun _ => Yields.fail _) fun hle => ?_
    · rw [eq_neg_one_iff.mp hnull] at hlength
      exact Yields.pure (by rw [List.append_nil]; exact .null hlength)
    · rw [neg_iff] at hpos
      refine (yields_content _ id).imp fun octets arg hcontent => ?_
      obtain ⟨data, rfl, hdata, harg⟩ := hcontent
      obtain rfl : arg = data := harg
      rw [show n.toInt = arg.length by omega] at hlength
      exact .bulk hlength (by omega)

theorem yields_framed : Yields read Framed := by
  refine Yields.opening (yields_line.bind fun xs count hline => ?_)
  obtain rfl := hline.1
  split
  · exact Yields.fail _
  · next n hparse =>
    have hcount := parse?_eq_some_iff.mp hparse
    refine Yields.ite (fun _ => Yields.fail _) fun hpos => Yields.ite (fun _ => Yields.fail _) fun hle => ?_
    rw [neg_iff] at hpos
    refine (yields_argument.times _).imp fun octets args hargs => ?_
    rw [show n.toInt = args.length by have := hargs.1; omega] at hcount
    exact .array hcount (by have := hargs.1; omega) hargs.2

/-- A complete request has the octets of one at the front of the buffer. -/
theorem read_eq_complete_iff_framed {buf : Bytes} {args : List Bytes} {n : Nat} :
    read buf = .complete args n ↔ n ≤ buf.length ∧ Framed (buf.take n) args := by
  constructor
  · intro h
    exact ⟨read_bounded _ _ _ h, yields_framed _ _ _ h⟩
  · rintro ⟨hn, h⟩
    have hread := reads_framed h (buf.drop n)
    rwa [List.take_append_drop, List.length_take, Nat.min_eq_left hn] at hread

/-! ### Written requests -/

theorem argument_encode {arg : Bytes} (h : arg.length ≤ maxBulk) : Argument (Value.bulk arg).encode arg := by
  have hbulk := Argument.bulk (denotes_natural arg.length) h
  simpa [Value.encode] using hbulk

theorem sequence_encode : ∀ args : List Bytes, (∀ arg ∈ args, arg.length ≤ maxBulk) →
    Sequence Argument (Value.encodeAll (args.map .bulk)) args
  | [], _ => .nil
  | arg :: args, h =>
    .cons (argument_encode (h arg List.mem_cons_self))
      (sequence_encode args fun a ha => h a (List.mem_cons_of_mem arg ha))

theorem framed_encode {args : List Bytes} (hcount : args.length ≤ maxArray)
    (hargs : ∀ arg ∈ args, arg.length ≤ maxBulk) : Framed (encode args) args := by
  have h := Framed.array (denotes_natural args.length) hcount (sequence_encode args hargs)
  simpa [encode, Value.encode] using h

/-! ### Where faults are noticed -/

theorem argument_within : Within argument := by
  refine within_peek.bind bounded_peek fun mark => ?_
  refine (Within.fail _).ite (within_octet.bind bounded_octet fun _ =>
    within_line.bind bounded_line fun field => ?_)
  split
  · exact Within.fail _
  · exact (Within.pure _).ite ((Within.fail _).ite ((Within.fail _).ite
      ((within_exactly _).bind (bounded_exactly _) fun _ =>
        within_terminator.bind bounded_terminator fun _ => Within.pure _)))

theorem read_within : Within read := by
  refine within_peek.bind bounded_peek fun mark => ?_
  refine (Within.fail _).ite (within_octet.bind bounded_octet fun _ =>
    within_line.bind bounded_line fun field => ?_)
  split
  · exact Within.fail _
  · exact (Within.fail _).ite ((Within.fail _).ite (argument_within.times argument_bounded _))

/-- No more is dropped than there is. -/
theorem discard_le {buf : Bytes} {fault : Fault} {offset : Nat} (h : read buf = .malformed fault offset) :
    discard fault offset ≤ buf.length := by
  unfold discard
  split
  · exact read_within _ _ _ h
  · exact Nat.zero_le _

/-! ### The theorems -/

/-- **Reading accepts exactly the grammar.** A request is complete with `n` octets if and only if the
first `n` octets are one for these arguments. What is written for arguments within the limits is one
of them, so it is read back, whatever follows. -/
theorem read_eq_complete_iff (buf : Bytes) (args : List Bytes) (n : Nat) (rest : Bytes) :
    (read buf = .complete args n ↔ n ≤ buf.length ∧ Framed (buf.take n) args) ∧
    (args.length ≤ maxArray → (∀ arg ∈ args, arg.length ≤ maxBulk) →
      read (encode args ++ rest) = .complete args (encode args).length) :=
  ⟨read_eq_complete_iff_framed, fun hcount hargs => reads_framed (framed_encode hcount hargs) rest⟩

/-- A count with a zero in front, an argument left out, one of length `-0`, and the way these arguments
are written. -/
theorem read_eq_complete_iff_zeros :
    let buf : Bytes := [42, 48, 50, 13, 10, 36, 45, 49, 13, 10, 36, 45, 48, 13, 10, 13, 10]
    Framed buf [[], []] ∧
    ∀ rest, read (encode [[], []] ++ rest) = .complete [[], []] (encode [[], []]).length := by
  intro buf
  have h : read buf = .complete [[], []] 17 := by decide
  exact ⟨((read_eq_complete_iff buf [[], []] 17 []).1.mp h).2,
    fun rest => (read_eq_complete_iff buf [[], []] 17 rest).2 (by decide) (by decide)⟩

/-- **A verdict is final.** What is said about a request, other than that it is incomplete, stays when
octets are added behind. A complete request uses at least one octet and only octets that are there;
no proper beginning of these octets is anything but incomplete, and they are the same request
whatever follows. -/
theorem read_resumable (buf ext : Bytes) :
    (read buf ≠ .incomplete → read (buf ++ ext) = read buf) ∧
    ∀ args n, read buf = .complete args n →
      0 < n ∧ n ≤ buf.length ∧ (∀ k < n, read (buf.take k) = .incomplete) ∧
      ∀ rest, read (buf.take n ++ rest) = .complete args n := by
  refine ⟨read_final buf ext, fun args n h => ?_⟩
  obtain ⟨hn, hframed⟩ := read_eq_complete_iff_framed.mp h
  refine ⟨read_uses h, hn, fun k hk => ?_, fun rest => ?_⟩
  · by_cases hinc : read (buf.take k) = .incomplete
    · exact hinc
    · -- any other verdict on the beginning would be the verdict on the whole buffer
      have hfinal := read_final (buf.take k) (buf.drop k) hinc
      rw [List.take_append_drop, h] at hfinal
      have hle := read_bounded _ _ _ hfinal.symm
      rw [List.length_take] at hle
      omega
  · have hread := reads_framed hframed rest
    rwa [List.length_take, Nat.min_eq_left hn] at hread

/-- An argument with a CR LF in it, and octets behind the request. -/
theorem read_resumable_crlf_inside :
    let buf : Bytes := [42, 49, 13, 10, 36, 52, 13, 10, 97, 13, 10, 98, 13, 10, 42]
    read buf = .complete [[97, 13, 10, 98]] 14 ∧ (∀ k < 14, read (buf.take k) = .incomplete) ∧
    ∀ rest, read (buf.take 14 ++ rest) = .complete [[97, 13, 10, 98]] 14 := by
  intro buf
  have h : read buf = .complete [[97, 13, 10, 98]] 14 := by decide
  obtain ⟨-, -, hbefore, hafter⟩ := (read_resumable buf []).2 _ _ h
  exact ⟨h, hbefore, hafter⟩

end Request
end Wire
end Keyspace

/-
# What is no request

A fault is noticed at a place. The octets before it were read, and those behind it may be where the next
request begins. `Request.Broken` says apart from reading which octets before and behind a place make a fault
there that can be got over, and `Request.Lost` says which octets make a fault after which nothing can be
found. Reading notices these faults, at these places, and no others (`read_broken_iff`, `read_lost_iff`).

Sequencing keeps both sides of that, as it does for what readers accept:

* `Stops r before behind fault`: the reader notices the fault between these octets.
* `Blames r p`: wherever the reader notices a fault, `p` holds of the octets before and behind, and the fault.

Key definitions: `Begun`, `Broken`, `Lost`.
Key theorems: `stops_broken`, `blames_read`, `read_broken_iff`, `read_lost_iff`.
-/
import Keyspace.Proofs.Wire.Requests

namespace Keyspace
namespace Wire
namespace Reader

variable {α β : Type} {r : Reader α} {next : α → Reader β} {before behind xs : Bytes} {fault : Fault} {a : α}

/-! ### Faults that are noticed -/

/-- The fault is noticed between these octets. -/
def Stops (r : Reader α) (before behind : Bytes) (fault : Fault) : Prop :=
  r (before ++ behind) = .malformed fault before.length

theorem stops_fail (behind : Bytes) (fault : Fault) : Stops (fail fault : Reader α) [] behind fault := rfl

theorem Stops.first (h : Stops r before behind fault) : Stops (r >>= next) before behind fault := by
  rw [Stops, bind_apply, h]

theorem Stops.bind (hr : Reads r xs a) (h : Stops (next a) before behind fault) :
    Stops (r >>= next) (xs ++ before) behind fault := by
  rw [Stops, List.append_assoc, bind_of_complete next (hr (before ++ behind)), List.drop_left, h,
    Progress.shift, List.length_append]

theorem Stops.bind_nil (hr : Reads r xs a) (h : Stops (next a) [] behind fault) :
    Stops (r >>= next) xs behind fault := by
  have h' := Stops.bind hr h
  rwa [List.append_nil] at h'

theorem Stops.map (f : α → β) (h : Stops r before behind fault) : Stops (f <$> r) before behind fault := by
  rw [Stops, map_apply, h]

/-- A reading stops the whole, if fewer than all were done before. -/
theorem Stops.times {front : Bytes} {as : List α} (hfront : Sequence (Reads r) front as)
    (h : Stops r before behind fault) :
    ∀ {k : Nat}, as.length < k → Stops (times r k) (front ++ before) behind fault := by
  induction hfront with
  | nil =>
    intro k hk
    cases k with
    | zero => cases hk
    | succ k => exact h.first
  | @cons xs ys a as hr _ ih =>
    intro k hk
    cases k with
    | zero => cases hk
    | succ k =>
      rw [List.append_assoc]
      exact Stops.bind hr ((ih (Nat.lt_of_succ_lt_succ hk)).map (a :: ·))

theorem Stops.opening {m : UInt8} {wrong : UInt8 → Fault} {next : Reader α} (h : Stops next before behind fault) :
    Stops (opening m wrong next) (m :: before) behind fault := by
  rw [Stops, List.cons_append, opening_cons, h, Progress.shift, List.length_cons, Nat.add_comm]

theorem stops_opening {m b : UInt8} (hb : b ≠ m) (wrong : UInt8 → Fault) (next : Reader α) (behind : Bytes) :
    Stops (opening m wrong next) [] (b :: behind) (wrong b) := opening_cons_ne hb behind

/-- There are two octets, and they are not CR LF. -/
def NotEnded (behind : Bytes) : Prop := 2 ≤ behind.length ∧ ¬ crlf <+: behind

theorem stops_terminator (h : NotEnded behind) : Stops terminator [] behind .missingTerminator := by
  obtain ⟨hlength, hne⟩ := h
  match behind with
  | [] | [_] => simp at hlength
  | a :: b :: rest =>
    refine if_neg ?_
    rintro ⟨rfl, rfl⟩
    exact hne (List.prefix_append crlf rest)

theorem stops_content (data : Bytes) (f : Bytes → α) (h : NotEnded behind) :
    Stops (do
      let data ← exactly data.length
      terminator
      return f data) data behind .missingTerminator := by
  have hend : Stops (do terminator; return f data) [] behind .missingTerminator := (stops_terminator h).first
  exact Stops.bind_nil (reads_exactly data) hend

/-! ### No others -/

/-- Wherever a fault is noticed, the octets before and behind are in the relation to it. -/
def Blames (r : Reader α) (p : Bytes → Bytes → Fault → Prop) : Prop :=
  ∀ buf fault n, r buf = .malformed fault n → p (buf.take n) (buf.drop n) fault

variable {p p' : Bytes → Bytes → Fault → Prop} {q : Bytes → α → Prop}

theorem Blames.imp (hr : Blames r p) (h : ∀ before behind fault, p before behind fault → p' before behind fault) :
    Blames r p' :=
  fun buf fault n hm => h _ _ _ (hr buf fault n hm)

theorem Blames.pure (a : α) : Blames (pure a : Reader α) p := by
  intro buf fault n hm
  cases hm

theorem Blames.fail {fault : Fault} (h : ∀ behind, p [] behind fault) : Blames (fail fault : Reader α) p := by
  intro buf fault' n hm
  cases hm
  exact h buf

theorem Blames.ite {c : Prop} [Decidable c] {s : Reader α} (hr : c → Blames r p) (hs : ¬ c → Blames s p) :
    Blames (if c then r else s) p := by
  split
  · next h => exact hr h
  · next h => exact hs h

/-- Behind a value, the octets before the fault begin with those of the value. -/
theorem Blames.bind (hr : Blames r p) (hv : Yields r q)
    (hn : ∀ xs a, q xs a → Blames (next a) fun before behind fault => p (xs ++ before) behind fault) :
    Blames (r >>= next) p := by
  intro buf fault n hm
  rw [bind_apply] at hm
  split at hm
  · cases hm
  · next hrm =>
    cases hm
    exact hr _ _ _ hrm
  · next a m ha =>
    cases hnext : next a (buf.drop m) with
    | incomplete => simp [hnext, Progress.shift] at hm
    | complete => simp [hnext, Progress.shift] at hm
    | malformed fault' k =>
      simp only [hnext, Progress.shift, Progress.malformed.injEq] at hm
      obtain ⟨rfl, rfl⟩ := hm
      rw [List.take_add, ← List.drop_drop]
      exact hn _ a (hv _ _ _ ha) _ _ _ hnext

theorem Blames.map (f : α → β) (hr : Blames r p) : Blames (f <$> r) p := by
  intro buf fault n hm
  rw [map_apply] at hm
  split at hm
  · cases hm
  · next hrm =>
    cases hm
    exact hr _ _ _ hrm
  · cases hm

/-- Where one of several readings is refused, fewer than all were done before. -/
theorem Blames.times (hr : Blames r p) (hv : Yields r q) (k : Nat) :
    Blames (times r k) fun before behind fault => ∃ front rest as,
      before = front ++ rest ∧ Sequence q front as ∧ as.length < k ∧ p rest behind fault := by
  induction k with
  | zero => exact Blames.pure []
  | succ k ih =>
    refine Blames.bind (hr.imp fun before behind fault h => ?_) hv fun xs a ha =>
      Blames.map _ (ih.imp fun before behind fault h => ?_)
    · exact ⟨[], before, [], rfl, .nil, Nat.succ_pos k, h⟩
    · obtain ⟨front, rest, as, rfl, hfront, hlt, hrest⟩ := h
      exact ⟨xs ++ front, rest, a :: as, (List.append_assoc ..).symm, .cons ha hfront, Nat.succ_lt_succ hlt, hrest⟩

theorem Blames.opening {m : UInt8} {wrong : UInt8 → Fault} {next : Reader α}
    (hne : ∀ b behind, b ≠ m → p [] (b :: behind) (wrong b))
    (h : Blames next fun before behind fault => p (m :: before) behind fault) : Blames (opening m wrong next) p := by
  intro buf fault n hm
  cases buf with
  | nil => cases hm
  | cons b bs =>
    by_cases hb : b = m
    · subst hb
      rw [opening_cons] at hm
      cases hv : next bs with
      | incomplete => simp [hv, Progress.shift] at hm
      | complete => simp [hv, Progress.shift] at hm
      | malformed fault' k =>
        simp only [hv, Progress.shift, Progress.malformed.injEq] at hm
        obtain ⟨rfl, rfl⟩ := hm
        rw [Nat.add_comm]
        exact h _ _ _ hv
    · rw [opening_cons_ne hb] at hm
      cases hm
      exact hne b bs hb

/-- A line is never refused. -/
theorem blames_line : Blames line p := by
  intro buf fault n hm
  unfold line at hm
  split at hm <;> cases hm

theorem blames_exactly (k : Nat) : Blames (exactly k) p := by
  intro buf fault n hm
  simp only [exactly] at hm
  split at hm <;> cases hm

theorem blames_terminator :
    Blames terminator fun before behind fault => before = [] ∧ NotEnded behind ∧ fault = .missingTerminator := by
  intro buf fault n hm
  unfold terminator at hm
  split at hm
  · next a b rest =>
    split at hm
    · cases hm
    · next hne =>
      cases hm
      refine ⟨rfl, ⟨by simp, ?_⟩, rfl⟩
      rintro ⟨t, ht⟩
      obtain ⟨rfl, rfl, -⟩ : cr = a ∧ lf = b ∧ t = rest := by simpa [crlf] using ht
      exact hne ⟨rfl, rfl⟩
  · cases hm

theorem blames_content (k : Nat) (f : Bytes → α) :
    Blames (do
      let data ← exactly k
      terminator
      return f data) fun before behind fault =>
        before.length = k ∧ NotEnded behind ∧ fault = .missingTerminator := by
  refine (blames_exactly k).bind (yields_exactly k) fun xs data hdata => ?_
  refine Blames.bind (blames_terminator.imp fun before behind fault h => ?_) yields_terminator fun _ _ _ =>
    Blames.pure _
  rw [h.1, List.append_nil, hdata.1]
  exact ⟨hdata.2, h.2⟩

end Reader

namespace Request

open Reader Decimal

/-! ### The grammar of faults -/

/-- A line that gives no number of at least `least`: no numeral of a 64-bit integer, or one of a lower number. -/
structure Unusable (least : Int) (line : Bytes) : Prop where
  oneLine : ¬ crlf <:+: line
  lower : ∀ n : Int64, Denotes line n.toInt → n.toInt < least

/-- A line with a mark and a 64-bit integer above `max`, and the fault. -/
inductive Oversized (mark : UInt8) (max : Nat) : Bytes → Fault → Prop where
  | line {numeral : Bytes} {k : Nat} : Denotes numeral k → max < k → k < 9223372036854775808 →
      Oversized mark max (mark :: (numeral ++ crlf)) (.tooLarge k max)

/-- A fault in an argument that can be got over. It is noticed at a wrong mark, behind the line of a length, or
behind the octets of a bulk. -/
inductive BrokenArgument : Bytes → Bytes → Fault → Prop where
  | mark {b : UInt8} {behind : Bytes} : b ≠ bulkMark → BrokenArgument [] (b :: behind) (.expectedBulk b)
  | length {length behind : Bytes} : Unusable (-1) length →
      BrokenArgument (bulkMark :: (length ++ crlf)) behind .invalidLength
  | content {length data behind : Bytes} :
      Denotes length data.length → data.length ≤ maxBulk → NotEnded behind →
      BrokenArgument (bulkMark :: (length ++ crlf ++ data)) behind .missingTerminator

/-- The octets of a request in front of one of its arguments: the number of arguments, and the arguments before. -/
inductive Begun : Bytes → Prop where
  | array {count octets : Bytes} {k : Nat} {args : List Bytes} : Denotes count k → k ≤ maxArray →
      Sequence Argument octets args → args.length < k → Begun (arrayMark :: (count ++ crlf ++ octets))

/-- A fault in a request that can be got over. It is noticed behind the line of the number of arguments, or in an
argument. -/
inductive Broken : Bytes → Bytes → Fault → Prop where
  | count {count behind : Bytes} : Unusable 0 count → Broken (arrayMark :: (count ++ crlf)) behind .invalidCount
  | argument {front before behind : Bytes} {fault : Fault} : Begun front → BrokenArgument before behind fault →
      Broken (front ++ before) behind fault

/-- A fault after which the next request cannot be found: another octet than `*` at the front, or a number of
arguments or a length above its limit. -/
inductive Lost : Bytes → Fault → Prop where
  | mark {b : UInt8} {behind : Bytes} : b ≠ arrayMark → Lost (b :: behind) (.expectedArray b)
  | count {before behind : Bytes} {fault : Fault} : Oversized arrayMark maxArray before fault →
      Lost (before ++ behind) fault
  | argument {front before behind : Bytes} {fault : Fault} : Begun front → Oversized bulkMark maxBulk before fault →
      Lost (front ++ before ++ behind) fault

variable {buf before behind line numeral : Bytes} {fault : Fault}

theorem Broken.resumable (h : Broken before behind fault) : fault.resumable = true := by
  cases h with
  | count => rfl
  | argument _ h => cases h <;> rfl

theorem Lost.not_resumable (h : Lost buf fault) : fault.resumable = false := by
  cases h with
  | mark => rfl
  | count h => cases h; rfl
  | argument _ h => cases h; rfl

/-- Something of the request was read before the fault. -/
theorem Broken.length_pos (h : Broken before behind fault) : 0 < before.length := by
  cases h with
  | count => exact Nat.succ_pos _
  | argument hbegun =>
    cases hbegun
    exact Nat.succ_pos _

/-! ### Lines with no number -/

theorem unusable_of_parse? {least : Int} (hline : ¬ crlf <:+: line) (h : parse? line = none) :
    Unusable least line := by
  refine ⟨hline, fun n hn => ?_⟩
  rw [parse?_eq_some_iff.mpr hn] at h
  cases h

theorem unusable_of_lt {least : Int} {n : Int64} (hline : ¬ crlf <:+: line) (h : parse? line = some n)
    (hlt : n.toInt < least) : Unusable least line := by
  refine ⟨hline, fun m hm => ?_⟩
  rw [← hm.unique (parse?_eq_some_iff.mp h)] at hlt
  exact hlt

theorem oversized_of_parse? {mark : UInt8} {max : Nat} {n : Int64} (h : parse? line = some n)
    (hpos : 0 ≤ n.toInt) (hmax : max < n.toInt.toNat) :
    Oversized mark max (mark :: (line ++ crlf)) (.tooLarge n.toInt.toNat max) := by
  have hdenotes := parse?_eq_some_iff.mp h
  have hrange := n.toInt_le
  rw [Int64.toInt_maxValue] at hrange
  rw [show n.toInt = n.toInt.toNat by omega] at hdenotes
  exact .line hdenotes hmax (by omega)

/-! ### All of these faults are noticed -/

/-- Behind the line of a length, a fault of an argument is the limit, or in the content. -/
theorem stops_length {length : Bytes} {k : Nat} (hlength : Denotes length k) (hfits : k < 9223372036854775808)
    (h : Stops (if maxBulk < k then fail (.tooLarge k maxBulk) else do
      let data ← exactly k
      terminator
      return data) before behind fault) :
    Stops argument (bulkMark :: (length ++ crlf ++ before)) behind fault := by
  obtain ⟨n, hparse, hn⟩ := hlength.exists_parse? (by omega) (by omega)
  refine Stops.opening (Stops.bind (reads_line (crlf_not_infix_numeral hlength)) ?_)
  simp only [hparse]
  rw [if_neg (by rw [eq_neg_one_iff]; omega), if_neg (by rw [neg_iff]; omega), show n.toInt.toNat = k by omega]
  exact h

/-- Behind the line of the number of arguments, a fault is the limit, or in an argument. -/
theorem stops_count {count : Bytes} {k : Nat} (hcount : Denotes count k) (hfits : k < 9223372036854775808)
    (h : Stops (if maxArray < k then fail (.tooLarge k maxArray) else times argument k) before behind fault) :
    Stops read (arrayMark :: (count ++ crlf ++ before)) behind fault := by
  obtain ⟨n, hparse, hn⟩ := hcount.exists_parse? (by omega) (by omega)
  refine Stops.opening (Stops.bind (reads_line (crlf_not_infix_numeral hcount)) ?_)
  simp only [hparse]
  rw [if_neg (by rw [neg_iff]; omega), show n.toInt.toNat = k by omega]
  exact h

theorem stops_argument (h : BrokenArgument before behind fault) : Stops argument before behind fault := by
  cases h with
  | mark hb => exact stops_opening hb _ _ _
  | @length length _ h =>
    refine Stops.opening (Stops.bind_nil (reads_line h.oneLine) ?_)
    cases hparse : parse? length with
    | none => exact stops_fail _ _
    | some n =>
      have hlt := h.lower n (parse?_eq_some_iff.mp hparse)
      dsimp only
      rw [if_neg (by rw [eq_neg_one_iff]; omega), if_pos (by rw [neg_iff]; omega)]
      exact stops_fail _ _
  | @content length data _ hlength hle hend =>
    have hsmall : maxBulk < 9223372036854775808 := by decide
    refine stops_length hlength (by omega) ?_
    rw [if_neg (Nat.not_lt.mpr hle)]
    exact stops_content data id hend

theorem stops_argument_oversized (h : Oversized bulkMark maxBulk before fault) (behind : Bytes) :
    Stops argument before behind fault := by
  cases h with
  | @line length k hlength hmax hfits =>
    rw [← List.append_nil (length ++ crlf)]
    refine stops_length hlength hfits ?_
    rw [if_pos hmax]
    exact stops_fail _ _

theorem stops_count_oversized (h : Oversized arrayMark maxArray before fault) (behind : Bytes) :
    Stops read before behind fault := by
  cases h with
  | @line count k hcount hmax hfits =>
    rw [← List.append_nil (count ++ crlf)]
    refine stops_count hcount hfits ?_
    rw [if_pos hmax]
    exact stops_fail _ _

/-- A fault in an argument is one of the request. -/
theorem stops_begun {front : Bytes} (hfront : Begun front) (h : Stops argument before behind fault) :
    Stops read (front ++ before) behind fault := by
  cases hfront with
  | @array count octets k args hcount hle hargs hlt =>
    have hsmall : maxArray < 9223372036854775808 := by decide
    rw [List.cons_append, List.append_assoc]
    refine stops_count hcount (by omega) ?_
    rw [if_neg (Nat.not_lt.mpr hle)]
    exact Stops.times (hargs.imp fun _ _ => reads_argument) h hlt

theorem stops_broken (h : Broken before behind fault) : Stops read before behind fault := by
  cases h with
  | @count count _ h =>
    refine Stops.opening (Stops.bind_nil (reads_line h.oneLine) ?_)
    cases hparse : parse? count with
    | none => exact stops_fail _ _
    | some n =>
      have hlt := h.lower n (parse?_eq_some_iff.mp hparse)
      dsimp only
      rw [if_pos (by rw [neg_iff]; omega)]
      exact stops_fail _ _
  | argument hfront h => exact stops_begun hfront (stops_argument h)

theorem read_lost (h : Lost buf fault) : ∃ n, read buf = .malformed fault n := by
  cases h with
  | mark hb => exact ⟨_, stops_opening hb _ _ _⟩
  | count h => exact ⟨_, stops_count_oversized h _⟩
  | argument hfront h => exact ⟨_, stops_begun hfront (stops_argument_oversized h _)⟩

/-! ### No others are -/

theorem blames_argument : Blames argument fun before behind fault =>
    BrokenArgument before behind fault ∨ Oversized bulkMark maxBulk before fault := by
  refine Blames.opening (fun b behind hb => .inl (.mark hb)) (blames_line.bind yields_line fun xs length hline => ?_)
  obtain ⟨rfl, hline⟩ := hline
  split
  · next hparse =>
    refine Blames.fail fun behind => .inl ?_
    rw [List.append_nil]
    exact .length (unusable_of_parse? hline hparse)
  · next n hparse =>
    refine Blames.ite (fun _ => Blames.pure _) fun hnull => Blames.ite (fun hneg => ?_) fun hpos =>
      Blames.ite (fun hmax => ?_) fun hle => ?_
    · rw [eq_neg_one_iff] at hnull
      rw [neg_iff] at hneg
      refine Blames.fail fun behind => .inl ?_
      rw [List.append_nil]
      exact .length (unusable_of_lt hline hparse (by omega))
    · rw [neg_iff] at hpos
      refine Blames.fail fun behind => .inr ?_
      rw [List.append_nil]
      exact oversized_of_parse? hparse (by omega) hmax
    · rw [neg_iff] at hpos
      have hlength := parse?_eq_some_iff.mp hparse
      refine (blames_content n.toInt.toNat id).imp fun before behind fault h => .inl ?_
      obtain ⟨hbefore, hend, rfl⟩ := h
      rw [show n.toInt = before.length by omega] at hlength
      exact .content hlength (by omega) hend

theorem blames_read : Blames read fun before behind fault =>
    Broken before behind fault ∨ Lost (before ++ behind) fault := by
  refine Blames.opening (fun b behind hb => .inr (.mark hb)) (blames_line.bind yields_line fun xs count hline => ?_)
  obtain ⟨rfl, hline⟩ := hline
  split
  · next hparse =>
    refine Blames.fail fun behind => .inl ?_
    rw [List.append_nil]
    exact .count (unusable_of_parse? hline hparse)
  · next n hparse =>
    refine Blames.ite (fun hneg => ?_) fun hpos => Blames.ite (fun hmax => ?_) fun hle => ?_
    · rw [neg_iff] at hneg
      refine Blames.fail fun behind => .inl ?_
      rw [List.append_nil]
      exact .count (unusable_of_lt hline hparse hneg)
    · rw [neg_iff] at hpos
      refine Blames.fail fun behind => .inr ?_
      rw [List.append_nil]
      exact .count (oversized_of_parse? hparse (by omega) hmax)
    · rw [neg_iff] at hpos
      have hcount := parse?_eq_some_iff.mp hparse
      rw [show n.toInt = n.toInt.toNat by omega] at hcount
      refine (blames_argument.times yields_argument n.toInt.toNat).imp fun before behind fault h => ?_
      obtain ⟨octets, rest, args, rfl, hargs, hlt, hrest⟩ := h
      have hfront : Begun (arrayMark :: (count ++ crlf ++ octets)) := .array hcount (by omega) hargs hlt
      have hsplit : arrayMark :: (count ++ crlf ++ (octets ++ rest)) =
          arrayMark :: (count ++ crlf ++ octets) ++ rest := by
        rw [List.cons_append, List.append_assoc (count ++ crlf)]
      rw [hsplit]
      rcases hrest with hrest | hrest
      · exact .inl (.argument hfront hrest)
      · exact .inr (.argument hfront hrest)

/-! ### The faults of reading -/

/-- A fault that can be got over is noticed exactly where the grammar has it. -/
theorem read_broken_iff {n : Nat} : read buf = .malformed fault n ∧ fault.resumable = true ↔
    n ≤ buf.length ∧ Broken (buf.take n) (buf.drop n) fault := by
  constructor
  · rintro ⟨h, hresumable⟩
    refine ⟨read_within _ _ _ h, (blames_read _ _ _ h).resolve_right fun hlost => ?_⟩
    rw [hlost.not_resumable] at hresumable
    cases hresumable
  · rintro ⟨hn, h⟩
    have hstops := stops_broken h
    rw [Stops, List.take_append_drop, List.length_take, Nat.min_eq_left hn] at hstops
    exact ⟨hstops, h.resumable⟩

/-- The other faults are those after which nothing can be found. -/
theorem read_lost_iff : (∃ n, read buf = .malformed fault n) ∧ fault.resumable = false ↔ Lost buf fault := by
  constructor
  · rintro ⟨⟨n, h⟩, hresumable⟩
    have hlost := (blames_read _ _ _ h).resolve_left fun hbroken => by
      rw [hbroken.resumable] at hresumable
      cases hresumable
    rwa [List.take_append_drop] at hlost
  · exact fun h => ⟨read_lost h, h.not_resumable⟩

/-- A fault that can be got over has octets in front of it, and these are dropped. -/
theorem discard_of_resumable {n : Nat} (h : read buf = .malformed fault n) (hresumable : fault.resumable = true) :
    discard fault n = n ∧ 0 < n := by
  obtain ⟨hn, hbroken⟩ := read_broken_iff.mp ⟨h, hresumable⟩
  have hpos := hbroken.length_pos
  rw [List.length_take, Nat.min_eq_left hn] at hpos
  exact ⟨if_pos hresumable, hpos⟩

/-- Nothing is dropped if and only if nothing can be found after the fault. -/
theorem discard_eq_zero_iff {n : Nat} (h : read buf = .malformed fault n) :
    discard fault n = 0 ↔ ∃ lost, Lost buf lost := by
  cases hresumable : fault.resumable with
  | true =>
    obtain ⟨heq, hpos⟩ := discard_of_resumable h hresumable
    refine iff_of_false (by omega) ?_
    rintro ⟨lost, hlost⟩
    obtain ⟨⟨m, hread⟩, hfatal⟩ := read_lost_iff.mpr hlost
    rw [h] at hread
    cases hread
    rw [hresumable] at hfatal
    cases hfatal
  | false =>
    have hzero : discard fault n = 0 := if_neg (by rw [hresumable]; exact Bool.false_ne_true)
    exact iff_of_true hzero ⟨fault, read_lost_iff.mp ⟨⟨n, h⟩, hresumable⟩⟩

/-- What is dropped ends at the place of the fault. -/
theorem broken_of_discard {n : Nat} (h : read buf = .malformed fault n) (hne : discard fault n ≠ 0) :
    Broken (buf.take (discard fault n)) (buf.drop (discard fault n)) fault := by
  have hresumable : fault.resumable = true := Decidable.of_not_not fun hfatal => hne (if_neg hfatal)
  rw [(discard_of_resumable h hresumable).1]
  exact (read_broken_iff.mp ⟨h, hresumable⟩).2

end Request
end Wire
end Keyspace

/-
# Reading a reply never leaves the buffer

`Reply.read` is put together from readers that each see the rest of the buffer, so it says nothing about
places. `Sliced.value` reads a reply by places: a line, the octets of a bulk and the rest of the buffer for
an element are slices between two places that were computed from what was read before, at every level of arrays
anew. A slice that is not in the buffer is missing, and then there is no verdict at all. This never happens:
reading by places always has the verdict of `Reply.value` (`Sliced.value_eq`).

So the verdict on a reply is final, a complete reply uses octets that are there, and all that is looked at on
the way is in the buffer (`reply_resumable`).

Key definitions: `slice?`, `Sliced.content`, `Sliced.elements`, `Sliced.value`.
Key theorems: `Sliced.elements_eq`, `Sliced.value_eq`, `reply_resumable`.
-/
import Keyspace.Proofs.Wire.Stream

namespace Keyspace
namespace Wire

/-- The octets from one place in the buffer up to another, if these are places in the buffer, in order. -/
def slice? (buf : Bytes) (lo hi : Nat) : Option Bytes :=
  if lo ≤ hi ∧ hi ≤ buf.length then some ((buf.drop lo).take (hi - lo)) else none

theorem slice?_eq {buf : Bytes} {lo hi : Nat} (hlo : lo ≤ hi) (hhi : hi ≤ buf.length) :
    slice? buf lo hi = some ((buf.drop lo).take (hi - lo)) := if_pos ⟨hlo, hhi⟩

theorem slice?_rest {buf : Bytes} {lo : Nat} (hlo : lo ≤ buf.length) :
    slice? buf lo buf.length = some (buf.drop lo) := by
  rw [slice?_eq hlo (Nat.le_refl _), ← List.length_drop, List.take_length]

/-- The same verdict about another value. -/
def Progress.map {α β : Type} (f : α → β) : Progress α → Progress β
  | .incomplete => .incomplete
  | .malformed fault offset => .malformed fault offset
  | .complete a used => .complete (f a) used

variable {α β : Type}

theorem Progress.shift_shift (m n : Nat) (v : Progress α) : (v.shift m).shift n = v.shift (n + m) := by
  cases v <;> simp [shift, Nat.add_assoc]

theorem Progress.map_shift (f : α → β) (n : Nat) (v : Progress α) : (v.shift n).map f = (v.map f).shift n := by
  cases v <;> rfl

theorem Reader.map_eq (f : α → β) (r : Reader α) (buf : Bytes) : (f <$> r) buf = (r buf).map f := rfl

namespace Reply

open Reader

/-! ### Reading by places -/

namespace Sliced

/-- A bulk of `n` octets that begins at a place in the buffer. -/
def content (buf : Bytes) (start n : Nat) : Option (Progress Value) :=
  if buf.length < start + n + 2 then some .incomplete
  else do
    let ending ← slice? buf (start + n) (start + n + 2)
    if ending ≠ crlf then some (.malformed .missingTerminator (start + n))
    else do
      let data ← slice? buf start (start + n)
      some (.complete (.bulk data) (start + n + 2))

/-- So many elements from a place in the buffer on; `item` reads one from the front of a slice. -/
def elements (item : Bytes → Option (Progress Value)) (buf : Bytes) : Nat → Nat → Option (Progress (List Value))
  | 0, start => some (.complete [] start)
  | k + 1, start => do
    let rest ← slice? buf start buf.length
    match ← item rest with
    | .incomplete => some .incomplete
    | .malformed fault offset => some (.malformed fault (start + offset))
    | .complete v used => (elements item buf k (start + used)).map (Progress.map (v :: ·))

/-- Goes on with what a line gives, unless the line is refused. The readers of a line's text look at nothing
behind it, so they are asked over no octets. -/
def given (r : Reader α) (start : Nat) (next : α → Option (Progress β)) : Option (Progress β) :=
  match r [] with
  | .incomplete => some .incomplete
  | .malformed fault offset => some (.malformed fault (start + offset))
  | .complete a _ => next a

/-- The value of a line with its mark, and of what follows it from a place in the buffer on. -/
def body (item : Bytes → Option (Progress Value)) (buf : Bytes) (mark : UInt8) (field : Bytes) (start : Nat) :
    Option (Progress Value) :=
  if mark = statusMark then given (text field) start fun s => some (.complete (.status s) start)
  else if mark = errorMark then given (text field) start fun s => some (.complete (.error s) start)
  else if mark = integerMark then given (integer field) start fun n => some (.complete (.integer n) start)
  else if mark = bulkMark then
    given (length? maxBulk field) start fun
      | none => some (.complete .null start)
      | some n => content buf start n
  else if mark = arrayMark then
    given (length? maxArray field) start fun
      | none => some (.complete .null start)
      | some n => (elements item buf n start).map (Progress.map .array)
  else some (.malformed (.unknownMark mark) start)

/-- A value inside which `room - 1` more levels of arrays may open. -/
def value : Nat → Bytes → Option (Progress Value)
  | _, [] => some .incomplete
  | 0, _ :: _ => some (.malformed (.tooDeep maxDepth) 0)
  | room + 1, buf@(mark :: _) => do
    match beforeCrlf? (← slice? buf 1 buf.length) with
    | none => some .incomplete
    | some line =>
      let field ← slice? buf 1 (1 + line.length)
      body (value room) buf mark field (1 + line.length + 2)

end Sliced

/-! ### The same verdict -/

variable {buf field : Bytes} {start : Nat}

/-- A reader that looks at nothing: it has its value beforehand, or refuses whatever comes. -/
def Settled (r : Reader α) : Prop := (∃ a, r = pure a) ∨ ∃ fault, r = fail fault

theorem settled_text (field : Bytes) : Settled (text field) := by
  unfold text
  split
  · exact .inl ⟨_, rfl⟩
  · exact .inr ⟨_, rfl⟩

theorem settled_integer (field : Bytes) : Settled (integer field) := by
  unfold integer
  split
  · exact .inl ⟨_, rfl⟩
  · exact .inr ⟨_, rfl⟩

theorem pure_bind_eq (a : α) (next : α → Reader β) : (pure a >>= next : Reader β) = next a := by
  funext buf
  rw [bind_of_complete next (pure_apply a buf), List.drop_zero, Progress.shift_zero]

theorem settled_length? (max : Nat) (field : Bytes) : Settled (length? max field) := by
  unfold length?
  rcases settled_integer field with ⟨n, hn⟩ | ⟨fault, hfault⟩
  · rw [hn, pure_bind_eq]
    split
    · exact .inl ⟨_, rfl⟩
    · split
      · exact .inr ⟨_, rfl⟩
      · split
        · exact .inr ⟨_, rfl⟩
        · exact .inl ⟨_, rfl⟩
  · rw [hfault]
    exact .inr ⟨fault, rfl⟩

namespace Sliced

theorem given_eq {r : Reader α} (hr : Settled r) {next : α → Reader β} {next' : α → Option (Progress β)}
    (h : ∀ a, next' a = some ((next a (buf.drop start)).shift start)) :
    given r start next' = some (((r >>= next) (buf.drop start)).shift start) := by
  rcases hr with ⟨a, rfl⟩ | ⟨fault, rfl⟩
  · rw [pure_bind_eq, ← h]
    rfl
  · rfl

theorem given_map_eq {r : Reader α} (hr : Settled r) (f : α → β) :
    given r start (fun a => some (.complete (f a) start)) = some (((f <$> r) (buf.drop start)).shift start) := by
  rcases hr with ⟨a, rfl⟩ | ⟨fault, rfl⟩
  · rfl
  · rfl

/-- Without its last octet a bulk is incomplete. -/
theorem bulk_short {buf : Bytes} {n : Nat} (h : buf.length < n + 2) :
    (do let data ← exactly n; terminator; return Value.bulk data : Reader Value) buf = .incomplete := by
  by_cases hdata : (buf.take n).length = n
  · have hexactly : exactly n buf = .complete (buf.take n) n := if_pos hdata
    have hend : (buf.drop n).length < 2 := by
      rw [List.length_drop]
      omega
    rw [bind_of_complete _ hexactly]
    match hrest : buf.drop n with
    | [] => rfl
    | [_] => rfl
    | _ :: _ :: _ =>
      rw [hrest, List.length_cons, List.length_cons] at hend
      omega
  · have hexactly : exactly n buf = .incomplete := if_neg hdata
    rw [bind_apply, hexactly]

/-- Two octets behind its content decide on a bulk. -/
theorem bulk_long (data : Bytes) (a b : UInt8) (rest : Bytes) :
    (do let data ← exactly data.length; terminator; return Value.bulk data : Reader Value)
        (data ++ a :: b :: rest) =
      if [a, b] ≠ crlf then .malformed .missingTerminator data.length
      else .complete (.bulk data) (data.length + 2) := by
  rw [bind_of_complete _ (reads_exactly data (a :: b :: rest)), List.drop_left]
  by_cases hend : [a, b] = crlf
  · obtain ⟨rfl, rfl⟩ : a = cr ∧ b = lf := by simpa [crlf] using hend
    rfl
  · have hne : ¬ (a = cr ∧ b = lf) := by simpa [crlf] using hend
    have hterminator : terminator (a :: b :: rest) = .malformed .missingTerminator 0 := if_neg hne
    rw [if_pos hend, bind_apply, hterminator]
    rfl

/-- A bulk is in the buffer with its end, or it is incomplete. -/
theorem content_eq (buf : Bytes) (start n : Nat) : content buf start n =
    some (((do
      let data ← exactly n
      terminator
      return Value.bulk data : Reader Value) (buf.drop start)).shift start) := by
  by_cases hshort : buf.length < start + n + 2
  · have hrest : (buf.drop start).length < n + 2 := by
      rw [List.length_drop]
      omega
    rw [content, if_pos hshort, bulk_short hrest]
    rfl
  · have hends : (buf.drop (start + n)).length = buf.length - (start + n) := List.length_drop
    match hbehind : buf.drop (start + n) with
    | [] | [_] =>
      simp only [hbehind, List.length_cons, List.length_nil] at hends
      omega
    | a :: b :: rest =>
      have hdata : slice? buf start (start + n) = some ((buf.drop start).take n) := by
        rw [slice?_eq (by omega) (by omega), Nat.add_sub_cancel_left]
      have hlength : ((buf.drop start).take n).length = n := by
        rw [List.length_take, List.length_drop]
        omega
      have hending : slice? buf (start + n) (start + n + 2) = some [a, b] := by
        rw [slice?_eq (by omega) (by omega), Nat.add_sub_cancel_left, hbehind]
        rfl
      have hparts : buf.drop start = (buf.drop start).take n ++ a :: b :: rest := by
        rw [← hbehind, ← List.drop_drop, List.take_append_drop]
      have hlong := bulk_long ((buf.drop start).take n) a b rest
      rw [hlength, ← hparts] at hlong
      rw [content, if_neg hshort, hending, hdata, hlong]
      by_cases hend : [a, b] = crlf
      · rw [if_neg (not_not_intro hend)]
        simp [hend, Progress.shift, Nat.add_assoc]
      · rw [if_pos hend]
        simp [hend, Progress.shift]

/-- Where an element is read by places, so are many. -/
theorem elements_eq {item : Reader Value} {item' : Bytes → Option (Progress Value)} (hb : Bounded item)
    (hitem : ∀ rest, item' rest = some (item rest)) (buf : Bytes) : ∀ (k start : Nat),
    start ≤ buf.length → elements item' buf k start = some ((times item k (buf.drop start)).shift start)
  | 0, _, _ => rfl
  | k + 1, start, hstart => by
    have hfirst : (do let rest ← slice? buf start buf.length; item' rest) = some (item (buf.drop start)) := by
      rw [slice?_rest hstart]
      exact hitem _
    rw [elements, ← bind_assoc, hfirst, times, bind_apply]
    cases hv : item (buf.drop start) with
    | incomplete => rfl
    | malformed fault offset => rfl
    | complete v used =>
      have hused := hb _ _ _ hv
      rw [List.length_drop] at hused
      have hrest := elements_eq hb hitem buf k (start + used) (by omega)
      show (elements item' buf k (start + used)).map (Progress.map (v :: ·)) = _
      simp only [hrest, Option.map_some, List.drop_drop, map_eq, Progress.shift_shift, Progress.map_shift]

theorem body_eq {item : Reader Value} {item' : Bytes → Option (Progress Value)} (hb : Bounded item)
    (hitem : ∀ rest, item' rest = some (item rest)) (buf : Bytes) (mark : UInt8) (field : Bytes)
    (hstart : start ≤ buf.length) :
    body item' buf mark field start = some ((Reply.body item mark field (buf.drop start)).shift start) := by
  unfold body Reply.body
  by_cases hstatus : mark = statusMark
  · rw [if_pos hstatus, if_pos hstatus, given_map_eq (settled_text field)]
  rw [if_neg hstatus, if_neg hstatus]
  by_cases herror : mark = errorMark
  · rw [if_pos herror, if_pos herror, given_map_eq (settled_text field)]
  rw [if_neg herror, if_neg herror]
  by_cases hinteger : mark = integerMark
  · rw [if_pos hinteger, if_pos hinteger, given_map_eq (settled_integer field)]
  rw [if_neg hinteger, if_neg hinteger]
  by_cases hbulk : mark = bulkMark
  · rw [if_pos hbulk, if_pos hbulk]
    refine given_eq (settled_length? maxBulk field) fun n => ?_
    cases n with
    | none => rfl
    | some n => exact content_eq buf start n
  rw [if_neg hbulk, if_neg hbulk]
  by_cases harray : mark = arrayMark
  · rw [if_pos harray, if_pos harray]
    refine given_eq (settled_length? maxArray field) fun n => ?_
    cases n with
    | none => rfl
    | some n =>
      simp only [elements_eq hb hitem buf n start hstart, Option.map_some, map_eq, Progress.map_shift]
  · rw [if_neg harray, if_neg harray]
    rfl

/-- **Reading by places has the same verdict**, so no slice is ever missing. -/
theorem value_eq : ∀ (room : Nat) (buf : Bytes), value room buf = some (Reply.value room buf)
  | 0, [] => rfl
  | _ + 1, [] => rfl
  | 0, _ :: _ => rfl
  | room + 1, mark :: rest => by
    have htail : slice? (mark :: rest) 1 (mark :: rest).length = some rest :=
      slice?_rest (Nat.le_add_left 1 rest.length)
    have hoctet : octet (mark :: rest) = .complete mark 1 := rfl
    rw [Reply.value, bind_of_complete _ hoctet, List.drop_one, List.tail_cons, value, htail]
    cases hline : beforeCrlf? rest with
    | none =>
      have hincomplete : line rest = .incomplete := by rw [line, hline]
      rw [bind_apply, hincomplete]
      simp only [Option.bind_eq_bind, Option.bind_some, hline]
      rfl
    | some l =>
      have hcomplete : line rest = .complete l (l.length + 2) := by rw [line, hline]
      have hlength : (mark :: rest).length = rest.length + 1 := rfl
      have hused : l.length + 2 ≤ rest.length := bounded_line _ _ _ hcomplete
      have hfield : slice? (mark :: rest) 1 (1 + l.length) = some l := by
        obtain ⟨behind, hbehind⟩ := beforeCrlf?_eq_some hline
        rw [slice?_eq (by omega) (by omega), Nat.add_sub_cancel_left, List.drop_one, List.tail_cons, hbehind,
          List.take_left]
      have hstart : 1 + l.length + 2 ≤ (mark :: rest).length := by omega
      have hbody := body_eq (value_bounded room) (value_eq room) (mark :: rest) mark l hstart
      have hdrop : (mark :: rest).drop (1 + l.length + 2) = rest.drop (l.length + 2) := by
        rw [Nat.add_assoc, Nat.add_comm 1, List.drop_succ_cons]
      rw [bind_of_complete _ hcomplete, Progress.shift_shift, ← Nat.add_assoc, ← hdrop, ← hbody]
      simp only [Option.bind_eq_bind, Option.bind_some, hline, hfield]

end Sliced

/-! ### The theorem -/

/-- **A verdict on a reply is final, and is reached inside the buffer.** What is said about a reply, other than
that it is incomplete, stays when octets are added behind: the value and the octets it used, or the fault. A
complete reply uses at least one octet and no more than there are. At every level of arrays all slices that are
taken on the way lie inside the buffer, for reading by places, where each of them is checked, has the verdict. -/
theorem reply_resumable (buf ext : Bytes) :
    (read buf ≠ .incomplete → read (buf ++ ext) = read buf) ∧
    (∀ v n, read buf = .complete v n → 0 < n ∧ n ≤ buf.length) ∧
    Sliced.value (maxDepth + 1) buf = some (read buf) :=
  ⟨read_final buf ext, fun _ _ h => ⟨read_uses h, read_bounded _ _ _ h⟩, Sliced.value_eq (maxDepth + 1) buf⟩

/-- An array in an array, whole and without its last octet, and a fault in the inner array. -/
theorem reply_resumable_nested :
    let buf : Bytes := [42, 50, 13, 10, 42, 49, 13, 10, 58, 49, 13, 10, 36, 49, 13, 10, 97, 13, 10]
    let bad : Bytes := [42, 49, 13, 10, 42, 49, 13, 10, 63, 13, 10]
    (∀ ext, read (buf ++ ext) = .complete (.array [.array [.integer 1], .bulk [97]]) 19) ∧
    0 < 19 ∧ 19 ≤ buf.length ∧
    Sliced.value (maxDepth + 1) (buf.take 18) = some .incomplete ∧
    ∀ ext, read (bad ++ ext) = .malformed (.unknownMark 63) 11 := by
  intro buf bad
  have hread : read buf = .complete (.array [.array [.integer 1], .bulk [97]]) 19 := rfl
  have hcut : read (buf.take 18) = .incomplete := rfl
  have hbad : read bad = .malformed (.unknownMark 63) 11 := rfl
  obtain ⟨hpos, hle⟩ := (reply_resumable buf []).2.1 _ _ hread
  refine ⟨fun ext => ?_, hpos, hle, ?_, fun ext => ?_⟩
  · rw [(reply_resumable buf ext).1 (by rw [hread]; simp), hread]
  · rw [(reply_resumable (buf.take 18) []).2.2, hcut]
  · rw [(reply_resumable bad ext).1 (by rw [hbad]; simp), hbad]

end Reply
end Wire
end Keyspace

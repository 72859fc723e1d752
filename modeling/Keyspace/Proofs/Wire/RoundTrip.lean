/-
# Replies written and read

What is written for a value is read as the value again, but for the CR and LF in its status and error
texts, which come back as spaces. The domain of this is exact. Every bulk and every array has to keep
to its limit, and no part of the value may be enclosed by more arrays than the limit on nesting; if one
is, reading stops there. Every value that is read lies in the domain.

Key definitions: `Value.Encloses`, `Value.Fits`, `Value.spaced`.
Key theorems: `spelled_encode`, `refuses_deep`, `fits_of_spelled`, `read_encode`.
-/
import Keyspace.Proofs.Text.Utf8
import Keyspace.Proofs.Wire.Replies

namespace Keyspace
namespace Value

open Wire

/-! ### Parts of a value -/

/-- A part of a value and the number of arrays of the value that enclose it. The value is a part of
itself. -/
inductive Encloses : Value → Nat → Value → Prop where
  | self (v : Value) : Encloses v 0 v
  | item {items : List Value} {v w : Value} {d : Nat} : v ∈ items → Encloses v d w →
      Encloses (.array items) (d + 1) w

/-- The value keeps to its own limit, whatever its parts do. -/
def InLimit : Value → Prop
  | .bulk data => data.length ≤ maxBulk
  | .array items => items.length ≤ maxArray
  | _ => True

/-- All bulks and arrays of a value keep to their limits. -/
def Fits (v : Value) : Prop := ∀ d w, v.Encloses d w → w.InLimit

/-- Fewer than `room` arrays enclose any part. -/
def NestedBelow (v : Value) (room : Nat) : Prop := ∀ d w, v.Encloses d w → d < room

variable {v : Value} {items : List Value} {room : Nat}

theorem Fits.item (h : (array items).Fits) (hv : v ∈ items) : v.Fits :=
  fun d w hw => h (d + 1) w (.item hv hw)

theorem Fits.inLimit (h : v.Fits) : v.InLimit := h 0 v (.self v)

theorem fits_array (hle : items.length ≤ maxArray) (h : ∀ v ∈ items, v.Fits) : (array items).Fits := by
  intro d w hw
  cases hw with
  | self => exact hle
  | item hv hw => exact h _ hv _ w hw

theorem NestedBelow.item (h : (array items).NestedBelow (room + 1)) (hv : v ∈ items) : v.NestedBelow room :=
  fun d w hw => Nat.lt_of_succ_lt_succ (h (d + 1) w (.item hv hw))

theorem nestedBelow_array (h : ∀ v ∈ items, v.NestedBelow room) : (array items).NestedBelow (room + 1) := by
  intro d w hw
  cases hw with
  | self => exact Nat.succ_pos room
  | item hv hw => exact Nat.succ_lt_succ (h _ hv _ w hw)

/-- What is no array has no other parts. -/
theorem within_of_not_array (hv : ∀ items, v ≠ array items) (hlimit : v.InLimit) :
    v.Fits ∧ v.NestedBelow (room + 1) := by
  have hself : ∀ d w, v.Encloses d w → d = 0 ∧ w = v := by
    intro d w hw
    cases hw with
    | self => exact ⟨rfl, rfl⟩
    | item => exact absurd rfl (hv _)
  refine ⟨fun d w hw => ?_, fun d w hw => ?_⟩
  · rw [(hself d w hw).2]
    exact hlimit
  · rw [(hself d w hw).1]
    exact Nat.succ_pos room

/-! ### Texts on one line -/

/-- A text with spaces for CR and LF. -/
def spacedText (text : String) : String :=
  String.ofList (text.toList.map fun c => if c = '\r' ∨ c = '\n' then ' ' else c)

mutual
/-- A value with spaces for the CR and LF in its status and error texts. -/
def spaced : Value → Value
  | .status text => .status (spacedText text)
  | .error text => .error (spacedText text)
  | .integer n => .integer n
  | .bulk data => .bulk data
  | .null => .null
  | .array items => .array (spacedAll items)
@[inherit_doc spaced] def spacedAll : List Value → List Value
  | [] => []
  | v :: vs => v.spaced :: spacedAll vs
end

/-- No status and no error text of the value has a CR or LF in it. -/
def Unbroken (v : Value) : Prop :=
  ∀ d text, v.Encloses d (.status text) ∨ v.Encloses d (.error text) →
    '\r' ∉ text.toList ∧ '\n' ∉ text.toList

theorem length_spacedAll : ∀ items : List Value, (spacedAll items).length = items.length
  | [] => rfl
  | _ :: items => congrArg (· + 1) (length_spacedAll items)

theorem spacedText_eq_self {text : String} (h : '\r' ∉ text.toList ∧ '\n' ∉ text.toList) :
    spacedText text = text := by
  have hmap : text.toList.map (fun c => if c = '\r' ∨ c = '\n' then ' ' else c) = text.toList := by
    refine (List.map_congr_left fun c hc => ?_).trans (List.map_id _)
    rw [if_neg]
    · rfl
    · rintro (rfl | rfl)
      · exact h.1 hc
      · exact h.2 hc
  rw [spacedText, hmap, String.ofList_toList]

mutual
theorem spaced_eq_self : ∀ v : Value, v.Unbroken → v.spaced = v
  | .status text, h => by rw [spaced, spacedText_eq_self (h 0 text (.inl (.self _)))]
  | .error text, h => by rw [spaced, spacedText_eq_self (h 0 text (.inr (.self _)))]
  | .integer _, _ => rfl
  | .bulk _, _ => rfl
  | .null, _ => rfl
  | .array items, h => by
    rw [spaced, spacedAll_eq_self items fun v hv d text htext =>
      h (d + 1) text (htext.imp (.item hv) (.item hv))]
theorem spacedAll_eq_self : ∀ items : List Value, (∀ v ∈ items, v.Unbroken) → spacedAll items = items
  | [], _ => rfl
  | v :: items, h => by
    rw [spacedAll, spaced_eq_self v (h v List.mem_cons_self),
      spacedAll_eq_self items fun w hw => h w (List.mem_cons_of_mem v hw)]
end

theorem spaced_utf8EncodeChar (c : Char) :
    (String.utf8EncodeChar c).map (fun b => if b = cr ∨ b = lf then 32 else b) =
      String.utf8EncodeChar (if c = '\r' ∨ c = '\n' then ' ' else c) := by
  split
  · next h => rcases h with rfl | rfl <;> rfl
  · next h =>
    refine (List.map_congr_left fun b hb => ?_).trans (List.map_id _)
    rw [if_neg]
    · rfl
    · -- CR and LF are the octets of no other character
      have hchar : ∀ d : Char, d = '\r' ∨ d = '\n' → c.toNat ≠ d.toNat := fun d hd he =>
        h (Char.toNat_inj.mp he ▸ hd)
      have hr : c.toNat ≠ 13 := hchar '\r' (.inl rfl)
      have hn : c.toNat ≠ 10 := hchar '\n' (.inr rfl)
      rcases Utf8.toNat_of_mem_utf8EncodeChar hb with hb | hb
      · rintro (rfl | rfl)
        · exact hr hb.symm
        · exact hn hb.symm
      · rintro (rfl | rfl)
        · exact absurd hb (by decide)
        · exact absurd hb (by decide)

/-- Writing spaces for the octets CR and LF is writing the text with spaces for the characters. -/
theorem lineText_eq (text : String) : lineText text = Bytes.ofString (spacedText text) := by
  rw [lineText, Bytes.ofString, Bytes.ofString, spacedText, String.toList_ofList, List.map_flatMap,
    List.flatMap_map]
  exact congrArg (List.flatMap · text.toList) (funext spaced_utf8EncodeChar)

theorem crlf_not_infix_lineText (text : String) : ¬ crlf <:+: lineText text := fun h =>
  (not_mem_lineText text cr (h.subset List.mem_cons_self)).1 rfl

theorem decode_lineText (text : String) : Utf8.decode (lineText text) = .ok (spacedText text) := by
  rw [lineText_eq, Utf8.decode_ofString]

theorem encode_bulk (data : Bytes) :
    (bulk data).encode = bulkMark :: (Decimal.natural data.length ++ crlf ++ (data ++ crlf)) := by
  simp [encode]

theorem encode_array (items : List Value) :
    (array items).encode = arrayMark :: (Decimal.natural items.length ++ crlf ++ encodeAll items) := by
  simp [encode]

end Value

namespace Wire
namespace Reply

open Reader Decimal Value

/-! ### Within the limits -/

theorem sequence_encodeAll {p : Bytes → Value → Prop} : ∀ items : List Value,
    (∀ v ∈ items, p v.encode v.spaced) → Sequence p (encodeAll items) (spacedAll items)
  | [], _ => .nil
  | v :: items, h => .cons (h v List.mem_cons_self)
    (sequence_encodeAll items fun w hw => h w (List.mem_cons_of_mem v hw))

/-- What is written for a value within the limits is spelled, and means the value with spaces. -/
theorem spelled_encode : ∀ {room : Nat} {v : Value}, v.Fits → v.NestedBelow room →
    Spelled room v.encode v.spaced
  | 0, v, _, hroom => absurd (hroom 0 v (.self v)) (Nat.not_lt_zero 0)
  | room + 1, v, hfits, hroom => by
    cases v with
    | status text => exact .status (crlf_not_infix_lineText text) (decode_lineText text)
    | error text => exact .error (crlf_not_infix_lineText text) (decode_lineText text)
    | integer n => exact .integer (denotes_integer n.toInt)
    | bulk data =>
      rw [encode_bulk]
      exact .bulk (denotes_natural data.length) hfits.inLimit
    | null => exact .nullBulk (denotes_integer (-1))
    | array items =>
      have hitems : Sequence (Spelled room) (encodeAll items) (spacedAll items) :=
        sequence_encodeAll items fun v hv => spelled_encode (hfits.item hv) (hroom.item hv)
      have hle : items.length ≤ maxArray := hfits.inLimit
      rw [encode_array, ← length_spacedAll]
      exact .array (denotes_natural _) (by rwa [length_spacedAll]) hitems

/-! ### Beyond the limit on nesting -/

/-- Some part of the value is enclosed by `room` arrays or more. -/
def Deep (room : Nat) (v : Value) : Prop := ∃ d w, v.Encloses d w ∧ room ≤ d

theorem nestedBelow_of_not_deep {room : Nat} {v : Value} (h : ¬ Deep room v) : v.NestedBelow room :=
  fun d w hw => Nat.lt_of_not_le fun hle => h ⟨d, w, hw, hle⟩

theorem encode_ne_nil (v : Value) : v.encode ≠ [] := by
  cases v <;> simp [encode]

/-- The first element that is too deep stops the reading of an array; those before it are read. -/
theorem refuses_times {room : Nat} {fault : Fault}
    (hdeep : ∀ v : Value, v.Fits → Deep room v → Refuses (value room) v.encode fault) :
    ∀ items : List Value, (∀ v ∈ items, v.Fits) → (∃ v ∈ items, Deep room v) →
      Refuses (times (value room) items.length) (encodeAll items) fault
  | [], _, h => absurd h (by simp)
  | v :: items, hfits, h => by
    have hv := hfits v List.mem_cons_self
    by_cases hd : Deep room v
    · exact (hdeep v hv hd).left _
    · obtain ⟨w, hw, hwd⟩ := h
      have hrest : ∃ w ∈ items, Deep room w := by
        rcases List.mem_cons.mp hw with rfl | hw
        · exact absurd hwd hd
        · exact ⟨w, hw, hwd⟩
      refine Refuses.right (reads_spelled (spelled_encode hv (nestedBelow_of_not_deep hd))) (Refuses.map _ ?_)
      exact refuses_times hdeep items (fun w hw => hfits w (List.mem_cons_of_mem v hw)) hrest

theorem refuses_deep : ∀ {room : Nat} {v : Value}, v.Fits → Deep room v →
    Refuses (value room) v.encode (.tooDeep maxDepth)
  | 0, v, _, _ => by
    intro rest
    cases h : v.encode with
    | nil => exact absurd h (encode_ne_nil v)
    | cons b bs => exact ⟨0, rfl⟩
  | room + 1, v, hfits, ⟨d, w, hw, hle⟩ => by
    cases hw with
    | self => exact absurd hle (Nat.not_succ_le_zero room)
    | @item items x _ d hx hw =>
      have hcount := denotes_natural items.length
      rw [encode_array]
      refine Refuses.right (reads_octet arrayMark) (Refuses.right (reads_line (crlf_not_infix_numeral hcount)) ?_)
      refine Refuses.right (reads_length hcount hfits.inLimit (by decide)) (Refuses.map _ ?_)
      exact refuses_times (fun y hy hyd => refuses_deep hy hyd) items (fun y hy => hfits.item hy)
        ⟨x, hx, d, w, hw, Nat.le_of_succ_le_succ hle⟩

/-! ### What is read -/

/-- Whatever octets spell it, the value keeps to the limits. -/
theorem fits_of_spelled : ∀ {room : Nat} {octets : Bytes} {v : Value}, Spelled room octets v →
    v.Fits ∧ v.NestedBelow room
  | 0, _, _, h => h.elim
  | room + 1, _, v, h => by
    cases h with
    | status => exact within_of_not_array nofun trivial
    | error => exact within_of_not_array nofun trivial
    | integer => exact within_of_not_array nofun trivial
    | bulk _ hle => exact within_of_not_array nofun hle
    | nullBulk => exact within_of_not_array nofun trivial
    | nullArray => exact within_of_not_array nofun trivial
    | @array _ _ items _ hle hitems =>
      have hparts : ∀ v ∈ items, v.Fits ∧ v.NestedBelow room := fun v hv => by
        obtain ⟨xs, hxs⟩ := hitems.exists_octets v hv
        exact fits_of_spelled hxs
      exact ⟨fits_array hle fun v hv => (hparts v hv).1, nestedBelow_array fun v hv => (hparts v hv).2⟩

/-- **Replies come back, on an exact domain.** Within the limits, what is written for a value is read
as the value with spaces for the CR and LF in its texts, whatever follows, and nothing else changes.
If some part is enclosed by too many arrays, reading ends there. All that is read lies within the
limits, so it can be written and read again. -/
theorem read_encode (v : Value) (rest : Bytes) :
    (v.Fits → (∀ d w, v.Encloses d w → d ≤ maxDepth) →
      read (v.encode ++ rest) = .complete v.spaced v.encode.length) ∧
    (v.Fits → (∃ d w, v.Encloses d w ∧ maxDepth < d) →
      ∃ n, read (v.encode ++ rest) = .malformed (.tooDeep maxDepth) n) ∧
    (v.Unbroken → v.spaced = v) ∧
    ∀ buf n, read buf = .complete v n →
      v.Fits ∧ (∀ d w, v.Encloses d w → d ≤ maxDepth) ∧
      read (v.encode ++ rest) = .complete v.spaced v.encode.length := by
  have hread : v.Fits → (∀ d w, v.Encloses d w → d ≤ maxDepth) →
      read (v.encode ++ rest) = .complete v.spaced v.encode.length := fun hfits hdepth =>
    reads_spelled (spelled_encode hfits fun d w hw => Nat.lt_succ_of_le (hdepth d w hw)) rest
  refine ⟨hread, fun hfits hdeep => refuses_deep hfits hdeep rest, spaced_eq_self v, fun buf n h => ?_⟩
  obtain ⟨hfits, hbelow⟩ := fits_of_spelled (yields_spelled _ buf v n h)
  have hdepth : ∀ d w, v.Encloses d w → d ≤ maxDepth := fun d w hw => Nat.le_of_lt_succ (hbelow d w hw)
  exact ⟨hfits, hdepth, hread hfits hdepth⟩

/-- Arrays of one element each around the null value. -/
def tower : Nat → Value
  | 0 => .null
  | d + 1 => .array [tower d]

theorem fits_tower : ∀ d : Nat, (tower d).Fits ∧ (tower d).NestedBelow (d + 1)
  | 0 => within_of_not_array nofun trivial
  | d + 1 => by
    have hitem : ∀ v ∈ [tower d], v.Fits ∧ v.NestedBelow (d + 1) := fun v hv =>
      List.mem_singleton.mp hv ▸ fits_tower d
    exact ⟨fits_array (show 1 ≤ maxArray by decide) fun v hv => (hitem v hv).1,
      nestedBelow_array fun v hv => (hitem v hv).2⟩

theorem encloses_tower : ∀ d : Nat, (tower d).Encloses d .null
  | 0 => .self _
  | d + 1 => .item List.mem_cons_self (encloses_tower d)

/-- The deepest value that is read, next to a text of two lines, and one array more. -/
theorem read_encode_tower :
    let v := Value.array [.error "ERR bad\r\nthing", tower 31]
    (v.Fits ∧ v.NestedBelow (maxDepth + 1) ∧ read v.encode = .complete v.spaced v.encode.length) ∧
    (tower 33).Fits ∧ (∃ d w, (tower 33).Encloses d w ∧ maxDepth < d) ∧
      ∃ n, read (tower 33).encode = .malformed (.tooDeep maxDepth) n := by
  intro v
  have hitem : ∀ w ∈ [.error "ERR bad\r\nthing", tower 31], w.Fits ∧ w.NestedBelow 32 := by
    intro w hw
    rcases List.mem_cons.mp hw with rfl | hw
    · exact within_of_not_array nofun trivial
    · exact List.mem_singleton.mp hw ▸ fits_tower 31
  have hfits : v.Fits := fits_array (show 2 ≤ maxArray by decide) fun w hw => (hitem w hw).1
  have hbelow : v.NestedBelow (maxDepth + 1) := nestedBelow_array fun w hw => (hitem w hw).2
  have hdeep : ∃ d w, (tower 33).Encloses d w ∧ maxDepth < d := ⟨33, .null, encloses_tower 33, by decide⟩
  have hread := (read_encode v []).1 hfits fun d w hw => Nat.le_of_lt_succ (hbelow d w hw)
  have hrefused := (read_encode (tower 33) []).2.1 (fits_tower 33).1 hdeep
  rw [List.append_nil] at hread hrefused
  exact ⟨⟨hfits, hbelow, hread⟩, (fits_tower 33).1, hdeep, hrefused⟩

end Reply
end Wire
end Keyspace

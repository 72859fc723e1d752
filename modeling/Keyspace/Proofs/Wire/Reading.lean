/-
# What readers accept

A reader is known by what it completes, and that has two sides:

* `Reads r xs a`: from the octets `xs` the reader completes `a`. It uses all of them and looks no
  further, so this holds whatever follows.
* `Yields r p`: whatever the reader completes stands in the relation `p` to the octets that it used.

Sequencing keeps both, so a reader put together from others is understood item by item. `Sequence p`
repeats a relation between octets and values as `times` repeats a reader.

Two more things are kept in the same way: that a fault is noticed inside the buffer (`Within`), and
that certain octets are refused for a certain fault whatever follows (`Refuses`).
-/
import Keyspace.Proofs.Text.Numeral
import Keyspace.Wire.Reader

namespace Keyspace
namespace Wire

@[simp] theorem Progress.shift_zero {α : Type} (v : Progress α) : v.shift 0 = v := by
  cases v <;> simp [Progress.shift]

namespace Reader
variable {α β : Type}

/-! ### Octets that are read -/

/-- From these octets the value is complete, whatever follows. -/
def Reads (r : Reader α) (octets : Bytes) (a : α) : Prop :=
  ∀ rest, r (octets ++ rest) = .complete a octets.length

/-- Octets that are made of parts, each in the relation to one of the values. -/
inductive Sequence (p : Bytes → α → Prop) : Bytes → List α → Prop where
  | nil : Sequence p [] []
  | cons {xs ys : Bytes} {a : α} {as : List α} :
      p xs a → Sequence p ys as → Sequence p (xs ++ ys) (a :: as)

theorem Sequence.imp {p q : Bytes → α → Prop} (hpq : ∀ xs a, p xs a → q xs a) {xs : Bytes} {as : List α}
    (h : Sequence p xs as) : Sequence q xs as := by
  induction h with
  | nil => exact .nil
  | cons hp _ ih => exact .cons (hpq _ _ hp) ih

theorem Sequence.exists_octets {p : Bytes → α → Prop} {octets : Bytes} {as : List α}
    (h : Sequence p octets as) : ∀ a ∈ as, ∃ xs, p xs a := by
  induction h with
  | nil => simp
  | cons hp _ ih =>
    intro a ha
    rcases List.mem_cons.mp ha with rfl | ha
    · exact ⟨_, hp⟩
    · exact ih a ha

theorem bind_of_complete {r : Reader α} (next : α → Reader β) {buf : Bytes} {a : α} {n : Nat}
    (h : r buf = .complete a n) : (r >>= next) buf = (next a (buf.drop n)).shift n := by
  rw [bind_apply, h]

theorem Reads.pure (a : α) : Reads (pure a) [] a := fun _ => rfl

theorem Reads.bind {r : Reader α} {next : α → Reader β} {xs ys : Bytes} {a : α} {b : β}
    (hr : Reads r xs a) (hn : Reads (next a) ys b) : Reads (r >>= next) (xs ++ ys) b := by
  intro rest
  rw [List.append_assoc, bind_of_complete next (hr (ys ++ rest)), List.drop_left, hn rest, Progress.shift,
    List.length_append]

theorem Reads.bind_nil {r : Reader α} {next : α → Reader β} {xs : Bytes} {a : α} {b : β}
    (hr : Reads r xs a) (hn : Reads (next a) [] b) : Reads (r >>= next) xs b := by
  have h := hr.bind hn
  rwa [List.append_nil] at h

theorem Reads.map {r : Reader α} {xs : Bytes} {a : α} (f : α → β) (hr : Reads r xs a) :
    Reads (f <$> r) xs (f a) := by
  intro rest
  rw [map_apply, hr rest]

theorem Reads.times {r : Reader α} {xs : Bytes} {as : List α} (h : Sequence (Reads r) xs as) :
    Reads (times r as.length) xs as := by
  induction h with
  | nil => exact Reads.pure []
  | cons hr _ ih => exact hr.bind (ih.map _)

theorem reads_octet (b : UInt8) : Reads octet [b] b := fun _ => rfl

/-- What begins with a certain octet: it is looked at before it is taken, and any other is a fault. -/
abbrev opening (m : UInt8) (fault : UInt8 → Fault) (next : Reader α) : Reader α := do
  let mark ← peek
  if mark ≠ m then fail (fault mark) else do
  let _ ← octet
  next

theorem opening_cons {m : UInt8} {fault : UInt8 → Fault} {next : Reader α} (buf : Bytes) :
    opening m fault next (m :: buf) = (next buf).shift 1 := by
  have h : (do let _ ← octet; next) (m :: buf) = (next buf).shift 1 := bind_of_complete _ rfl
  rw [opening, bind_of_complete _ (show peek (m :: buf) = .complete m 0 from rfl), List.drop_zero,
    if_neg (fun hne => hne rfl), h, Progress.shift_zero]

theorem opening_cons_ne {m b : UInt8} (hb : b ≠ m) {fault : UInt8 → Fault} {next : Reader α} (buf : Bytes) :
    opening m fault next (b :: buf) = .malformed (fault b) 0 := by
  rw [opening, bind_of_complete _ (show peek (b :: buf) = .complete b 0 from rfl), if_pos hb]
  rfl

theorem Reads.opening {m : UInt8} {fault : UInt8 → Fault} {next : Reader α} {xs : Bytes} {a : α}
    (h : Reads next xs a) : Reads (opening m fault next) (m :: xs) a := by
  intro rest
  rw [List.cons_append, opening_cons, h rest, Progress.shift, List.length_cons, Nat.add_comm]

/-- The first CR LF ends the line, if none stands in it. -/
theorem beforeCrlf?_line {l : Bytes} (h : ¬ crlf <:+: l) (rest : Bytes) :
    beforeCrlf? (l ++ crlf ++ rest) = some l := by
  induction l with
  | nil => rfl
  | cons b l ih =>
    have hl : beforeCrlf? (l ++ crlf ++ rest) = some l := ih fun h' => h (List.infix_cons h')
    cases l with
    | nil =>
      have hb : ¬ (b = cr ∧ cr = lf) := fun h' => absurd h'.2 (by decide)
      simp only [List.cons_append, List.nil_append, crlf, beforeCrlf?, hb, if_false] at hl ⊢
      rw [hl]
      rfl
    | cons c l =>
      have hb : ¬ (b = cr ∧ c = lf) := by
        rintro ⟨rfl, rfl⟩
        exact h (List.prefix_append crlf l).isInfix
      simp only [List.cons_append, beforeCrlf?, hb, if_false] at hl ⊢
      rw [hl]
      rfl

theorem reads_line {l : Bytes} (h : ¬ crlf <:+: l) : Reads line (l ++ crlf) l := by
  intro rest
  simp only [line, beforeCrlf?_line h rest, List.length_append]
  rfl

/-- No line ends inside a numeral. -/
theorem crlf_not_infix_numeral {l : Bytes} {n : Int} (h : Decimal.Denotes l n) : ¬ crlf <:+: l := by
  intro hinfix
  have hcr : cr ∈ l := hinfix.subset List.mem_cons_self
  rcases h.octets cr hcr with h | h
  · exact absurd h (by decide)
  · exact absurd h (by decide)

theorem reads_exactly (data : Bytes) : Reads (exactly data.length) data data := by
  intro rest
  simp only [exactly, List.take_left, if_true]

theorem reads_terminator : Reads terminator crlf () := fun _ => rfl

/-- The octets of a bulk and its terminator. -/
theorem reads_content (data : Bytes) (f : Bytes → α) :
    Reads (do
      let data ← exactly data.length
      terminator
      return f data) (data ++ crlf) (f data) := by
  have hend : Reads (do terminator; return f data) crlf (f data) :=
    reads_terminator.bind_nil (Reads.pure (f data))
  exact (reads_exactly data).bind hend

/-! ### Values that come out -/

/-- A complete value stands in the relation to the octets it used. -/
def Yields (r : Reader α) (p : Bytes → α → Prop) : Prop :=
  ∀ buf a n, r buf = .complete a n → p (buf.take n) a

variable {p : Bytes → α → Prop} {q : Bytes → β → Prop}

theorem Yields.imp {p' : Bytes → α → Prop} {r : Reader α} (hr : Yields r p)
    (h : ∀ xs a, p xs a → p' xs a) : Yields r p' :=
  fun buf a n hc => h _ _ (hr buf a n hc)

theorem Yields.pure {a : α} (h : p [] a) : Yields (pure a) p := by
  intro buf b n hc
  cases hc
  exact h

theorem Yields.fail (fault : Fault) : Yields (fail fault : Reader α) p := by
  intro buf a n hc
  cases hc

/-- Behind a value with its octets, what follows is judged together with them. -/
theorem Yields.bind {r : Reader α} {next : α → Reader β} (hr : Yields r p)
    (hn : ∀ xs a, p xs a → Yields (next a) fun ys b => q (xs ++ ys) b) : Yields (r >>= next) q := by
  intro buf b n hc
  obtain ⟨a, m, k, ha, hb, rfl⟩ := bind_complete hc
  rw [List.take_add]
  exact hn _ a (hr _ _ _ ha) _ _ _ hb

theorem Yields.map {r : Reader α} (f : α → β) (hr : Yields r fun xs a => q xs (f a)) :
    Yields (f <$> r) q := by
  intro buf b n hc
  rw [map_apply] at hc
  split at hc
  · cases hc
  · cases hc
  · next a m hm =>
    cases hc
    exact hr _ _ _ hm

theorem Yields.ite {c : Prop} [Decidable c] {r s : Reader α} (hr : c → Yields r p)
    (hs : ¬ c → Yields s p) : Yields (if c then r else s) p := by
  split
  · next h => exact hr h
  · next h => exact hs h

theorem Yields.times {r : Reader α} (hr : Yields r p) (k : Nat) :
    Yields (times r k) fun xs as => as.length = k ∧ Sequence p xs as := by
  induction k with
  | zero => exact Yields.pure ⟨rfl, .nil⟩
  | succ k ih =>
    refine hr.bind fun xs a ha => Yields.map _ (ih.imp fun ys as has => ?_)
    exact ⟨congrArg (· + 1) has.1, .cons ha has.2⟩

theorem yields_octet : Yields octet fun xs b => xs = [b] := by
  intro buf b n hc
  cases buf with
  | nil => cases hc
  | cons c cs => cases hc; rfl

theorem Yields.opening {m : UInt8} {fault : UInt8 → Fault} {next : Reader α}
    (h : Yields next fun xs a => p (m :: xs) a) : Yields (opening m fault next) p := by
  intro buf a n hc
  cases buf with
  | nil => cases hc
  | cons b bs =>
    by_cases hb : b = m
    · subst hb
      rw [opening_cons] at hc
      cases hv : next bs with
      | incomplete => simp [hv, Progress.shift] at hc
      | malformed => simp [hv, Progress.shift] at hc
      | complete a' k =>
        simp only [hv, Progress.shift, Progress.complete.injEq] at hc
        obtain ⟨rfl, rfl⟩ := hc
        rw [Nat.add_comm, List.take_succ_cons]
        exact h _ _ _ hv
    · rw [opening_cons_ne hb] at hc
      cases hc

theorem not_infix_of_beforeCrlf? {buf l : Bytes} (h : beforeCrlf? buf = some l) : ¬ crlf <:+: l := by
  fun_induction beforeCrlf? buf generalizing l with
  | case1 a b bs hab =>
    cases h
    decide
  | case2 a b bs hab ih =>
    obtain ⟨l', hl', rfl⟩ := Option.map_eq_some_iff.1 h
    obtain ⟨rest, hrest⟩ := beforeCrlf?_eq_some hl'
    intro hinfix
    rcases List.infix_cons_iff.mp hinfix with hprefix | hinfix
    · -- the CR LF would begin with `a`, and its LF is then the octet behind `a`
      obtain ⟨t, ht⟩ := hprefix
      obtain ⟨rfl, rfl⟩ : cr = a ∧ lf :: t = l' := by simpa [crlf] using ht
      exact hab ⟨rfl, by simpa using congrArg List.head? hrest⟩
    · exact ih hl' hinfix
  | case3 => cases h

theorem yields_line : Yields line fun xs l => xs = l ++ crlf ∧ ¬ crlf <:+: l := by
  intro buf l n hc
  unfold line at hc
  split at hc
  · next l' hl =>
    cases hc
    obtain ⟨rest, hrest⟩ := beforeCrlf?_eq_some hl
    refine ⟨?_, not_infix_of_beforeCrlf? hl⟩
    have : l.length + 2 = (l ++ crlf).length := by simp [crlf]
    rw [hrest, this, show l ++ cr :: lf :: rest = l ++ crlf ++ rest by simp [crlf], List.take_left]
  · cases hc

theorem yields_exactly (k : Nat) : Yields (exactly k) fun xs data => xs = data ∧ data.length = k := by
  intro buf data n hc
  simp only [exactly] at hc
  split at hc
  · next hk =>
    cases hc
    exact ⟨rfl, hk⟩
  · cases hc

theorem yields_terminator : Yields terminator fun xs _ => xs = crlf := by
  intro buf u n hc
  unfold terminator at hc
  split at hc
  · split at hc
    · next h =>
      cases hc
      rw [h.1, h.2]
      rfl
    · cases hc
  · cases hc

theorem yields_content (k : Nat) (f : Bytes → α) :
    Yields (do
      let data ← exactly k
      terminator
      return f data) fun xs a => ∃ data : Bytes, xs = data ++ crlf ∧ data.length = k ∧ a = f data := by
  refine (yields_exactly k).bind fun xs data hdata => ?_
  refine yields_terminator.bind fun ys _ hys => ?_
  exact Yields.pure ⟨data, by rw [hdata.1, hys, List.append_nil], hdata.2, rfl⟩

/-! ### Faults inside the buffer -/

/-- Faults are noticed no later than at the end of the buffer. -/
def Within (r : Reader α) : Prop := ∀ buf fault n, r buf = .malformed fault n → n ≤ buf.length

theorem Within.pure (a : α) : Within (pure a : Reader α) := by
  intro buf fault n h
  cases h

theorem Within.fail (fault : Fault) : Within (fail fault : Reader α) := by
  intro buf fault' n h
  cases h
  exact Nat.zero_le _

theorem Within.ite {c : Prop} [Decidable c] {r s : Reader α} (hr : Within r) (hs : Within s) :
    Within (if c then r else s) := by
  split <;> assumption

theorem Within.bind {r : Reader α} {next : α → Reader β} (hr : Within r) (hb : Bounded r)
    (hn : ∀ a, Within (next a)) : Within (r >>= next) := by
  intro buf fault n h
  rw [bind_apply] at h
  split at h
  · cases h
  · next hm =>
    cases h
    exact hr _ _ _ hm
  · next a m hm =>
    have hle := hb _ _ _ hm
    cases hv : next a (buf.drop m) with
    | incomplete => simp [hv, Progress.shift] at h
    | complete => simp [hv, Progress.shift] at h
    | malformed fault' k =>
      have hk := hn a _ _ _ hv
      simp only [hv, Progress.shift, Progress.malformed.injEq] at h
      rw [List.length_drop] at hk
      omega

theorem Within.map {r : Reader α} (f : α → β) (hr : Within r) : Within (f <$> r) := by
  intro buf fault n h
  rw [map_apply] at h
  split at h
  · cases h
  · next hm =>
    cases h
    exact hr _ _ _ hm
  · cases h

theorem Within.times {r : Reader α} (hr : Within r) (hb : Bounded r) (k : Nat) : Within (times r k) := by
  induction k with
  | zero => exact Within.pure []
  | succ k ih => exact hr.bind hb fun a => ih.map (a :: ·)

theorem within_peek : Within peek := by
  intro buf fault n h
  cases buf <;> cases h

theorem within_octet : Within octet := by
  intro buf fault n h
  cases buf <;> cases h

theorem within_line : Within line := by
  intro buf fault n h
  unfold line at h
  split at h <;> cases h

theorem within_exactly (k : Nat) : Within (exactly k) := by
  intro buf fault n h
  simp only [exactly] at h
  split at h <;> cases h

theorem within_terminator : Within terminator := by
  intro buf fault n h
  unfold terminator at h
  split at h
  · split at h
    · cases h
    · cases h
      exact Nat.zero_le _
  · cases h

/-! ### Octets that are refused -/

/-- These octets are malformed in the given way, whatever follows. -/
def Refuses (r : Reader α) (octets : Bytes) (fault : Fault) : Prop :=
  ∀ rest, ∃ n, r (octets ++ rest) = .malformed fault n

theorem Refuses.left {r : Reader α} {next : α → Reader β} {xs : Bytes} {fault : Fault}
    (h : Refuses r xs fault) (ys : Bytes) : Refuses (r >>= next) (xs ++ ys) fault := by
  intro rest
  obtain ⟨n, hn⟩ := h (ys ++ rest)
  exact ⟨n, by rw [List.append_assoc, bind_apply, hn]⟩

theorem Refuses.right {r : Reader α} {next : α → Reader β} {xs ys : Bytes} {a : α} {fault : Fault}
    (hr : Reads r xs a) (h : Refuses (next a) ys fault) : Refuses (r >>= next) (xs ++ ys) fault := by
  intro rest
  obtain ⟨n, hn⟩ := h rest
  refine ⟨xs.length + n, ?_⟩
  rw [List.append_assoc, bind_of_complete next (hr (ys ++ rest)), List.drop_left, hn, Progress.shift]

theorem Refuses.map {r : Reader α} {xs : Bytes} {fault : Fault} (f : α → β) (h : Refuses r xs fault) :
    Refuses (f <$> r) xs fault := by
  intro rest
  obtain ⟨n, hn⟩ := h rest
  exact ⟨n, by rw [map_apply, hn]⟩

end Reader
end Wire
end Keyspace

/-
# A command that fails changes nothing

Most errors come before a request reaches the keys: then it performs no operation. The one that comes
later is that a key holds the other kind of value, after the key has been evicted if it had expired. But an
evicted key holds nothing, so no operation is refused over it: a refusal finds a key that was live, and
leaves its shard as it was (`Shard.run_of_refused`). As a call fails over its first operation or not at
all, it changes nothing when it fails.

The exception is getting several keys. Keys before the one that holds a hash may have been evicted by then;
nothing else is lost (`Store.Loses`).

Key definitions: `Call.refuses`, `Store.kindAt?`, `Store.Loses`.
Key theorems: `Shard.run_of_refused`, `Store.getMany_refused_iff`, `refused_changes_nothing`.
-/
import Keyspace.Proofs.Store.Sharding

namespace Keyspace

open Shard (Operation Result)

/-- The reply tells of a failure. -/
def Value.isError : Value → Bool
  | .error _ => true
  | _ => false

/-- The commands that look for a hash under a key. -/
def Command.isHash : Command → Bool
  | .hashSet | .hashGet | .hashDelete | .hashHas | .hashSize | .hashPairs | .hashGetMany => true
  | _ => false

/-! ### An operation that is refused -/

namespace Shard
variable {s : Shard} {key : Bytes} {now : Instant}

/-- A key that has been evicted holds nothing of another kind. -/
theorem expect_live_of_expired (h : s.deadlines.isExpired key now = true) (kind : Kind) :
    (s.live key now).expect key kind = .ok () := by
  rw [live_of_expired h, expect, kind?]
  simp

/-- A key over which an operation is refused has not been evicted. -/
theorem live_of_refused {kind : Kind} {e : WrongKind} (h : (s.live key now).expect key kind = .error e) :
    s.live key now = s := by
  refine live_of_live fun he => ?_
  rw [expect_live_of_expired he] at h
  cases h

theorem get_of_error {e : WrongKind} (h : (s.get key now).1 = .error e) : (s.get key now).2 = s := by
  cases hexpect : (s.live key now).expect key .string with
  | error e => exact live_of_refused hexpect
  | ok _ => simp [Shard.get, hexpect, Except.map] at h

theorem readHash_of_error {α : Type} {f : Dict Bytes → α} {e : WrongKind}
    (h : (s.readHash key now f).1 = .error e) : (s.readHash key now f).2 = s := by
  cases hexpect : (s.live key now).expect key .hash with
  | error e => exact live_of_refused hexpect
  | ok _ => simp [readHash, hexpect, Except.map] at h

theorem hashSet_of_error {pairs : List (Bytes × Bytes)} {e : WrongKind}
    (h : (s.hashSet key pairs now).1 = .error e) : (s.hashSet key pairs now).2 = s := by
  by_cases hk : key ∈ (s.live key now).strings
  · rw [hashSet_of_string hk]
    exact live_of_refused (expect_hash.trans (if_pos hk))
  · rw [hashSet_of_not_string hk] at h
    cases h

theorem hashDelete_of_error {fields : List Bytes} {e : WrongKind}
    (h : (s.hashDelete key fields now).1 = .error e) : (s.hashDelete key fields now).2 = s := by
  by_cases hk : key ∈ (s.live key now).strings
  · rw [hashDelete_of_string hk]
    exact live_of_refused (expect_hash.trans (if_pos hk))
  · cases hh : (s.live key now).hashes[key]? with
    | none =>
      rw [hashDelete_of_none hk hh] at h
      cases h
    | some hash =>
      rw [hashDelete_of_some hk hh] at h
      cases h

theorem snd_of_refused {α : Type} {g : α → Result} (hg : ∀ a, (g a).isRefused = false)
    (outcome : Except WrongKind α × Shard) (h : (Result.ofExcept g outcome.1).isRefused = true)
    (herror : ∀ e, outcome.1 = .error e → outcome.2 = s) : outcome.2 = s := by
  cases hfst : outcome.1 with
  | error e => exact herror e hfst
  | ok a =>
    rw [hfst, Result.ofExcept, hg] at h
    cases h

/-- **An operation that is refused leaves its shard as it was.** -/
theorem run_of_refused {op : Operation} (h : (op.run s).1.isRefused = true) : (op.run s).2 = s := by
  cases op with
  | get key now => exact snd_of_refused (fun _ => rfl) (s.get key now) h fun _ => get_of_error
  | hashSet key pairs now =>
    exact snd_of_refused (fun _ => rfl) (s.hashSet key pairs now) h fun _ => hashSet_of_error
  | hashDelete key fields now =>
    exact snd_of_refused (fun _ => rfl) (s.hashDelete key fields now) h fun _ => hashDelete_of_error
  | hashGet key field now =>
    exact snd_of_refused (fun _ => rfl) (s.hashGet key field now) h fun _ => readHash_of_error
  | hashGetMany key fields now =>
    exact snd_of_refused (fun _ => rfl) (s.hashGetMany key fields now) h fun _ => readHash_of_error
  | hashHas key field now =>
    exact snd_of_refused (fun _ => rfl) (s.hashHas key field now) h fun _ => readHash_of_error
  | hashSize key now =>
    exact snd_of_refused (fun _ => rfl) (s.hashSize key now) h fun _ => readHash_of_error
  | hashPairs key now =>
    exact snd_of_refused (fun _ => rfl) (s.hashPairs key now) h fun _ => readHash_of_error
  | _ => cases h

end Shard

namespace Store
variable {s t u : Store} {key : Bytes} {now : Instant}

theorem run_of_refused {op : Operation} (h : (s.run op).1.isRefused = true) : (s.run op).2 = s := by
  cases hop : op.key? with
  | none => rw [run_maintenance s hop]
  | some key =>
    rw [Store.run, hop] at h ⊢
    show s.putShard key (op.run (s.shardOf key)).2 = s
    rw [Shard.run_of_refused h, putShard_shardOf]

/-- Operations of which the first is refused leave the store as it was. -/
theorem perform_of_refused {ops : List Operation} {r : Result} (hr : (s.perform ops).1.head? = some r)
    (h : r.isRefused = true) : (s.perform ops).2 = s := by
  cases ops with
  | nil => rfl
  | cons op ops =>
    cases hrefused : (s.run op).1.isRefused with
    | true =>
      rw [perform_cons_of_refused ops hrefused]
      exact run_of_refused hrefused
    | false =>
      rw [perform_cons ops hrefused] at hr
      cases hr
      rw [hrefused] at h
      cases h

end Store

/-! ### A call that fails -/

theorem Shard.Result.reply_of_refused {r : Result} (h : r.isRefused = true) : r.reply = .error .wrongKind := by
  cases r with
  | refused e => rfl
  | _ => cases h

theorem Shard.Result.reply_of_not_refused {r : Result} (h : r.isRefused = false) :
    ∃ v, r.reply = .ok v ∧ v.isError = false := by
  cases r with
  | refused e => cases h
  | value v => exact ⟨_, rfl, by cases v <;> rfl⟩
  | _ => exact ⟨_, rfl, rfl⟩

theorem Shard.Result.replyAll_of_refused : ∀ {rs : List Result}, rs.any isRefused = true →
    replyAll rs = .error .wrongKind
  | [], h => by cases h
  | r :: rs, h => by
    cases hr : r.isRefused with
    | true => rw [replyAll, reply_of_refused hr]
    | false =>
      obtain ⟨v, hv, -⟩ := reply_of_not_refused hr
      rw [List.any_cons, hr, Bool.false_or] at h
      rw [replyAll, hv, replyAll_of_refused h]
      rfl

/-- The reply of an operation that makes the reply alone. -/
def Shard.Result.toValue (r : Result) : Value := Call.toValue r.reply

/-- What is refused nowhere is replied in full. -/
theorem Shard.Result.replyAll_eq_map : ∀ {rs : List Result}, rs.any isRefused = false →
    replyAll rs = .ok (rs.map toValue)
  | [], _ => rfl
  | r :: rs, h => by
    rw [List.any_cons, Bool.or_eq_false_iff] at h
    obtain ⟨v, hv, -⟩ := reply_of_not_refused h.1
    have hvalue : r.toValue = v := by rw [toValue, hv, Call.toValue]
    rw [replyAll, hv, replyAll_eq_map h.2, List.map_cons, hvalue]
    rfl

namespace Call

/-- Whether the call fails over the results of its operations. -/
def refuses : Call → List Result → Bool
  | ping _, _ | echo _, _ | delete _, _ | exist _, _ | setMany _, _ => false
  | getMany _, rs => rs.any Result.isRefused
  | _, rs => rs.head?.any Result.isRefused

theorem elim_reply_of_refused {rs : List Result} (h : rs.head?.any Result.isRefused = true) :
    rs.head?.elim (.ok .null) Result.reply = .error .wrongKind := by
  cases rs with
  | nil => cases h
  | cons r rs => exact Result.reply_of_refused h

theorem elim_reply_of_not_refused {rs : List Result} (h : rs.head?.any Result.isRefused = false) :
    ∃ v, rs.head?.elim (.ok .null) Result.reply = .ok v ∧ v.isError = false := by
  cases rs with
  | nil => exact ⟨.null, rfl, rfl⟩
  | cons r rs => exact Result.reply_of_not_refused h

theorem answer_of_refuses {call : Call} {rs : List Result} (h : call.refuses rs = true) :
    call.answer rs = .error .wrongKind := by
  cases call with
  | ping _ | echo _ | delete _ | exist _ | setMany _ => cases h
  | getMany keys =>
    rw [answer, Result.replyAll_of_refused h]
    rfl
  | _ => exact elim_reply_of_refused h

theorem answer_of_not_refuses {call : Call} {rs : List Result} (h : call.refuses rs = false) :
    ∃ v, call.answer rs = .ok v ∧ v.isError = false := by
  cases call with
  | ping message => cases message <;> exact ⟨_, rfl, rfl⟩
  | echo _ | delete _ | exist _ | setMany _ => exact ⟨_, rfl, rfl⟩
  | getMany keys =>
    exact ⟨.array (rs.map Result.toValue), by rw [answer, Result.replyAll_eq_map h]; rfl, rfl⟩
  | _ => exact elim_reply_of_not_refused h

theorem isError_answer (call : Call) (rs : List Result) :
    (toValue (call.answer rs)).isError = call.refuses rs := by
  cases h : call.refuses rs with
  | true =>
    rw [answer_of_refuses h]
    rfl
  | false =>
    obtain ⟨v, hv, herror⟩ := answer_of_not_refuses h
    rw [hv]
    exact herror

/-- The results of its operations make a call fail in one way only. -/
theorem answer_eq_wrongKind_iff (call : Call) (rs : List Result) :
    toValue (call.answer rs) = CommandError.wrongKind.toValue ↔ call.refuses rs = true := by
  constructor
  · intro h
    rw [← isError_answer, h]
    rfl
  · intro h
    rw [answer_of_refuses h]
    rfl

/-- Unless it gets several keys, a call fails over its first operation. -/
theorem head_refused {call : Call} {rs : List Result} (h : call.refuses rs = true)
    (hcall : call.command ≠ .getMany) : ∃ r, rs.head? = some r ∧ r.isRefused = true := by
  cases call with
  | ping _ | echo _ | delete _ | exist _ | setMany _ => cases h
  | getMany keys => exact absurd rfl hcall
  | _ => exact (Option.any_eq_true _ _).mp h

end Call

/-! ### What is lost over getting several keys -/

namespace Store
variable {s t u : Store} {key : Bytes} {keys more : List Bytes} {now : Instant}

/-- What a store holds turns into what another one holds, except that some of the keys whose deadline has
been reached are gone without a trace. -/
def Loses (s t : Store) (keys : List Bytes) (now : Instant) : Prop :=
  ∀ (i : Nat) (key : Bytes), t.held i key = s.held i key ∨
    (key ∈ keys ∧ (∃ string hash due, s.held i key = some (string, hash, some due) ∧ due ≤ now) ∧
      t.held i key = some (none, none, none))

theorem loses_refl (s : Store) (keys : List Bytes) (now : Instant) : s.Loses s keys now := fun _ _ => .inl rfl

theorem Loses.trans (h : s.Loses t keys now) (h' : t.Loses u more now) : s.Loses u (keys ++ more) now := by
  intro i key
  rcases h i key with hsame | ⟨hkey, hdue, hgone⟩
  · rcases h' i key with hsame' | ⟨hkey', hdue', hgone'⟩
    · exact .inl (hsame'.trans hsame)
    · exact .inr ⟨List.mem_append_right _ hkey', hsame ▸ hdue', hgone'⟩
  · refine .inr ⟨List.mem_append_left _ hkey, hdue, ?_⟩
    rcases h' i key with hsame' | ⟨-, -, hgone'⟩
    · exact hsame'.trans hgone
    · exact hgone'

/-- Getting a key loses it if it has expired, and nothing else. -/
theorem loses_get (s : Store) (key : Bytes) (now : Instant) : s.Loses (s.run (.get key now)).2 [key] now := by
  show s.Loses (s.putShard key ((s.shardOf key).live key now)) [key] now
  by_cases he : (s.shardOf key).deadlines.isExpired key now = true
  · rw [Shard.live_of_expired he]
    intro i k
    rw [held, held, shardAt?_putShard]
    by_cases hplace : (s.index key : Nat) = i
    · rw [if_pos hplace, ← hplace, shardAt?_index]
      by_cases hk : k = key
      · obtain ⟨due, hdue, hle⟩ := Deadlines.isExpired_iff.mp he
        subst hk
        exact .inr ⟨List.mem_singleton_self k, ⟨_, _, due, by rw [Option.map_some, hdue], hle⟩, by simp⟩
      · refine .inl ?_
        simp only [Option.map_some, Shard.strings_remove, Shard.hashes_remove, Shard.deadlines_remove,
          Dict.getElem?_erase_ne hk]
    · exact .inl (by rw [if_neg hplace])
  · rw [Shard.live_of_live he, putShard_shardOf]
    exact loses_refl s _ now

theorem loses_getMany (now : Instant) : ∀ (keys : List Bytes) (s : Store),
    s.Loses (s.perform (keys.map (.get · now))).2 keys now
  | [], s => loses_refl s [] now
  | key :: keys, s => by
    have hfirst := loses_get s key now
    rw [List.map_cons]
    cases hrefused : (s.run (.get key now)).1.isRefused with
    | true =>
      rw [perform_cons_of_refused _ hrefused]
      exact hfirst.trans (loses_refl _ keys now)
    | false =>
      rw [perform_cons _ hrefused]
      exact hfirst.trans (loses_getMany now keys _)

/-! ### When an operation is refused -/

/-- The kind of value that a key holds, if it has not expired. -/
def kindAt? (s : Store) (now : Instant) (key : Bytes) : Option Kind :=
  (Binding.live now (s.binding? key)).map fun b => b.value.kind

/-- A key holds a string, or it has fields, though maybe none. -/
theorem exists_fields (h : s.kindAt? now key ≠ some .string) :
    ∃ m, Binding.fields (Binding.live now (s.binding? key)) = .ok m := by
  unfold kindAt? at h
  rcases hb : Binding.live now (s.binding? key) with _ | ⟨_ | m, due⟩
  · exact ⟨∅, rfl⟩
  · simp [hb, Stored.kind] at h
  · exact ⟨m, rfl⟩

theorem Placed.get_refused_iff (h : s.Placed) (key : Bytes) (now : Instant) :
    (s.run (.get key now)).1.isRefused = true ↔ s.kindAt? now key = some .hash := by
  rw [h.run_timed rfl rfl, kindAt?]
  show (Result.ofExcept Result.value (Binding.string? (Binding.live now (s.binding? key)))).isRefused = true ↔ _
  rcases Binding.live now (s.binding? key) with _ | ⟨_ | _, _⟩ <;>
    simp [Binding.string?, Result.ofExcept, Result.isRefused, Stored.kind]

/-- Getting a key does not show in any kind. -/
theorem Placed.kindAt?_get (h : s.Placed) (k : Bytes) :
    (s.run (.get key now)).2.kindAt? now k = s.kindAt? now k := by
  obtain ⟨-, -, hchanges⟩ := h.run (.get key now) rfl
  by_cases hk : k = key
  · rw [kindAt?, hk, hchanges.self, kindAt?]
    exact congrArg (Option.map _) (Binding.live_live (Nat.le_refl now) _)
  · rw [kindAt?, hchanges.others k hk, kindAt?]

/-- Getting several keys fails if one of them holds a hash. -/
theorem getMany_refused_iff (now : Instant) : ∀ (keys : List Bytes) {s : Store}, s.Placed →
    ((s.perform (keys.map (.get · now))).1.any Result.isRefused = true ↔
      ∃ key ∈ keys, s.kindAt? now key = some .hash)
  | [], _, _ => by simp [perform]
  | key :: keys, s, h => by
    have hfirst := h.get_refused_iff key now
    rw [List.map_cons]
    cases hrefused : (s.run (.get key now)).1.isRefused with
    | true =>
      rw [perform_cons_of_refused _ hrefused]
      exact ⟨fun _ => ⟨key, List.mem_cons_self, hfirst.mp hrefused⟩, fun _ => by simp [hrefused]⟩
    | false =>
      have hrest := getMany_refused_iff now keys (h.run (.get key now) rfl).2.1
      simp only [h.kindAt?_get] at hrest
      rw [hrefused] at hfirst
      rw [perform_cons _ hrefused, List.any_cons, hrefused, Bool.false_or, hrest]
      simp [← hfirst]

end Store

namespace Call
variable {now : Instant} {key : Bytes}

/-- A call that looks for a hash performs one operation, which is refused over a string. -/
theorem hash_operation (now : Instant) {call : Call} {rest : List Bytes} (h : call.command.isHash = true)
    (hargs : call.arguments = key :: rest) : ∃ op : Operation, call.operations now = .ok [op] ∧
      op.key? = some key ∧ op.now? = some now ∧ (∀ rs, call.refuses rs = rs.head?.any Result.isRefused) ∧
      ∀ b : Option Binding, (op.onBinding b).1.isRefused = true ↔
        b.map (fun b => b.value.kind) = some .string := by
  cases call with
  | hashSet k _ | hashGet k _ | hashDelete k _ | hashHas k _ | hashSize k | hashPairs k | hashGetMany k _ =>
    obtain ⟨rfl, -⟩ := List.cons.inj hargs
    refine ⟨_, rfl, rfl, rfl, fun _ => rfl, ?_⟩
    rintro (_ | ⟨_ | _, _⟩) <;>
      simp [Operation.onBinding, Binding.fields, Except.map, Result.ofExcept, Result.isRefused, Stored.kind]
  | expire unit _ _ => cases unit <;> cases h
  | _ => cases h

/-- A call that looks for a hash fails over a string. -/
theorem hash_refuses_iff {call : Call} {s : Store} {rest : List Bytes} (h : s.Placed)
    (hhash : call.command.isHash = true) (hargs : call.arguments = key :: rest) :
    ∃ ops, call.operations now = .ok ops ∧
      (call.refuses (s.perform ops).1 = true ↔ s.kindAt? now key = some .string) := by
  obtain ⟨op, hop, hkey, hnow, hrefuses, hrefused⟩ := hash_operation now hhash hargs
  refine ⟨[op], hop, ?_⟩
  rw [hrefuses, Store.perform_singleton, List.head?_cons, Option.any_some, h.run_timed hkey hnow, hrefused,
    Store.kindAt?]

/-- A call that gets strings fails over a hash. -/
theorem get_refuses_iff {call : Call} {s : Store} (h : s.Placed)
    (hget : call.command = .get ∨ call.command = .getMany) :
    ∃ ops, call.operations now = .ok ops ∧
      (call.refuses (s.perform ops).1 = true ↔ ∃ k ∈ call.arguments, s.kindAt? now k = some .hash) := by
  cases call with
  | get k =>
    refine ⟨[.get k now], rfl, ?_⟩
    rw [Store.perform_singleton]
    show (s.run (.get k now)).1.isRefused = true ↔ _
    rw [h.get_refused_iff k now]
    simp [arguments]
  | getMany keys => exact ⟨_, rfl, Store.getMany_refused_iff now keys h⟩
  | expire unit _ _ => cases unit <;> simp [command, TimeUnit.command] at hget
  | _ => simp [command] at hget

end Call

/-! ### Requests that fail -/

variable {s : Store} {now : Instant} {args : List Bytes}

/-- Unless it gets several keys, a request that fails leaves the store as it was; if it does, it loses none
but keys that have expired. -/
theorem execute_of_isError (h : (execute now s args).1.isError = true) :
    (args.head?.bind Command.lookup ≠ some .getMany → (execute now s args).2 = s) ∧
    s.Loses (execute now s args).2 args.tail now := by
  cases hcall : Call.ofRequest args with
  | error e =>
    rw [execute_of_error hcall]
    exact ⟨fun _ => rfl, Store.loses_refl s _ now⟩
  | ok call =>
    cases hops : call.operations now with
    | error e =>
      rw [execute_of_no_operations hcall hops]
      exact ⟨fun _ => rfl, Store.loses_refl s _ now⟩
    | ok ops =>
      obtain ⟨name, rfl, hname⟩ := Call.ofRequest_eq_ok hcall
      rw [execute_of_operations hcall hops, Call.isError_answer] at h
      rw [execute_of_operations hcall hops]
      by_cases hmany : call.command = .getMany
      · refine ⟨fun hne => absurd (by rw [← hmany]; exact hname) hne, ?_⟩
        cases call with
        | getMany keys =>
          cases hops
          exact Store.loses_getMany now keys s
        | expire unit _ _ => cases unit <;> cases hmany
        | _ => cases hmany
      · obtain ⟨r, hr, hrefused⟩ := Call.head_refused h hmany
        have hsame := Store.perform_of_refused hr hrefused
        exact ⟨fun _ => hsame, hsame.symm ▸ Store.loses_refl s _ now⟩

/-- When a request is refused over the kind of value that a key holds. -/
theorem execute_eq_wrongKind_iff {name : Bytes} {c : Command} (h : s.Placed)
    (hname : Command.lookup name = some c) (hargs : c.accepts (args.length + 1) = true) :
    (c.isHash = true → ∀ key ∈ args.head?, ((execute now s (name :: args)).1 = CommandError.wrongKind.toValue ↔
      s.kindAt? now key = some .string)) ∧
    (c = .get ∨ c = .getMany → ((execute now s (name :: args)).1 = CommandError.wrongKind.toValue ↔
      ∃ key ∈ args, s.kindAt? now key = some .hash)) := by
  obtain ⟨call, hcall, rfl, rfl⟩ := Call.exists_call hname hargs
  refine ⟨fun hhash key hkey => ?_, fun hget => ?_⟩
  · obtain ⟨rest, hrest⟩ := List.head?_eq_some_iff.mp hkey
    obtain ⟨ops, hops, hrefuses⟩ := Call.hash_refuses_iff h hhash hrest
    rw [execute_of_operations hcall hops, Call.answer_eq_wrongKind_iff, hrefuses]
  · obtain ⟨ops, hops, hrefuses⟩ := Call.get_refuses_iff h hget
    rw [execute_of_operations hcall hops, Call.answer_eq_wrongKind_iff, hrefuses]

/-- **A request that fails changes nothing**, in strings, hashes, deadlines and what has expired but is still
there; only getting several keys may have lost some of these, if their deadline had been reached. A command
on hashes fails over the kind of its key if that holds a string, one that gets strings if a key that it
names holds a hash; expired keys hold nothing. -/
theorem refused_changes_nothing (hash : Bytes → UInt64) (count : Nat) (mode : Mode) (before : List Task)
    (now : Instant) (args : List Bytes) :
    let s := ((Store.emptyBy hash count mode).runTasks before).2
    let reply := (execute now s args).1
    let t := (execute now s args).2
    (reply.isError = true →
      (args.head?.bind Command.lookup ≠ some .getMany → t = s) ∧ s.Loses t args.tail now) ∧
    ∀ (name : Bytes) (rest : List Bytes) (c : Command), args = name :: rest →
      Command.lookup name = some c → c.accepts args.length = true →
      (c.isHash = true → ∀ key ∈ rest.head?,
        (reply = CommandError.wrongKind.toValue ↔ s.kindAt? now key = some .string)) ∧
      (c = .get ∨ c = .getMany →
        (reply = CommandError.wrongKind.toValue ↔ ∃ key ∈ rest, s.kindAt? now key = some .hash)) := by
  refine ⟨execute_of_isError, ?_⟩
  rintro name rest c rfl hname hargs
  exact execute_eq_wrongKind_iff (Store.placed_runTasks hash count mode before) hname hargs

-- The exception is real: `a` has expired and goes before `b` turns out to hold a hash.
example :
    let s := ((Store.emptyBy (fun _ => 0) 1 .linear).runTasks
      [.request 0 (["SET", "a", "1", "PX", "5"].map Bytes.ofString),
        .request 0 (["HSET", "b", "f", "v"].map Bytes.ofString)]).2
    let failed := execute 9000000 s (["MGET", "a", "b"].map Bytes.ofString)
    failed.1.isError = true ∧ s.size = 2 ∧ failed.2.size = 1 := by decide +kernel

end Keyspace

/-
# Dispatch is total

A request that is accepted is carried out without a crash and with all of its arguments. The bounds on the
number of arguments, the rule that they go in pairs, and the places at which handlers reach for them are written
down apart; this is where they meet. With handlers by position (`Handler.handle`), a request has the reply and
the store that it has with calls, so a pool never has to answer for a handler that crashed (`executor_eq`).
What is cut into pairs is all in pairs, and a string is stored by the number of arguments (`dispatch_total`).

A store has to have room for the arguments. A new store has it for as long as all that is asked fits in memory,
so nothing that is asked of it ever leads to a crash (`executor_after`).

Key definitions: `Handler.execute?`, `Handler.executor`, `Handler.Paired`.
Key theorems: `execute?_eq`, `executor_after`, `dispatch_total`.
-/
import Keyspace.Pool
import Keyspace.Proofs.Command.Positions

namespace Keyspace
namespace Handler

open Clock (Reading)

/-! ### Requests -/

/-- Answers a request at a reading of the clock. -/
def execute? (now : Reading) (s : Store) : List Bytes → Option (Value × Store)
  | [] => some (CommandError.emptyCommand.toValue, s)
  | name :: args =>
    match Command.lookup name with
    | none => some ((CommandError.unknownCommand (Utf8.decodeLossy name)).toValue, s)
    | some c =>
      if c.accepts (args.length + 1) then (handle now s args c).map fun outcome => outcome.map Call.toValue id
      else some ((CommandError.wrongArity c).toValue, s)

/-- Answers a request, or crashes. -/
def executor (now : Reading) : Executor Store := fun args s =>
  match execute? now s args with
  | some (v, s) => (some v, s)
  | none => (none, s)

variable {s : Store} {key : Bytes} {args : List Bytes} {t : Instant}

/-- By position a request has the reply and the store that it has. -/
theorem execute?_eq (h : s.Room args.length) (now : Reading) :
    execute? now s args = some (execute now.instant s args) := by
  unfold execute?
  split
  · rfl
  · next name rest =>
    cases hname : Command.lookup name with
    | none =>
      have hcall : Call.ofRequest (name :: rest) = .error (.unknownCommand (Utf8.decodeLossy name)) := by
        simp only [Call.ofRequest, hname]
      rw [execute_of_error hcall]
    | some c =>
      dsimp only
      split
      · next hargs =>
        obtain ⟨call, hcall, rfl, rfl⟩ := Call.exists_call hname hargs
        rw [handle_eq (h.mono (Nat.le_succ _)) now, execute, hcall]
        rfl
      · next hargs =>
        have hcall : Call.ofRequest (name :: rest) = .error (.wrongArity c) := by
          simp only [Call.ofRequest, hname, if_neg hargs]
        rw [execute_of_error hcall]

/-- No handler crashes. -/
theorem executor_eq (h : s.Room args.length) (now : Reading) :
    executor now args s = Executor.ofStore now.instant args s := by
  rw [executor, execute?_eq h now]
  rfl

/-- **Nothing that is asked of a new store leads to a crash**, as long as it fits in memory. -/
theorem executor_after (hash : Bytes → UInt64) (count : Nat) (mode : Mode) (tasks : List Task) (args : List Bytes)
    (h : Task.sizeAll tasks + args.length < Shard.capacity) (now : Reading) :
    executor now args ((Store.emptyBy hash count mode).runTasks tasks).2 =
      Executor.ofStore now.instant args ((Store.emptyBy hash count mode).runTasks tasks).2 :=
  executor_eq (Store.room_runTasks hash count mode tasks h) now

/-! ### Pairs, and storing a string -/

/-- The pieces of two of some arguments are these pairs. Nothing is left over, and there is a pair. -/
structure Paired (args : List Bytes) (pairs : List (Bytes × Bytes)) : Prop where
  cut : (chunks args).mapM pair? = some pairs
  whole : pairs.flatMap (fun p => [p.1, p.2]) = args
  nonempty : 0 < pairs.length

theorem Paired.length {args : List Bytes} {pairs : List (Bytes × Bytes)} (h : Paired args pairs) :
    args.length = 2 * pairs.length := by
  rw [← h.whole, Call.length_pairs]

theorem paired_flatMap {pairs : List (Bytes × Bytes)} (h : pairs ≠ []) :
    Paired (pairs.flatMap fun p => [p.1, p.2]) pairs :=
  ⟨mapM_pair?_chunks pairs, rfl, List.length_pos_iff.mpr h⟩

theorem execute_setMany {pairs : List (Bytes × Bytes)} (hcall : Call.ofRequest args = .ok (.setMany pairs)) :
    execute t s args = (.ok, s.setMany pairs) := by
  rw [execute, hcall]
  rfl

theorem execute_hashSet {pairs : List (Bytes × Bytes)} (hcall : Call.ofRequest args = .ok (.hashSet key pairs)) :
    execute t s args = (Call.toValue (Shard.Operation.run (s.shardOf key) (.hashSet key pairs t)).1.reply,
      (s.run (.hashSet key pairs t)).2) :=
  execute_of_operation hcall rfl

theorem execute_set_plain {value : Bytes} (hcall : Call.ofRequest args = .ok (.set key value [])) :
    execute t s args = (.ok, (s.run (.set key value)).2) :=
  execute_of_operation hcall rfl

theorem setDeadline?_pair_ne_none {option amount : Bytes} : Call.setDeadline? t [option, amount] ≠ .ok none := by
  intro h
  simp only [Call.setDeadline?] at h
  split at h
  · cases h
  · split at h
    · cases h
    · split at h <;> cases h

/-- With an option and an amount a string is stored with its deadline, or nothing is done. -/
theorem execute_set_option {value option amount : Bytes}
    (hcall : Call.ofRequest args = .ok (.set key value [option, amount])) :
    (∃ due, Call.setDeadline? t [option, amount] = .ok (some due) ∧
      execute t s args = (.ok, (s.run (.setWithDeadline key value due)).2)) ∨
    ∃ e, Call.setDeadline? t [option, amount] = .error e ∧ execute t s args = (e.toValue, s) := by
  match hdue : Call.setDeadline? t [option, amount] with
  | .error e =>
    refine .inr ⟨e, rfl, execute_of_no_operations hcall ?_⟩
    rw [Call.operations, hdue]
    rfl
  | .ok none => exact absurd hdue setDeadline?_pair_ne_none
  | .ok (some due) =>
    have hop : (Call.set key value [option, amount]).operations t = .ok [.setWithDeadline key value due] := by
      rw [Call.operations, hdue]
      rfl
    exact .inl ⟨due, rfl, execute_of_operation hcall hop⟩

/-- Any other number of options is refused, and nothing is done. -/
theorem execute_set_other {value : Bytes} {options : List Bytes}
    (hcall : Call.ofRequest args = .ok (.set key value options)) (hnone : options.length ≠ 0)
    (hpair : options.length ≠ 2) : execute t s args = (CommandError.badOptions.toValue, s) := by
  refine execute_of_no_operations hcall ?_
  match options with
  | [] => exact absurd rfl hnone
  | [_] => rfl
  | [_, _] => exact absurd rfl hpair
  | _ :: _ :: _ :: _ => rfl

/-! ### The theorem -/

/-- The command says which form the call has. -/
theorem form_of_command (call : Call) :
    match call.command with
    | .set => ∃ key value options, call = .set key value options
    | .setMany => ∃ pairs, call = .setMany pairs
    | .hashSet => ∃ key pairs, call = .hashSet key pairs
    | _ => True := by
  cases call with
  | set key value options => exact ⟨key, value, options, rfl⟩
  | setMany pairs => exact ⟨pairs, rfl⟩
  | hashSet key pairs => exact ⟨key, pairs, rfl⟩
  | expire unit _ _ => cases unit <;> trivial
  | _ => trivial

/-- **A request that is accepted is carried out without a crash, and with all of its arguments.** -/
theorem dispatch_total {n : Nat} (now : Reading) (h : s.Room (args.length + n)) :
    -- by position and in words there is the same reply, and the store has room for what comes next
    executor now args s = Executor.ofStore now.instant args s ∧ (execute now.instant s args).2.Room n ∧
    ∀ name rest c, args = name :: rest → Command.lookup name = some c → c.accepts args.length = true →
      -- a command is carried out with all of the arguments
      (∃ call : Call, call.command = c ∧ call.arguments = rest ∧
        handle now s rest c = some (call.run now.instant s) ∧
        execute now.instant s args = (call.run now.instant s).map Call.toValue id) ∧
      -- what is cut into pairs is all in pairs, and there is one
      (c = .setMany → ∃ pairs, Paired rest pairs ∧ pairs.length = (args.length - 1) / 2 ∧
        execute now.instant s args = (.ok, s.setMany pairs)) ∧
      (c = .hashSet → ∃ key fields pairs, rest = key :: fields ∧ Paired fields pairs ∧
        pairs.length = (args.length - 2) / 2 ∧
        execute now.instant s args =
          (Call.toValue (Shard.Operation.run (s.shardOf key) (.hashSet key pairs now.instant)).1.reply,
            (s.run (.hashSet key pairs now.instant)).2)) ∧
      -- a string is stored with three arguments or five, and any other number is refused with nothing done
      (c = .set →
        (args.length = 3 → ∃ key value, rest = [key, value] ∧
          execute now.instant s args = (.ok, (s.run (.set key value)).2)) ∧
        (args.length = 5 → ∃ key value option amount, rest = [key, value, option, amount] ∧
          ((∃ due, Call.setDeadline? now.instant [option, amount] = .ok (some due) ∧
            execute now.instant s args = (.ok, (s.run (.setWithDeadline key value due)).2)) ∨
          ∃ e, Call.setDeadline? now.instant [option, amount] = .error e ∧
            execute now.instant s args = (e.toValue, s))) ∧
        (args.length ≠ 3 → args.length ≠ 5 →
          execute now.instant s args = (CommandError.badOptions.toValue, s))) := by
  have hroom : s.Room args.length := h.mono (Nat.le_add_right _ _)
  refine ⟨executor_eq hroom now, h.execute now.instant, ?_⟩
  rintro name rest c rfl hname haccepts
  obtain ⟨call, hcall, rfl, rfl⟩ := Call.exists_call hname haccepts
  have hfull := Call.isFull_of_ofRequest hcall
  have hform := form_of_command call
  refine ⟨⟨call, rfl, rfl, handle_eq (hroom.mono (Nat.le_succ _)) now, ?_⟩, fun hc => ?_, fun hc => ?_,
    fun hc => ?_⟩
  · rw [execute, hcall]
  · rw [hc] at hform
    obtain ⟨pairs, rfl⟩ := hform
    have hpaired := paired_flatMap hfull
    refine ⟨pairs, hpaired, ?_, execute_setMany hcall⟩
    rw [List.length_cons, Call.arguments, hpaired.length]
    omega
  · rw [hc] at hform
    obtain ⟨key, pairs, rfl⟩ := hform
    have hpaired := paired_flatMap hfull
    refine ⟨key, _, pairs, rfl, hpaired, ?_, execute_hashSet hcall⟩
    rw [List.length_cons, Call.arguments, List.length_cons, hpaired.length]
    omega
  · rw [hc] at hform
    obtain ⟨key, value, options, rfl⟩ := hform
    have hlength : (name :: (Call.set key value options).arguments).length = options.length + 3 := rfl
    rw [hlength]
    refine ⟨fun hthree => ?_, fun hfive => ?_, fun hthree hfive => ?_⟩
    · obtain rfl := List.length_eq_zero_iff.mp (Nat.add_right_cancel hthree)
      exact ⟨key, value, rfl, execute_set_plain hcall⟩
    · obtain ⟨option, amount, rfl⟩ := List.length_eq_two.mp (Nat.add_right_cancel hfive)
      exact ⟨key, value, option, amount, rfl, execute_set_option hcall⟩
    · exact execute_set_other hcall (by omega) (by omega)

/-- Two pairs in a store with a hash, and with a string that has a deadline. -/
theorem dispatch_total_pairs :
    let s := ((Store.emptyBy (fun _ => 0) 2 .heap).runTasks
      [.request 0 (["HSET", "h", "f", "1"].map Bytes.ofString),
        .request 0 (["SET", "k", "v", "PX", "5000"].map Bytes.ofString)]).2
    let now : Reading := ⟨1, 500000000, by decide, by decide⟩
    let rest := ["k", "1", "h", "2"].map Bytes.ofString
    let args := Bytes.ofString "MSet" :: rest
    s.Room (args.length + 0) ∧ executor now args s = Executor.ofStore now.instant args s ∧
    Command.lookup (Bytes.ofString "MSet") = some .setMany ∧ Command.accepts .setMany args.length = true ∧
    ∃ pairs, Paired rest pairs ∧ pairs.length = 2 ∧ execute now.instant s args = (.ok, s.setMany pairs) := by
  intro s now rest args
  have hroom : s.Room (args.length + 0) := Store.room_runTasks _ _ _ _ (by decide)
  have hname : Command.lookup (Bytes.ofString "MSet") = some .setMany := by decide +kernel
  have haccepts : Command.accepts .setMany args.length = true := by decide +kernel
  obtain ⟨hexecutor, -, hcommands⟩ := dispatch_total now hroom
  obtain ⟨pairs, hpaired, hlength, hexecute⟩ := (hcommands _ _ _ rfl hname haccepts).2.1 rfl
  have htwo : (args.length - 1) / 2 = 2 := by simp [args, rest]
  exact ⟨hroom, hexecutor, hname, haccepts, pairs, hpaired, hlength.trans htwo, hexecute⟩

end Handler
end Keyspace

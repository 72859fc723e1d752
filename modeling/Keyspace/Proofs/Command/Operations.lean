/-
# Calls as operations on single keys

Whatever a call does to a store, it does by operations that name one key each, one after another, and it
stops behind the first that is refused. `Call.operations` lists them, `Call.answer` makes the reply out of
their results, and `run_eq` says that this is all there is to a call. So a fact about all commands is a
fact about operations, proved once for each of those.

A request reaches a call with all of its arguments in their places (`Call.ofRequest_eq_ok`), or fails before
it does anything.

Key definitions: `Store.perform`, `Call.operations`, `Call.answer`, `Call.Performs`.
Key theorems: `Call.performs_of_mem`, `Call.run_eq`, `Call.ofRequest_eq_ok`, `Call.ofRequest_arguments`,
`execute_cases`.
-/
import Keyspace.Proofs.Store.Placement
import Keyspace.Command.Execute
import Mathlib.Data.List.Basic

namespace Keyspace

open Shard (Operation Result)

namespace Shard

/-- The operation was refused. -/
def Result.isRefused : Result → Bool
  | .refused _ => true
  | _ => false

/-- The operation said yes: what it looked for was there. -/
def Result.isYes : Result → Bool
  | .flag b => b
  | .kind k => k.isSome
  | _ => false

/-- The result as a reply. -/
def Result.reply : Result → Except CommandError Value
  | .done => .ok .ok
  | .refused _ => .error .wrongKind
  | .value v => .ok (.ofOption v)
  | .values vs => .ok (.ofOptions vs)
  | .pairs ps => .ok (.ofOptions (ps.flatMap fun p => [some p.1, some p.2]))
  | .flag b => .ok (.flag b)
  | .count n => .ok (.count n)
  | .ttl ms => .ok (.integer (Ttl.ceilSeconds ms))
  | .kind k => .ok (.bulk (Bytes.ofString (Kind.name k)))
  | .due _ => .ok .null

/-- Several results as one reply: an array, or the first refusal. -/
def Result.replyAll : List Result → Except CommandError (List Value)
  | [] => .ok []
  | r :: rs =>
    match r.reply with
    | .error e => .error e
    | .ok v => (replyAll rs).map (v :: ·)

end Shard

namespace Store

/-- Performs operations one after another, until one is refused. -/
def perform (s : Store) : List Operation → List Result × Store
  | [] => ([], s)
  | op :: ops =>
    let (r, s) := s.run op
    if r.isRefused then ([r], s)
    else
      let (rs, s) := s.perform ops
      (r :: rs, s)

theorem perform_cons_of_refused {s : Store} {op : Operation} (ops : List Operation)
    (h : (s.run op).1.isRefused = true) : s.perform (op :: ops) = ([(s.run op).1], (s.run op).2) := by
  simp only [perform, h, if_true]

theorem perform_cons {s : Store} {op : Operation} (ops : List Operation)
    (h : (s.run op).1.isRefused = false) : s.perform (op :: ops) =
      ((s.run op).1 :: ((s.run op).2.perform ops).1, ((s.run op).2.perform ops).2) := by
  simp only [perform, h, if_false, Bool.false_eq_true]

theorem length_perform_le : ∀ (ops : List Operation) (s : Store), (s.perform ops).1.length ≤ ops.length
  | [], _ => Nat.le_refl 0
  | op :: ops, s => by
    cases hrefused : (s.run op).1.isRefused with
    | true =>
      rw [perform_cons_of_refused ops hrefused]
      simp
    | false =>
      rw [perform_cons ops hrefused]
      exact Nat.succ_le_succ (length_perform_le ops _)

theorem perform_singleton (s : Store) (op : Operation) :
    s.perform [op] = ([(s.run op).1], (s.run op).2) := by
  cases h : (s.run op).1.isRefused with
  | true => exact perform_cons_of_refused [] h
  | false => exact perform_cons [] h

end Store

theorem exists_of_map_eq_ok {ε α β : Type} {f : α → β} {r : Except ε α} {b : β} (h : r.map f = .ok b) :
    ∃ a, r = .ok a ∧ f a = b := by
  cases r with
  | error e => cases h
  | ok a => exact ⟨a, rfl, Except.ok.inj h⟩

namespace Call

open Store (perform_cons perform_cons_of_refused perform_singleton)

/-- The operations that a call performs at an instant, or why it performs none. -/
def operations (now : Instant) : Call → Except CommandError (List Operation)
  | ping _ | echo _ => .ok []
  | set key value options =>
    (setDeadline? now options).map fun
      | none => [.set key value]
      | some due => [.setWithDeadline key value due]
  | get key => .ok [.get key now]
  | delete keys => .ok (keys.map (.delete · now))
  | exist keys => .ok (keys.map (.kindOf · now))
  | getMany keys => .ok (keys.map (.get · now))
  | setMany pairs => .ok (pairs.map fun p => .set p.1 p.2)
  | ttl key => .ok [.ttlMillis key now]
  | expire unit key amount => (expireDeadline unit now amount).map fun due => [.setExpire key due now]
  | persist key => .ok [.clearExpire key now]
  | hashSet key pairs => .ok [.hashSet key pairs now]
  | hashGet key field => .ok [.hashGet key field now]
  | hashDelete key fields => .ok [.hashDelete key fields now]
  | hashHas key field => .ok [.hashHas key field now]
  | hashSize key => .ok [.hashSize key now]
  | hashPairs key => .ok [.hashPairs key now]
  | hashGetMany key fields => .ok [.hashGetMany key fields now]
  | kind key => .ok [.kindOf key now]

/-- The reply that the results of its operations make. -/
def answer : Call → List Result → Except CommandError Value
  | ping none, _ => .ok .pong
  | ping (some message), _ | echo message, _ => .ok (.bulk message)
  | delete _, rs | exist _, rs => .ok (.count (rs.countP Result.isYes))
  | getMany _, rs => (Result.replyAll rs).map .array
  | setMany _, _ => .ok .ok
  | _, rs => rs.head?.elim (.ok .null) Result.reply

/-- The operations that a call may perform at an instant, one by one. A deadline is any that its amount may
come to. -/
inductive Performs (now : Instant) : Call → Operation → Prop where
  | set {key value : Bytes} {options : List Bytes} : Performs now (set key value options) (.set key value)
  | setWithDeadline {key value : Bytes} {options : List Bytes} {due : Instant} :
      Performs now (set key value options) (.setWithDeadline key value due)
  | get {key : Bytes} : Performs now (get key) (.get key now)
  | delete {key : Bytes} {keys : List Bytes} : key ∈ keys → Performs now (delete keys) (.delete key now)
  | exist {key : Bytes} {keys : List Bytes} : key ∈ keys → Performs now (exist keys) (.kindOf key now)
  | getMany {key : Bytes} {keys : List Bytes} : key ∈ keys → Performs now (getMany keys) (.get key now)
  | setMany {p : Bytes × Bytes} {pairs : List (Bytes × Bytes)} : p ∈ pairs →
      Performs now (setMany pairs) (.set p.1 p.2)
  | ttl {key : Bytes} : Performs now (ttl key) (.ttlMillis key now)
  | expire {unit : TimeUnit} {key amount : Bytes} {due : Instant} :
      Performs now (expire unit key amount) (.setExpire key due now)
  | persist {key : Bytes} : Performs now (persist key) (.clearExpire key now)
  | hashSet {key : Bytes} {pairs : List (Bytes × Bytes)} : Performs now (hashSet key pairs) (.hashSet key pairs now)
  | hashGet {key field : Bytes} : Performs now (hashGet key field) (.hashGet key field now)
  | hashDelete {key : Bytes} {fields : List Bytes} :
      Performs now (hashDelete key fields) (.hashDelete key fields now)
  | hashHas {key field : Bytes} : Performs now (hashHas key field) (.hashHas key field now)
  | hashSize {key : Bytes} : Performs now (hashSize key) (.hashSize key now)
  | hashPairs {key : Bytes} : Performs now (hashPairs key) (.hashPairs key now)
  | hashGetMany {key : Bytes} {fields : List Bytes} :
      Performs now (hashGetMany key fields) (.hashGetMany key fields now)
  | kind {key : Bytes} : Performs now (kind key) (.kindOf key now)

/-- What is known of each operation of a call without looking at the others. -/
theorem performs_of_mem {call : Call} {now : Instant} {ops : List Operation} (h : call.operations now = .ok ops) :
    ∀ op ∈ ops, call.Performs now op := by
  intro op hop
  cases call with
  | ping _ | echo _ =>
    cases h
    cases hop
  | set key value options =>
    obtain ⟨due, -, rfl⟩ := exists_of_map_eq_ok h
    cases due with
    | none =>
      obtain rfl := List.mem_singleton.mp hop
      exact .set
    | some due =>
      obtain rfl := List.mem_singleton.mp hop
      exact .setWithDeadline
  | expire unit key amount =>
    obtain ⟨due, -, rfl⟩ := exists_of_map_eq_ok h
    obtain rfl := List.mem_singleton.mp hop
    exact .expire
  | delete keys | exist keys | getMany keys =>
    cases h
    obtain ⟨key, hkey, rfl⟩ := List.mem_map.mp hop
    constructor
    exact hkey
  | setMany pairs =>
    cases h
    obtain ⟨p, hp, rfl⟩ := List.mem_map.mp hop
    exact .setMany hp
  | get _ | ttl _ | persist _ | hashSet _ _ | hashGet _ _ | hashDelete _ _ | hashHas _ _ | hashSize _
  | hashPairs _ | hashGetMany _ _ | kind _ =>
    cases h
    obtain rfl := List.mem_singleton.mp hop
    constructor

/-! ### Several keys -/

/-- Counting keys is performing an operation on each that says yes or no. -/
theorem countKeys_eq {f : Bytes → Shard → Bool × Shard} (op : Bytes → Operation)
    (hop : ∀ (key : Bytes) (s : Store), (s.run (op key)).1.isRefused = false ∧
      s.onShard key (f key) = ((s.run (op key)).1.isYes, (s.run (op key)).2)) :
    ∀ (keys : List Bytes) (s : Store), s.countKeys f keys =
      ((s.perform (keys.map op)).1.countP Result.isYes, (s.perform (keys.map op)).2)
  | [], _ => rfl
  | key :: keys, s => by
    obtain ⟨hkept, hshard⟩ := hop key s
    rw [Store.countKeys, hshard, List.map_cons, perform_cons _ hkept]
    simp only [countKeys_eq op hop keys, List.countP_cons]
    cases (s.run (op key)).1.isYes <;> rfl

theorem getMany_cons_error {now : Instant} {s : Store} {key : Bytes} (keys : List Bytes) {e : WrongKind}
    (h : ((s.shardOf key).get key now).1 = .error e) :
    s.getMany now (key :: keys) = (.error e, s.putShard key ((s.shardOf key).get key now).2) := by
  rw [Store.getMany, Store.onShard_eq, h]

theorem getMany_cons_ok {now : Instant} {s : Store} {key : Bytes} (keys : List Bytes) {v : Option Bytes}
    (h : ((s.shardOf key).get key now).1 = .ok v) :
    s.getMany now (key :: keys) =
      (((s.putShard key ((s.shardOf key).get key now).2).getMany now keys).1.map (v :: ·),
        ((s.putShard key ((s.shardOf key).get key now).2).getMany now keys).2) := by
  rw [Store.getMany, Store.onShard_eq, h]

/-- Getting several keys is getting each, up to the first refusal. -/
theorem getMany_eq (now : Instant) : ∀ (keys : List Bytes) (s : Store),
    (s.getMany now keys).2 = (s.perform (keys.map (.get · now))).2 ∧
    ((s.getMany now keys).1.map (List.map Value.ofOption)).mapError (fun _ => .wrongKind) =
      Result.replyAll (s.perform (keys.map (.get · now))).1
  | [], _ => ⟨rfl, rfl⟩
  | key :: keys, s => by
    have hrun : s.run (.get key now) = (.ofExcept .value ((s.shardOf key).get key now).1,
      s.putShard key ((s.shardOf key).get key now).2) := rfl
    cases hget : ((s.shardOf key).get key now).1 with
    | error e =>
      rw [hget] at hrun
      rw [getMany_cons_error keys hget, List.map_cons, perform_cons_of_refused _ (by rw [hrun]; rfl), hrun]
      exact ⟨rfl, rfl⟩
    | ok v =>
      rw [hget] at hrun
      obtain ⟨hstore, hreply⟩ := getMany_eq now keys (s.putShard key ((s.shardOf key).get key now).2)
      rw [getMany_cons_ok keys hget, List.map_cons, perform_cons _ (by rw [hrun]; rfl), hrun]
      refine ⟨hstore, ?_⟩
      show _ = (Result.replyAll _).map (Value.ofOption v :: ·)
      rw [← hreply]
      cases ((s.putShard key ((s.shardOf key).get key now).2).getMany now keys).1 with
      | ok vs => rfl
      | error e => rfl

theorem setMany_eq : ∀ (pairs : List (Bytes × Bytes)) (s : Store),
    s.setMany pairs = (s.perform (pairs.map fun p => .set p.1 p.2)).2
  | [], _ => rfl
  | p :: pairs, s => by
    have hrest := setMany_eq pairs (s.run (.set p.1 p.2)).2
    rw [List.map_cons, perform_cons _ rfl]
    exact hrest

/-! ### One key -/

theorem reply_ofExcept {α : Type} {g : α → Result} {answer : α → Value}
    (h : ∀ a, (g a).reply = .ok (answer a)) : ∀ a : Except WrongKind α,
    (Result.ofExcept g a).reply = reply answer a
  | .ok a => h a
  | .error .wrongKind => rfl

/-- A call on one key, unless it is refused, is one operation. -/
theorem onKind_eq {α : Type} {s : Store} {key : Bytes} {f : Shard → Except WrongKind α × Shard}
    {answer : α → Value} {op : Operation} (g : α → Result) (hkey : op.key? = some key)
    (hop : ∀ shard, op.run shard = (f shard).map (.ofExcept g) id)
    (hanswer : ∀ a, (g a).reply = .ok (answer a)) :
    onKind s key f answer = ([(s.run op).1].head?.elim (.ok .null) Result.reply, (s.run op).2) := by
  have hrun : s.run op = (.ofExcept g (f (s.shardOf key)).1, s.putShard key (f (s.shardOf key)).2) := by
    rw [Store.run, hkey]
    simp only [Store.onShard_eq, hop]
    rfl
  rw [hrun, onKind, Store.onShard_eq]
  exact congrArg (·, _) (reply_ofExcept hanswer _).symm

/-- **A call is the operations it performs**, and replies with what their results make. -/
theorem run_eq (now : Instant) (s : Store) (call : Call) :
    call.run now s =
      match call.operations now with
      | .error e => (.error e, s)
      | .ok ops => (call.answer (s.perform ops).1, (s.perform ops).2) := by
  cases call with
  | ping message => cases message <;> rfl
  | echo message => rfl
  | set key value options =>
    rw [run, operations]
    rcases setDeadline? now options with e | _ | due
    · rfl
    · simp only [Except.map, perform_singleton]
      rfl
    · simp only [Except.map, perform_singleton]
      rfl
  | delete keys =>
    rw [run, countKeys_eq (.delete · now) fun key s => ⟨rfl, rfl⟩]
    rfl
  | exist keys =>
    rw [run, countKeys_eq (.kindOf · now) fun key s => ⟨rfl, rfl⟩]
    rfl
  | getMany keys =>
    obtain ⟨hstore, hreply⟩ := getMany_eq now keys s
    simp only [run, operations, answer, ← hstore, ← hreply]
    cases (s.getMany now keys).1 with
    | ok vs => rfl
    | error e => cases e; rfl
  | setMany pairs => simp only [run, operations, answer, ← setMany_eq]
  | expire unit key amount =>
    rw [run, operations]
    cases expireDeadline unit now amount with
    | error e => rfl
    | ok due =>
      simp only [Except.map, perform_singleton]
      rfl
  | ttl key | persist key | kind key =>
    simp only [operations, perform_singleton]
    rfl
  | get key | hashGet key field =>
    simp only [run, operations, perform_singleton]
    exact onKind_eq .value rfl (fun _ => rfl) fun _ => rfl
  | hashSet key _ | hashDelete key _ | hashSize key =>
    simp only [run, operations, perform_singleton]
    exact onKind_eq .count rfl (fun _ => rfl) fun _ => rfl
  | hashHas key field =>
    simp only [run, operations, perform_singleton]
    exact onKind_eq .flag rfl (fun _ => rfl) fun _ => rfl
  | hashPairs key =>
    simp only [run, operations, perform_singleton]
    exact onKind_eq .pairs rfl (fun _ => rfl) fun _ => rfl
  | hashGetMany key fields =>
    simp only [run, operations, perform_singleton]
    exact onKind_eq .values rfl (fun _ => rfl) fun _ => rfl

end Call

/-! ### Requests -/

namespace Call

/-- The command that the call carries out. -/
def command : Call → Command
  | ping _ => .ping
  | echo _ => .echo
  | set _ _ _ => .set
  | get _ => .get
  | delete _ => .delete
  | exist _ => .exist
  | getMany _ => .getMany
  | setMany _ => .setMany
  | ttl _ => .ttl
  | expire unit _ _ => unit.command
  | persist _ => .persist
  | hashSet _ _ => .hashSet
  | hashGet _ _ => .hashGet
  | hashDelete _ _ => .hashDelete
  | hashHas _ _ => .hashHas
  | hashSize _ => .hashSize
  | hashPairs _ => .hashPairs
  | hashGetMany _ _ => .hashGetMany
  | kind _ => .kind

/-- The arguments of the call, in the order in which a request has them. -/
def arguments : Call → List Bytes
  | ping message => message.toList
  | echo message => [message]
  | set key value options => key :: value :: options
  | get key | ttl key | persist key | hashSize key | hashPairs key | kind key => [key]
  | delete keys | exist keys | getMany keys => keys
  | setMany pairs => pairs.flatMap fun p => [p.1, p.2]
  | expire _ key amount => [key, amount]
  | hashSet key pairs => key :: pairs.flatMap fun p => [p.1, p.2]
  | hashGet key field | hashHas key field => [key, field]
  | hashDelete key fields | hashGetMany key fields => key :: fields

/-- No argument is lost on the way into a call. -/
theorem ofArguments?_eq_some {c : Command} {args : List Bytes} {call : Call}
    (h : ofArguments? c args = some call) : call.command = c ∧ call.arguments = args := by
  fun_cases ofArguments? c args
  all_goals simp only [ofArguments?] at h
  -- arguments in pairs
  case case9 =>
    obtain ⟨pairs, hpairs, rfl⟩ := Option.map_eq_some_iff.mp h
    exact ⟨rfl, flatMap_pairs? hpairs⟩
  case case14 =>
    obtain ⟨pairs, hpairs, rfl⟩ := Option.map_eq_some_iff.mp h
    exact ⟨rfl, congrArg (_ :: ·) (flatMap_pairs? hpairs)⟩
  case case22 => cases h
  all_goals cases h; exact ⟨rfl, rfl⟩

theorem ofRequest_eq_ok {args : List Bytes} {call : Call} (h : ofRequest args = .ok call) :
    ∃ name, args = name :: call.arguments ∧ Command.lookup name = some call.command := by
  unfold ofRequest at h
  split at h
  · cases h
  · next name rest =>
    split at h
    · cases h
    · next c hc =>
      split at h
      · split at h
        · next found hfound =>
          cases h
          obtain ⟨hcommand, harguments⟩ := ofArguments?_eq_some hfound
          exact ⟨name, by rw [harguments], by rw [hcommand, hc]⟩
        · cases h
      · cases h

/-- The call has at least one of what its command takes several of. -/
def IsFull : Call → Prop
  | delete keys | exist keys | getMany keys => keys ≠ []
  | setMany pairs | hashSet _ pairs => pairs ≠ []
  | hashDelete _ fields | hashGetMany _ fields => fields ≠ []
  | _ => True

theorem pairs?_flatMap : ∀ pairs : List (Bytes × Bytes), pairs? (pairs.flatMap fun p => [p.1, p.2]) = some pairs
  | [] => rfl
  | p :: pairs => by
    rw [List.flatMap_cons, List.cons_append, List.cons_append, List.nil_append, pairs?, pairs?_flatMap pairs]
    rfl

/-- The arguments of a call find the places that they have in it. -/
theorem ofArguments?_arguments (call : Call) (h : call.IsFull) :
    ofArguments? call.command call.arguments = some call := by
  cases call with
  | ping message => cases message <;> rfl
  | expire unit key amount => cases unit <;> rfl
  | delete keys | exist keys | getMany keys =>
    obtain ⟨first, rest, rfl⟩ := List.exists_cons_of_ne_nil h
    rfl
  | setMany pairs =>
    obtain ⟨p, rest, rfl⟩ := List.exists_cons_of_ne_nil h
    have hpairs := pairs?_flatMap (p :: rest)
    exact congrArg (Option.map setMany) hpairs
  | hashSet key pairs =>
    obtain ⟨p, rest, rfl⟩ := List.exists_cons_of_ne_nil h
    have hpairs := pairs?_flatMap (p :: rest)
    exact congrArg (Option.map (hashSet key)) hpairs
  | hashDelete key fields | hashGetMany key fields =>
    obtain ⟨first, rest, rfl⟩ := List.exists_cons_of_ne_nil h
    rfl
  | _ => rfl

theorem accepts_arguments (call : Call) (h : call.IsFull) :
    call.command.accepts (call.arguments.length + 1) = true := by
  rw [← ofArguments?_isSome, ofArguments?_arguments call h]
  rfl

/-- Every call that is full is made by a request. -/
theorem ofRequest_arguments {name : Bytes} (call : Call) (h : call.IsFull)
    (hname : Command.lookup name = some call.command) : ofRequest (name :: call.arguments) = .ok call := by
  simp only [ofRequest, hname, accepts_arguments call h, if_true, ofArguments?_arguments call h]

/-- The arguments of a call are accepted only if there is at least one of what its command takes several of. -/
theorem isFull_of_accepts {call : Call} (h : call.command.accepts (call.arguments.length + 1) = true) :
    call.IsFull := by
  cases call with
  | delete _ | exist _ | getMany _ | setMany _ | hashSet _ _ | hashDelete _ _ | hashGetMany _ _ =>
    rintro rfl
    simp [command, arguments, Command.accepts, Command.paired, Command.arity, Arity.accepts, Arity.atLeast] at h
  | _ => trivial

/-- A request makes no call but full ones. -/
theorem isFull_of_ofRequest {args : List Bytes} {call : Call} (h : ofRequest args = .ok call) : call.IsFull := by
  obtain ⟨name, rfl, hname⟩ := ofRequest_eq_ok h
  cases haccepts : call.command.accepts (call.arguments.length + 1) with
  | true => exact isFull_of_accepts haccepts
  | false =>
    simp only [ofRequest, hname, haccepts] at h
    cases h

/-- A request for a command that accepts its arguments makes a call. -/
theorem exists_call {name : Bytes} {args : List Bytes} {c : Command} (hname : Command.lookup name = some c)
    (hargs : c.accepts (args.length + 1) = true) :
    ∃ call, ofRequest (name :: args) = .ok call ∧ call.command = c ∧ call.arguments = args := by
  obtain ⟨call, hcall⟩ := Option.isSome_iff_exists.mp ((ofArguments?_isSome c args).trans hargs)
  obtain ⟨hcommand, harguments⟩ := ofArguments?_eq_some hcall
  refine ⟨call, ?_, hcommand, harguments⟩
  simp only [ofRequest, hname, hargs, if_true, hcall]

end Call

variable {now : Instant} {s : Store} {args : List Bytes} {call : Call} {e : CommandError}

/-- A request that makes no call changes nothing. -/
theorem execute_of_error (h : Call.ofRequest args = .error e) : execute now s args = (e.toValue, s) := by
  rw [execute, h]

/-- A call that performs no operations changes nothing. -/
theorem execute_of_no_operations (hcall : Call.ofRequest args = .ok call)
    (hops : call.operations now = .error e) : execute now s args = (e.toValue, s) := by
  have hrun := Call.run_eq now s call
  rw [hops] at hrun
  simp only [execute, hcall, hrun]
  rfl

/-- A request performs the operations of its call and replies with what their results make. -/
theorem execute_of_operations {ops : List Operation} (hcall : Call.ofRequest args = .ok call)
    (hops : call.operations now = .ok ops) :
    execute now s args = (Call.toValue (call.answer (s.perform ops).1), (s.perform ops).2) := by
  have hrun := Call.run_eq now s call
  rw [hops] at hrun
  simp only [execute, hcall, hrun]
  rfl

theorem execute_of_operation {op : Operation} (hcall : Call.ofRequest args = .ok call)
    (hop : call.operations now = .ok [op]) :
    execute now s args = (Call.toValue (call.answer [(s.run op).1]), (s.run op).2) := by
  rw [execute_of_operations hcall hop, Store.perform_singleton]

/-- A request fails over its arguments, whatever the store, or performs operations that depend on them only. -/
theorem execute_cases (now : Instant) (args : List Bytes) :
    (∃ e : CommandError, ∀ s, execute now s args = (e.toValue, s)) ∨
    ∃ call ops, Call.ofRequest args = .ok call ∧ call.operations now = .ok ops ∧
      ∀ s, execute now s args = (Call.toValue (call.answer (s.perform ops).1), (s.perform ops).2) := by
  cases hcall : Call.ofRequest args with
  | error e => exact .inl ⟨e, fun s => execute_of_error hcall⟩
  | ok call =>
    cases hops : call.operations now with
    | error e => exact .inl ⟨e, fun s => execute_of_no_operations hcall hops⟩
    | ok ops => exact .inr ⟨call, ops, rfl, hops, fun s => execute_of_operations hcall hops⟩

end Keyspace

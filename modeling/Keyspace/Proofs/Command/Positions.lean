/-
# Arguments by position

A call has its arguments in their places. A handler does not: it reaches for the first argument, or the
fourth, cuts the rest off and walks through it in pieces of two, takes the shard at the place that a hash
selects, and counts in words. Each of this may go wrong. `handle` carries out commands in that way, with `none`
for a crash: an argument, a piece or a shard that is not there, a count or a sum that has no word, a stored
deadline that the clock cannot show, a counter that has left its word.

None of this happens to a request that is accepted, in a store that has room for its arguments: what is carried
out is the call (`handle_eq`). A piece of two that is short would be dropped without a crash, so it is
proved as well that none is: the pieces hold all arguments (`mapM_pair?_chunks`).

Key definitions: `Handler.onShard?`, `Handler.set?`, `Handler.expire?`, `Handler.handle`.
Key theorems: `mapM_pair?_chunks`, `onShard?_eq`, `handle_eq`.
-/
import Keyspace.Proofs.Expiry.Readings
import Keyspace.Proofs.Store.Room

namespace Keyspace
namespace Handler

open Clock (Reading)

/-! ### What may go wrong -/

/-- The arguments from a place on, if it is one of theirs or their end. -/
def from? (args : List Bytes) (start : Nat) : Option (List Bytes) :=
  if start ≤ args.length then some (args.drop start) else none

/-- Pieces of two. What is left over is dropped. -/
def chunks : List Bytes → List (List Bytes)
  | a :: b :: rest => [a, b] :: chunks rest
  | _ => []

/-- The first two of a piece. -/
def pair? (piece : List Bytes) : Option (Bytes × Bytes) := do
  let first ← piece[0]?
  let second ← piece[1]?
  some (first, second)

/-- A count as a reply, if there is a word for it. -/
def count? (n : Nat) : Option Value := (Word.ofInt? n).map .integer

/-- Milliseconds as seconds, rounded up. The answers that are no time stay as they are. -/
def ceilSeconds? (ms : Int64) : Option Int64 :=
  if ms ≤ 0 then some ms else Word.add? (ms / 1000) (if ms % 1000 = 0 then 0 else 1)

/-- The generations of the shard, and the number of notes at which it compacts them, are words. -/
def inWords (shard : Shard) : Bool :=
  shard.generation < 18446744073709551616 && 2 * shard.tracked + Agenda.slack < 18446744073709551616

/-- The place of the shard that holds the key, by division. -/
def place? (s : Store) (key : Bytes) : Option Nat :=
  if s.shardCount = 0 then none else some ((s.hash key).toNat % s.shardCount)

/-- Runs an operation on the shard at the key's place. A generation never goes down, so it is enough to look at
the one that the operation leaves. -/
def onShard? {α : Type} (s : Store) (key : Bytes) (f : Shard → Option (α × Shard)) : Option (α × Store) := do
  let place ← place? s key
  let shard ← s.shardAt? place
  let (a, shard) ← f shard
  if inWords shard then some (a, { s with shards := s.shards.setIfInBounds place shard }) else none

/-- The milliseconds that the key has left, or why there is no such time. -/
def ttlMillis? (now : Reading) (key : Bytes) (shard : Shard) : Option (Int64 × Shard) :=
  let shard := shard.live key now.instant
  if shard.contains key then
    match shard.deadlines[key]? with
    | some due => (Reading.ofInstant? due).map fun due => (due.millisUntil now, shard)
    | none => some (Ttl.noDeadline, shard)
  else some (Ttl.noKey, shard)

/-- The deadline some time from now, if the clock can show it. -/
def deadline? : TimeUnit → Reading → Int64 → Option Reading
  | .seconds => Reading.afterSeconds?
  | .millis => Reading.afterMillis?

/-! ### Commands -/

/-- Answers with what an operation on the key's shard answers. -/
def onKey? {α : Type} (s : Store) (key : Bytes) (f : Shard → Option (α × Shard)) (answer : α → Option Value) :
    Option Call.Outcome := do
  let (a, s) ← onShard? s key f
  let v ← answer a
  some (.ok v, s)

/-- Answers with what an operation on the key's shard answers, unless it is refused. -/
def onKind? {α : Type} (s : Store) (key : Bytes) (f : Shard → Except WrongKind α × Shard)
    (answer : α → Option Value) : Option Call.Outcome := do
  match ← onShard? s key fun shard => some (f shard) with
  | (.error _, s) => some (.error .wrongKind, s)
  | (.ok a, s) =>
    let v ← answer a
    some (.ok v, s)

/-- Counts the keys of which an operation says yes, taking them from left to right. -/
def countKeys? (s : Store) (f : Bytes → Shard → Bool × Shard) : List Bytes → Option (Nat × Store)
  | [] => some (0, s)
  | key :: keys => do
    let (yes, s) ← onShard? s key fun shard => some (f key shard)
    let (n, s) ← countKeys? s f keys
    some (if yes then n + 1 else n, s)

/-- Answers with the number of keys of which an operation says yes. -/
def onKeys? (s : Store) (keys : List Bytes) (f : Bytes → Shard → Bool × Shard) : Option Call.Outcome := do
  let (n, s) ← countKeys? s f keys
  let v ← count? n
  some (.ok v, s)

/-- The strings under several keys, taken from left to right up to the first that is none. -/
def getMany? (s : Store) (now : Instant) : List Bytes → Option (Except WrongKind (List (Option Bytes)) × Store)
  | [] => some (.ok [], s)
  | key :: keys => do
    match ← onShard? s key fun shard => some (shard.get key now) with
    | (.error e, s) => some (.error e, s)
    | (.ok v, s) =>
      let (vs, s) ← getMany? s now keys
      some (vs.map (v :: ·), s)

/-- Stores a string for each piece. -/
def setMany? (s : Store) : List (List Bytes) → Option Store
  | [] => some s
  | piece :: pieces => do
    let (key, value) ← pair? piece
    let (_, s) ← onShard? s key fun shard => some ((), shard.set key value)
    setMany? s pieces

/-- Stores a string. The number of arguments says whether with a deadline; the amount of time is read before the
option is looked at. -/
def set? (now : Reading) (s : Store) (args : List Bytes) : Option Call.Outcome := do
  let key ← args[0]?
  let value ← args[1]?
  match args.length with
  | 2 => onKey? s key (fun shard => some ((), shard.set key value)) fun _ => some .ok
  | 4 =>
    let amount ← args[3]?
    let option ← args[2]?
    match Decimal.parse? amount with
    | none => some (.error .notAnInteger, s)
    | some n =>
      match TimeUnit.ofOption? option with
      | none => some (.error .badOptions, s)
      | some unit =>
        match deadline? unit now n with
        | none => some (.error (.invalidExpireTime .set), s)
        | some due =>
          onKey? s key (fun shard => some ((), shard.setWithDeadline key value due.instant)) fun _ => some .ok
  | _ => some (.error .badOptions, s)

/-- Gives a key a deadline. -/
def expire? (unit : TimeUnit) (now : Reading) (s : Store) (args : List Bytes) : Option Call.Outcome := do
  let key ← args[0]?
  let amount ← args[1]?
  match Decimal.parse? amount with
  | none => some (.error .notAnInteger, s)
  | some n =>
    match deadline? unit now n with
    | none => some (.error (.invalidExpireTime unit.command), s)
    | some due => onKey? s key (fun shard => some (shard.setExpire key due.instant now.instant)) (some ∘ .flag)

/-- Carries out a command with the arguments after its name. -/
def handle (now : Reading) (s : Store) (args : List Bytes) : Command → Option Call.Outcome
  | .ping => some (.ok (args.head?.elim .pong .bulk), s)
  | .echo => do
    let message ← args[0]?
    some (.ok (.bulk message), s)
  | .set => set? now s args
  | .get => do
    let key ← args[0]?
    onKind? s key (fun shard => shard.get key now.instant) (some ∘ .ofOption)
  | .delete => onKeys? s args fun key shard => shard.delete key now.instant
  | .exist => onKeys? s args fun key shard => (shard.kindOf key now.instant).map Option.isSome id
  | .getMany => do
    let (vs, s) ← getMany? s now.instant args
    some (Call.reply .ofOptions vs, s)
  | .setMany => do
    let s ← setMany? s (chunks args)
    some (.ok .ok, s)
  | .ttl => do
    let key ← args[0]?
    onKey? s key (ttlMillis? now key) fun ms => (ceilSeconds? ms).map .integer
  | .expire => expire? .seconds now s args
  | .expireMillis => expire? .millis now s args
  | .persist => do
    let key ← args[0]?
    onKey? s key (fun shard => some (shard.clearExpire key now.instant)) (some ∘ .flag)
  | .hashSet => do
    let key ← args[0]?
    let rest ← from? args 1
    let pairs ← (chunks rest).mapM pair?
    onKind? s key (fun shard => shard.hashSet key pairs now.instant) count?
  | .hashGet => do
    let key ← args[0]?
    let field ← args[1]?
    onKind? s key (fun shard => shard.hashGet key field now.instant) (some ∘ .ofOption)
  | .hashDelete => do
    let key ← args[0]?
    let fields ← from? args 1
    onKind? s key (fun shard => shard.hashDelete key fields now.instant) count?
  | .hashHas => do
    let key ← args[0]?
    let field ← args[1]?
    onKind? s key (fun shard => shard.hashHas key field now.instant) (some ∘ .flag)
  | .hashSize => do
    let key ← args[0]?
    onKind? s key (fun shard => shard.hashSize key now.instant) count?
  | .hashPairs => do
    let key ← args[0]?
    onKind? s key (fun shard => shard.hashPairs key now.instant) fun pairs =>
      some (.ofOptions (pairs.flatMap fun p => [some p.1, some p.2]))
  | .hashGetMany => do
    let key ← args[0]?
    let fields ← from? args 1
    onKind? s key (fun shard => shard.hashGetMany key fields now.instant) (some ∘ .ofOptions)
  | .kind => do
    let key ← args[0]?
    onKey? s key (fun shard => some (shard.kindOf key now.instant)) fun k =>
      some (.bulk (Bytes.ofString (Kind.name k)))

/-! ### None of it goes wrong -/

variable {s : Store} {key : Bytes} {now : Reading} {n : Nat}

theorem from?_cons (first : Bytes) (rest : List Bytes) : from? (first :: rest) 1 = some rest :=
  if_pos (Nat.le_add_left 1 _)

theorem chunks_cons (p : Bytes × Bytes) (pairs : List (Bytes × Bytes)) :
    chunks ((p :: pairs).flatMap fun p => [p.1, p.2]) =
      [p.1, p.2] :: chunks (pairs.flatMap fun p => [p.1, p.2]) := rfl

/-- Nothing is left over of arguments that are pairs. -/
theorem mapM_pair?_chunks : ∀ pairs : List (Bytes × Bytes),
    (chunks (pairs.flatMap fun p => [p.1, p.2])).mapM pair? = some pairs
  | [] => rfl
  | p :: pairs => by
    rw [chunks_cons, List.mapM_cons, mapM_pair?_chunks pairs]
    rfl

theorem count?_eq (hn : n < Shard.capacity) : count? n = some (.count n) := by
  rw [Shard.capacity] at hn
  have hword : (Int64.ofNat n).toInt = n := Int64.toInt_ofNat_of_lt (by omega)
  rw [count?, Word.ofInt?_eq_some_iff.mpr hword]
  rfl

/-- Rounding up stays within a word: what is rounded is a thousandth of one. -/
theorem ceilSeconds?_eq (ms : Int64) : ceilSeconds? ms = some (Ttl.ceilSeconds ms) := by
  have hthousand : (1000 : Int64).toInt = 1000 := rfl
  have hrange := Word.toInt_range ms
  rw [ceilSeconds?, Ttl.ceilSeconds]
  split
  · rfl
  · next hms =>
    rw [Int64.le_iff_toInt_le, Int64.toInt_zero] at hms
    have hdiv : (ms / 1000).toInt = ms.toInt / 1000 := by
      rw [Int64.toInt_div_of_ne_right _ _ (by decide), hthousand, Int.tdiv_eq_ediv_of_nonneg (by omega)]
    have hup : 0 ≤ (if ms % 1000 = 0 then 0 else 1 : Int64).toInt ∧
        (if ms % 1000 = 0 then 0 else 1 : Int64).toInt ≤ 1 := by
      split <;> decide
    exact Word.add?_eq_some (by omega) (by omega)

theorem inWords_of_room {shard : Shard} (h : shard.Room n) : inWords shard = true := by
  have hgeneration := h.generation
  have htracked := h.tracked
  rw [Shard.capacity] at htracked
  rw [inWords, Bool.and_eq_true, decide_eq_true_eq, decide_eq_true_eq, Agenda.slack]
  omega

/-- There is a shard at the place, and the operation leaves its numbers in their words. -/
theorem onShard?_eq {α : Type} {f : Shard → Option (α × Shard)} {g : Shard → α × Shard}
    (hf : f (s.shardOf key) = some (g (s.shardOf key))) (hroom : (g (s.shardOf key)).2.Room n) :
    onShard? s key f = some (s.onShard key g) := by
  have hplace : place? s key = some (s.index key : Nat) := if_neg (Nat.succ_ne_zero _)
  have hset : s.shards.setIfInBounds (s.index key) (g (s.shardOf key)).2 =
      s.shards.set (s.index key) (g (s.shardOf key)).2 :=
    Vector.ext fun i hi => by rw [Vector.getElem_set, Vector.getElem_setIfInBounds]
  simp only [onShard?, hplace, Option.bind_eq_bind, Option.bind_some, s.shardAt?_index, hf,
    inWords_of_room hroom, if_true, hset]
  rfl

theorem onKey?_eq {α : Type} {f : Shard → Option (α × Shard)} {g : Shard → α × Shard}
    {answer? : α → Option Value} {answer : α → Value} (hf : f (s.shardOf key) = some (g (s.shardOf key)))
    (hroom : (g (s.shardOf key)).2.Room n)
    (hanswer : answer? (g (s.shardOf key)).1 = some (answer (g (s.shardOf key)).1)) :
    onKey? s key f answer? = some (Call.onKey s key g answer) := by
  rw [onKey?, onShard?_eq hf hroom, Store.onShard_eq, Call.onKey, Store.onShard_eq]
  simp only [Option.bind_eq_bind, Option.bind_some, hanswer]

theorem onKind?_eq {α : Type} {f : Shard → Except WrongKind α × Shard} {answer? : α → Option Value}
    {answer : α → Value} (hroom : (f (s.shardOf key)).2.Room n)
    (hanswer : ∀ a, (f (s.shardOf key)).1 = .ok a → answer? a = some (answer a)) :
    onKind? s key f answer? = some (Call.onKind s key f answer) := by
  rw [onKind?, onShard?_eq rfl hroom, Store.onShard_eq, Call.onKind, Store.onShard_eq]
  cases ha : (f (s.shardOf key)).1 with
  | error e => cases e; rfl
  | ok a => simp only [Option.bind_eq_bind, Option.bind_some, hanswer a ha, Call.reply]

/-- Counting keys finds each in its shard, and counts no more of them than there are. -/
theorem countKeys?_eq {f : Bytes → Shard → Bool × Shard}
    (hf : ∀ (key : Bytes) (shard : Shard), shard.Spends (f key shard).2 0) :
    ∀ (keys : List Bytes) {s : Store}, s.Room n →
      countKeys? s f keys = some (s.countKeys f keys) ∧ (s.countKeys f keys).1 ≤ keys.length
  | [], _, _ => ⟨rfl, Nat.le_refl 0⟩
  | key :: keys, s, h => by
    have hshard : (f key (s.shardOf key)).2.Room n :=
      (h.shardOf key).kept (hf key _)
    obtain ⟨hrest, hle⟩ := countKeys?_eq hf keys (h.putShard key hshard)
    rw [countKeys?, onShard?_eq rfl hshard, Store.countKeys, Store.onShard_eq]
    simp only [Option.bind_eq_bind, Option.bind_some, hrest, List.length_cons]
    refine ⟨trivial, ?_⟩
    split <;> omega

theorem onKeys?_eq {keys : List Bytes} {f : Bytes → Shard → Bool × Shard} (h : s.Room keys.length)
    (hf : ∀ (key : Bytes) (shard : Shard), shard.Spends (f key shard).2 0) :
    onKeys? s keys f = some (.ok (.count (s.countKeys f keys).1), (s.countKeys f keys).2) := by
  obtain ⟨hcount, hle⟩ := countKeys?_eq hf keys h
  have hword := count?_eq (Nat.lt_of_le_of_lt hle h.lt_capacity)
  simp only [onKeys?, hcount, Option.bind_eq_bind, Option.bind_some, hword]

theorem getMany?_eq (now : Instant) : ∀ (keys : List Bytes) {s : Store}, s.Room n →
    getMany? s now keys = some (s.getMany now keys)
  | [], _, _ => rfl
  | key :: keys, s, h => by
    have hshard : ((s.shardOf key).get key now).2.Room n :=
      (h.shardOf key).kept (Shard.spends_live _ key now)
    have hrest := getMany?_eq now keys (h.putShard key hshard)
    rw [getMany?, onShard?_eq (g := fun shard => shard.get key now) rfl hshard]
    cases hget : ((s.shardOf key).get key now).1 with
    | error e =>
      rw [Call.getMany_cons_error keys hget, Store.onShard_eq, hget]
      rfl
    | ok v =>
      rw [Call.getMany_cons_ok keys hget, Store.onShard_eq, hget]
      simp only [Option.bind_eq_bind, Option.bind_some, hrest]

theorem setMany?_eq : ∀ (pairs : List (Bytes × Bytes)) {s : Store}, s.Room n →
    setMany? s (chunks (pairs.flatMap fun p => [p.1, p.2])) = some (s.setMany pairs)
  | [], _, _ => rfl
  | p :: pairs, s, h => by
    have hshard : ((s.shardOf p.1).set p.1 p.2).Room n :=
      (h.shardOf p.1).kept (Shard.spends_set _ p.1 p.2)
    have hrest := setMany?_eq pairs (h.putShard p.1 hshard)
    have hpair : pair? [p.1, p.2] = some p := rfl
    rw [chunks_cons, setMany?, hpair]
    simp only [Option.bind_eq_bind, Option.bind_some]
    rw [onShard?_eq (g := fun shard => ((), shard.set p.1 p.2)) rfl hshard]
    exact hrest

/-- The clock can show the deadline of a key. -/
theorem ttlMillis?_eq {shard : Shard} (h : shard.Room n) (now : Reading) (key : Bytes) :
    ttlMillis? now key shard = some (shard.ttlMillis key now.instant) := by
  have hlive : (shard.live key now.instant).Room n := h.kept (shard.spends_live key _)
  simp only [ttlMillis?, Shard.ttlMillis]
  split
  · cases hdue : (shard.live key now.instant).deadlines[key]? with
    | none => rfl
    | some due =>
      obtain ⟨r, rfl⟩ := Reading.exists_reading (hlive.deadline key due hdue)
      simp only [Reading.ofInstant?_eq_some_iff.mpr rfl, Option.map_some, Reading.millisUntil_eq]
  · rfl

theorem deadline?_eq (unit : TimeUnit) (now : Reading) (n : Int64) :
    (deadline? unit now n).map Reading.instant = unit.deadline now.instant n := by
  cases unit with
  | seconds => exact now.instant_afterSeconds? n
  | millis => exact now.instant_afterMillis? n

/-- An operation that does not cost too much leaves the numbers of a shard in their words. -/
theorem room_run (h : s.Room n) (key : Bytes) (op : Shard.Operation) (hcost : op.cost ≤ n)
    (hdue : ∀ due ∈ op.due?, due ≤ Clock.last) : (op.run (s.shardOf key)).2.Room 0 :=
  Shard.Room.spends (n := 0) ((h.shardOf key).mono hcost) (.run _ op hdue)

theorem room_run_of_none (h : s.Room n) (key : Bytes) (op : Shard.Operation) (hcost : op.cost ≤ n)
    (hdue : op.due? = none) : (op.run (s.shardOf key)).2.Room 0 := by
  refine room_run h key op hcost fun due hsome => ?_
  rw [hdue] at hsome
  cases hsome

theorem expire?_eq (unit : TimeUnit) (now : Reading) (key amount : Bytes) (h : s.Room 1) :
    expire? unit now s [key, amount] = some (Call.run now.instant s (.expire unit key amount)) := by
  rw [Call.run, Call.expireDeadline]
  simp only [expire?, List.getElem?_cons_zero, List.getElem?_cons_succ, Option.bind_eq_bind, Option.bind_some]
  cases Decimal.parse? amount with
  | none => rfl
  | some n =>
    simp only [← deadline?_eq]
    cases deadline? unit now n with
    | none => rfl
    | some due =>
      refine onKey?_eq rfl (room_run h key (.setExpire key due.instant now.instant) (Nat.le_refl 1) ?_) rfl
      rintro _ ⟨⟩
      exact due.instant_le_last

/-- The number of arguments is that of a call without options, with two, or with a number of them that is refused
in either form. -/
theorem set?_eq (now : Reading) (key value : Bytes) (options : List Bytes) (h : s.Room 1) :
    set? now s (key :: value :: options) = some (Call.run now.instant s (.set key value options)) := by
  rw [Call.run]
  rcases options with _ | ⟨option, _ | ⟨amount, _ | ⟨third, rest⟩⟩⟩
  · simp only [set?, List.getElem?_cons_zero, List.getElem?_cons_succ, Option.bind_eq_bind, Option.bind_some]
    exact onKey?_eq (g := fun shard => ((), shard.set key value)) rfl
      (room_run_of_none h key (.set key value) (Nat.zero_le 1) rfl) rfl
  · rfl
  · simp only [set?, Call.setDeadline?, List.length_cons, List.length_nil, List.getElem?_cons_zero,
      List.getElem?_cons_succ, Option.bind_eq_bind, Option.bind_some]
    cases Decimal.parse? amount with
    | none => rfl
    | some n =>
      cases TimeUnit.ofOption? option with
      | none => rfl
      | some unit =>
        simp only [← deadline?_eq]
        cases deadline? unit now n with
        | none => rfl
        | some due =>
          refine onKey?_eq rfl (room_run h key (.setWithDeadline key value due.instant) (Nat.le_refl 1) ?_) rfl
          rintro _ ⟨⟩
          exact due.instant_le_last
  · rfl

/-- **What a handler does by position is what the call does**, and nothing goes wrong on the way. -/
theorem handle_eq {call : Call} (h : s.Room call.arguments.length) (now : Reading) :
    handle now s call.arguments call.command = some (call.run now.instant s) := by
  cases call with
  | ping message => cases message <;> rfl
  | echo message => rfl
  | set key value options => exact set?_eq now key value options (h.mono (Nat.le_add_left 1 _))
  | get key => exact onKind?_eq (room_run_of_none h key (.get key now.instant) (Nat.zero_le _) rfl) fun _ _ => rfl
  | delete keys => exact onKeys?_eq h fun key shard => shard.spends_delete key now.instant
  | exist keys => exact onKeys?_eq h fun key shard => shard.spends_live key now.instant
  | getMany keys =>
    simp only [Call.command, Call.arguments, handle, getMany?_eq now.instant keys h, Option.bind_eq_bind,
      Option.bind_some]
    rfl
  | setMany pairs =>
    simp only [Call.command, Call.arguments, handle, setMany?_eq pairs h, Option.bind_eq_bind, Option.bind_some]
    rfl
  | ttl key =>
    simp only [Call.command, Call.arguments, Call.run, handle, List.getElem?_cons_zero, Option.bind_eq_bind,
      Option.bind_some]
    refine onKey?_eq (g := fun shard => shard.ttlMillis key now.instant) (ttlMillis?_eq (h.shardOf key) now key)
      (room_run_of_none h key (.ttlMillis key now.instant) (Nat.zero_le _) rfl) ?_
    rw [ceilSeconds?_eq, Option.map_some]
  | expire unit key amount =>
    have hroom : s.Room 1 := h.mono (Nat.le_add_left 1 _)
    cases unit with
    | seconds => exact expire?_eq .seconds now key amount hroom
    | millis => exact expire?_eq .millis now key amount hroom
  | persist key =>
    exact onKey?_eq (g := fun shard => shard.clearExpire key now.instant) rfl
      (room_run_of_none h key (.clearExpire key now.instant) (Nat.zero_le _) rfl) rfl
  | hashSet key pairs =>
    have hcost : pairs.length ≤ (Call.hashSet key pairs).arguments.length := by
      rw [Call.arguments, List.length_cons, Call.length_pairs]
      omega
    simp only [Call.command, Call.arguments, handle, List.getElem?_cons_zero, from?_cons, mapM_pair?_chunks,
      Option.bind_eq_bind, Option.bind_some]
    exact onKind?_eq (room_run_of_none h key (.hashSet key pairs now.instant) hcost rfl) fun n hn =>
      count?_eq (Shard.hashSet_lt ((h.shardOf key).mono hcost) hn)
  | hashGet key field =>
    exact onKind?_eq (room_run_of_none h key (.hashGet key field now.instant) (Nat.zero_le _) rfl) fun _ _ => rfl
  | hashDelete key fields =>
    simp only [Call.command, Call.arguments, handle, List.getElem?_cons_zero, from?_cons, Option.bind_eq_bind,
      Option.bind_some]
    exact onKind?_eq (room_run_of_none h key (.hashDelete key fields now.instant) (Nat.zero_le _) rfl) fun n hn =>
      count?_eq (Shard.hashDelete_lt (h.shardOf key) hn)
  | hashHas key field =>
    exact onKind?_eq (room_run_of_none h key (.hashHas key field now.instant) (Nat.zero_le _) rfl) fun _ _ => rfl
  | hashSize key =>
    exact onKind?_eq (room_run_of_none h key (.hashSize key now.instant) (Nat.zero_le _) rfl) fun n hn =>
      count?_eq (Shard.hashSize_lt (h.shardOf key) hn)
  | hashPairs key =>
    exact onKind?_eq (room_run_of_none h key (.hashPairs key now.instant) (Nat.zero_le _) rfl) fun _ _ => rfl
  | hashGetMany key fields =>
    exact onKind?_eq (room_run_of_none h key (.hashGetMany key fields now.instant) (Nat.zero_le _) rfl) fun _ _ => rfl
  | kind key =>
    simp only [Call.command, Call.arguments, Call.run, handle, List.getElem?_cons_zero, Option.bind_eq_bind,
      Option.bind_some]
    exact onKey?_eq (g := fun shard => shard.kindOf key now.instant) rfl
      (room_run_of_none h key (.kindOf key now.instant) (Nat.zero_le _) rfl) rfl

-- A handler relies on the number of arguments: with too few it crashes, and one that is not in a pair is lost.
example (key : Bytes) : handle now s [key] .hashGet = none := rfl
example (a b c : Bytes) : handle now s [a, b, c] .setMany = handle now s [a, b] .setMany := rfl

end Handler
end Keyspace

/-
# A key lives exactly until its deadline

SET with an option, EXPIRE and PEXPIRE give a key a `Lifetime`. What it comes to is one instant,
`Lifetime.due`, and from then on nothing but a request that writes the key has a say in it: every other
request and every sweep leaves what is live under the key at later instants (`Placed.live_runTasks`),
whether it evicts the key, names it or not. So the key shows as if it had no deadline before `due`, and as
if it had never been there from `due` on, whatever happens in between (`lifetime_exact`).

Requests are told by their words, which may be spelled in letters of any case (`Bytes.Spells`).

Key definitions: `Bytes.Spells`, `Lifetime`, `Lifetime.Asked`, `Call.writes`, `Call.reads`, `Store.Lasts`.
Key theorems: `Placed.live_runTasks`, `Lifetime.Asked.execute_of_valid`, `Placed.lasts`, `lifetime_exact`.
-/
import Keyspace.Proofs.Expiry.Clock
import Keyspace.Proofs.Store.Sharding

namespace Keyspace

open Shard (Operation Result)

/-! ### Words -/

/-- The octets are this word, in ASCII letters of any case. -/
def Bytes.Spells (bs : Bytes) (word : String) : Prop := Bytes.lower bs = Bytes.lower (Bytes.ofString word)

instance (bs : Bytes) (word : String) : Decidable (bs.Spells word) :=
  inferInstanceAs (Decidable (Bytes.lower bs = Bytes.lower (Bytes.ofString word)))

/-- A command is found under its name, however that is spelled. -/
theorem Command.lookup_of_spells {c : Command} {name : Bytes} (h : name.Spells c.name) : lookup name = some c := by
  rw [← lookup_name c]
  unfold lookup Bytes.sameIgnoringCase
  rw [show Bytes.lower name = _ from h]

/-- The option of SET for a time to live in this unit. -/
def TimeUnit.optionWord : TimeUnit → String
  | .seconds => "EX"
  | .millis => "PX"

/-- The command that gives a key a time to live in this unit. -/
def TimeUnit.commandWord : TimeUnit → String
  | .seconds => "expire"
  | .millis => "pexpire"

theorem TimeUnit.ofOption?_of_spells {unit : TimeUnit} {option : Bytes} (h : option.Spells unit.optionWord) :
    ofOption? option = some unit := by
  have hoption : ofOption? option = ofOption? (Bytes.ofString unit.optionWord) := by
    unfold ofOption? Bytes.sameIgnoringCase
    rw [show Bytes.lower option = _ from h]
  rw [hoption]
  cases unit <;> decide +kernel

theorem TimeUnit.lookup_of_spells {unit : TimeUnit} {name : Bytes} (h : name.Spells unit.commandWord) :
    Command.lookup name = some unit.command := by
  cases unit with
  | seconds => exact Command.lookup_of_spells (c := .expire) h
  | millis => exact Command.lookup_of_spells (c := .expireMillis) h

/-! ### Calls that write a key and calls that read one -/

namespace Call

/-- Whether the call may change the value or the deadline of a key. -/
def writes (key : Bytes) : Call → Bool
  | set k _ _ | expire _ k _ | persist k | hashSet k _ | hashDelete k _ => k == key
  | delete keys => keys.contains key
  | setMany pairs => pairs.any fun p => p.1 == key
  | _ => false

/-- Whether the call asks for the value of a key, its kind, or whether it is there. -/
def reads (key : Bytes) : Call → Bool
  | get k | kind k | hashGet k _ | hashHas k _ | hashSize k | hashPairs k | hashGetMany k _ => k == key
  | exist keys => keys == [key]
  | _ => false

end Call

/-- Whether the task is a request that may change the value or the deadline of a key. -/
def Task.writes (key : Bytes) : Task → Bool
  | request _ args =>
    match Call.ofRequest args with
    | .ok call => call.writes key
    | .error _ => false
  | sweepAll _ | nextDue => false

/-! ### What is live later -/

/-- The operation is about another key, or changes nothing but what has expired. -/
def Shard.Operation.Spares (op : Operation) (key : Bytes) (now : Instant) : Prop :=
  op.key? ≠ some key ∨ (op.now? = some now ∧ ∀ b, (op.onBinding b).2 = b)

/-- An operation of a call is about a key that the call writes, or changes nothing but what has expired. -/
theorem Call.operations_write_or_keep {call : Call} {now : Instant} {ops : List Operation}
    (h : call.operations now = .ok ops) : ∀ op ∈ ops,
    (∃ k, op.key? = some k ∧ call.writes k = true) ∨ (op.now? = some now ∧ ∀ b, (op.onBinding b).2 = b) := by
  intro op hop
  cases Call.performs_of_mem h op hop with
  | @delete key keys hkey => exact .inl ⟨key, rfl, List.contains_iff_mem.mpr hkey⟩
  | @setMany p pairs hp => exact .inl ⟨p.1, rfl, List.any_eq_true.mpr ⟨p, hp, beq_self_eq_true p.1⟩⟩
  | set | setWithDeadline | expire | persist | hashSet | hashDelete => exact .inl ⟨_, rfl, beq_self_eq_true _⟩
  | _ => exact .inr ⟨rfl, fun _ => rfl⟩

/-- A call that does not write a key spares it in all its operations. -/
theorem Call.operations_spare {call : Call} {key : Bytes} {now : Instant} {ops : List Operation}
    (h : call.writes key = false) (hops : call.operations now = .ok ops) :
    ∀ op ∈ ops, op.Spares key now := by
  intro op hop
  rcases Call.operations_write_or_keep hops op hop with ⟨k, hk, hwrites⟩ | hkeeps
  · refine .inl fun hkey => ?_
    rw [hk, Option.some_inj] at hkey
    rw [hkey, h] at hwrites
    cases hwrites
  · exact .inr hkeeps

namespace Store
variable {s : Store} {key : Bytes} {now later : Instant}

theorem Placed.live_run (h : s.Placed) {op : Operation} (hop : op.Spares key now) (hle : now ≤ later) :
    Binding.live later ((s.run op).2.binding? key) = Binding.live later (s.binding? key) := by
  cases hkey : op.key? with
  | none => rw [run_maintenance s hkey]
  | some k =>
    obtain ⟨-, -, hchanges⟩ := h.run op hkey
    by_cases hk : key = k
    · subst hk
      obtain ⟨hnow, hsame⟩ := hop.resolve_left (fun hne => hne hkey)
      rw [hchanges.self, hsame, Operation.finds, hnow]
      exact Binding.live_live hle _
    · rw [hchanges.others key hk]

theorem Placed.live_perform (hle : now ≤ later) : ∀ (ops : List Operation) {s : Store}, s.Placed →
    (∀ op ∈ ops, op.Spares key now) →
    Binding.live later ((s.perform ops).2.binding? key) = Binding.live later (s.binding? key)
  | [], _, _, _ => rfl
  | op :: ops, s, h, hops => by
    have hfirst := h.live_run (hops op List.mem_cons_self) hle
    cases hrefused : (s.run op).1.isRefused with
    | true => rw [perform_cons_of_refused ops hrefused, hfirst]
    | false =>
      rw [perform_cons ops hrefused, ← hfirst]
      exact Placed.live_perform hle ops (h.alike.run op).2.left fun o ho => hops o (List.mem_cons_of_mem _ ho)

/-- **A task that does not write a key leaves what is live under it** at every later instant. -/
theorem Placed.live_task (h : s.Placed) {task : Task} (htask : task.writes key = false)
    (hle : ∀ now ∈ task.now?, now ≤ later) :
    Binding.live later ((task.run s).2.binding? key) = Binding.live later (s.binding? key) := by
  cases task with
  | request now args =>
    show Binding.live later ((execute now s args).2.binding? key) = _
    cases hcall : Call.ofRequest args with
    | error e => rw [execute_of_error hcall]
    | ok call =>
      cases hops : call.operations now with
      | error e => rw [execute_of_no_operations hcall hops]
      | ok ops =>
        simp only [Task.writes, hcall] at htask
        rw [execute_of_operations hcall hops]
        exact Placed.live_perform (hle now rfl) ops h (Call.operations_spare htask hops)
  | sweepAll now =>
    show Binding.live later ((s.sweepAll now).2.binding? key) = _
    rw [(h.sweepAll now).2]
    exact Binding.live_live (hle now rfl) _
  | nextDue =>
    show Binding.live later (s.nextDue.2.binding? key) = _
    rw [h.nextDue.2]

theorem Placed.live_runTasks : ∀ (tasks : List Task) {s : Store}, s.Placed →
    (∀ task ∈ tasks, task.writes key = false ∧ ∀ now ∈ task.now?, now ≤ later) →
    Binding.live later ((s.runTasks tasks).2.binding? key) = Binding.live later (s.binding? key)
  | [], _, _, _ => rfl
  | task :: tasks, s, h, htasks => by
    obtain ⟨hwrites, hle⟩ := htasks task List.mem_cons_self
    have hrest := Placed.live_runTasks tasks (h.alike.task task).2.left fun t ht => htasks t (List.mem_cons_of_mem _ ht)
    exact hrest.trans (h.live_task hwrites hle)

/-! ### What is read -/

/-- The value that a key holds, if it has not expired. -/
def valueAt? (s : Store) (now : Instant) (key : Bytes) : Option Stored :=
  (Binding.live now (s.binding? key)).map Binding.value

end Store

namespace Binding
variable {b b' : Option Binding}

theorem string?_congr (h : b.map value = b'.map value) : string? b = string? b' := by
  rcases b with _ | ⟨_ | _, _⟩ <;> rcases b' with _ | ⟨_ | _, _⟩ <;> simp_all [string?]

theorem fields_congr (h : b.map value = b'.map value) : fields b = fields b' := by
  rcases b with _ | ⟨_ | _, _⟩ <;> rcases b' with _ | ⟨_ | _, _⟩ <;> simp_all [fields]

theorem kind_congr (h : b.map value = b'.map value) :
    b.map (fun b => b.value.kind) = b'.map fun b => b.value.kind := by
  rcases b with _ | ⟨_ | _, _⟩ <;> rcases b' with _ | ⟨_ | _, _⟩ <;> simp_all

end Binding

namespace Call

/-- A call that reads a key performs one operation, whose result depends on the value only. -/
theorem read_operation {call : Call} {key : Bytes} (h : call.reads key = true) :
    ∃ op : Instant → Operation,
      (∀ now, call.operations now = .ok [op now] ∧ (op now).key? = some key ∧ (op now).now? = some now) ∧
      ∀ (now now' : Instant) (b b' : Option Binding), b.map Binding.value = b'.map Binding.value →
        ((op now).onBinding b).1 = ((op now').onBinding b').1 := by
  cases call with
  | get k =>
    obtain rfl := eq_of_beq h
    exact ⟨(.get k ·), fun _ => ⟨rfl, rfl, rfl⟩, fun _ _ _ _ hsame => by
      simp only [Operation.onBinding, Binding.string?_congr hsame]⟩
  | exist keys =>
    obtain rfl := eq_of_beq h
    exact ⟨(.kindOf key ·), fun _ => ⟨rfl, rfl, rfl⟩, fun _ _ _ _ hsame => by
      simp only [Operation.onBinding, Binding.kind_congr hsame]⟩
  | kind k =>
    obtain rfl := eq_of_beq h
    exact ⟨(.kindOf k ·), fun _ => ⟨rfl, rfl, rfl⟩, fun _ _ _ _ hsame => by
      simp only [Operation.onBinding, Binding.kind_congr hsame]⟩
  | hashGet k field =>
    obtain rfl := eq_of_beq h
    exact ⟨(.hashGet k field ·), fun _ => ⟨rfl, rfl, rfl⟩, fun _ _ _ _ hsame => by
      simp only [Operation.onBinding, Binding.fields_congr hsame]⟩
  | hashHas k field =>
    obtain rfl := eq_of_beq h
    exact ⟨(.hashHas k field ·), fun _ => ⟨rfl, rfl, rfl⟩, fun _ _ _ _ hsame => by
      simp only [Operation.onBinding, Binding.fields_congr hsame]⟩
  | hashSize k =>
    obtain rfl := eq_of_beq h
    exact ⟨(.hashSize k ·), fun _ => ⟨rfl, rfl, rfl⟩, fun _ _ _ _ hsame => by
      simp only [Operation.onBinding, Binding.fields_congr hsame]⟩
  | hashPairs k =>
    obtain rfl := eq_of_beq h
    exact ⟨(.hashPairs k ·), fun _ => ⟨rfl, rfl, rfl⟩, fun _ _ _ _ hsame => by
      simp only [Operation.onBinding, Binding.fields_congr hsame]⟩
  | hashGetMany k fields =>
    obtain rfl := eq_of_beq h
    exact ⟨(.hashGetMany k fields ·), fun _ => ⟨rfl, rfl, rfl⟩, fun _ _ _ _ hsame => by
      simp only [Operation.onBinding, Binding.fields_congr hsame]⟩
  | _ => cases h

end Call

/-- Where a key holds the same value, requests that read it get the same reply. -/
theorem Store.Placed.execute_eq_of_reads {s t : Store} (hs : s.Placed) (ht : t.Placed) {now now' : Instant}
    {key : Bytes} {args : List Bytes} {call : Call} (hcall : Call.ofRequest args = .ok call)
    (hreads : call.reads key = true) (hsame : s.valueAt? now key = t.valueAt? now' key) :
    (execute now s args).1 = (execute now' t args).1 := by
  obtain ⟨op, hop, hresult⟩ := Call.read_operation hreads
  obtain ⟨hops, hkey, hnow⟩ := hop now
  obtain ⟨hops', hkey', hnow'⟩ := hop now'
  rw [execute_of_operation hcall hops, execute_of_operation hcall hops', hs.run_timed hkey hnow,
    ht.run_timed hkey' hnow', hresult now now' _ _ hsame]

/-! ### Lifetimes -/

/-- The length of the unit in nanoseconds. -/
def TimeUnit.nanos : TimeUnit → Nat
  | .seconds => Clock.second
  | .millis => Clock.milli

/-- A time to live for a key, as a command asks for it. -/
structure Lifetime where
  key : Bytes
  /-- The word for the command. -/
  command : String
  unit : TimeUnit
  amount : Int64

namespace Lifetime

/-- When the key vanishes, if it is given the lifetime now. Negative amounts count as zero. -/
def due (l : Lifetime) (now : Instant) : Instant := now + l.amount.toInt.toNat * l.unit.nanos

/-- The amount of seconds does not fit in a word as milliseconds, or the clock cannot show the deadline. -/
def Invalid (l : Lifetime) (now : Instant) : Prop :=
  (l.unit = .seconds ∧ 9223372036854775807 < l.amount.toInt.toNat * 1000) ∨ Clock.last < l.due now

/-- The reply to a request for a lifetime that cannot be given. -/
def refusal (l : Lifetime) : Value := .error ("ERR invalid expire time in '" ++ l.command ++ "' command")

/-- The requests that ask for a lifetime in a store, each with the store that there would be if the key
were left without it. -/
inductive Asked (s : Store) (now : Instant) : Lifetime → List Bytes → Store → Prop
  | set {name key value option amount : Bytes} {unit : TimeUnit} {n : Int64}
      (hname : name.Spells "set") (hoption : option.Spells unit.optionWord)
      (hamount : Decimal.parse? amount = some n) :
      Asked s now ⟨key, "set", unit, n⟩ [name, key, value, option, amount]
        (execute now s [name, key, value]).2
  | expire {name key amount : Bytes} {unit : TimeUnit} {n : Int64}
      (hname : name.Spells unit.commandWord) (hamount : Decimal.parse? amount = some n) :
      Asked s now ⟨key, unit.commandWord, unit, n⟩ [name, key, amount] s

variable {l : Lifetime} {s r : Store} {now later : Instant} {args : List Bytes}

/-- The deadline that the clock can show is the exact sum, and it fails to be one for the reasons given. -/
theorem deadline_eq_some_iff {due : Instant} :
    l.unit.deadline now l.amount = some due ↔ ¬ l.Invalid now ∧ due = l.due now := by
  cases hunit : l.unit with
  | seconds =>
    rw [TimeUnit.deadline, Deadline.afterSeconds_eq_some_iff, Invalid, Lifetime.due, hunit]
    simp only [TimeUnit.nanos, true_and, not_or, Nat.not_lt]
    constructor
    · rintro ⟨hfits, rfl, hlast⟩
      exact ⟨⟨hfits, hlast⟩, rfl⟩
    · rintro ⟨⟨hfits, hlast⟩, rfl⟩
      exact ⟨hfits, rfl, hlast⟩
  | millis =>
    rw [TimeUnit.deadline, Deadline.afterMillis_eq_some_iff, Invalid, Lifetime.due, hunit]
    simp only [TimeUnit.nanos, reduceCtorEq, false_and, false_or, Nat.not_lt]
    constructor
    · rintro ⟨rfl, hlast⟩
      exact ⟨hlast, rfl⟩
    · rintro ⟨hlast, rfl⟩
      exact ⟨rfl, hlast⟩

theorem deadline_of_invalid (h : l.Invalid now) : l.unit.deadline now l.amount = none := by
  cases hdue : l.unit.deadline now l.amount with
  | none => rfl
  | some due => exact absurd h (deadline_eq_some_iff.mp hdue).1

theorem deadline_of_valid (h : ¬ l.Invalid now) : l.unit.deadline now l.amount = some (l.due now) :=
  deadline_eq_some_iff.mpr ⟨h, rfl⟩

/-- A lifetime that can be given is one whose milliseconds fit in a word. -/
theorem due_sub_le (h : ¬ l.Invalid now) (hle : now ≤ later) :
    l.due now - later ≤ 9223372036854775807 * Clock.milli := by
  have hword : l.amount.toInt.toNat ≤ 9223372036854775807 := by
    have hmax := l.amount.toInt_le
    rw [Int64.toInt_maxValue] at hmax
    omega
  have hnanos : l.amount.toInt.toNat * l.unit.nanos ≤ 9223372036854775807 * Clock.milli := by
    rw [Invalid, not_or] at h
    cases hunit : l.unit with
    | seconds =>
      rw [hunit] at h
      simp only [true_and, Nat.not_lt] at h
      simp only [TimeUnit.nanos, Clock.second, Clock.milli]
      omega
    | millis => exact Nat.mul_le_mul_right _ hword
  have hdue : l.due now = now + l.amount.toInt.toNat * l.unit.nanos := rfl
  rw [hdue, Nat.sub_le_iff_le_add]
  exact (Nat.add_le_add hle hnanos).trans (Nat.add_comm _ _).le

/-! ### Requests for a lifetime -/

theorem ofRequest_set {name key value : Bytes} (hname : name.Spells "set") :
    Call.ofRequest [name, key, value] = .ok (.set key value []) := by
  rw [Call.ofRequest, Command.lookup_of_spells (c := .set) hname]
  rfl

theorem ofRequest_set_option {name key value option amount : Bytes}
    (hname : name.Spells "set") :
    Call.ofRequest [name, key, value, option, amount] = .ok (.set key value [option, amount]) := by
  rw [Call.ofRequest, Command.lookup_of_spells (c := .set) hname]
  rfl

theorem ofRequest_expire {name key amount : Bytes} {unit : TimeUnit}
    (hname : name.Spells unit.commandWord) :
    Call.ofRequest [name, key, amount] = .ok (.expire unit key amount) := by
  rw [Call.ofRequest, TimeUnit.lookup_of_spells hname]
  cases unit <;> rfl

/-- A request for an invalid lifetime fails and changes nothing. -/
theorem Asked.execute_of_invalid (h : l.Asked s now args r) (hinvalid : l.Invalid now) :
    execute now s args = (l.refusal, s) := by
  have hnone := deadline_of_invalid hinvalid
  cases h with
  | @set name key value option amount unit n hname hoption hamount =>
    have hops : (Call.set key value [option, amount]).operations now = .error (.invalidExpireTime .set) := by
      simp only [Call.operations, Call.setDeadline?, hamount, TimeUnit.ofOption?_of_spells hoption, hnone, Except.map]
    exact execute_of_no_operations (ofRequest_set_option hname) hops
  | @expire name key amount unit n hname hamount =>
    have hops : (Call.expire unit key amount).operations now = .error (.invalidExpireTime unit.command) := by
      simp only [Call.operations, Call.expireDeadline, hamount, hnone, Except.map]
    rw [execute_of_no_operations (ofRequest_expire hname) hops]
    cases unit <;> rfl

/-- Between stores a key was given the lifetime: it holds the value that it holds in a third store. -/
def Gives (l : Lifetime) (now : Instant) (t r : Store) : Prop :=
  ∃ value, t.binding? l.key = some ⟨value, some (l.due now)⟩ ∧ r.valueAt? now l.key = some value

/-- A request for a valid lifetime gives it to the key, unless it is EXPIRE and finds no key. -/
theorem Asked.execute_of_valid (h : l.Asked s now args r) (hs : s.Placed) (hvalid : ¬ l.Invalid now) :
    ∃ given : Bool, ((execute now s args).1 = .ok ∧ given = true ∨ (execute now s args).1 = .flag given) ∧
      (given = true → l.Gives now (execute now s args).2 r) := by
  have hdue := deadline_of_valid hvalid
  cases h with
  | @set name key value option amount unit n hname hoption hamount =>
    have hops : (Call.set key value [option, amount]).operations now =
        .ok [.setWithDeadline key value (Lifetime.due ⟨key, "set", unit, n⟩ now)] := by
      simp only [Call.operations, Call.setDeadline?, hamount, TimeUnit.ofOption?_of_spells hoption, hdue, Except.map]
    have hplain : (Call.set key value []).operations now = .ok [.set key value] := rfl
    obtain ⟨-, -, hset⟩ := hs.run (.setWithDeadline key value (Lifetime.due ⟨key, "set", unit, n⟩ now)) rfl
    obtain ⟨-, -, hplainset⟩ := hs.run (.set key value) rfl
    rw [execute_of_operation (ofRequest_set_option hname) hops]
    refine ⟨true, .inl ⟨rfl, rfl⟩, fun _ => ⟨.string value, hset.self, ?_⟩⟩
    rw [execute_of_operation (ofRequest_set hname) hplain, Store.valueAt?, hplainset.self]
    rfl
  | @expire name key amount unit n hname hamount =>
    have hops : (Call.expire unit key amount).operations now =
        .ok [.setExpire key (Lifetime.due ⟨key, unit.commandWord, unit, n⟩ now) now] := by
      simp only [Call.operations, Call.expireDeadline, hamount, hdue, Except.map]
    obtain ⟨hflag, -, hgiven⟩ :=
      hs.run (.setExpire key (Lifetime.due ⟨key, unit.commandWord, unit, n⟩ now) now) rfl
    rw [execute_of_operation (ofRequest_expire hname) hops]
    refine ⟨(Binding.live now (s.binding? key)).isSome, .inr ?_, fun hthere => ?_⟩
    · rw [hflag]
      rfl
    · obtain ⟨b, hb⟩ := Option.isSome_iff_exists.mp hthere
      refine ⟨b.value, hgiven.self.trans ?_, by rw [Store.valueAt?, hb]; rfl⟩
      show (Binding.live now (s.binding? key)).map _ = _
      rw [hb]
      rfl

end Lifetime

/-! ### What shows of a lifetime -/

namespace Store
variable {s t r : Store} {now later : Instant} {key name : Bytes}

theorem Placed.execute_exist (h : s.Placed) (hname : name.Spells "exists") :
    (execute now s [name, key]).1 = .flag (Binding.live now (s.binding? key)).isSome := by
  have hcall : Call.ofRequest [name, key] = .ok (.exist [key]) := by
    rw [Call.ofRequest, Command.lookup_of_spells (c := .exist) hname]
    rfl
  have hops : (Call.exist [key]).operations now = .ok [.kindOf key now] := rfl
  rw [execute_of_operation hcall hops, h.run_timed rfl rfl]
  show Value.count ([Result.kind ((Binding.live now (s.binding? key)).map _)].countP Result.isYes) = _
  cases Binding.live now (s.binding? key) <;> rfl

theorem Placed.execute_ttl (h : s.Placed) (hname : name.Spells "ttl") :
    (execute now s [name, key]).1 =
      .integer (Ttl.ceilSeconds (Binding.ttlMillis now (Binding.live now (s.binding? key)))) := by
  have hcall : Call.ofRequest [name, key] = .ok (.ttl key) := by
    rw [Call.ofRequest, Command.lookup_of_spells (c := .ttl) hname]
    rfl
  have hops : (Call.ttl key).operations now = .ok [.ttlMillis key now] := rfl
  rw [execute_of_operation hcall hops, h.run_timed rfl rfl]
  rfl

/-- What requests about a key show in a store, at an instant, if the key vanishes when it is due: before, it
is as in another store at some other instant, and afterwards as in the empty store. -/
structure Lasts (s : Store) (now : Instant) (key : Bytes) (due : Instant) (r : Store) (since : Instant) :
    Prop where
  exist : ∀ name : Bytes, name.Spells "exists" →
    (execute now s [name, key]).1 = .flag (decide (now < due))
  ttl : ∀ name : Bytes, name.Spells "ttl" → ∃ seconds : Int64,
    (execute now s [name, key]).1 = .integer seconds ∧
    (now < due → 1 ≤ seconds.toInt ∧
      seconds.toInt = ((due - now + (Clock.second - 1)) / Clock.second : Nat)) ∧
    (due ≤ now → seconds.toInt = -2)
  before : now < due → ∀ args call, Call.ofRequest args = .ok call → call.reads key = true →
    (execute now s args).1 = (execute since r args).1
  after : due ≤ now → ∀ args call, Call.ofRequest args = .ok call → call.reads key = true →
    (execute now s args).1 = (execute now standard args).1

/-- A key that was given a lifetime lasts for it, as long as what is live under it is left alone. -/
theorem Placed.lasts {l : Lifetime} (hs : s.Placed) (hr : r.Placed) (hgives : l.Gives now t r)
    (hvalid : ¬ l.Invalid now) (hle : now ≤ later)
    (hlive : Binding.live later (s.binding? l.key) = Binding.live later (t.binding? l.key)) :
    s.Lasts later l.key (l.due now) r now := by
  obtain ⟨value, hgiven, hsame⟩ := hgives
  rw [hgiven] at hlive
  have hbefore : later < l.due now →
      Binding.live later (s.binding? l.key) = some ⟨value, some (l.due now)⟩ := fun h => by
    rw [hlive]
    simp [Binding.live, Option.filter_some, Binding.isLive, h]
  have hafter : l.due now ≤ later → Binding.live later (s.binding? l.key) = none := fun h => by
    rw [hlive]
    simp [Binding.live, Option.filter_some, Binding.isLive, h]
  refine ⟨fun name hname => ?_, fun name hname => ⟨_, hs.execute_ttl hname, fun h => ?_, fun h => ?_⟩,
    fun h args call hcall hreads => ?_, fun h args call hcall hreads => ?_⟩
  · rw [hs.execute_exist hname]
    by_cases h : later < l.due now
    · rw [hbefore h, decide_eq_true h]
      rfl
    · rw [hafter (Nat.not_lt.mp h), decide_eq_false h]
      rfl
  · rw [hbefore h]
    have hseconds := Ttl.toInt_ceilSeconds_remaining (Lifetime.due_sub_le hvalid hle)
    refine ⟨?_, hseconds⟩
    show 1 ≤ (Ttl.ceilSeconds (Deadline.remainingMillis (l.due now) later)).toInt
    have hleft : 1 ≤ l.due now - later := Nat.sub_pos_of_lt h
    have hpos : 0 < (l.due now - later + (Clock.second - 1)) / Clock.second :=
      Nat.div_pos (Nat.add_le_add_right hleft (Clock.second - 1)) (by decide)
    rw [hseconds]
    exact Int.natCast_pos.mpr hpos
  · rw [hafter h]
    rfl
  · refine hs.execute_eq_of_reads hr hcall hreads ?_
    rw [hsame, valueAt?, hbefore h]
    rfl
  · refine hs.execute_eq_of_reads (placed_emptyBy _ _ _) hcall hreads ?_
    rw [valueAt?, hafter h, valueAt?, binding?_emptyBy]
    rfl

end Store

/-! ### The theorem -/

theorem Value.eq_true_of_flag {b : Bool} (h : Value.flag b = .flag true) : b = true := by
  cases b with
  | true => rfl
  | false => exact absurd (Value.integer.inj h) (by decide)

/-- SET without options stores the string that GET replies with. -/
theorem Store.Placed.execute_get_set {s : Store} (h : s.Placed) {now : Instant} {name get key value : Bytes}
    (hname : name.Spells "set") (hget : get.Spells "get") :
    (execute now (execute now s [name, key, value]).2 [get, key]).1 = .bulk value := by
  have hcall : Call.ofRequest [get, key] = .ok (.get key) := by
    rw [Call.ofRequest, Command.lookup_of_spells (c := .get) hget]
    rfl
  have hops : (Call.get key).operations now = .ok [.get key now] := rfl
  have hplain : (Call.set key value []).operations now = .ok [.set key value] := rfl
  obtain ⟨-, hplaced, hset⟩ := h.run (.set key value) rfl
  rw [execute_of_operation (Lifetime.ofRequest_set hname) hplain, execute_of_operation hcall hops,
    hplaced.run_timed rfl rfl, hset.self]
  rfl

theorem Lifetime.Asked.placed {l : Lifetime} {s r : Store} {now : Instant} {args : List Bytes}
    (h : l.Asked s now args r) (hs : s.Placed) : r.Placed := by
  cases h with
  | set _ _ _ => exact (hs.alike.request now _).2.left
  | expire _ _ => exact hs

/-- **A key lives exactly until its deadline.** A request for a lifetime fails, and changes nothing, if the
lifetime is invalid and only then. If it succeeds, then at every later instant, whatever was asked in between
that does not write the key, the key shows what it held until it is due, and nothing from then on. -/
theorem lifetime_exact (hash : Bytes → UInt64) (count : Nat) (mode : Mode) (before : List Task)
    (now : Instant) (l : Lifetime) (args : List Bytes) (r : Store)
    (h : l.Asked ((Store.emptyBy hash count mode).runTasks before).2 now args r) :
    let s := ((Store.emptyBy hash count mode).runTasks before).2
    let reply := (execute now s args).1
    let t := (execute now s args).2
    (reply = l.refusal ↔ l.Invalid now) ∧
    (l.Invalid now → t = s) ∧
    (l.amount.toInt ≤ 0 → l.due now = now) ∧
    (∀ (name value option amount get : Bytes), args = [name, l.key, value, option, amount] →
      get.Spells "get" → (execute now r [get, l.key]).1 = .bulk value) ∧
    (reply = .ok ∨ reply = .flag true → ∀ (tasks : List Task) (later : Instant), now ≤ later →
      (∀ task ∈ tasks, task.writes l.key = false ∧ ∀ reading ∈ task.now?, reading ≤ later) →
      (t.runTasks tasks).2.Lasts later l.key (l.due now) r now) := by
  have hs := Store.placed_runTasks hash count mode before
  generalize ((Store.emptyBy hash count mode).runTasks before).2 = s at h hs
  refine ⟨?_, fun hinvalid => congrArg Prod.snd (h.execute_of_invalid hinvalid), fun hamount => ?_,
    fun name value option amount get hargs hget => ?_, fun hdone tasks later hle htasks => ?_⟩
  · by_cases hinvalid : l.Invalid now
    · rw [h.execute_of_invalid hinvalid]
      exact iff_of_true rfl hinvalid
    · refine iff_of_false ?_ hinvalid
      obtain ⟨given, ⟨hok, -⟩ | hflag, -⟩ := h.execute_of_valid hs hinvalid
      · rw [hok]
        nofun
      · rw [hflag]
        nofun
  · rw [Lifetime.due, Int.toNat_of_nonpos hamount, Nat.zero_mul, Nat.add_zero]
  · cases h with
    | set hname hoption hamount =>
      cases hargs
      exact hs.execute_get_set hname hget
    | expire hname hamount => cases hargs
  · by_cases hinvalid : l.Invalid now
    · rw [h.execute_of_invalid hinvalid] at hdone
      rcases hdone with hok | hflag
      · cases hok
      · cases hflag
    · obtain ⟨given, hreply, hgives⟩ := h.execute_of_valid hs hinvalid
      have hplaced := (hs.alike.request now args).2.left
      refine (hplaced.runTasks tasks).lasts (h.placed hs) (hgives ?_) hinvalid hle
        (hplaced.live_runTasks tasks htasks)
      rcases hreply with ⟨-, hgiven⟩ | hflag
      · exact hgiven
      · rw [hflag] at hdone
        exact hdone.elim nofun Value.eq_true_of_flag

/-- What may happen in the lifetime of a key without changing it. -/
def quietTasks : List Task :=
  [.request 700000000 (["GET", "k"].map Bytes.ofString), .nextDue, .sweepAll 1400000000]

/-- Two seconds for a key, or a second and a half: it lasts to the nanosecond before they are over, with all that is
asked meanwhile, and no longer. -/
theorem lifetime_exact_units :
    let s := Store.emptyBy (fun _ => 0) 1 .heap
    let key := Bytes.ofString "k"
    let r := (execute 0 s (["SET", "k", "v"].map Bytes.ofString)).2
    let seconds := ["SET", "k", "v", "eX", "2"].map Bytes.ofString
    let millis := ["set", "k", "v", "PX", "1500"].map Bytes.ofString
    (∀ task ∈ quietTasks, task.writes key = false ∧ ∀ reading ∈ task.now?, reading ≤ 1499999999) ∧
    (Lifetime.Asked s 0 ⟨key, "set", .seconds, 2⟩ seconds r ∧ (execute 0 s seconds).1 = .ok ∧
      ((execute 0 s seconds).2.runTasks quietTasks).2.Lasts 1999999999 key 2000000000 r 0 ∧
      ((execute 0 s seconds).2.runTasks quietTasks).2.Lasts 2000000000 key 2000000000 r 0) ∧
    (Lifetime.Asked s 0 ⟨key, "set", .millis, 1500⟩ millis r ∧ (execute 0 s millis).1 = .ok ∧
      ((execute 0 s millis).2.runTasks quietTasks).2.Lasts 1499999999 key 1500000000 r 0 ∧
      ((execute 0 s millis).2.runTasks quietTasks).2.Lasts 1500000000 key 1500000000 r 0) := by
  intro s key r seconds millis
  have hquiet : ∀ task ∈ quietTasks, task.writes key = false ∧ ∀ reading ∈ task.now?, reading ≤ 1499999999 := by
    decide +kernel
  have hlasts : ∀ {unit : TimeUnit} {n : Int64} {args : List Bytes},
      Lifetime.Asked s 0 ⟨key, "set", unit, n⟩ args r → (execute 0 s args).1 = .ok → ∀ later, 1499999999 ≤ later →
      ((execute 0 s args).2.runTasks quietTasks).2.Lasts later key (Lifetime.due ⟨key, "set", unit, n⟩ 0) r 0 :=
    fun hasked hok later hlater => (lifetime_exact (fun _ => 0) 1 .heap [] 0 _ _ r hasked).2.2.2.2 (.inl hok)
      quietTasks later (Nat.zero_le _) fun task htask =>
        ⟨(hquiet task htask).1, fun reading h => ((hquiet task htask).2 reading h).trans hlater⟩
  have hseconds : Lifetime.Asked s 0 ⟨key, "set", .seconds, 2⟩ seconds r :=
    .set (by decide +kernel) (by decide +kernel) (by decide +kernel)
  have hmillis : Lifetime.Asked s 0 ⟨key, "set", .millis, 1500⟩ millis r :=
    .set (by decide +kernel) (by decide +kernel) (by decide +kernel)
  have hsecondsDue : Lifetime.due ⟨key, "set", .seconds, 2⟩ 0 = 2000000000 := by decide +kernel
  have hmillisDue : Lifetime.due ⟨key, "set", .millis, 1500⟩ 0 = 1500000000 := by decide +kernel
  have hlong := hlasts hseconds rfl
  have hshort := hlasts hmillis rfl
  rw [hsecondsDue] at hlong
  rw [hmillisDue] at hshort
  exact ⟨hquiet, ⟨hseconds, rfl, hlong _ (by decide), hlong _ (by decide)⟩,
    ⟨hmillis, rfl, hshort _ (by decide), hshort _ (by decide)⟩⟩

end Keyspace

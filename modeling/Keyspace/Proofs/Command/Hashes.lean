/-
# The bookkeeping of hashes

A shard by itself would make an empty hash when no field is set. No request gets there: HSET is not accepted
without a field (`Call.isFull_of_ofRequest`), and a hash goes with the last of its fields. So no binding of an
empty hash is ever made, and none comes up later (`keeps_notEmpty`, `everywhere_notEmpty`).

What shows of a key is then told by one list of fields and values (`Store.ShowsFields`): it is a hash if the list
is not empty, and nothing if it is. HSET makes that list longer and HDEL makes it shorter by what they reply. The
deadline stays as long as there are fields, and goes with the last of them (`hash_bookkeeping`).

Key definitions: `Stored.NotEmpty`, `Store.ask`, `Store.ShowsFields`, `Store.ShowsString`, `Store.HoldsNothing`.
Key theorems: `everywhere_notEmpty`, `Placed.showsFields`, `hash_bookkeeping`.
-/
import Keyspace.Proofs.Command.Lifetime
import Keyspace.Proofs.Command.Refusal
import Keyspace.Proofs.Store.Contents
import Keyspace.Proofs.Store.Everywhere

namespace Keyspace

open Shard (Operation setFields removeFields)

/-! ### No empty hash is made -/

/-- The value is no hash without fields. -/
def Stored.NotEmpty : Stored → Prop
  | .string _ => True
  | .hash fields => fields ≠ ∅

theorem Shard.setFields_ne_empty {pairs : List (Bytes × Bytes)} (h : pairs ≠ []) (m : Dict Bytes) :
    (setFields m pairs).2 ≠ ∅ := by
  obtain ⟨p, rest, rfl⟩ := List.exists_cons_of_ne_nil h
  intro hempty
  have hgrown := setFields_fst rest (m.insert p.1 p.2)
  have hfirst := Dict.size_pos_of_mem (Std.ExtTreeMap.mem_insert_self (t := m) (k := p.1) (v := p.2))
  have hnone : (setFields (m.insert p.1 p.2) rest).2.size = 0 := Std.ExtTreeMap.eq_empty_iff_size_eq_zero.mp hempty
  omega

/-- Operations of a full call make no empty hash. -/
theorem keeps_notEmpty {call : Call} {now : Instant} {op : Operation} (hfull : call.IsFull)
    (h : call.Performs now op) : op.Keeps fun b => b.value.NotEmpty := by
  intro b hb a ha
  cases h with
  | set | setWithDeadline | setMany =>
    cases ha
    trivial
  | delete => cases ha
  | expire | persist =>
    obtain ⟨before, hbefore, rfl⟩ := Option.map_eq_some_iff.mp ha
    exact hb before hbefore
  | @hashSet key pairs =>
    cases hfields : Binding.fields b with
    | error w =>
      rw [(Operation.onBinding_hash_error hfields pairs []).1] at ha
      exact hb a ha
    | ok m =>
      rw [Operation.onBinding_hashSet_ok hfields] at ha
      cases ha
      exact Shard.setFields_ne_empty hfull m
  | @hashDelete key names =>
    cases hfields : Binding.fields b with
    | error w =>
      rw [(Operation.onBinding_hash_error hfields [] names).2] at ha
      exact hb a ha
    | ok m =>
      rw [Operation.onBinding_hashDelete_ok hfields] at ha
      split at ha
      · cases ha
      · next hleft =>
        cases ha
        exact fun hempty => hleft (Std.ExtTreeMap.isEmpty_iff.mpr hempty)
  | _ => exact hb a ha

namespace Store

variable {s t : Store} {now : Instant} {key : Bytes} {b : Option Binding} {m : Dict Bytes}

/-- No binding of the store is an empty hash, and every key is in its shard. -/
abbrev Filled (s : Store) : Prop := s.Everywhere fun b => b.value.NotEmpty

theorem Everywhere.filled_task (h : s.Filled) (task : Task) : (task.run s).2.Filled := by
  refine h.task ?_
  cases task with
  | request now args =>
    intro call ops hcall hops op hop
    exact keeps_notEmpty (Call.isFull_of_ofRequest hcall) (Call.performs_of_mem hops op hop)
  | sweepAll _ | nextDue => trivial

theorem Everywhere.filled_runTasks : ∀ (tasks : List Task) {s : Store}, s.Filled → (s.runTasks tasks).2.Filled
  | [], _, h => h
  | task :: tasks, _, h => Everywhere.filled_runTasks tasks (h.filled_task task)

/-- **No store that tasks lead to holds an empty hash.** -/
theorem filled_of_tasks (hash : Bytes → UInt64) (count : Nat) (mode : Mode) (tasks : List Task) :
    ((emptyBy hash count mode).runTasks tasks).2.Filled :=
  Everywhere.filled_runTasks tasks (everywhere_emptyBy hash count mode _)

/-- No shard holds an empty hash under any key, expired ones included. -/
theorem Everywhere.held_ne_empty (h : s.Filled) {i : Nat} {string : Option Bytes} {due : Option Instant}
    (hheld : s.held i key = some (string, some m, due)) : m ≠ ∅ := by
  rw [h.placed.held_eq] at hheld
  split at hheld
  · have hhash : (if (s.index key : Nat) = i then s.binding? key else none).bind (fun b => b.value.hash?) = some m :=
      congrArg (fun parts => parts.2.1) (Option.some.inj hheld)
    split at hhash
    · obtain ⟨b, hb, hm⟩ := Option.bind_eq_some_iff.mp hhash
      have hne := h.sorted key b hb
      rcases b with ⟨_ | fields, _⟩
      · cases hm
      · cases hm
        exact hne
    · cases hhash
  · cases hheld

/-! ### What shows of a key -/

/-- The reply to a command, at an instant. -/
def ask (s : Store) (now : Instant) (c : Command) (args : List Bytes) : Value :=
  (execute now s (Bytes.ofString c.name :: args)).1

/-- What requests show of a key at an instant, if it is a hash with these fields and values, or if there are
none, nothing. -/
structure ShowsFields (s : Store) (now : Instant) (key : Bytes) (pairs : List (Bytes × Bytes)) : Prop where
  once : (pairs.map Prod.fst).Nodup
  kind : s.ask now .kind [key] = .bulk (Bytes.ofString (if pairs = [] then "none" else "hash"))
  size : s.ask now .hashSize [key] = .count pairs.length
  all : s.ask now .hashPairs [key] = .ofOptions (pairs.flatMap fun p => [some p.1, some p.2])
  get : ∀ field value, (field, value) ∈ pairs → s.ask now .hashGet [key, field] = .bulk value
  missing : ∀ field, field ∉ pairs.map Prod.fst → s.ask now .hashGet [key, field] = .null

/-- What requests show of a key at an instant, if it holds a string: commands on hashes fail over it. -/
structure ShowsString (s : Store) (now : Instant) (key : Bytes) : Prop where
  kind : s.ask now .kind [key] = .bulk (Bytes.ofString "string")
  refused : ∀ c rest, c.isHash = true → c.accepts (rest.length + 2) = true →
    s.ask now c (key :: rest) = CommandError.wrongKind.toValue

/-- No shard holds a string, a hash or a deadline under the key. -/
def HoldsNothing (s : Store) (key : Bytes) : Prop :=
  ∀ i string fields due, s.held i key = some (string, fields, due) → string = none ∧ fields = none ∧ due = none

/-- However the name of the command is spelled, the reply is the same. -/
theorem ask_eq {name : Bytes} {c : Command} (hname : Command.lookup name = some c) (s : Store) (now : Instant)
    (args : List Bytes) : (execute now s (name :: args)).1 = s.ask now c args := by
  simp only [ask, execute, Call.ofRequest, hname, Command.lookup_name]

/-- A request of one operation does to its key what the operation means for what is live there. -/
theorem Placed.execute_one (h : s.Placed) {args : List Bytes} {call : Call} (op : Operation)
    (hcall : Call.ofRequest args = .ok call) (hop : call.operations now = .ok [op]) (hkey : op.key? = some key)
    (hnow : op.now? = some now) :
    (execute now s args).1 = Call.toValue (call.answer [(op.onBinding (Binding.live now (s.binding? key))).1]) ∧
    (execute now s args).2.binding? key = (op.onBinding (Binding.live now (s.binding? key))).2 := by
  obtain ⟨hresult, -, hchanges⟩ := h.run op hkey
  have hself := hchanges.self
  rw [Operation.finds, hnow] at hresult hself
  rw [execute_of_operation hcall hop, hresult]
  exact ⟨rfl, hself⟩

/-- The reply to a command of one operation. -/
theorem Placed.ask_call (h : s.Placed) (call : Call) (now : Instant) {op : Operation} (hfull : call.IsFull)
    (hop : call.operations now = .ok [op]) (hkey : op.key? = some key) (hnow : op.now? = some now) :
    s.ask now call.command call.arguments =
      Call.toValue (call.answer [(op.onBinding (Binding.live now (s.binding? key))).1]) :=
  (h.execute_one op (Call.ofRequest_arguments call hfull (Command.lookup_name _)) hop hkey hnow).1

theorem Placed.ask_kind (h : s.Placed) (now : Instant) (key : Bytes) : s.ask now .kind [key] =
    .bulk (Bytes.ofString (Kind.name ((Binding.live now (s.binding? key)).map fun b => b.value.kind))) :=
  h.ask_call (.kind key) now trivial rfl rfl rfl

/-- What commands on a hash read, where the key has fields or nothing. -/
theorem Placed.ask_fields (h : s.Placed) (hm : Binding.fields (Binding.live now (s.binding? key)) = .ok m) :
    s.ask now .hashSize [key] = .count m.size ∧
    s.ask now .hashPairs [key] = .ofOptions (m.toList.flatMap fun p => [some p.1, some p.2]) ∧
    ∀ field, s.ask now .hashGet [key, field] = .ofOption m[field]? := by
  have hsize := h.ask_call (.hashSize key) now trivial rfl rfl rfl
  have hpairs := h.ask_call (.hashPairs key) now trivial rfl rfl rfl
  refine ⟨hsize.trans ?_, hpairs.trans ?_, fun field => ?_⟩
  · rw [Operation.onBinding, hm]
    rfl
  · rw [Operation.onBinding, hm]
    rfl
  · have hget := h.ask_call (.hashGet key field) now trivial rfl rfl rfl
    refine hget.trans ?_
    rw [Operation.onBinding, hm]
    rfl

/-- A key that has no fields holds nothing that is live. -/
theorem Everywhere.live_eq_none_iff (h : s.Filled) (hm : Binding.fields (Binding.live now (s.binding? key)) = .ok m) :
    Binding.live now (s.binding? key) = none ↔ m = ∅ := by
  have hfilled := Binding.live_sorted (h.sorted key) now
  rcases hb : Binding.live now (s.binding? key) with _ | ⟨_ | fields, due⟩
  · rw [hb] at hm
    cases hm
    exact iff_of_true rfl rfl
  · rw [hb] at hm
    cases hm
  · rw [hb] at hm
    cases hm
    exact iff_of_false (Option.some_ne_none _) (hfilled _ hb)

theorem Everywhere.showsFields (h : s.Filled) (hm : Binding.fields (Binding.live now (s.binding? key)) = .ok m) :
    s.ShowsFields now key m.toList := by
  obtain ⟨hsize, hpairs, hget⟩ := h.placed.ask_fields hm
  refine ⟨?_, ?_, ?_, hpairs, fun field value hp => ?_, fun field hp => ?_⟩
  · rw [Std.ExtTreeMap.map_fst_toList_eq_keys]
    exact Std.ExtTreeMap.nodup_keys
  · have hempty : m.toList = [] ↔ Binding.live now (s.binding? key) = none :=
      Dict.toList_eq_nil_iff.trans (h.live_eq_none_iff hm).symm
    rw [h.placed.ask_kind]
    rcases hb : Binding.live now (s.binding? key) with _ | ⟨_ | fields, due⟩
    · rw [if_pos (hempty.mpr hb)]
      rfl
    · rw [hb] at hm
      cases hm
    · rw [if_neg (by rw [hempty, hb]; exact Option.some_ne_none _)]
      rfl
  · rw [hsize, Std.ExtTreeMap.length_toList]
  · rw [hget, Std.ExtTreeMap.mem_toList_iff_getElem?_eq_some.mp hp]
    rfl
  · rw [Std.ExtTreeMap.map_fst_toList_eq_keys, Std.ExtTreeMap.mem_keys] at hp
    rw [hget, Std.ExtTreeMap.getElem?_eq_none hp]
    rfl

theorem Placed.showsString (h : s.Placed)
    (hm : Binding.fields (Binding.live now (s.binding? key)) = .error .wrongKind) : s.ShowsString now key := by
  obtain ⟨value, due, hb⟩ : ∃ value due, Binding.live now (s.binding? key) = some ⟨.string value, due⟩ := by
    rcases hb : Binding.live now (s.binding? key) with _ | ⟨value | fields, due⟩
    · rw [hb] at hm
      cases hm
    · exact ⟨value, due, rfl⟩
    · rw [hb] at hm
      cases hm
  refine ⟨?_, fun c rest hhash haccepts => ?_⟩
  · rw [h.ask_kind, hb]
    rfl
  · have haccepts' : c.accepts ((key :: rest).length + 1) = true := haccepts
    refine ((execute_eq_wrongKind_iff h (Command.lookup_name c) haccepts').1 hhash key rfl).mpr ?_
    rw [kindAt?, hb]
    rfl

theorem Everywhere.shows (h : s.Filled) (now : Instant) (key : Bytes) :
    s.ShowsString now key ∨ ∃ pairs, s.ShowsFields now key pairs := by
  cases hm : Binding.fields (Binding.live now (s.binding? key)) with
  | error w => exact .inl (h.placed.showsString hm)
  | ok m => exact .inr ⟨_, h.showsFields hm⟩

/-- A key is a hash if and only if its fields can be counted, as far as the numbers of a reply go. -/
theorem ShowsFields.hash_iff {pairs : List (Bytes × Bytes)} (h : s.ShowsFields now key pairs)
    (hfits : pairs.length < 9223372036854775808) : s.ask now .kind [key] = .bulk (Bytes.ofString "hash") ↔
      ∃ n : Int64, 0 < n ∧ s.ask now .hashSize [key] = .integer n := by
  rw [h.kind, h.size]
  by_cases hempty : pairs = []
  · rw [if_pos hempty]
    refine iff_of_false ?_ ?_
    · intro heq
      exact absurd (Value.bulk.inj heq) (by decide +kernel)
    · rintro ⟨n, hpos, heq⟩
      rw [hempty] at heq
      cases heq
      exact absurd hpos (by decide)
  · rw [if_neg hempty]
    refine iff_of_true rfl ⟨Int64.ofNat pairs.length, ?_, rfl⟩
    have hpos := List.length_pos_iff.mpr hempty
    rw [Int64.lt_iff_toInt_lt, Int64.toInt_ofNat_of_lt hfits]
    exact Int.natCast_pos.mpr hpos

end Store

/-! ### Setting and deleting fields -/

/-- What is left of its time to live does not depend on the value. -/
theorem Binding.ttlMillis_congr {b c : Binding} (h : b.deadline = c.deadline) (clock : Instant) :
    ttlMillis clock (live clock (some b)) = ttlMillis clock (live clock (some c)) := by
  obtain ⟨v, due⟩ := b
  obtain ⟨v', due'⟩ := c
  obtain rfl : due = due' := h
  rcases due with _ | due
  · rfl
  · by_cases hdue : clock < due
    · simp [live, Option.filter_some, isLive, hdue, ttlMillis]
    · simp [live, Option.filter_some, isLive, hdue]

/-- A request that does not fail makes a call. -/
theorem Call.of_success {s : Store} {now : Instant} {name : Bytes} {args : List Bytes} {c : Command}
    (hname : Command.lookup name = some c) (h : (execute now s (name :: args)).1.isError = false) :
    ∃ call, ofRequest (name :: args) = .ok call ∧ call.command = c ∧ call.arguments = args := by
  cases hcall : ofRequest (name :: args) with
  | error e =>
    rw [execute_of_error hcall] at h
    cases h
  | ok call =>
    obtain ⟨name', hargs, hname'⟩ := ofRequest_eq_ok hcall
    obtain ⟨rfl, rfl⟩ := List.cons.inj hargs
    rw [hname, Option.some_inj] at hname'
    exact ⟨call, rfl, hname'.symm, rfl⟩

namespace Store

variable {s t : Store} {now : Instant} {key : Bytes} {m : Dict Bytes}

/-- A command on a hash that does not fail finds fields, or nothing. -/
theorem Placed.exists_fields_of_success (h : s.Placed) {args rest : List Bytes} {call : Call}
    (hcall : Call.ofRequest args = .ok call) (hhash : call.command.isHash = true)
    (hargs : call.arguments = key :: rest) (hdone : (execute now s args).1.isError = false) :
    ∃ m, Binding.fields (Binding.live now (s.binding? key)) = .ok m := by
  obtain ⟨ops, hops, hrefuses⟩ := Call.hash_refuses_iff h hhash hargs
  rw [execute_of_operations hcall hops, Call.isError_answer] at hdone
  refine exists_fields fun hstring => ?_
  rw [hrefuses.mpr hstring] at hdone
  cases hdone

theorem Placed.ask_ttl (h : s.Placed) (clock : Instant) (key : Bytes) : s.ask clock .ttl [key] =
    .integer (Ttl.ceilSeconds (Binding.ttlMillis clock (Binding.live clock (s.binding? key)))) :=
  h.execute_ttl rfl

/-- A hash that keeps its deadline keeps its time to live, at every clock. -/
theorem Everywhere.ask_ttl_of_kept (h : s.Filled) (ht : t.Placed) {value : Stored}
    (hm : Binding.fields (Binding.live now (s.binding? key)) = .ok m) (hne : m ≠ ∅)
    (hkept : t.binding? key = some ⟨value, (Binding.live now (s.binding? key)).bind Binding.deadline⟩)
    (clock : Instant) : t.ask clock .ttl [key] = s.ask clock .ttl [key] := by
  cases hlive : Binding.live now (s.binding? key) with
  | none => exact absurd ((h.live_eq_none_iff hm).mp hlive) hne
  | some b =>
    have hb : s.binding? key = some b := Option.eq_some_of_filter_eq_some hlive
    rw [hlive] at hkept
    have hsame := Binding.ttlMillis_congr (b := ⟨value, b.deadline⟩) (c := b) rfl clock
    rw [ht.ask_ttl, h.placed.ask_ttl, hb, hkept]
    exact congrArg (fun ms => Value.integer (Ttl.ceilSeconds ms)) hsame

/-- Fields with the deadline of what was live are live. -/
theorem fields_of_kept {fields : Dict Bytes} (ht : t.binding? key =
      some ⟨.hash fields, (Binding.live now (s.binding? key)).bind Binding.deadline⟩) :
    Binding.fields (Binding.live now (t.binding? key)) = .ok fields := by
  have hlive : Binding.live now (t.binding? key) = t.binding? key := by
    refine Binding.live_of_lt fun due hdue => ?_
    rw [ht] at hdue
    exact Binding.lt_of_live hdue
  rw [hlive, ht]
  rfl

/-- Between two stores the list of fields of a key gets longer by some number, and is not empty then. A hash keeps
its time to live, and a new one has none. -/
def Grows (s t : Store) (now : Instant) (key : Bytes) (n : Nat) : Prop :=
  ∃ before after, s.ShowsFields now key before ∧ t.ShowsFields now key after ∧
    after.length = before.length + n ∧ after ≠ [] ∧
    ∀ clock, t.ask clock .ttl [key] = if before = [] then .integer (-1) else s.ask clock .ttl [key]

/-- Between two stores the list of fields of a key gets shorter by some number. A hash keeps its time to live as long
as it has fields; without fields, there is nothing left under the key. -/
def Shrinks (s t : Store) (now : Instant) (key : Bytes) (n : Nat) : Prop :=
  ∃ before after, s.ShowsFields now key before ∧ t.ShowsFields now key after ∧
    before.length = after.length + n ∧
    if after = [] then t.HoldsNothing key else ∀ clock, t.ask clock .ttl [key] = s.ask clock .ttl [key]

theorem Everywhere.grows (h : s.Filled) (ht : t.Filled) {pairs : List (Bytes × Bytes)}
    (hm : Binding.fields (Binding.live now (s.binding? key)) = .ok m)
    (hkept : t.binding? key =
      some ⟨.hash (setFields m pairs).2, (Binding.live now (s.binding? key)).bind Binding.deadline⟩) :
    s.Grows t now key (setFields m pairs).1 := by
  refine ⟨m.toList, (setFields m pairs).2.toList, h.showsFields hm, ht.showsFields (fields_of_kept hkept), ?_, ?_,
    fun clock => ?_⟩
  · rw [Std.ExtTreeMap.length_toList, Std.ExtTreeMap.length_toList, ← Shard.setFields_fst, Nat.add_comm]
  · rw [ne_eq, Dict.toList_eq_nil_iff]
    exact ht.sorted key _ hkept
  · by_cases hempty : m = ∅
    · have hlive := (h.live_eq_none_iff hm).mpr hempty
      rw [if_pos (Dict.toList_eq_nil_iff.mpr hempty), ht.placed.ask_ttl, hkept, hlive]
      rfl
    · rw [if_neg fun hnil => hempty (Dict.toList_eq_nil_iff.mp hnil)]
      exact h.ask_ttl_of_kept ht.placed hm hempty hkept clock

theorem Placed.holdsNothing (h : s.Placed) (hb : s.binding? key = none) : s.HoldsNothing key := by
  intro i string fields due hheld
  rw [h.held_eq, hb, ite_self] at hheld
  split at hheld
  · cases hheld
    exact ⟨rfl, rfl, rfl⟩
  · cases hheld

theorem Everywhere.shrinks (h : s.Filled) (ht : t.Filled) {names : List Bytes}
    (hm : Binding.fields (Binding.live now (s.binding? key)) = .ok m)
    (hkept : t.binding? key = if (removeFields m names).2.isEmpty then none else
      some ⟨.hash (removeFields m names).2, (Binding.live now (s.binding? key)).bind Binding.deadline⟩) :
    s.Shrinks t now key (removeFields m names).1 := by
  have hcount := Shard.removeFields_fst names m
  refine ⟨m.toList, (removeFields m names).2.toList, h.showsFields hm, ?_, ?_, ?_⟩
  · refine ht.showsFields ?_
    by_cases hempty : (removeFields m names).2.isEmpty = true
    · rw [if_pos hempty] at hkept
      rw [hkept, Std.ExtTreeMap.isEmpty_iff.mp hempty]
      rfl
    · rw [if_neg hempty] at hkept
      exact fields_of_kept hkept
  · rw [Std.ExtTreeMap.length_toList, Std.ExtTreeMap.length_toList, ← hcount, Nat.add_comm]
  · by_cases hempty : (removeFields m names).2.isEmpty = true
    · rw [if_pos hempty] at hkept
      rw [if_pos (Dict.toList_eq_nil_iff.mpr (Std.ExtTreeMap.isEmpty_iff.mp hempty))]
      exact ht.placed.holdsNothing hkept
    · rw [if_neg hempty] at hkept
      rw [if_neg fun hnil => hempty (Std.ExtTreeMap.isEmpty_iff.mpr (Dict.toList_eq_nil_iff.mp hnil))]
      -- there were fields, as some are left
      have hne : m ≠ ∅ := by
        rintro rfl
        rw [Std.ExtTreeMap.size_empty, Nat.add_eq_zero_iff] at hcount
        rw [Std.ExtTreeMap.isEmpty_iff, Std.ExtTreeMap.eq_empty_iff_size_eq_zero] at hempty
        exact hempty hcount.2
      exact h.ask_ttl_of_kept ht.placed hm hne hkept

/-! ### Requests -/

/-- A request that sets fields and does not fail makes the list of fields longer by its reply. -/
theorem Everywhere.execute_hashSet (h : s.Filled) {name : Bytes} {rest : List Bytes}
    (hname : Command.lookup name = some .hashSet)
    (hdone : (execute now s (name :: key :: rest)).1.isError = false) :
    ∃ n, (execute now s (name :: key :: rest)).1 = .count n ∧
      s.Grows (execute now s (name :: key :: rest)).2 now key n := by
  obtain ⟨call, hcall, hcommand, hargs⟩ := Call.of_success hname hdone
  have ht : (execute now s (name :: key :: rest)).2.Filled := h.filled_task (.request now (name :: key :: rest))
  cases call with
  | expire unit _ _ => cases unit <;> cases hcommand
  | hashSet k pairs =>
    obtain ⟨rfl, -⟩ := List.cons.inj hargs
    obtain ⟨m, hm⟩ := h.placed.exists_fields_of_success hcall rfl rfl hdone
    obtain ⟨hreply, hkept⟩ := h.placed.execute_one (.hashSet k pairs now) hcall rfl rfl rfl
    rw [Operation.onBinding_hashSet_ok hm] at hreply hkept
    exact ⟨_, hreply, h.grows ht hm hkept⟩
  | _ => cases hcommand

/-- A request that deletes fields and does not fail makes the list of fields shorter by its reply. -/
theorem Everywhere.execute_hashDelete (h : s.Filled) {name : Bytes} {rest : List Bytes}
    (hname : Command.lookup name = some .hashDelete)
    (hdone : (execute now s (name :: key :: rest)).1.isError = false) :
    ∃ n, (execute now s (name :: key :: rest)).1 = .count n ∧
      s.Shrinks (execute now s (name :: key :: rest)).2 now key n := by
  obtain ⟨call, hcall, hcommand, hargs⟩ := Call.of_success hname hdone
  have ht : (execute now s (name :: key :: rest)).2.Filled := h.filled_task (.request now (name :: key :: rest))
  cases call with
  | expire unit _ _ => cases unit <;> cases hcommand
  | hashDelete k names =>
    obtain ⟨rfl, -⟩ := List.cons.inj hargs
    obtain ⟨m, hm⟩ := h.placed.exists_fields_of_success hcall rfl rfl hdone
    obtain ⟨hreply, hkept⟩ := h.placed.execute_one (.hashDelete k names now) hcall rfl rfl rfl
    rw [Operation.onBinding_hashDelete_ok hm] at hreply hkept
    exact ⟨_, hreply, h.shrinks ht hm hkept⟩
  | _ => cases hcommand

/-- **The bookkeeping of hashes.** In every store that tasks lead to, no hash is empty, in whichever shard and
expired or not. At every clock a key shows a string, or a list of fields, each once and with its value: it is a
hash if and only if the number of fields is positive, which shows in the reply if that can hold the number. Setting
fields makes the list longer by the reply, and deleting fields makes it shorter by the reply. A hash keeps its time
to live meanwhile, and one that is new has none. With the last field everything is gone from under the key. -/
theorem hash_bookkeeping (hash : Bytes → UInt64) (count : Nat) (mode : Mode) (history : List Task) (now : Instant)
    (key : Bytes) :
    let s := ((emptyBy hash count mode).runTasks history).2
    (∀ i k string fields due, s.held i k = some (string, some fields, due) → fields ≠ ∅) ∧
    (s.ShowsString now key ∨ ∃ pairs, s.ShowsFields now key pairs) ∧
    ((∀ pairs, s.ShowsFields now key pairs → pairs.length < 9223372036854775808) →
      (s.ask now .kind [key] = .bulk (Bytes.ofString "hash") ↔
        ∃ n : Int64, 0 < n ∧ s.ask now .hashSize [key] = .integer n)) ∧
    (∀ name c args, Command.lookup name = some c → (execute now s (name :: args)).1 = s.ask now c args) ∧
    ∀ name rest, let reply := (execute now s (name :: key :: rest)).1
      let t := (execute now s (name :: key :: rest)).2
      (Command.lookup name = some .hashSet → reply.isError = false →
        ∃ n, reply = .count n ∧ s.Grows t now key n) ∧
      (Command.lookup name = some .hashDelete → reply.isError = false →
        ∃ n, reply = .count n ∧ s.Shrinks t now key n) := by
  have h := filled_of_tasks hash count mode history
  generalize ((emptyBy hash count mode).runTasks history).2 = s at h
  refine ⟨fun i k string fields due => h.held_ne_empty, h.shows now key, fun hfits => ?_,
    fun name c args hname => ask_eq hname s now args, fun name rest => ⟨h.execute_hashSet, h.execute_hashDelete⟩⟩
  rcases h.shows now key with hstring | ⟨pairs, hpairs⟩
  · rw [hstring.kind, hstring.refused .hashSize [] rfl rfl]
    refine iff_of_false ?_ ?_
    · intro heq
      exact absurd (Value.bulk.inj heq) (by decide +kernel)
    · rintro ⟨n, -, heq⟩
      cases heq
  · exact hpairs.hash_iff (hfits pairs hpairs)

/-- A hash of two fields with a deadline: one more is set, and all are deleted. -/
theorem hash_bookkeeping_last_field :
    let s := ((emptyBy (fun _ => 0) 1 .heap).runTasks
      [.request 0 (["HSET", "h", "f", "1", "g", "2"].map Bytes.ofString),
        .request 0 (["PEXPIRE", "h", "5"].map Bytes.ofString)]).2
    let key := Bytes.ofString "h"
    let grown := execute 1000000 s (["HSET", "h", "f", "3", "x", "4"].map Bytes.ofString)
    let gone := execute 1000000 s (["HDEL", "h", "f", "g", "f"].map Bytes.ofString)
    (∀ pairs, s.ShowsFields 1000000 key pairs → pairs.length < 9223372036854775808) ∧
    (s.ask 1000000 .kind [key] = .bulk (Bytes.ofString "hash") ↔
      ∃ n : Int64, 0 < n ∧ s.ask 1000000 .hashSize [key] = .integer n) ∧
    grown.1.isError = false ∧ (∃ n, grown.1 = .count n ∧ s.Grows grown.2 1000000 key n) ∧
    gone.1.isError = false ∧ (∃ n, gone.1 = .count n ∧ s.Shrinks gone.2 1000000 key n) := by
  intro s key grown gone
  have hfits : ∀ pairs, s.ShowsFields 1000000 key pairs → pairs.length < 9223372036854775808 := by
    intro pairs hpairs
    have hfour : (s.ask 1000000 .hashPairs [key]).items?.map List.length = some 4 := by decide +kernel
    rw [hpairs.all] at hfour
    have hitems : 2 * pairs.length = 4 := by simpa [Value.ofOptions, Value.items?, Nat.mul_comm] using hfour
    omega
  obtain ⟨-, -, hiff, -, hrequests⟩ := hash_bookkeeping (fun _ => 0) 1 .heap
    [.request 0 (["HSET", "h", "f", "1", "g", "2"].map Bytes.ofString),
      .request 0 (["PEXPIRE", "h", "5"].map Bytes.ofString)] 1000000 key
  have hgrown : grown.1.isError = false := by decide +kernel
  have hgone : gone.1.isError = false := by decide +kernel
  exact ⟨hfits, hiff hfits, hgrown, (hrequests _ _).1 (by decide +kernel) hgrown,
    hgone, (hrequests _ _).2 (by decide +kernel) hgone⟩

-- A shard by itself makes an empty hash if no field is set. No request asks it to.
example : ((Shard.empty .heap).hashSet [104] [] 0).2.hashes[([104] : Bytes)]?.map (fun m => m.isEmpty) = some true := by
  decide +kernel

end Store
end Keyspace

/-
# Every reply is read as one value

The octets that a client sends come back in replies: as the message of a ping, as what is stored, and in the
error that tells of an unknown command. None of them can end a reply early or begin another one, so a
client that reads the stream of replies finds one value for each request, whatever it has sent
(`replies_come_back`).

For this the replies have to keep to the limits on what is read. Arguments that are framed fit in bulks, so what
is stored under the keys fits in bulks, too (`Stored.FitsBulks`), through every history. A reply is a single line
or bulk, or an array of those (`Call.flat_answer`), and the array has no more elements than the request. Only
listing a hash may reply with more: a hash may have more fields than a reply may have elements.

Key definitions: `Stored.FitsBulks`, `Operation.isListing`, `Task.pairsFit`.
Key theorems: `leaf_result`, `Operation.FitsBulks.keeps`, `Call.flat_answer`, `replies_come_back`.
-/
import Keyspace.Proofs.Command.Refusal
import Keyspace.Proofs.Store.Everywhere
import Keyspace.Proofs.Wire.Requests
import Keyspace.Proofs.Wire.Stream

namespace Keyspace

open Shard (Operation Result)
open Wire

/-- The octets fit in one bulk. -/
def Bytes.FitsBulk (data : Bytes) : Prop := data.length ≤ maxBulk

/-- All that is stored fits in bulks. -/
def Stored.FitsBulks : Stored → Prop
  | .string value => value.FitsBulk
  | .hash m => ∀ field value : Bytes, m[field]? = some value → field.FitsBulk ∧ value.FitsBulk

/-! ### Leaves -/

namespace Value

theorem leaf_error (e : CommandError) : e.toValue.Leaf := ⟨nofun, trivial⟩

theorem leaf_integer (n : Int64) : (integer n).Leaf := ⟨nofun, trivial⟩

theorem leaf_ofOption {data? : Option Bytes} (h : ∀ data ∈ data?, data.FitsBulk) : (ofOption data?).Leaf := by
  cases data? with
  | none => exact ⟨nofun, trivial⟩
  | some data => exact ⟨nofun, h data rfl⟩

theorem Leaf.flat {v : Value} (h : v.Leaf) : v.Flat := .inl h

theorem flat_ofOptions {datas : List (Option Bytes)} (h : ∀ data? ∈ datas, ∀ data ∈ data?, data.FitsBulk) :
    (ofOptions datas).Flat := by
  refine .inr ⟨_, rfl, fun w hw => ?_⟩
  obtain ⟨data?, hdata, rfl⟩ := List.mem_map.mp hw
  exact leaf_ofOption (h data? hdata)

end Value

/-! ### What operations answer -/

/-- The operation answers with a list of what it finds. -/
def Shard.Operation.isListing : Operation → Bool
  | hashGetMany _ _ _ | hashPairs _ _ => true
  | _ => false

variable {b : Option Binding} {op : Operation} {m : Dict Bytes}

/-- The fields of a binding that fits in bulks. -/
theorem Binding.fits_fields (hb : ∀ a ∈ b, a.value.FitsBulks) (hm : fields b = .ok m) :
    (Stored.hash m).FitsBulks := by
  rcases b with _ | ⟨_ | fields, due⟩
  · cases hm
    intro field value hvalue
    simp at hvalue
  · cases hm
  · cases hm
    exact hb _ rfl

/-- What holds of the error and of every other reply holds of the reply to an operation that may be refused. -/
theorem toValue_ofExcept {P : Value → Prop} {α : Type} {f : α → Result} {outcome : Except WrongKind α}
    (herror : P CommandError.wrongKind.toValue) (hok : ∀ a, outcome = .ok a → P (f a).toValue) :
    P (Result.ofExcept f outcome).toValue := by
  cases outcome with
  | error e => exact herror
  | ok a => exact hok a rfl

/-- Unless it lists what it finds, an operation makes a reply of one line or one bulk. -/
theorem leaf_result (hop : op.isListing = false) (hb : ∀ a ∈ b, a.value.FitsBulks) :
    (op.onBinding b).1.toValue.Leaf := by
  have herror := Value.leaf_error .wrongKind
  cases op with
  | get key now =>
    refine toValue_ofExcept herror fun value? hvalue => Value.leaf_ofOption fun value hv => ?_
    rcases b with _ | ⟨string | _, due⟩
    · cases hvalue
      cases hv
    · cases hvalue
      cases hv
      exact hb _ rfl
    · cases hvalue
  | hashGet key field now =>
    refine toValue_ofExcept herror fun value? hvalue => Value.leaf_ofOption fun value hv => ?_
    obtain ⟨m, hm, rfl⟩ := exists_of_map_eq_ok hvalue
    exact (Binding.fits_fields hb hm field value hv).2
  | hashHas key field now => exact toValue_ofExcept herror fun flag _ => Value.leaf_integer _
  | hashSize key now => exact toValue_ofExcept herror fun n _ => Value.leaf_integer _
  | hashSet key pairs now =>
    cases hm : Binding.fields b with
    | error w =>
      rw [(Operation.onBinding_hash_error hm pairs []).1]
      exact herror
    | ok m =>
      rw [Operation.onBinding_hashSet_ok hm]
      exact Value.leaf_integer _
  | hashDelete key names now =>
    cases hm : Binding.fields b with
    | error w =>
      rw [(Operation.onBinding_hash_error hm [] names).2]
      exact herror
    | ok m =>
      rw [Operation.onBinding_hashDelete_ok hm]
      exact Value.leaf_integer _
  | kindOf key now =>
    refine ⟨nofun, ?_⟩
    rcases b with _ | ⟨_ | _, due⟩
    · exact show (Bytes.ofString "none").length ≤ maxBulk by decide
    · exact show (Bytes.ofString "string").length ≤ maxBulk by decide
    · exact show (Bytes.ofString "hash").length ≤ maxBulk by decide
  | set _ _ | setWithDeadline _ _ _ | delete _ _ | setExpire _ _ _ | clearExpire _ _ | ttlMillis _ _ =>
    exact ⟨nofun, trivial⟩
  | sweep _ | nextDue => exact ⟨nofun, trivial⟩
  | hashGetMany _ _ _ | hashPairs _ _ => cases hop

/-- Getting several fields makes a reply with one element for each, or an error. -/
theorem flat_hashGetMany (hb : ∀ a ∈ b, a.value.FitsBulks) (key : Bytes) (names : List Bytes) (now : Instant) :
    ((Operation.hashGetMany key names now).onBinding b).1.toValue.Flat ∧
    ∀ items, ((Operation.hashGetMany key names now).onBinding b).1.toValue = .array items →
      items.length = names.length := by
  have herror := Value.leaf_error .wrongKind
  constructor
  · refine toValue_ofExcept herror.flat fun values hvalues => Value.flat_ofOptions fun data? hdata data hd => ?_
    obtain ⟨m, hm, rfl⟩ := exists_of_map_eq_ok hvalues
    obtain ⟨field, -, rfl⟩ := List.mem_map.mp hdata
    exact (Binding.fits_fields hb hm field data hd).2
  · refine toValue_ofExcept (P := fun v => ∀ items, v = .array items → items.length = names.length)
      (fun items hitems => absurd hitems (herror.not_array items)) fun values hvalues items hitems => ?_
    obtain ⟨m, hm, rfl⟩ := exists_of_map_eq_ok hvalues
    cases hitems
    simp

/-- Listing a hash makes a reply of bulks, or an error. -/
theorem flat_hashPairs (hb : ∀ a ∈ b, a.value.FitsBulks) (key : Bytes) (now : Instant) :
    ((Operation.hashPairs key now).onBinding b).1.toValue.Flat := by
  refine toValue_ofExcept (Value.leaf_error .wrongKind).flat fun pairs hpairs =>
    Value.flat_ofOptions fun data? hdata data hd => ?_
  obtain ⟨m, hm, rfl⟩ := exists_of_map_eq_ok hpairs
  obtain ⟨p, hp, hdata⟩ := List.mem_flatMap.mp hdata
  have hfits := Binding.fits_fields hb hm p.1 p.2 (Std.ExtTreeMap.mem_toList_iff_getElem?_eq_some.mp hp)
  rcases List.mem_pair.mp hdata with rfl | rfl
  · exact Option.some.inj hd ▸ hfits.1
  · exact Option.some.inj hd ▸ hfits.2

/-! ### What operations store -/

/-- What the operation brings to be stored fits in bulks. -/
def Shard.Operation.FitsBulks : Operation → Prop
  | set _ value | setWithDeadline _ value _ => value.FitsBulk
  | hashSet _ pairs _ => ∀ p ∈ pairs, p.1.FitsBulk ∧ p.2.FitsBulk
  | _ => True

theorem fits_insert {field value : Bytes} (hm : (Stored.hash m).FitsBulks) (hfield : field.FitsBulk)
    (hvalue : value.FitsBulk) : (Stored.hash (m.insert field value)).FitsBulks := by
  intro f v hv
  by_cases hf : f = field
  · rw [hf, Std.ExtTreeMap.getElem?_insert_self] at hv
    cases hv
    exact ⟨hf ▸ hfield, hvalue⟩
  · rw [Dict.getElem?_insert_ne hf] at hv
    exact hm f v hv

theorem fits_setFields : ∀ (pairs : List (Bytes × Bytes)) {m : Dict Bytes}, (Stored.hash m).FitsBulks →
    (∀ p ∈ pairs, p.1.FitsBulk ∧ p.2.FitsBulk) → (Stored.hash (Shard.setFields m pairs).2).FitsBulks
  | [], _, hm, _ => hm
  | p :: pairs, _, hm, h => by
    obtain ⟨hfield, hvalue⟩ := h p List.mem_cons_self
    exact fits_setFields pairs (fits_insert hm hfield hvalue) fun q hq => h q (List.mem_cons_of_mem p hq)

theorem fits_removeFields : ∀ (names : List Bytes) {m : Dict Bytes}, (Stored.hash m).FitsBulks →
    (Stored.hash (Shard.removeFields m names).2).FitsBulks
  | [], _, hm => hm
  | _ :: names, _, hm => fits_removeFields names fun f v hv => hm f v (Dict.getElem?_of_erase hv)

/-- What is stored goes on to fit in bulks. -/
theorem Shard.Operation.FitsBulks.keeps (h : op.FitsBulks) : op.Keeps fun b => b.value.FitsBulks := by
  intro b hb a ha
  cases op with
  | set key value | setWithDeadline key value due =>
    cases ha
    exact h
  | delete key now => cases ha
  | setExpire key due now | clearExpire key now =>
    obtain ⟨c, hc, rfl⟩ := Option.map_eq_some_iff.mp ha
    exact hb c hc
  | hashSet key pairs now =>
    cases hm : Binding.fields b with
    | error w =>
      rw [(onBinding_hash_error hm pairs []).1] at ha
      exact hb a ha
    | ok m =>
      rw [onBinding_hashSet_ok hm] at ha
      cases ha
      exact fits_setFields pairs (Binding.fits_fields hb hm) h
  | hashDelete key names now =>
    cases hm : Binding.fields b with
    | error w =>
      rw [(onBinding_hash_error hm [] names).2] at ha
      exact hb a ha
    | ok m =>
      rw [onBinding_hashDelete_ok hm] at ha
      have hkept : (if (Shard.removeFields m names).2.isEmpty then none
        else some ⟨.hash (Shard.removeFields m names).2, b.bind Binding.deadline⟩) = some a := ha
      split at hkept
      · cases hkept
      · cases hkept
        exact fits_removeFields names (Binding.fits_fields hb hm)
  | _ => exact hb a ha

/-! ### What calls reply -/

namespace Call

variable {call : Call} {now : Instant} {ops : List Operation} {rs : List Result}

theorem operations_fit (hargs : ∀ arg ∈ call.arguments, arg.FitsBulk) (hops : call.operations now = .ok ops) :
    ∀ op ∈ ops, op.FitsBulks := by
  intro op hop
  cases performs_of_mem hops op hop with
  | @set key value | @setWithDeadline key value =>
    have hvalue : value.FitsBulk := hargs value (by simp [arguments])
    exact hvalue
  | @setMany p pairs hp => exact hargs p.2 (List.mem_flatMap.mpr ⟨p, hp, by simp⟩)
  | @hashSet key pairs =>
    have hpair : ∀ p ∈ pairs, ∀ arg ∈ [p.1, p.2], arg.FitsBulk := fun p hp arg harg =>
      hargs arg (List.mem_cons_of_mem key (List.mem_flatMap.mpr ⟨p, hp, harg⟩))
    exact fun p hp => ⟨hpair p hp p.1 (by simp), hpair p hp p.2 (by simp)⟩
  | _ => trivial

theorem operations_not_listing (hmany : call.command ≠ .hashGetMany) (hpairs : call.command ≠ .hashPairs)
    (hops : call.operations now = .ok ops) : ∀ op ∈ ops, op.isListing = false := by
  intro op hop
  cases performs_of_mem hops op hop with
  | hashGetMany => exact absurd rfl hmany
  | hashPairs => exact absurd rfl hpairs
  | _ => rfl

theorem leaf_elim (hrs : ∀ r ∈ rs, r.toValue.Leaf) :
    (toValue (rs.head?.elim (.ok .null) Result.reply)).Leaf := by
  cases rs with
  | nil => exact ⟨nofun, trivial⟩
  | cons r rs => exact hrs r List.mem_cons_self

/-- Getting several strings replies with one element for each result, or an error. -/
theorem flat_getMany (keys : List Bytes) (hrs : ∀ r ∈ rs, r.toValue.Leaf) :
    (toValue ((getMany keys).answer rs)).Flat ∧
    ∀ items, toValue ((getMany keys).answer rs) = .array items → items.length = rs.length := by
  cases hrefused : rs.any Result.isRefused with
  | true =>
    have hrefuses : (getMany keys).refuses rs = true := hrefused
    rw [answer_of_refuses hrefuses]
    exact ⟨(Value.leaf_error _).flat, fun items hitems => absurd hitems ((Value.leaf_error _).not_array items)⟩
  | false =>
    have hvalue : toValue ((getMany keys).answer rs) = .array (rs.map Result.toValue) := by
      rw [answer, Result.replyAll_eq_map hrefused]
      rfl
    rw [hvalue]
    refine ⟨.inr ⟨_, rfl, fun w hw => ?_⟩, fun items hitems => ?_⟩
    · obtain ⟨r, hr, rfl⟩ := List.mem_map.mp hw
      exact hrs r hr
    · cases hitems
      simp

/-- **A call replies with a line, a bulk or an array of those**, with no more elements than the call has
arguments; but listing a hash may reply with more. -/
theorem flat_answer (hargs : ∀ arg ∈ call.arguments, arg.FitsBulk) (hops : call.operations now = .ok ops)
    (hrs : ∀ r ∈ rs, ∃ op ∈ ops, ∃ b, (∀ a ∈ b, a.value.FitsBulks) ∧ r = (op.onBinding b).1)
    (hlength : rs.length ≤ ops.length) : (toValue (call.answer rs)).Flat ∧
    (call.command ≠ .hashPairs → ∀ items, toValue (call.answer rs) = .array items →
      items.length ≤ call.arguments.length) := by
  have hleaf {v : Value} (h : v.Leaf) : v.Flat ∧ (call.command ≠ .hashPairs → ∀ items, v = .array items →
      items.length ≤ call.arguments.length) :=
    ⟨h.flat, fun _ items hitems => absurd hitems (h.not_array items)⟩
  have hleaves (hmany : call.command ≠ .hashGetMany) (hpairs : call.command ≠ .hashPairs) :
      ∀ r ∈ rs, r.toValue.Leaf := fun r hr => by
    obtain ⟨op, hop, b, hb, rfl⟩ := hrs r hr
    exact leaf_result (operations_not_listing hmany hpairs hops op hop) hb
  cases call with
  | ping message =>
    cases message with
    | none => exact hleaf ⟨nofun, trivial⟩
    | some message => exact hleaf ⟨nofun, hargs message (List.mem_singleton_self message)⟩
  | echo message => exact hleaf ⟨nofun, hargs message (List.mem_singleton_self message)⟩
  | delete _ | exist _ => exact hleaf (Value.leaf_integer _)
  | setMany _ => exact hleaf ⟨nofun, trivial⟩
  | getMany keys =>
    obtain ⟨hflat, hitems⟩ := flat_getMany keys (hleaves nofun nofun)
    cases hops
    rw [List.length_map] at hlength
    exact ⟨hflat, fun _ items h => (hitems items h).trans_le hlength⟩
  | hashGetMany key names =>
    cases hops
    cases rs with
    | nil => exact hleaf ⟨nofun, trivial⟩
    | cons r rs =>
      obtain ⟨op, hop, b, hb, rfl⟩ := hrs r List.mem_cons_self
      obtain rfl := List.mem_singleton.mp hop
      obtain ⟨hflat, hitems⟩ := flat_hashGetMany hb key names now
      exact ⟨hflat, fun _ items h => (hitems items h).trans_le (Nat.le_succ _)⟩
  | hashPairs key =>
    refine ⟨?_, fun h => absurd rfl h⟩
    cases hops
    cases rs with
    | nil => exact Value.Leaf.flat ⟨nofun, trivial⟩
    | cons r rs =>
      obtain ⟨op, hop, b, hb, rfl⟩ := hrs r List.mem_cons_self
      obtain rfl := List.mem_singleton.mp hop
      exact flat_hashPairs hb key now
  | expire unit _ _ => cases unit <;> exact hleaf (leaf_elim (hleaves nofun nofun))
  | _ => exact hleaf (leaf_elim (hleaves nofun nofun))

end Call

/-! ### What requests reply -/

namespace Store
variable {s : Store} {now : Instant} {args : List Bytes}

/-- Requests with arguments that fit in bulks keep what is stored fit for them. -/
theorem keeps_request (now : Instant) (hargs : ∀ arg ∈ args, arg.FitsBulk) :
    (Task.request now args).Keeps fun b => b.value.FitsBulks := by
  intro call ops hcall hops op hop
  obtain ⟨name, rfl, -⟩ := Call.ofRequest_eq_ok hcall
  exact (Call.operations_fit (fun arg harg => hargs arg (List.mem_cons_of_mem name harg)) hops op hop).keeps

/-- A request with arguments within the limits is replied within the limits. -/
theorem Everywhere.readable_execute (h : s.Everywhere fun b => b.value.FitsBulks)
    (hcount : args.length ≤ maxArray) (hargs : ∀ arg ∈ args, arg.FitsBulk)
    (hpairs : args.head?.bind Command.lookup = some .hashPairs → (execute now s args).1.Counted) :
    (execute now s args).1.Readable := by
  rcases execute_cases now args with ⟨e, hfails⟩ | ⟨call, ops, hcall, hops, hruns⟩
  · rw [hfails]
    exact (Value.leaf_error e).readable
  · obtain ⟨name, rfl, hname⟩ := Call.ofRequest_eq_ok hcall
    have hrs := (Everywhere.perform ops h (keeps_request now hargs call ops hcall hops)).1
    obtain ⟨hflat, hitems⟩ := Call.flat_answer (fun arg harg => hargs arg (List.mem_cons_of_mem name harg))
      hops hrs (length_perform_le ops s)
    rw [hruns] at hpairs ⊢
    refine hflat.readable ?_
    by_cases hlist : call.command = .hashPairs
    · exact hpairs (by rw [List.head?_cons, Option.bind_some, hname, hlist])
    · intro items h
      exact (hitems hlist items h).trans ((Nat.le_succ _).trans hcount)

end Store

/-! ### The stream of replies -/

/-- The task is a request. -/
def Task.isRequest : Task → Bool
  | request _ _ => true
  | sweepAll _ | nextDue => false

/-- The task does not list a hash, or its result is no reply with too many elements. -/
def Task.pairsFit : Task → Result → Bool
  | request _ args, .reply (.array items) =>
    args.head?.bind Command.lookup != some .hashPairs || decide (items.length ≤ maxArray)
  | _, _ => true

/-- The reply, if the result is one. -/
def Task.Result.reply? : Task.Result → Option Value
  | reply v => some v
  | swept _ | due _ => none

theorem Wire.Request.limits_of_read {buf : Bytes} {args : List Bytes} {n : Nat}
    (h : Request.read buf = .complete args n) : args.length ≤ maxArray ∧ ∀ arg ∈ args, arg.FitsBulk := by
  have hframed := Request.yields_framed _ _ _ h
  generalize buf.take n = octets at hframed
  cases hframed with
  | array _ hcount hargs =>
    refine ⟨hcount, fun arg harg => ?_⟩
    obtain ⟨octets, hoctets⟩ := hargs.exists_octets arg harg
    cases hoctets with
    | bulk _ hle => exact hle
    | null _ => exact Nat.zero_le maxBulk

namespace Store

/-- The replies to the requests among the tasks. -/
def replies (s : Store) (tasks : List Task) : List Value := (s.runTasks tasks).1.filterMap Task.Result.reply?

theorem length_replies : ∀ (tasks : List Task) (s : Store), (s.replies tasks).length = tasks.countP Task.isRequest
  | [], _ => rfl
  | task :: tasks, s => by
    have hrest := length_replies tasks (task.run s).2
    cases task with
    | request now args =>
      rw [List.countP_cons_of_pos rfl, ← hrest]
      rfl
    | sweepAll now =>
      rw [List.countP_cons_of_neg Bool.false_ne_true, ← hrest]
      rfl
    | nextDue =>
      rw [List.countP_cons_of_neg Bool.false_ne_true, ← hrest]
      rfl

/-- Every reply along a history of requests within the limits is read back. -/
theorem Everywhere.readable_replies : ∀ (tasks : List Task) {s : Store},
    s.Everywhere (fun b => b.value.FitsBulks) →
    (∀ now args, Task.request now args ∈ tasks → args.length ≤ maxArray ∧ ∀ arg ∈ args, arg.FitsBulk) →
    (∀ p ∈ tasks.zip (s.runTasks tasks).1, p.1.pairsFit p.2 = true) → ∀ v ∈ s.replies tasks, v.Readable
  | [], _, _, _, _ => nofun
  | task :: tasks, s, h, htasks, hpairs => by
    have hkeeps : task.Keeps fun b => b.value.FitsBulks := by
      cases task with
      | request now args => exact keeps_request now (htasks now args List.mem_cons_self).2
      | sweepAll now => trivial
      | nextDue => trivial
    have hrest := Everywhere.readable_replies tasks (h.task hkeeps)
      (fun now args hmem => htasks now args (List.mem_cons_of_mem task hmem))
      fun p hp => hpairs p (List.mem_cons_of_mem _ hp)
    have hfirst : ∀ v, (task.run s).1.reply? = some v → v.Readable := fun v hv => by
      cases task with
      | request now args =>
        obtain ⟨hcount, hargs⟩ := htasks now args List.mem_cons_self
        have hfit := hpairs (.request now args, .reply (execute now s args).1) List.mem_cons_self
        cases hv
        refine h.readable_execute hcount hargs fun hlist items hitems => ?_
        rw [hitems] at hfit
        simpa [Task.pairsFit, hlist] using hfit
      | sweepAll now => cases hv
      | nextDue => cases hv
    intro v hv
    have hv' : v ∈ ((task.run s).1 :: ((task.run s).2.runTasks tasks).1).filterMap Task.Result.reply? := hv
    rw [List.filterMap_cons] at hv'
    split at hv'
    · exact hrest v hv'
    · next w hw =>
      rcases List.mem_cons.mp hv' with rfl | hv'
      · exact hfirst v hw
      · exact hrest v hv'

/-- **Nothing that a client sends splits a reply.** Whatever requests are framed and carried out, and
whatever octets they are made of, the stream of their replies is read as one value for each request, in order
and up to its end. Each is the reply, with spaces for the CR and LF in status and error texts. Only the
replies that list a hash have to be known to have no more elements than are read. -/
theorem replies_come_back (hash : Bytes → UInt64) (count : Nat) (mode : Mode) (tasks : List Task)
    (hframed : ∀ now args, Task.request now args ∈ tasks → ∃ buf n, Request.read buf = .complete args n)
    (hpairs : ∀ p ∈ tasks.zip ((emptyBy hash count mode).runTasks tasks).1, p.1.pairsFit p.2 = true) :
    let replies := (emptyBy hash count mode).replies tasks
    replies.length = tasks.countP Task.isRequest ∧
    Reply.readAll (replies.flatMap Value.encode) = (replies.map Value.spaced, []) := by
  intro replies
  refine ⟨length_replies tasks _, Reply.readAll_flatMap replies ?_⟩
  refine Everywhere.readable_replies tasks (everywhere_emptyBy hash count mode _) (fun now args hmem => ?_) hpairs
  obtain ⟨buf, n, hread⟩ := hframed now args hmem
  exact Request.limits_of_read hread

/-- Line breaks in a key, a value, a field and the name of an unknown command, with a reply in them. -/
theorem replies_come_back_line_breaks :
    let tasks : List Task :=
      [.request 0 (["SET", "k\r\n", "v\r\n+OK\r\n"].map Bytes.ofString),
        .request 0 (["HSET", "h", "f\r\n", "$-1\r\n"].map Bytes.ofString), .sweepAll 1,
        .request 2 (["GET", "k\r\n"].map Bytes.ofString), .request 3 (["HGETALL", "h"].map Bytes.ofString),
        .request 4 (["NO\r\n+OK\r\n", "k"].map Bytes.ofString)]
    let replies := (emptyBy (fun _ => 0) 1 .linear).replies tasks
    replies.length = 5 ∧ Reply.readAll (replies.flatMap Value.encode) = (replies.map Value.spaced, []) := by
  intro tasks
  have hlimits : ∀ task ∈ tasks, ∀ now args, task = Task.request now args →
      args.length ≤ maxArray ∧ ∀ arg ∈ args, arg.length ≤ maxBulk := by
    simp only [tasks, List.forall_mem_cons]
    refine ⟨?_, ?_, ?_, ?_, ?_, ?_, nofun⟩
    all_goals
      intro now args h
      cases h
    all_goals exact ⟨by decide +kernel, by decide +kernel⟩
  have hframed : ∀ now args, Task.request now args ∈ tasks → ∃ buf n, Request.read buf = .complete args n := by
    intro now args hmem
    obtain ⟨hcount, hargs⟩ := hlimits _ hmem now args rfl
    exact ⟨_, _, Request.reads_framed (Request.framed_encode hcount hargs) []⟩
  exact replies_come_back (fun _ => 0) 1 .linear tasks hframed (by decide +kernel)

end Store
end Keyspace

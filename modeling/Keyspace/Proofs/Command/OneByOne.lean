/-
# Several arguments at once, and one by one

A command that takes several keys, pairs or fields does what the command with one of them does, carried out
for each from left to right at the same reading of the clock.

For commands that take several keys this is a matter of operations: the same ones are performed, and only
getting several keys stops early, at a refusal (`Store.perform_eq_runEach`). Setting, getting and deleting
several fields is one operation. There it is a matter of the binding of the one key: what the operations with
single fields make of it, one after another (`Binding.runEach`), is what the operation with all fields
makes of it. A hash that loses its last field on the way goes with its deadline then, and not only at
the end (`Binding.counts_hashDelete`).

Key definitions: `Store.runEach`, `Binding.runEach`, `Binding.Counts`, `Sums`, `Collects`.
Key theorems: `runAll_eq_runEach`, `Placed.runEach`, `Binding.counts_hashSet`, `Binding.counts_hashDelete`,
`several_one_by_one`.
-/
import Keyspace.Pool
import Keyspace.Proofs.Command.Refusal
import Keyspace.Proofs.Store.Contents

namespace Keyspace

open Shard (Operation Result setFields removeFields)

/-! ### A binding, operation by operation -/

namespace Binding

/-- What operations on its key make of a binding, one after another, with their results. -/
def runEach (b : Option Binding) : List Operation → List Result × Option Binding
  | [] => ([], b)
  | op :: ops =>
    let (r, b) := op.onBinding (op.finds b)
    let (rs, b) := runEach b ops
    (r :: rs, b)

/-- An operation counts what others, of which each counts one at most, count one after another, and leaves
the same binding. -/
def Counts (b : Option Binding) (op : Operation) (ops : List Operation) : Prop :=
  ∃ ns : List Nat, (∀ n ∈ ns, n ≤ 1) ∧ (runEach b ops).1 = ns.map Result.count ∧
    op.onBinding (op.finds b) = (.count (ns.foldr (· + ·) 0), (runEach b ops).2)

variable {b b' c : Option Binding} {m : Dict Bytes} {key : Bytes} {now : Instant}
  {op first rest : Operation} {ops : List Operation} {n k : Nat}

theorem counts_singleton (h : op.onBinding (op.finds b) = (.count n, b')) (hn : n ≤ 1) : Counts b op [op] := by
  refine ⟨[n], fun a ha => List.mem_singleton.mp ha ▸ hn, ?_, ?_⟩
  · simp [runEach, h]
  · simp [runEach, h]

/-- One more operation in front. -/
theorem Counts.cons (hrest : Counts b' rest ops) (hn : n ≤ 1)
    (hfirst : first.onBinding (first.finds b) = (.count n, b'))
    (hlast : rest.onBinding (rest.finds b') = (.count k, c))
    (hop : op.onBinding (op.finds b) = (.count (n + k), c)) : Counts b op (first :: ops) := by
  obtain ⟨ns, hle, hresults, hsum⟩ := hrest
  rw [hlast, Prod.mk.injEq, Result.count.injEq] at hsum
  obtain ⟨rfl, rfl⟩ := hsum
  refine ⟨n :: ns, ?_, ?_, ?_⟩
  · intro a ha
    rcases List.mem_cons.mp ha with rfl | ha
    · exact hn
    · exact hle a ha
  · simp [runEach, hfirst, hresults]
  · simp [runEach, hfirst, hop]

/-- What takes over the deadline of a live binding is live. -/
theorem live_of_deadline (h : ∀ due, b'.bind deadline = some due → (live now b).bind deadline = some due) :
    live now b' = b' :=
  live_of_lt fun due hdue => lt_of_live (h due hdue)

/-! ### Setting fields -/

theorem setFields_cons (m : Dict Bytes) (p : Bytes × Bytes) (pairs : List (Bytes × Bytes)) :
    setFields m (p :: pairs) = ((setFields m [p]).1 + (setFields (setFields m [p]).2 pairs).1,
      (setFields (setFields m [p]).2 pairs).2) := by
  simp only [setFields]
  split <;> simp [Nat.add_comm]

theorem setFields_singleton_le (m : Dict Bytes) (p : Bytes × Bytes) : (setFields m [p]).1 ≤ 1 := by
  simp only [setFields]
  split <;> omega

/-- Setting several fields of a hash is setting each. -/
theorem counts_hashSet : ∀ {pairs : List (Bytes × Bytes)} {b : Option Binding} {m : Dict Bytes}, pairs ≠ [] →
    fields (live now b) = .ok m →
    Counts b (.hashSet key pairs now) (pairs.map fun p => .hashSet key [p] now)
  | [p], b, m, _, hm =>
    counts_singleton (Operation.onBinding_hashSet_ok hm) (setFields_singleton_le m p)
  | p :: q :: pairs, b, m, _, hm => by
    let b' : Option Binding := some ⟨.hash (setFields m [p]).2, (live now b).bind deadline⟩
    have hlive : live now b' = b' := live_of_deadline fun due hdue => hdue
    have hfields : fields (live now b') = .ok (setFields m [p]).2 := by
      rw [hlive]
      rfl
    have hrest : Counts b' (.hashSet key (q :: pairs) now) ((q :: pairs).map fun p => .hashSet key [p] now) :=
      counts_hashSet (List.cons_ne_nil q pairs) hfields
    refine hrest.cons (setFields_singleton_le m p) (Operation.onBinding_hashSet_ok hm)
      (Operation.onBinding_hashSet_ok hfields) ?_
    have hfinds : (Operation.hashSet key (q :: pairs) now).finds b' = b' := hlive
    have hall : (Operation.hashSet key (p :: q :: pairs) now).onBinding (live now b) = _ :=
      Operation.onBinding_hashSet_ok hm
    rw [setFields_cons] at hall
    rw [hfinds]
    exact hall

/-! ### Deleting fields -/

/-- A hash under a key; without fields there is none. -/
def ofFields (m : Dict Bytes) (due : Option Instant) : Option Binding :=
  if m.isEmpty then none else some ⟨.hash m, due⟩

theorem fields_ofFields (m : Dict Bytes) (due : Option Instant) : fields (ofFields m due) = .ok m := by
  unfold ofFields
  split
  · next h => rw [fields, Std.ExtTreeMap.isEmpty_iff.mp h]
  · rfl

theorem deadline_ofFields (m : Dict Bytes) (due : Option Instant) :
    (ofFields m due).bind deadline = if m.isEmpty then none else due := by
  unfold ofFields
  split <;> rfl

theorem isEmpty_removeFields (h : m.isEmpty = true) (names : List Bytes) :
    (removeFields m names).2.isEmpty = true := by
  have hsize := Shard.removeFields_fst names m
  rw [Std.ExtTreeMap.isEmpty_iff, Std.ExtTreeMap.eq_empty_iff_size_eq_zero] at h ⊢
  omega

theorem removeFields_cons (m : Dict Bytes) (name : Bytes) (names : List Bytes) :
    removeFields m (name :: names) = ((removeFields m [name]).1 + (removeFields (removeFields m [name]).2 names).1,
      (removeFields (removeFields m [name]).2 names).2) := by
  simp only [removeFields]
  split <;> simp [Nat.add_comm]

theorem removeFields_singleton_le (m : Dict Bytes) (name : Bytes) : (removeFields m [name]).1 ≤ 1 := by
  simp only [removeFields]
  split <;> omega

/-- Deleting several fields of a hash is deleting each, also if the hash is gone before the last. -/
theorem counts_hashDelete : ∀ {names : List Bytes} {b : Option Binding} {m : Dict Bytes}, names ≠ [] →
    fields (live now b) = .ok m →
    Counts b (.hashDelete key names now) (names.map fun name => .hashDelete key [name] now)
  | [name], b, m, _, hm =>
    counts_singleton (Operation.onBinding_hashDelete_ok hm) (removeFields_singleton_le m name)
  | name :: second :: names, b, m, _, hm => by
    let due := (live now b).bind deadline
    let b' : Option Binding := ofFields (removeFields m [name]).2 due
    have hdue : b'.bind deadline = if (removeFields m [name]).2.isEmpty then none else due :=
      deadline_ofFields _ due
    have hlive : live now b' = b' := live_of_deadline fun d hd => by
      rw [hdue] at hd
      split at hd
      · cases hd
      · exact hd
    have hfields : fields (live now b') = .ok (removeFields m [name]).2 := by
      rw [hlive]
      exact fields_ofFields _ due
    have hrest : Counts b' (.hashDelete key (second :: names) now)
        ((second :: names).map fun name => .hashDelete key [name] now) :=
      counts_hashDelete (List.cons_ne_nil second names) hfields
    refine hrest.cons (removeFields_singleton_le m name) (Operation.onBinding_hashDelete_ok hm)
      (Operation.onBinding_hashDelete_ok hfields) ?_
    have hfinds : (Operation.hashDelete key (second :: names) now).finds b' = b' := hlive
    have hall : (Operation.hashDelete key (name :: second :: names) now).onBinding (live now b) = _ :=
      Operation.onBinding_hashDelete_ok hm
    rw [removeFields_cons] at hall
    refine hall.trans ?_
    -- without fields there is no deadline to keep, and there will be none
    rw [hfinds, hdue]
    cases he : (removeFields m [name]).2.isEmpty with
    | true => simp [isEmpty_removeFields he]
    | false => rfl

/-! ### Getting fields -/

/-- Getting fields of a hash leaves it as it is, unless it has expired. -/
theorem runEach_hashGet (key : Bytes) : ∀ {names : List Bytes} {b : Option Binding}, names ≠ [] →
    fields (live now b) = .ok m → runEach b (names.map fun name => .hashGet key name now) =
      (names.map fun name => .value m[name]?, live now b)
  | [name], b, _, hm => by simp [runEach, Operation.onBinding, Operation.finds, Operation.now?, hm, Except.map,
      Result.ofExcept]
  | name :: second :: names, b, _, hm => by
    have hlive : fields (live now (live now b)) = .ok m := by rw [live_live (Nat.le_refl now), hm]
    have hrest := runEach_hashGet key (List.cons_ne_nil second names) hlive
    rw [live_live (Nat.le_refl now)] at hrest
    have hfirst : (Operation.hashGet key name now).onBinding (live now b) = (.value m[name]?, live now b) := by
      simp only [Operation.onBinding, hm, Except.map, Result.ofExcept]
    rw [List.map_cons, runEach]
    simp only [Operation.finds, Operation.now?, hfirst]
    rw [hrest]
    rfl

/-- Getting a field of a string is refused. -/
theorem any_refused_hashGet (key : Bytes) {w : WrongKind} (hb : fields (live now b) = .error w) {names : List Bytes}
    (hnames : names ≠ []) :
    (runEach b (names.map fun name => .hashGet key name now)).1.any Result.isRefused = true := by
  cases names with
  | nil => exact absurd rfl hnames
  | cons name names =>
    have hfirst : ((Operation.hashGet key name now).onBinding (live now b)).1 = .refused w := by
      simp only [Operation.onBinding, hb, Except.map, Result.ofExcept]
    rw [List.map_cons, runEach]
    simp only [Operation.finds, Operation.now?, hfirst, List.any_cons, Result.isRefused, Bool.true_or]

end Binding

/-! ### A store, operation by operation -/

namespace Store

/-- Performs operations one after another, whether they are refused or not. -/
def runEach (s : Store) : List Operation → List Result × Store
  | [] => ([], s)
  | op :: ops =>
    let (r, s) := s.run op
    let (rs, s) := s.runEach ops
    (r :: rs, s)

variable {s : Store} {key : Bytes} {now : Instant}

/-- Where a refusal ends it, there is one if none ends it, too. -/
theorem any_refused_perform : ∀ (ops : List Operation) (s : Store),
    (s.perform ops).1.any Result.isRefused = (s.runEach ops).1.any Result.isRefused
  | [], _ => rfl
  | op :: ops, s => by
    cases hrefused : (s.run op).1.isRefused with
    | true =>
      rw [perform_cons_of_refused ops hrefused]
      simp [runEach, hrefused]
    | false =>
      rw [perform_cons ops hrefused]
      simp [runEach, any_refused_perform ops]

/-- Where nothing is refused, nothing ends early. -/
theorem perform_eq_runEach : ∀ {ops : List Operation} {s : Store},
    (s.runEach ops).1.any Result.isRefused = false → s.perform ops = s.runEach ops
  | [], _, _ => rfl
  | op :: ops, s, h => by
    simp only [runEach, List.any_cons, Bool.or_eq_false_iff] at h
    rw [perform_cons ops h.1, perform_eq_runEach h.2]
    rfl

theorem perform_eq_runEach_of_kept {ops : List Operation}
    (h : ∀ op ∈ ops, ∀ s : Store, (s.run op).1.isRefused = false) : s.perform ops = s.runEach ops := by
  refine perform_eq_runEach ?_
  induction ops generalizing s with
  | nil => rfl
  | cons op ops ih =>
    simp only [runEach, List.any_cons, h op List.mem_cons_self, Bool.false_or]
    exact ih fun o ho => h o (List.mem_cons_of_mem op ho)

theorem sameLayout_runEach : ∀ (ops : List Operation) (s : Store), s.SameLayout (s.runEach ops).2
  | [], s => sameLayout_refl s
  | op :: ops, s => (sameLayout_run s op).trans (sameLayout_runEach ops _)

/-- Operations on one key do to it what they mean for its binding, one after another. -/
theorem Placed.runEach : ∀ (ops : List Operation) {s : Store}, s.Placed → (∀ op ∈ ops, op.key? = some key) →
    (s.runEach ops).1 = (Binding.runEach (s.binding? key) ops).1 ∧ (s.runEach ops).2.Placed ∧
    s.Changes (s.runEach ops).2 key (Binding.runEach (s.binding? key) ops).2
  | [], s, h, _ => ⟨rfl, h, rfl, fun _ _ => rfl⟩
  | op :: ops, s, h, hops => by
    obtain ⟨hresult, hplaced, hchanges⟩ := h.run op (hops op List.mem_cons_self)
    obtain ⟨hresults, hlast, hrest⟩ := Placed.runEach ops hplaced fun o ho => hops o (List.mem_cons_of_mem op ho)
    rw [hchanges.self] at hresults hrest
    exact ⟨congrArg₂ List.cons hresult hresults, hlast, hchanges.trans hrest⟩

/-- If they make the same of the binding of their key, one operation and several leave the same. -/
theorem Placed.holdsSame_runEach (h : s.Placed) {op : Operation} {ops : List Operation}
    (hop : op.key? = some key) (hops : ∀ op ∈ ops, op.key? = some key)
    (hsame : (op.onBinding (op.finds (s.binding? key))).2 = (Binding.runEach (s.binding? key) ops).2) :
    (s.run op).2.HoldsSame (s.runEach ops).2 := by
  obtain ⟨-, hplaced, hchanges⟩ := h.run op hop
  obtain ⟨-, hplaced', hchanges'⟩ := Placed.runEach ops h hops
  have halike : Alike (s.run op).2 (s.runEach ops).2 := by
    refine ⟨hplaced, hplaced', fun k => ?_⟩
    by_cases hk : k = key
    · rw [hk, hchanges.self, hchanges'.self, hsame]
    · rw [hchanges.others k hk, hchanges'.others k hk]
  exact halike.holdsSame ((sameLayout_run s op).symm.trans (sameLayout_runEach ops s))

end Store

/-! ### Requests one by one -/

open Store

theorem wrongKind_mem_iff {rs : List Result} :
    CommandError.wrongKind.toValue ∈ rs.map Result.toValue ↔ rs.any Result.isRefused = true := by
  rw [List.mem_map, List.any_eq_true]
  refine exists_congr fun r => and_congr_right fun _ => ?_
  cases hr : r.isRefused with
  | true => simp [Result.toValue, Result.reply_of_refused hr, Call.toValue]
  | false =>
    obtain ⟨v, hv, herror⟩ := Result.reply_of_not_refused hr
    simp only [Result.toValue, hv, Call.toValue, Bool.false_eq_true, iff_false]
    rintro rfl
    cases herror

variable {α : Type} {s : Store} {now : Instant} {key name one : Bytes} {c : Command}

/-- Requests of one operation each are these operations, one after another. -/
theorem runAll_eq_runEach (request : α → List Bytes) (op : α → Operation) (value : Result → Value)
    (h : ∀ a s, execute now s (request a) = (value (s.run (op a)).1, (s.run (op a)).2)) :
    ∀ (as : List α) (s : Store), (Executor.ofStore now).runAll (as.map request) s =
      ((s.runEach (as.map op)).1.map value, (s.runEach (as.map op)).2)
  | [], _ => rfl
  | a :: as, s => by
    have hanswer : (Executor.ofStore now).answer (request a) s = execute now s (request a) := rfl
    rw [List.map_cons, Executor.runAll]
    simp only [hanswer, h, runAll_eq_runEach request op value h as]
    rfl

/-! ### Several at once -/

/-- The command for one of what a command takes several of. -/
def Command.single : Command → Command
  | .setMany => .set
  | .getMany => .get
  | .hashGetMany => .hashGet
  | c => c

/-- One reply is the sum of others, which are zero or one each, and the stores hold the same in the end. -/
def Sums (all : Value × Store) (each : List Value × Store) : Prop :=
  (∃ ns : List Nat, (∀ n ∈ ns, n ≤ 1) ∧ each.1 = ns.map Value.count ∧ all.1 = .count (ns.foldr (· + ·) 0)) ∧
  all.2.HoldsSame each.2

/-- One reply lists others, and the stores hold the same in the end. But if one of those tells that a key holds
the wrong kind of value, so does this. -/
def Collects (all : Value × Store) (each : List Value × Store) : Prop :=
  (CommandError.wrongKind.toValue ∈ each.1 → all.1 = CommandError.wrongKind.toValue) ∧
  (CommandError.wrongKind.toValue ∉ each.1 → all.1 = .array each.1 ∧ all.2.HoldsSame each.2)

theorem countP_eq_sum (rs : List Result) :
    rs.countP Result.isYes = (rs.map fun r => r.isYes.toNat).foldr (· + ·) 0 := by
  induction rs with
  | nil => rfl
  | cons r rs ih =>
    rw [List.countP_cons, List.map_cons, List.foldr_cons, ih, Nat.add_comm]
    cases r.isYes <;> rfl

/-- Counting keys. -/
theorem sums_keys {call : List Bytes → Call} {op : Bytes → Operation} (hname : Command.lookup name = some c)
    (hone : Command.lookup one = some c)
    (hcall : ∀ {name keys}, Command.lookup name = some c → keys ≠ [] → Call.ofRequest (name :: keys) = .ok (call keys))
    (hops : ∀ keys, (call keys).operations now = .ok (keys.map op))
    (hanswer : ∀ keys rs, (call keys).answer rs = .ok (.count (rs.countP Result.isYes)))
    (hkept : ∀ key (s : Store), (s.run (op key)).1.isRefused = false) (s : Store) {keys : List Bytes}
    (hkeys : keys ≠ []) :
    Sums (execute now s (name :: keys)) ((Executor.ofStore now).runAll (keys.map fun key => [one, key]) s) := by
  have hsingle : ∀ key (s : Store), execute now s [one, key] =
      (.count (s.run (op key)).1.isYes.toNat, (s.run (op key)).2) := fun key s => by
    rw [execute_of_operation (hcall hone (List.cons_ne_nil key [])) (hops [key]), hanswer, countP_eq_sum]
    rfl
  have hperform : s.perform (keys.map op) = s.runEach (keys.map op) :=
    perform_eq_runEach_of_kept fun o ho => by
      obtain ⟨key, -, rfl⟩ := List.mem_map.mp ho
      exact hkept key
  rw [execute_of_operations (hcall hname hkeys) (hops keys), hanswer, countP_eq_sum, hperform,
    runAll_eq_runEach _ op (fun r => .count r.isYes.toNat) hsingle]
  refine ⟨⟨_, fun n hn => ?_, ?_, rfl⟩, fun _ _ => rfl⟩
  · obtain ⟨r, -, rfl⟩ := List.mem_map.mp hn
    exact Bool.toNat_le r.isYes
  · rw [List.map_map]
    rfl

/-- Setting several strings. -/
theorem setMany_one_by_one (hname : Command.lookup name = some .setMany)
    (hone : Command.lookup one = some .set) (s : Store) {pairs : List (Bytes × Bytes)} (hpairs : pairs ≠ []) :
    let all := execute now s (name :: pairs.flatMap fun p => [p.1, p.2])
    let each := (Executor.ofStore now).runAll (pairs.map fun p => [one, p.1, p.2]) s
    all.1 = .ok ∧ (∀ v ∈ each.1, v = .ok) ∧ all.2.HoldsSame each.2 := by
  intro all each
  have hsingle : ∀ (p : Bytes × Bytes) (s : Store), execute now s [one, p.1, p.2] =
      (.ok, (s.run (.set p.1 p.2)).2) := fun p s =>
    execute_of_operation (Call.ofRequest_arguments (.set p.1 p.2 []) trivial hone) rfl
  have hperform : s.perform (pairs.map fun p => .set p.1 p.2) = s.runEach (pairs.map fun p => .set p.1 p.2) :=
    perform_eq_runEach_of_kept fun o ho => by
      obtain ⟨p, -, rfl⟩ := List.mem_map.mp ho
      exact fun _ => rfl
  have hall : all = (.ok, (s.runEach (pairs.map fun p => .set p.1 p.2)).2) := by
    rw [← hperform]
    exact execute_of_operations (Call.ofRequest_arguments (.setMany pairs) hpairs hname) rfl
  have heach := runAll_eq_runEach _ (fun p => .set p.1 p.2) (fun _ => .ok) hsingle pairs s
  refine ⟨by rw [hall], fun v hv => ?_, ?_⟩
  · simp only [each, heach, List.map_const'] at hv
    exact List.eq_of_mem_replicate hv
  · simp only [each, hall, heach]
    exact fun _ _ => rfl

/-- Counting fields of one key. -/
theorem Store.Placed.sums_fields (h : s.Placed) {args : List Bytes} {request : α → List Bytes} {op : Operation}
    {single : α → Operation} {as : List α}
    (hall : execute now s args = ((s.run op).1.toValue, (s.run op).2))
    (heach : ∀ a s, execute now s (request a) = ((s.run (single a)).1.toValue, (s.run (single a)).2))
    (hop : op.key? = some key) (hsingle : ∀ a, (single a).key? = some key)
    (hcounts : Binding.Counts (s.binding? key) op (as.map single)) :
    Sums (execute now s args) ((Executor.ofStore now).runAll (as.map request) s) := by
  have hops : ∀ o ∈ as.map single, o.key? = some key := fun o ho => by
    obtain ⟨a, -, rfl⟩ := List.mem_map.mp ho
    exact hsingle a
  obtain ⟨ns, hle, hresults, hlast⟩ := hcounts
  rw [hall, runAll_eq_runEach request single Result.toValue heach]
  refine ⟨⟨ns, hle, ?_, ?_⟩, h.holdsSame_runEach hop hops (by rw [hlast])⟩
  · rw [(Placed.runEach _ h hops).1, hresults, List.map_map]
    rfl
  · rw [(h.run op hop).1, hlast]
    rfl

/-- Setting several fields, unless the key holds a string. -/
theorem Store.Placed.sums_hashSet (h : s.Placed) (hname : Command.lookup name = some .hashSet)
    (hone : Command.lookup one = some .hashSet) {pairs : List (Bytes × Bytes)} (hpairs : pairs ≠ [])
    (hkind : s.kindAt? now key ≠ some .string) :
    Sums (execute now s (name :: key :: pairs.flatMap fun p => [p.1, p.2]))
      ((Executor.ofStore now).runAll (pairs.map fun p => [one, key, p.1, p.2]) s) := by
  obtain ⟨m, hm⟩ := exists_fields hkind
  have hcall := Call.ofRequest_arguments (.hashSet key pairs) hpairs hname
  have hsingle : ∀ p : Bytes × Bytes, Call.ofRequest [one, key, p.1, p.2] = .ok (.hashSet key [p]) := fun p =>
    Call.ofRequest_arguments (.hashSet key [p]) (List.cons_ne_nil p []) hone
  exact h.sums_fields (execute_of_operation hcall rfl) (fun p _ => execute_of_operation (hsingle p) rfl) rfl
    (fun _ => rfl) (Binding.counts_hashSet hpairs hm)

/-- Deleting several fields, unless the key holds a string. -/
theorem Store.Placed.sums_hashDelete (h : s.Placed) (hname : Command.lookup name = some .hashDelete)
    (hone : Command.lookup one = some .hashDelete) {names : List Bytes} (hnames : names ≠ [])
    (hkind : s.kindAt? now key ≠ some .string) :
    Sums (execute now s (name :: key :: names))
      ((Executor.ofStore now).runAll (names.map fun field => [one, key, field]) s) := by
  obtain ⟨m, hm⟩ := exists_fields hkind
  have hcall := Call.ofRequest_arguments (.hashDelete key names) hnames hname
  have hsingle : ∀ field, Call.ofRequest [one, key, field] = .ok (.hashDelete key [field]) := fun field =>
    Call.ofRequest_arguments (.hashDelete key [field]) (List.cons_ne_nil field []) hone
  exact h.sums_fields (execute_of_operation hcall rfl) (fun field _ => execute_of_operation (hsingle field) rfl) rfl
    (fun _ => rfl) (Binding.counts_hashDelete hnames hm)

theorem collects_of_results {all : Value × Store} {each : List Value × Store} {rs : List Result}
    (heach : each.1 = rs.map Result.toValue)
    (hrefused : rs.any Result.isRefused = true → all.1 = CommandError.wrongKind.toValue)
    (hkept : rs.any Result.isRefused = false → all.1 = .array each.1 ∧ all.2.HoldsSame each.2) :
    Collects all each := by
  unfold Collects
  rw [heach] at hkept ⊢
  rw [wrongKind_mem_iff, Bool.not_eq_true]
  exact ⟨hrefused, hkept⟩

/-- Getting several fields. -/
theorem Store.Placed.collects_hashGetMany (h : s.Placed) (hname : Command.lookup name = some .hashGetMany)
    (hone : Command.lookup one = some .hashGet) {names : List Bytes} (hnames : names ≠ []) :
    Collects (execute now s (name :: key :: names))
      ((Executor.ofStore now).runAll (names.map fun field => [one, key, field]) s) := by
  have hcall := Call.ofRequest_arguments (.hashGetMany key names) hnames hname
  have hsingle : ∀ field (s : Store), execute now s [one, key, field] =
      ((s.run (.hashGet key field now)).1.toValue, (s.run (.hashGet key field now)).2) := fun field s =>
    execute_of_operation (Call.ofRequest_arguments (.hashGet key field) trivial hone) rfl
  have hall : execute now s (name :: key :: names) = ((s.run (.hashGetMany key names now)).1.toValue,
      (s.run (.hashGetMany key names now)).2) := execute_of_operation hcall rfl
  have hops : ∀ o ∈ names.map fun field => Operation.hashGet key field now, o.key? = some key := fun o ho => by
    obtain ⟨field, -, rfl⟩ := List.mem_map.mp ho
    rfl
  have hresults := (Placed.runEach _ h hops).1
  rw [runAll_eq_runEach _ (fun field => .hashGet key field now) Result.toValue hsingle, hall]
  cases hfields : Binding.fields (Binding.live now (s.binding? key)) with
  | error w =>
    have hany := Binding.any_refused_hashGet key hfields hnames
    refine collects_of_results rfl (fun _ => ?_) fun hkept => ?_
    · rw [h.run_timed rfl rfl]
      simp only [Operation.onBinding, hfields, Except.map, Result.ofExcept]
      rfl
    · rw [hresults, hany] at hkept
      cases hkept
  | ok m =>
    have heach := Binding.runEach_hashGet key hnames hfields
    rw [heach] at hresults
    refine collects_of_results rfl (fun hrefused => ?_) fun _ => ⟨?_, ?_⟩
    · rw [hresults] at hrefused
      simp [Result.isRefused] at hrefused
    · rw [hresults, h.run_timed rfl rfl]
      simp only [Operation.onBinding, hfields, Except.map, Result.ofExcept, List.map_map]
      show Value.array ((names.map fun field => m[field]?).map Value.ofOption) = _
      rw [List.map_map]
      rfl
    · exact h.holdsSame_runEach rfl hops (by rw [heach]; rfl)

/-- Getting several strings. -/
theorem collects_getMany (hname : Command.lookup name = some .getMany)
    (hone : Command.lookup one = some .get) (s : Store) {keys : List Bytes} (hkeys : keys ≠ []) :
    Collects (execute now s (name :: keys)) ((Executor.ofStore now).runAll (keys.map fun key => [one, key]) s) := by
  have hsingle : ∀ key (s : Store), execute now s [one, key] =
      ((s.run (.get key now)).1.toValue, (s.run (.get key now)).2) := fun key s =>
    execute_of_operation (Call.ofRequest_arguments (.get key) trivial hone) rfl
  have hcall : Call.ofRequest (name :: keys) = .ok (.getMany keys) :=
    Call.ofRequest_arguments (.getMany keys) hkeys hname
  rw [runAll_eq_runEach _ (.get · now) Result.toValue hsingle, execute_of_operations hcall rfl]
  refine collects_of_results rfl (fun hrefused => ?_) fun hkept => ?_
  · rw [Call.answer_eq_wrongKind_iff]
    exact (any_refused_perform _ s).trans hrefused
  · rw [perform_eq_runEach hkept, Call.answer, Result.replyAll_eq_map hkept]
    exact ⟨rfl, fun _ _ => rfl⟩

/-- **Several arguments at once are several requests, one by one**, at the same reading of the clock, whatever
has happened to the store before, and also if arguments are repeated. Deleting and counting keys, and setting
and deleting fields, reply the sum of the replies for one each. Setting several strings is setting each.
Getting several strings or fields lists the replies for one each, unless one of them tells that the key holds
the wrong kind of value. If a key whose fields are set or deleted holds a string, that is the reply. -/
theorem several_one_by_one (hash : Bytes → UInt64) (count : Nat) (mode : Mode) (history : List Step)
    (now : Instant) (name one : Bytes) (c : Command) (hname : Command.lookup name = some c)
    (hone : Command.lookup one = some c.single) :
    let s := (emptyBy hash count mode).after history
    let all := execute now s
    let each := fun requests => (Executor.ofStore now).runAll requests s
    (c = .delete ∨ c = .exist → ∀ keys, keys ≠ [] →
      Sums (all (name :: keys)) (each (keys.map fun key => [one, key]))) ∧
    (c = .setMany → ∀ pairs : List (Bytes × Bytes), pairs ≠ [] →
      let many := all (name :: pairs.flatMap fun p => [p.1, p.2])
      let singly := each (pairs.map fun p => [one, p.1, p.2])
      many.1 = .ok ∧ (∀ v ∈ singly.1, v = .ok) ∧ many.2.HoldsSame singly.2) ∧
    (c = .hashSet → ∀ (key : Bytes) (pairs : List (Bytes × Bytes)), pairs ≠ [] →
      let many := all (name :: key :: pairs.flatMap fun p => [p.1, p.2])
      (s.kindAt? now key = some .string → many.1 = CommandError.wrongKind.toValue) ∧
      (s.kindAt? now key ≠ some .string → Sums many (each (pairs.map fun p => [one, key, p.1, p.2])))) ∧
    (c = .hashDelete → ∀ key fields, fields ≠ [] →
      let many := all (name :: key :: fields)
      (s.kindAt? now key = some .string → many.1 = CommandError.wrongKind.toValue) ∧
      (s.kindAt? now key ≠ some .string → Sums many (each (fields.map fun field => [one, key, field])))) ∧
    (c = .hashGetMany → ∀ key fields, fields ≠ [] →
      Collects (all (name :: key :: fields)) (each (fields.map fun field => [one, key, field]))) ∧
    (c = .getMany → ∀ keys, keys ≠ [] →
      Collects (all (name :: keys)) (each (keys.map fun key => [one, key]))) := by
  have hs := placed_after hash count mode history
  generalize (emptyBy hash count mode).after history = s at hs
  intro s all each
  refine ⟨?_, ?_, ?_, ?_, ?_, ?_⟩
  · rintro (rfl | rfl) keys hkeys
    · exact sums_keys hname hone (fun hname hkeys => Call.ofRequest_arguments (.delete _) hkeys hname)
        (fun _ => rfl) (fun _ _ => rfl) (fun _ _ => rfl) s hkeys
    · exact sums_keys hname hone (fun hname hkeys => Call.ofRequest_arguments (.exist _) hkeys hname)
        (fun _ => rfl) (fun _ _ => rfl) (fun _ _ => rfl) s hkeys
  · rintro rfl pairs hpairs
    exact setMany_one_by_one hname hone s hpairs
  · rintro rfl key pairs hpairs
    have haccepts := Call.accepts_arguments (.hashSet key pairs) hpairs
    exact ⟨((execute_eq_wrongKind_iff hs hname haccepts).1 rfl key rfl).mpr, hs.sums_hashSet hname hone hpairs⟩
  · rintro rfl key fields hfields
    have haccepts := Call.accepts_arguments (.hashDelete key fields) hfields
    exact ⟨((execute_eq_wrongKind_iff hs hname haccepts).1 rfl key rfl).mpr, hs.sums_hashDelete hname hone hfields⟩
  · rintro rfl key fields hfields
    exact hs.collects_hashGetMany hname hone hfields
  · rintro rfl keys hkeys
    exact collects_getMany hname hone s hkeys

/-- A hash that loses its last field, and its deadline with it, before the last of its fields is deleted. -/
theorem several_one_by_one_last_field :
    let s := (emptyBy (fun _ => 0) 1 .heap).after
      [.task (.request 0 (["HSET", "h", "f", "1", "g", "2"].map Bytes.ofString)),
        .task (.request 0 (["PEXPIRE", "h", "5"].map Bytes.ofString))]
    Sums (execute 1000000 s (["HDEL", "h", "f", "g", "f"].map Bytes.ofString))
      ((Executor.ofStore 1000000).runAll
        ([["hdel", "h", "f"], ["hdel", "h", "g"], ["hdel", "h", "f"]].map (·.map Bytes.ofString)) s) := by
  intro s
  have hkind : s.kindAt? 1000000 (Bytes.ofString "h") ≠ some .string := by decide +kernel
  have hall := several_one_by_one (fun _ => 0) 1 .heap
    [.task (.request 0 (["HSET", "h", "f", "1", "g", "2"].map Bytes.ofString)),
      .task (.request 0 (["PEXPIRE", "h", "5"].map Bytes.ofString))]
    1000000 (Bytes.ofString "HDEL") (Bytes.ofString "hdel") .hashDelete (by decide +kernel) (by decide +kernel)
  exact (hall.2.2.2.1 rfl (Bytes.ofString "h") (["f", "g", "f"].map Bytes.ofString) (List.cons_ne_nil _ _)).2 hkind

/-- Over a string, getting fields fails as a whole; it does not list the failures of the single requests. -/
theorem hashGetMany_over_string :
    let s := (emptyBy (fun _ => 0) 1 .linear).after
      [.task (.request 0 (["SET", "k", "v"].map Bytes.ofString))]
    let each := (Executor.ofStore 0).runAll ([["HGET", "k", "f"]].map (·.map Bytes.ofString)) s
    (execute 0 s (["HMGET", "k", "f"].map Bytes.ofString)).1 ≠ .array each.1 := by
  intro s each h
  have herror := congrArg Value.isError h
  revert herror
  decide +kernel

end Keyspace

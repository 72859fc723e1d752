/-
# The keys of a request

A request reads and changes what is held under the keys that it names (`requestKeys`), and nothing else. Stores
that agree on these keys give it the same reply and agree on them afterwards, whatever else they hold
(`AgreeOn.request`), and under any other key it leaves the binding that was there (`Placed.binding?_execute`).
Both hold for a single operation and its one key, and then for one operation after another, up to the
first that is refused.

Key definitions: `Call.keys`, `requestKeys`, `Store.AgreeOn`.
Key theorems: `Call.operations_keys`, `AgreeOn.request`, `Placed.binding?_execute`.
-/
import Keyspace.Proofs.Command.Operations

namespace Keyspace

open Shard (Operation)

/-- The keys that the call names. -/
def Call.keys : Call → List Bytes
  | ping _ | echo _ => []
  | set key _ _ | get key | ttl key | expire _ key _ | persist key | hashSet key _ | hashGet key _
  | hashDelete key _ | hashHas key _ | hashSize key | hashPairs key | hashGetMany key _ | kind key => [key]
  | delete keys | exist keys | getMany keys => keys
  | setMany pairs => pairs.map Prod.fst

/-- The keys that a request names. One that makes no call names none. -/
def requestKeys (args : List Bytes) : List Bytes :=
  match Call.ofRequest args with
  | .ok call => call.keys
  | .error _ => []

theorem requestKeys_of_call {args : List Bytes} {call : Call} (h : Call.ofRequest args = .ok call) :
    requestKeys args = call.keys := by
  unfold requestKeys
  rw [h]

example : requestKeys (["mset", "a", "1", "b", "2"].map Bytes.ofString) = ["a", "b"].map Bytes.ofString := by
  decide +kernel

/-- Every operation of a call is about a key that the call names. -/
theorem Call.operations_keys {call : Call} {now : Instant} {ops : List Operation}
    (h : call.operations now = .ok ops) : ∀ op ∈ ops, ∀ key, op.key? = some key → key ∈ call.keys := by
  intro op hop key hkey
  cases Call.performs_of_mem h op hop with
  | delete hmem | exist hmem | getMany hmem =>
    cases hkey
    exact hmem
  | setMany hp =>
    cases hkey
    exact List.mem_map_of_mem hp
  | _ =>
    cases hkey
    exact List.mem_singleton_self key

namespace Store

/-- In both stores every key is in its shard, and they hold the same bindings under keys of some sort. -/
structure AgreeOn (sort : Bytes → Prop) (s t : Store) : Prop where
  left : s.Placed
  right : t.Placed
  same : ∀ key, sort key → s.binding? key = t.binding? key

variable {sort : Bytes → Prop} {s t : Store} {key : Bytes} {now : Instant}

theorem Placed.agreeOn (h : s.Placed) (sort : Bytes → Prop) : AgreeOn sort s s := ⟨h, h, fun _ _ => rfl⟩

/-! ### What a request depends on -/

/-- An operation on a key under which both stores hold the same. -/
theorem AgreeOn.run (h : AgreeOn sort s t) (op : Operation) (hop : ∀ key, op.key? = some key → sort key) :
    (s.run op).1 = (t.run op).1 ∧ AgreeOn sort (s.run op).2 (t.run op).2 := by
  cases hkey : op.key? with
  | none =>
    rw [run_maintenance s hkey, run_maintenance t hkey]
    exact ⟨rfl, h⟩
  | some key =>
    have hsame := h.same key (hop key hkey)
    obtain ⟨hs, hsplaced, hschanges⟩ := h.left.run op hkey
    obtain ⟨ht, htplaced, htchanges⟩ := h.right.run op hkey
    rw [← hsame] at ht htchanges
    refine ⟨hs.trans ht.symm, hsplaced, htplaced, fun k hk => ?_⟩
    by_cases hkk : k = key
    · rw [hkk, hschanges.self, htchanges.self]
    · rw [hschanges.others k hkk, htchanges.others k hkk, h.same k hk]

/-- Operations, up to the first that is refused, which is the same in both stores. -/
theorem AgreeOn.perform : ∀ (ops : List Operation) {s t : Store}, AgreeOn sort s t →
    (∀ op ∈ ops, ∀ key, op.key? = some key → sort key) →
    (s.perform ops).1 = (t.perform ops).1 ∧ AgreeOn sort (s.perform ops).2 (t.perform ops).2
  | [], _, _, h, _ => ⟨rfl, h⟩
  | op :: ops, s, t, h, hops => by
    obtain ⟨hresult, hnext⟩ := h.run op (hops op List.mem_cons_self)
    cases hrefused : (s.run op).1.isRefused with
    | true =>
      rw [perform_cons_of_refused ops hrefused, perform_cons_of_refused ops (hresult ▸ hrefused)]
      exact ⟨congrArg ([·]) hresult, hnext⟩
    | false =>
      obtain ⟨hresults, hlast⟩ := AgreeOn.perform ops hnext fun o ho => hops o (List.mem_cons_of_mem op ho)
      rw [perform_cons ops hrefused, perform_cons ops (hresult ▸ hrefused)]
      exact ⟨congrArg₂ List.cons hresult hresults, hlast⟩

/-- **A request depends on the keys that it names only.** -/
theorem AgreeOn.request (h : AgreeOn sort s t) (now : Instant) (args : List Bytes)
    (hargs : ∀ key ∈ requestKeys args, sort key) :
    (execute now s args).1 = (execute now t args).1 ∧
    AgreeOn sort (execute now s args).2 (execute now t args).2 := by
  rcases execute_cases now args with ⟨e, hfails⟩ | ⟨call, ops, hcall, hops, hruns⟩
  · rw [hfails, hfails]
    exact ⟨rfl, h⟩
  · rw [requestKeys_of_call hcall] at hargs
    obtain ⟨hresults, hstores⟩ := h.perform ops fun op hop key hkey =>
      hargs key (Call.operations_keys hops op hop key hkey)
    rw [hruns, hruns, hresults]
    exact ⟨rfl, hstores⟩

/-! ### What a request leaves alone -/

theorem Placed.request (h : s.Placed) (now : Instant) (args : List Bytes) : (execute now s args).2.Placed :=
  ((h.agreeOn fun _ => True).request now args fun _ _ => trivial).2.left

theorem Placed.binding?_run (h : s.Placed) {op : Operation} (hop : op.key? ≠ some key) :
    (s.run op).2.binding? key = s.binding? key := by
  cases hkey : op.key? with
  | none => rw [run_maintenance s hkey]
  | some k =>
    obtain ⟨-, -, hchanges⟩ := h.run op hkey
    exact hchanges.others key fun hk => hop (hkey.trans (congrArg some hk.symm))

theorem Placed.binding?_perform : ∀ (ops : List Operation) {s : Store}, s.Placed →
    (∀ op ∈ ops, op.key? ≠ some key) → (s.perform ops).2.binding? key = s.binding? key
  | [], _, _, _ => rfl
  | op :: ops, s, h, hops => by
    have hfirst := h.binding?_run (hops op List.mem_cons_self)
    cases hrefused : (s.run op).1.isRefused with
    | true => rw [perform_cons_of_refused ops hrefused, hfirst]
    | false =>
      have hnext : (s.run op).2.Placed := ((h.agreeOn fun _ => True).run op fun _ _ => trivial).2.left
      rw [perform_cons ops hrefused, ← hfirst]
      exact Placed.binding?_perform ops hnext fun o ho => hops o (List.mem_cons_of_mem op ho)

/-- **A request leaves every key that it does not name.** -/
theorem Placed.binding?_execute (h : s.Placed) {args : List Bytes} (hargs : key ∉ requestKeys args) :
    (execute now s args).2.binding? key = s.binding? key := by
  rcases execute_cases now args with ⟨e, hfails⟩ | ⟨call, ops, hcall, hops, hruns⟩
  · rw [hfails]
  · rw [requestKeys_of_call hcall] at hargs
    rw [hruns]
    exact Placed.binding?_perform ops h fun op hop hkey => hargs (Call.operations_keys hops op hop key hkey)

end Store
end Keyspace

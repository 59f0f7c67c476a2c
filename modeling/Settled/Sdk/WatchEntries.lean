/-
  Settled.Sdk.WatchEntries — `watchEntries` of the TypeScript SDK's client.

  The iterator stands between a gRPC call that emits entries, an end or an error when they
  come, and a consumer that asks with `next()` when it likes: what comes early waits in
  `queue`, who asks early waits in `waiter`. There is one waiter; a second `next()` before
  the first is settled takes its place, and the promise of the first never settles.

  In every run each item received goes to one call or is still queued, in the order
  received, and each call is settled, waiting or abandoned (`Inv`). A consumer that asks
  for one item at a time, as `for await` does, abandons none, and its k-th call gets the
  k-th item. On top of a stream of the server such a consumer reads stored entries in
  strictly ascending order (`watch_entries_in_order`).
-/

import Settled.Server.Accounting

namespace Settled.Sdk.WatchEntries

open Settled.Lib Settled.Core Settled.Storage

variable {Err : Type}

/-! ## The iterator -/

/-- What the call emits: `data`, `error`, or `end` (pushed as `null`). -/
inductive Item (Err : Type) where
  | entry (e : LogEntry)
  | error (err : Err)
  | null
  deriving DecidableEq

def Item.entry? : Item Err → Option LogEntry
  | .entry e => some e
  | _ => none

structure Iterator (Err : Type) where
  queue : List (Item Err)
  /-- The call of `next` whose promise `waiter` settles. -/
  waiter : Option Nat
  /-- How often `next` was called. -/
  calls : Nat
  /-- Calls whose promise is settled, and with what. -/
  settled : List (Nat × Item Err)
  abandoned : List Nat
  received : List (Item Err)
  deriving DecidableEq

def Iterator.init : Iterator Err := ⟨[], none, 0, [], [], []⟩

def push (it : Iterator Err) (item : Item Err) : Iterator Err :=
  match it.waiter with
  | some w => { it with waiter := none, settled := it.settled ++ [(w, item)], received := it.received ++ [item] }
  | none => { it with queue := it.queue ++ [item], received := it.received ++ [item] }

/-- A promise for an item of the queue, or one that the next `push` settles. -/
def next (it : Iterator Err) : Iterator Err :=
  match it.queue with
  | item :: queue => { it with queue := queue, calls := it.calls + 1, settled := it.settled ++ [(it.calls, item)] }
  | [] => { it with waiter := some it.calls, calls := it.calls + 1, abandoned := it.abandoned ++ it.waiter.toList }

/-- `return()` cancels the gRPC call and leaves the iterator as it is; the items that the
    call still emits are pushed. -/
inductive Ev (Err : Type) where
  | emit (item : Item Err)
  | next
  | returned

def step (it : Iterator Err) : Ev Err → Option (Iterator Err)
  | .emit item => some (push it item)
  | .next => some (next it)
  | .returned => some it

/-- The consumer awaits each `next()` before the one after it. -/
def oneAtATime (it : Iterator Err) : Ev Err → Bool
  | .next => it.waiter.isNone
  | _ => true

/-! ## Items and calls -/

/-- What calls were answered with, and which. -/
def Iterator.given (it : Iterator Err) : List (Item Err) := it.settled.map (·.2)

def Iterator.answered (it : Iterator Err) : List Nat := it.settled.map (·.1)

structure Inv (it : Iterator Err) : Prop where
  /-- Items go out in the order they came. -/
  items : it.given ++ it.queue = it.received
  /-- Nobody waits while there is something to have. -/
  prompt : ∀ w, it.waiter = some w → it.queue = []
  calls : (it.answered ++ it.waiter.toList ++ it.abandoned).Perm (List.range it.calls)
  /-- Who asks later is served later. -/
  order : (it.answered ++ it.waiter.toList).Pairwise (· < ·)

theorem Inv.init : Inv (.init : Iterator Err) := ⟨rfl, fun w h => (by cases h), .nil, .nil⟩

variable {it it' : Iterator Err}

theorem Inv.push (h : Inv it) (item : Item Err) : Inv (push it item) := by
  unfold WatchEntries.push
  split
  next w hw =>
    have hcalls := h.calls
    have horder := h.order
    rw [hw, Option.toList_some] at hcalls horder
    refine ⟨?_, fun w h => (by cases h), ?_, ?_⟩
    · have hitems := h.items
      rw [h.prompt w hw, List.append_nil] at hitems
      show (it.settled ++ [(w, item)]).map Prod.snd ++ it.queue = it.received ++ [item]
      rw [h.prompt w hw, List.append_nil, List.map_append, ← hitems]
      rfl
    · show ((it.settled ++ [(w, item)]).map Prod.fst ++ [] ++ it.abandoned).Perm (List.range it.calls)
      rw [List.append_nil, List.map_append]
      exact hcalls
    · show ((it.settled ++ [(w, item)]).map Prod.fst ++ []).Pairwise (· < ·)
      rw [List.append_nil, List.map_append]
      exact horder
  next hw =>
    refine ⟨?_, fun w h => ?_, h.calls, h.order⟩
    · show it.given ++ (it.queue ++ [item]) = it.received ++ [item]
      rw [← List.append_assoc, h.items]
    · have h : it.waiter = some w := h
      rw [hw] at h
      cases h

/-- Every call made so far came before this one. -/
theorem Inv.lt_calls (h : Inv it) {i : Nat} (hi : i ∈ it.answered ++ it.waiter.toList) : i < it.calls :=
  List.mem_range.mp (h.calls.subset (List.mem_append_left _ hi))

theorem Inv.next (h : Inv it) : Inv (next it) := by
  have hlast : ((it.answered ++ it.waiter.toList) ++ it.abandoned ++ [it.calls]).Perm (List.range (it.calls + 1)) := by
    rw [List.range_succ]
    exact h.calls.append_right _
  unfold WatchEntries.next
  split
  next item queue hq =>
    have hw : it.waiter = none := by
      cases hw : it.waiter with
      | none => rfl
      | some w => rw [h.prompt w hw] at hq; cases hq
    have horder := h.order
    have hlt := fun i => h.lt_calls (i := i)
    rw [hw, Option.toList_none, List.append_nil] at hlast horder hlt
    refine ⟨?_, fun w h => ?_, ?_, ?_⟩
    · show (it.settled ++ [(it.calls, item)]).map Prod.snd ++ queue = it.received
      rw [← h.items, hq, List.map_append, List.append_assoc]
      rfl
    · have h : it.waiter = some w := h
      rw [hw] at h
      cases h
    · show ((it.settled ++ [(it.calls, item)]).map Prod.fst ++ it.waiter.toList ++ it.abandoned).Perm _
      rw [hw, Option.toList_none, List.append_nil, List.map_append]
      refine List.Perm.trans ?_ hlast
      rw [List.append_assoc, List.append_assoc]
      exact List.perm_append_comm.append_left _
    · show ((it.settled ++ [(it.calls, item)]).map Prod.fst ++ it.waiter.toList).Pairwise (· < ·)
      rw [hw, Option.toList_none, List.append_nil, List.map_append]
      refine List.pairwise_append.mpr ⟨horder, List.pairwise_singleton _ _, fun i hi j hj => ?_⟩
      rw [List.mem_singleton.mp hj]
      exact hlt i hi
  next hq =>
    refine ⟨h.items, fun _ _ => hq, ?_, ?_⟩
    · -- the call before, if it waits, is abandoned
      show (it.answered ++ [it.calls] ++ (it.abandoned ++ it.waiter.toList)).Perm _
      refine List.Perm.trans ?_ hlast
      rw [List.append_assoc, List.append_assoc, List.append_assoc]
      refine List.Perm.append_left _ ?_
      rw [← List.append_assoc it.waiter.toList]
      exact List.perm_append_comm.trans (List.perm_append_comm.append_right _)
    · show (it.answered ++ [it.calls]).Pairwise (· < ·)
      refine List.pairwise_append.mpr ⟨(List.pairwise_append.mp h.order).1, List.pairwise_singleton _ _, fun i hi j hj => ?_⟩
      rw [List.mem_singleton.mp hj]
      exact h.lt_calls (List.mem_append_left _ hi)

theorem step_inv {ev : Ev Err} (h : Inv it) (hs : step it ev = some it') : Inv it' := by
  cases ev with
  | emit item => cases hs; exact h.push item
  | next => cases hs; exact h.next
  | returned => cases hs; exact h

theorem reach_inv {ok : Iterator Err → Ev Err → Bool} (h : Reach step ok .init it) : Inv it :=
  h.inv .init fun _ _ _ hi _ hs => step_inv hi hs

theorem none_abandoned (h : Reach step oneAtATime .init it) : it.abandoned = [] := by
  apply h.inv (P := fun it => it.abandoned = []) rfl
  intro it ev it' ha hok hs
  cases ev with
  | emit item =>
    cases hs
    unfold push
    split <;> exact ha
  | next =>
    cases hs
    unfold next
    split
    · exact ha
    · rw [Option.isNone_iff_eq_none.mp hok]
      show it.abandoned ++ [] = []
      rw [List.append_nil]
      exact ha
  | returned => cases hs; exact ha

/-- Calls `0, 1, ...` in order, when none is abandoned. -/
theorem Inv.settled_range (h : Inv it) (ha : it.abandoned = []) :
    it.answered ++ it.waiter.toList = List.range it.calls := by
  have hperm := h.calls
  rw [ha, List.append_nil] at hperm
  exact hperm.eq_of_pairwise (fun a b _ _ hab hba => absurd hab (Nat.lt_asymm hba)) h.order List.pairwise_lt_range

/-- The k-th call gets the k-th item received. -/
theorem Inv.served (h : Inv it) (ha : it.abandoned = []) {k : Nat} {item : Item Err} (hk : (k, item) ∈ it.settled) :
    it.received[k]? = some item := by
  obtain ⟨j, hj, hjk⟩ := List.mem_iff_getElem.mp hk
  have hid : it.answered[j]? = some k := by rw [Iterator.answered, List.getElem?_map, List.getElem?_eq_getElem hj, hjk]; rfl
  have hitem : it.given[j]? = some item := by rw [Iterator.given, List.getElem?_map, List.getElem?_eq_getElem hj, hjk]; rfl
  have hlen : j < it.answered.length := (List.getElem?_eq_some_iff.mp hid).1
  have hrange := h.settled_range ha
  have hjk : j = k := by
    have hget : (List.range it.calls)[j]? = some k := by rw [← hrange, List.getElem?_append_left hlen]; exact hid
    rw [List.getElem?_eq_some_iff] at hget
    obtain ⟨hlt, heq⟩ := hget
    rw [List.getElem_range] at heq
    exact heq
  subst hjk
  rw [← h.items, List.getElem?_append_left (List.getElem?_eq_some_iff.mp hitem).1]
  exact hitem

/-! ## On a stream of the server -/

/-- Of the entries of an ascending stream some first part was handed out. -/
theorem Inv.given_ascending (h : Inv it) {delivered : List LogEntry} (hwire : it.received.filterMap Item.entry? <+: delivered)
    (hasc : (delivered.map (·.seq)).Pairwise (· < ·)) :
    it.given.filterMap Item.entry? <+: delivered ∧ ((it.given.filterMap Item.entry?).map (·.seq)).Pairwise (· < ·) := by
  have hgiven : it.given.filterMap Item.entry? <+: delivered := by
    rw [← h.items, List.filterMap_append] at hwire
    exact (List.prefix_append _ _).trans hwire
  exact ⟨hgiven, hasc.sublist (hgiven.map _).sublist⟩

/-- For every run of the server and every run of an iterator that receives, in order, the
    first messages of a stream, and whatever ends and errors: no item received is lost or
    handed out twice, every call is settled, waits for an empty queue or was abandoned, and
    the entries handed out are stored ones in strictly ascending order. If `next()` is called
    one at a time, no call is abandoned, and the k-th gets the k-th item. -/
theorem watch_entries_in_order (sha256 : Bytes → Hash) (E : Ed25519) {s : Server.St} {p : Server.Proc} {st : Server.Stream}
    (hs : Reach (Server.step sha256 E) (fun _ _ => true) .init s) (hp : s.proc = some p) (hst : st ∈ p.streams)
    (h : Reach step (fun _ _ => true) .init it) (hwire : it.received.filterMap Item.entry? <+: st.delivered) :
    it.given ++ it.queue = it.received ∧ (it.answered ++ it.waiter.toList ++ it.abandoned).Perm (List.range it.calls) ∧
    (∀ w, it.waiter = some w → it.queue = []) ∧ ((it.given.filterMap Item.entry?).map (·.seq)).Pairwise (· < ·) ∧
    (∀ e ∈ it.given.filterMap Item.entry?, s.store.getBySeq e.seq = some e) ∧
    (Reach step oneAtATime .init it → it.abandoned = [] ∧ ∀ k item, (k, item) ∈ it.settled → it.received[k]? = some item) := by
  have hi := reach_inv h
  obtain ⟨hasc, hstored, -, -⟩ := Server.watch_accounted sha256 E hs hp hst
  obtain ⟨hpre, hgiven⟩ := hi.given_ascending hwire hasc
  refine ⟨hi.items, hi.calls, hi.prompt, hgiven, fun e he => hstored e (hpre.subset he), fun h1 => ?_⟩
  exact ⟨none_abandoned h1, fun k item hk => hi.served (none_abandoned h1) hk⟩

/-- The stream that skipped entry 2, read with two calls ahead of the messages and one after
    them: the first of the two that wait is abandoned. -/
theorem watch_entries_in_order_abandoned : ∃ s p st it, Reach (Server.step Sha256.sha256 Server.plainKeys) (fun _ _ => true) .init s ∧
    s.proc = some p ∧ st ∈ p.streams ∧ Reach step (fun _ _ => true) (.init : Iterator String) it ∧
    it.answered = [1, 2] ∧ it.abandoned = [0] ∧ it.queue = [.null] ∧ it.given.filterMap Item.entry? = st.delivered ∧
    ((it.given.filterMap Item.entry?).map (·.seq)).Pairwise (· < ·) := by
  obtain ⟨s, p, st, hreach, hp, hmem, hrep⟩ := Server.overtakenEntry_stream
  have hdelivered : Server.seqs st.delivered = [1, 3] := congrArg (·.2.2.1) hrep
  obtain ⟨d, ds, hd, -, hds⟩ := List.map_eq_cons_iff.mp hdelivered
  obtain ⟨f, fs, hf, -, hfs⟩ := List.map_eq_cons_iff.mp hds
  have hdel : st.delivered = [d, f] := by rw [hd, hf, List.map_eq_nil_iff.mp hfs]
  have hit : run step (fun _ _ => true) (.init : Iterator String) [.next, .next, .emit (.entry d), .emit (.entry f), .next,
      .returned, .emit .null] =
      some ⟨[.null], none, 3, [(1, .entry d), (2, .entry f)], [0], [.entry d, .entry f, .null]⟩ := rfl
  have hreachIt := Reach.init.run hit
  obtain ⟨-, -, -, hasc, -, -⟩ := watch_entries_in_order Sha256.sha256 Server.plainKeys hreach hp hmem hreachIt
    (by rw [hdel]; exact List.prefix_rfl)
  exact ⟨s, p, st, _, hreach, hp, hmem, hreachIt, rfl, rfl, rfl, hdel.symm, hasc⟩

end Settled.Sdk.WatchEntries

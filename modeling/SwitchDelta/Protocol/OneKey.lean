import SwitchDelta.Protocol.Machine

/-!
# The protocol of one key

Here the protocol is reduced to what concerns one key. Its writes and reads that have not passed the
switch, or have been refused there, are `early`, those whose outcome is on its way to a client are
`late`. In between are the queues of the index thread: `inbox` has the requests that it has not
polled, `batch` those that it has polled and not answered, and `outbox` its replies. The slot of the
key holds an entry of it or not.

`KStep ordered` has one case for each way in which a step can concern the key. When `ordered` holds,
the timestamps of the writes are in the order in which the data node issues them.
-/

set_option autoImplicit false
set_option relaxedAutoImplicit false

namespace SwitchDelta.Protocol

open Foundation Kv

/-! ### States -/

/-- What concerns one key. -/
structure KeyState where
  early : Set Item
  inbox : List Item
  batch : List Item
  outbox : List Item
  late : Set Item
  entry : Option (OpId × UInt64)
  index : UInt64
  hist : List (Event OpId UInt64)

/-- The initial state: the key is in the index with log position zero. -/
def KeyState.initial : KeyState :=
  ⟨∅, [], [], [], ∅, none, 0, []⟩

/-- The requests at the index thread, in the order of their arrival. -/
def KeyState.waiting (v : KeyState) : List Item := v.batch ++ v.inbox

/-- A write and its log position. -/
def Item.write (x : Item) : OpId × UInt64 := (x.op, x.log)

/-- The request writes to the index. -/
def Item.IsUpdate (x : Item) : Prop := x.kind = .copy ∨ x.kind = .updateReq

/-- The first state is the second one but for items of the two sets that got lost. -/
structure KeyState.Within (v u : KeyState) : Prop where
  early : v.early ⊆ u.early
  inbox : v.inbox = u.inbox
  batch : v.batch = u.batch
  outbox : v.outbox = u.outbox
  late : v.late ⊆ u.late
  entry : v.entry = u.entry
  index : v.index = u.index
  hist : v.hist = u.hist

/-- The index after a batch: the log position of its newest update, if the batch has one. -/
def NewestIndex (batch : List Item) (index index' : UInt64) : Prop :=
  ((∀ x ∈ batch, ¬ x.IsUpdate) ∧ index' = index) ∨
    ∃ newest ∈ batch, newest.IsUpdate ∧ (∀ x ∈ batch, x.IsUpdate → x.ts ≤ newest.ts) ∧
      index' = newest.log

theorem KeyState.Within.waiting {v u : KeyState} (h : v.Within u) : v.waiting = u.waiting := by
  rw [KeyState.waiting, h.batch, h.inbox, KeyState.waiting]

/-! ### Steps -/

/-- One step, as far as it concerns the key. -/
inductive KStep (ordered : Prop) (v v' : KeyState) : Prop
  | other : v'.Within v → KStep ordered v v'
  | start {x : Item} {e : Event OpId UInt64} :
      (x.kind = .appendReq ∧ e = .invokeWrite x.op ∨ x.kind = .readReq ∧ e = .invokeRead x.op) →
      (∀ e' ∈ v.hist, e'.op ≠ x.op) → (∀ y ∈ v.early, y.op ≠ x.op) →
      (∀ y ∈ v.waiting, y.op ≠ x.op) →
      (∀ y ∈ v.outbox, y.kind = .readHit ∨ y.kind = .readReply → y.op ≠ x.op) →
      (∀ y ∈ v.late, y.op ≠ x.op) →
      v'.Within { v with early := insert x v.early, hist := v.hist ++ [e] } → KStep ordered v v'
  | append {x y : Item} : x ∈ v.early → x.kind = .appendReq → .invokeWrite x.op ∈ v.hist →
      (∀ log, .assign x.op log ∉ v.hist) → y.kind = .appendReply → y.op = x.op →
      (ordered → ∀ z ∈ v.waiting, z.IsUpdate → z.ts < y.ts) →
      v'.Within { v with early := insert y v.early, hist := v.hist ++ [.assign y.op y.log] } →
      KStep ordered v v'
  | refused {x : Item} : x ∈ v.early → x.kind = .appendReply →
      v'.Within { v with early := insert { x with kind := .updateReq } v.early } →
      KStep ordered v v'
  | install {x : Item} : x ∈ v.early → x.kind = .appendReply → .assign x.op x.log ∈ v.hist →
      (ordered → ∀ z ∈ v.waiting, z.IsUpdate → z.ts < x.ts) →
      v'.Within { v with
        early := {z ∈ v.early | z.op ≠ x.op}
        inbox := v.inbox ++ [{ x with kind := .copy }]
        late := insert { x with kind := .answer } v.late
        entry := some x.write } → KStep ordered v v'
  | update {x : Item} : x ∈ v.early → x.kind = .updateReq → .assign x.op x.log ∈ v.hist →
      v'.Within { v with
        early := {z ∈ v.early | z.op ≠ x.op}
        inbox := v.inbox ++ [x] } → KStep ordered v v'
  | read {x : Item} : x ∈ v.early → x.kind = .readReq → v.entry = none →
      v'.Within { v with inbox := v.inbox ++ [x] } → KStep ordered v v'
  | hit {x : Item} {w : OpId} {log : UInt64} : x ∈ v.early → x.kind = .readReq →
      v.entry = some (w, log) →
      v'.Within { v with late := insert { x with kind := .readHit, log := log } v.late } →
      KStep ordered v v'
  | serve {x : Item} {rest : List Item} {index : UInt64} : v.batch = [] → v.inbox = x :: rest →
      NewestIndex [x] v.index index →
      v'.Within { v with
        inbox := rest
        outbox := v.outbox ++ [x.reply fun _ ↦ index]
        index := index } → KStep ordered v v'
  | collect {x : Item} {rest : List Item} : v.inbox = x :: rest →
      v'.Within { v with inbox := rest, batch := v.batch ++ [x] } → KStep ordered v v'
  | flush {index : UInt64} : NewestIndex v.batch v.index index →
      v'.Within { v with
        batch := []
        outbox := v.outbox ++ v.batch.map (Item.reply fun _ ↦ index)
        index := index } → KStep ordered v v'
  | clear {x : Item} {rest : List Item} : v.outbox = x :: rest → x.kind = .replySwitch →
      (∀ w log, v.entry = some (w, log) → w = x.op) →
      v'.Within { v with outbox := rest, entry := none } → KStep ordered v v'
  | keep {x : Item} {rest : List Item} : v.outbox = x :: rest → x.kind = .replySwitch →
      (∀ log, v.entry ≠ some (x.op, log)) → v'.Within { v with outbox := rest } →
      KStep ordered v v'
  | reply {x : Item} {rest : List Item} : v.outbox = x :: rest →
      x.kind = .updateReply ∨ x.kind = .readReply →
      v'.Within { v with outbox := rest, late := insert x v.late } → KStep ordered v v'
  | respond {x : Item} : x ∈ v.late → ¬ Responded v.hist x.op →
      (x.kind = .readHit ∨ x.kind = .readReply → .invokeRead x.op ∈ v.hist) →
      v'.Within { v with hist := v.hist ++ x.response } → KStep ordered v v'

end SwitchDelta.Protocol

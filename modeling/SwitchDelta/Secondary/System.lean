import SwitchDelta.Foundation.Links
import SwitchDelta.Foundation.Transition
import SwitchDelta.Secondary.Message

/-!
# Clients, switch, data node and index node of the secondary index

What a message of `secondary_index.cc` contains follows from its kind, the operation it belongs to
and, from the data node on, a version: `Packet.msg` builds it with the functions of the nodes. A
packet is on its way to the switch, to one of the two server nodes or to a client, and is taken from
there in any order. The switch is free to refuse a write, as its timestamp check does, and to keep or
drop an entry on a `ReplySwitch`. It answers every read whose fingerprint is in the slot: `get_secondary`
leaves the timestamp field as it was, but `timecheck` runs `timecpy` on a read, so the check holds for
every timestamp.

A data thread that has queued `kMaxDelQueue` superseded entries sends them to an index thread, which
removes them. What is left in the queues when everything else is done is flushed.

`completed`, `floor` and `drawn` are not in the code. They hold the writes that have ended at their
clients, those that had ended when a read began, and the entries that were given a version.
`get_primary`, which follows `get_secondary` and changes nothing, is left out.
-/

set_option autoImplicit false
set_option relaxedAutoImplicit false

namespace SwitchDelta.Secondary

open Foundation Kv

/-! ### Packets -/

/-- An operation of `si_test`. A read has drawn a primary key as well, which picks its thread. -/
structure Op where
  coro : CoroId
  pkey : UInt64
  skey : UInt64
  deriving DecidableEq

/-- The kinds of messages. `copy` and `answer` are the two packets of an installed `AppendReply`,
`updateCopy` and `updateAnswer` those of an installed `UpdateIndexReq`, and `readHit` is a read that
the switch has answered. -/
inductive Kind
  | appendReq
  | appendReply
  | copy
  | answer
  | updateReq
  | updateCopy
  | updateAnswer
  | updateReply
  | replySwitch
  | readReq
  | readHit
  | readReply
  deriving DecidableEq

/-- A packet: its kind, its operation, the version of a write, and the primary keys in the reply to a
read. -/
structure Packet where
  kind : Kind
  op : Op
  version : UInt64
  keys : List UInt64
  deriving DecidableEq

/-- The entry of a write. -/
def Packet.entry (p : Packet) : Entry := ⟨p.op.skey, p.version, p.op.pkey⟩

/-- The node that a packet is on its way to. -/
inductive Loc
  | switch
  | data
  | index
  | client
  deriving DecidableEq

/-- The functions of the client that wait for a reply. -/
inductive Pc
  | put_primary
  | put_secondary
  | get_secondary
  deriving DecidableEq

/-- The function that waits for a message. The copy of a write at the index node and the
`ReplySwitch` that answers it are waited for by nobody. -/
def Kind.pc : Kind → Option Pc
  | appendReq | appendReply | answer => some .put_primary
  | updateReq | updateAnswer | updateReply => some .put_secondary
  | readReq | readHit | readReply => some .get_secondary
  | copy | updateCopy | replySwitch => none

/-- The `AppendReply` to `put_primary`. -/
def appendReply (f : Flags) (op : Op) (version : UInt64) : Msg :=
  reply_to (put_primary_request f op.coro op.pkey op.skey) .kEnumAppendReply [version]

/-- The message of `put_secondary` after that reply. -/
def updateReq (f : Flags) (op : Op) (version : UInt64) : Msg :=
  put_secondary_request f op.coro op.pkey op.skey (appendReply f op version) fun _ ↦ 0

/-- The message in a packet. -/
def Packet.msg (f : Flags) (p : Packet) : Msg :=
  match p.kind with
  | .appendReq => put_primary_request f p.op.coro p.op.pkey p.op.skey
  | .appendReply => appendReply f p.op p.version
  | .copy | .answer => (appendReply f p.op p.version).multicast
  | .updateReq => updateReq f p.op p.version
  | .updateCopy | .updateAnswer => (updateReq f p.op p.version).multicast
  | .updateReply => reply_to (updateReq f p.op p.version) .kEnumUpdateIndexReply []
  | .replySwitch => reply_to (updateReq f p.op p.version) .ReplySwitch []
  | .readReq | .readHit => get_secondary_request f p.op.coro p.op.pkey p.op.skey
  | .readReply =>
    reply_to (get_secondary_request f p.op.coro p.op.pkey p.op.skey) .kEnumReadIndexReply
      (UInt64.ofNat p.keys.length :: p.keys)

/-- `get_data_thread_id_by_load`. -/
def get_data_thread_id_by_load (f : Flags) (c : CoroId) : UInt8 :=
  ((c.thread_id.toUInt32 * f.coro_num + c.coro_id.toUInt32) % f.dn_thread).toUInt8

/-- The thread of the index node that an operation talks to. -/
def Op.indexThread (f : Flags) (op : Op) : UInt8 :=
  get_index_thread_id f (get_fingerprint op.pkey)

/-! ### The state -/

/-- `kMaxDelQueue`. -/
def kMaxDelQueue : ℕ := 32

/-- A state of the system. A slot of the switch holds a fingerprint. -/
structure State where
  pindex : Pindex
  del_queue : UInt8 → List Entry
  dels : List (UInt8 × List Entry)
  sindex : Sindex
  local_max_del_timestamp : UInt8 → UInt64
  slot : UInt16 → Option UInt32
  net : List (Loc × Packet)
  coro : CoroId → Option (Pc × Op)
  completed : List Entry
  floor : CoroId → List Entry
  drawn : List Entry

/-- Both indexes are empty at first. -/
def State.initial : State where
  pindex := fun _ ↦ none
  del_queue := fun _ ↦ []
  dels := []
  sindex := OrderedMap.empty
  local_max_del_timestamp := fun _ ↦ 0
  slot := fun _ ↦ none
  net := []
  coro := fun _ ↦ none
  completed := []
  floor := fun _ ↦ []
  drawn := []

/-- The entry is that of a primary record. -/
def State.Current (σ : State) (e : Entry) : Prop :=
  σ.pindex e.pkey = some ⟨e.skey, e.version⟩

instance (σ : State) (e : Entry) : Decidable (σ.Current e) :=
  inferInstanceAs (Decidable (_ = _))

/-- The deletion of the entry has not been carried out. -/
def State.DeletePending (σ : State) (e : Entry) : Prop :=
  (∃ t, e ∈ σ.del_queue t) ∨ ∃ t batch, (t, batch) ∈ σ.dels ∧ e ∈ batch

/-- No message is outstanding and no deletion is queued. -/
def State.Quiet (σ : State) : Prop :=
  σ.net = [] ∧ σ.dels = [] ∧ ∀ t, σ.del_queue t = []

/-- The slot that a message names holds its fingerprint. -/
def State.Holds (σ : State) (msg : Msg) : Prop :=
  σ.slot msg.switch_key = some msg.key

instance (σ : State) (msg : Msg) : Decidable (σ.Holds msg) :=
  inferInstanceAs (Decidable (_ = _))

/-! ### What the nodes do -/

/-- A coroutine sends the first message of an operation. -/
def State.begin (σ : State) (pc : Pc) (kind : Kind) (op : Op) : State :=
  { σ with
    net := σ.net ++ [(.switch, ⟨kind, op, 0, []⟩)]
    coro := Function.update σ.coro op.coro (some (pc, op))
    floor := Function.update σ.floor op.coro σ.completed }

/-- A data thread handles an `AppendReq`. -/
def State.appendStep (f : Flags) (σ : State) (p : Packet) (rest : List (Loc × Packet))
    (time_ns : UInt64) (buf : ℕ → UInt64) : State :=
  let t := get_data_thread_id_by_load f p.op.coro
  let version := get_version time_ns t
  let result := append_process_msg σ.pindex (σ.del_queue t) version (p.msg f) buf
  { σ with
    pindex := result.1
    del_queue := Function.update σ.del_queue t result.2.1
    net := rest ++ [(.switch, ⟨.appendReply, p.op, version, []⟩)]
    drawn := σ.drawn ++ [⟨p.op.skey, version, p.op.pkey⟩] }

/-- The reply of the index node to a write. -/
def Kind.indexReply : Kind → Kind
  | .updateReq => .updateReply
  | _ => .replySwitch

/-- An index thread handles a write. -/
def State.insertStep (f : Flags) (key_size : ℕ) (σ : State) (p : Packet)
    (rest : List (Loc × Packet)) (buf : ℕ → UInt64) : State :=
  { σ with
    sindex :=
      match inserted key_size (σ.local_max_del_timestamp (p.op.indexThread f)) (p.msg f) buf with
      | some (key, value) => σ.sindex.put key value
      | none => σ.sindex
    net := rest ++ [(.switch, { p with kind := p.kind.indexReply })] }

/-- The primary keys that an index thread finds for a read: those of ten entries, from the least key
that starts with the secondary key on. -/
def secondary_scan (f : Flags) (sindex : Sindex) (p : Packet) (buf : ℕ → UInt64) : List UInt64 :=
  sindex.scan (keyBytes 24 ((p.msg f).word buf 0) 0 0) 10

/-- `send_sindex_del`. -/
def State.send_sindex_del (f : Flags) (σ : State) (t : UInt8) : State :=
  { σ with
    del_queue := Function.update σ.del_queue t []
    dels := σ.dels ++ [((t.toUInt32 % f.mn_thread).toUInt8, σ.del_queue t)] }

/-- `process_sindex_del`: its loop over a batch. -/
def process_sindex_del (local_max_del_timestamp : UInt64) (sindex : Sindex) (batch : List Entry) :
    UInt64 × Sindex :=
  batch.foldl
    (fun acc e ↦ (max acc.1 e.version, acc.2.remove (keyBytes 24 e.skey e.version e.pkey)))
    (local_max_del_timestamp, sindex)

/-- An index thread handles a batch of deletions. -/
def State.delStep (σ : State) (t : UInt8) (batch : List Entry)
    (rest : List (UInt8 × List Entry)) : State :=
  let result := process_sindex_del (σ.local_max_del_timestamp t) σ.sindex batch
  { σ with
    dels := rest
    local_max_del_timestamp := Function.update σ.local_max_del_timestamp t result.1
    sindex := result.2 }

/-- A packet resumes its coroutine, which waits in the function `pc` of the operation `op`. -/
def State.resume (f : Flags) (secondary_test : Bool) (σ : State) (pc : Pc) (op : Op) (p : Packet)
    (rest : List (Loc × Packet)) : State :=
  let rpc := (p.msg f).rpc_header.op
  match pc with
  | .put_primary =>
    if f.visibility = true ∧ rpc = .kEnumMultiCastPkt then
      { σ with
        net := rest
        coro := Function.update σ.coro op.coro none
        completed := σ.completed ++ [⟨op.skey, p.version, op.pkey⟩] }
    else
      { σ with
        net := rest ++ [(.switch, ⟨.updateReq, op, p.version, []⟩)]
        coro := Function.update σ.coro op.coro (some (.put_secondary, op)) }
  | .put_secondary =>
    { σ with
      net := rest
      coro := Function.update σ.coro op.coro none
      completed := σ.completed ++ [⟨op.skey, p.version, op.pkey⟩] }
  | .get_secondary =>
    if rpc = .kEnumReadIndexReq ∧ secondary_test = true then { σ with net := rest }
    else { σ with net := rest, coro := Function.update σ.coro op.coro none }

/-! ### Steps -/

/-- What happens in a step. -/
inductive Label
  | write (op : Op)
  | read (op : Op)
  | pass (p : Packet)
  | install (p : Packet)
  | hit (p : Packet)
  | clear (p : Packet)
  | append (p : Packet) (time_ns : UInt64)
  | insert (p : Packet) (buf : ℕ → UInt64)
  | scan (p : Packet) (buf : ℕ → UInt64)
  | send (t : UInt8)
  | del (t : UInt8) (batch : List Entry)
  | client (p : Packet)

/-- Where the switch sends a packet that it neither installs nor answers. -/
def Kind.dest : Kind → Option Loc
  | appendReq => some .data
  | appendReply | updateReply | readReply => some .client
  | updateReq | readReq => some .index
  | _ => none

/-- The two packets of a write that the switch installs. -/
def Kind.installed : Kind → Option (Kind × Kind)
  | appendReply => some (.copy, .answer)
  | updateReq => some (.updateCopy, .updateAnswer)
  | _ => none

theorem Kind.installed_eq_some {kind toIndex toClient : Kind}
    (h : kind.installed = some (toIndex, toClient)) :
    (kind = .appendReply ∧ toIndex = .copy ∧ toClient = .answer) ∨
      (kind = .updateReq ∧ toIndex = .updateCopy ∧ toClient = .updateAnswer) := by
  cases kind <;> simp_all [Kind.installed]

/-- The kinds that an index thread inserts. -/
def Kind.IsInsert (kind : Kind) : Prop :=
  kind = .copy ∨ kind = .updateReq ∨ kind = .updateCopy

instance (kind : Kind) : Decidable kind.IsInsert :=
  inferInstanceAs (Decidable (_ ∨ _ ∨ _))

/-- One step of the system, for the size of the keys that are inserted. -/
inductive Step (f : Flags) (secondary_test : Bool) (key_size : ℕ) : State → Label → State → Prop
  | write {σ : State} {op : Op} :
      σ.coro op.coro = none →
      Step f secondary_test key_size σ (.write op) (σ.begin .put_primary .appendReq op)
  | read {σ : State} {op : Op} :
      σ.coro op.coro = none →
      Step f secondary_test key_size σ (.read op) (σ.begin .get_secondary .readReq op)
  | pass {σ : State} {p : Packet} {rest : List (Loc × Packet)} {dest : Loc} :
      Take σ.net .switch p rest → p.kind.dest = some dest →
      (p.kind = .readReq → ¬ (f.visibility = true ∧ σ.Holds (p.msg f))) →
      Step f secondary_test key_size σ (.pass p) { σ with net := rest ++ [(dest, p)] }
  | install {σ : State} {p : Packet} {rest : List (Loc × Packet)} {toIndex toClient : Kind} :
      Take σ.net .switch p rest → p.kind.installed = some (toIndex, toClient) →
      f.visibility = true →
      σ.slot (p.msg f).switch_key = none ∨ σ.Holds (p.msg f) →
      Step f secondary_test key_size σ (.install p)
        { σ with
          net := rest ++
            [(.index, { p with kind := toIndex }), (.client, { p with kind := toClient })]
          slot := Function.update σ.slot (p.msg f).switch_key (some (p.msg f).key) }
  | hit {σ : State} {p : Packet} {rest : List (Loc × Packet)} :
      Take σ.net .switch p rest → p.kind = .readReq → f.visibility = true → σ.Holds (p.msg f) →
      Step f secondary_test key_size σ (.hit p)
        { σ with net := rest ++ [(.client, { p with kind := .readHit })] }
  | clear {σ : State} {p : Packet} {rest : List (Loc × Packet)} {slot : UInt16 → Option UInt32} :
      Take σ.net .switch p rest → p.kind = .replySwitch →
      slot = σ.slot ∨ slot = Function.update σ.slot (p.msg f).switch_key none →
      Step f secondary_test key_size σ (.clear p) { σ with net := rest, slot := slot }
  | append {σ : State} {p : Packet} {rest : List (Loc × Packet)} (time_ns : UInt64)
      (buf : ℕ → UInt64) :
      Take σ.net .data p rest → p.kind = .appendReq →
      Step f secondary_test key_size σ (.append p time_ns) (σ.appendStep f p rest time_ns buf)
  | insert {σ : State} {p : Packet} {rest : List (Loc × Packet)} (buf : ℕ → UInt64) :
      Take σ.net .index p rest → p.kind.IsInsert →
      Step f secondary_test key_size σ (.insert p buf) (σ.insertStep f key_size p rest buf)
  | scan {σ : State} {p : Packet} {rest : List (Loc × Packet)} (buf : ℕ → UInt64) :
      Take σ.net .index p rest → p.kind = .readReq →
      Step f secondary_test key_size σ (.scan p buf)
        { σ with
          net := rest ++
            [(.switch, { p with kind := .readReply, keys := secondary_scan f σ.sindex p buf })] }
  | send {σ : State} {t : UInt8} :
      kMaxDelQueue ≤ (σ.del_queue t).length ∨ σ.net = [] →
      Step f secondary_test key_size σ (.send t) (σ.send_sindex_del f t)
  | del {σ : State} {t : UInt8} {batch : List Entry} {rest : List (UInt8 × List Entry)} :
      Take σ.dels t batch rest →
      Step f secondary_test key_size σ (.del t batch) (σ.delStep t batch rest)
  | client {σ : State} {p : Packet} {rest : List (Loc × Packet)} {pc : Pc} {op : Op} :
      Take σ.net .client p rest → σ.coro p.op.coro = some (pc, op) →
      Step f secondary_test key_size σ (.client p) (σ.resume f secondary_test pc op p rest)

/-! ### Packets and coroutines -/

/-- The kinds of packets that can be on their way to a node. -/
def Placed : Loc → Kind → Prop
  | .switch, kind => kind ∈ [.appendReq, .appendReply, .updateReq, .updateReply, .replySwitch,
      .readReq, .readReply]
  | .data, kind => kind = .appendReq
  | .index, kind => kind.IsInsert ∨ kind = .readReq
  | .client, kind => kind ∈ [.appendReply, .answer, .updateAnswer, .updateReply, .readHit,
      .readReply]

/-- A coroutine waits for the packet. -/
def isAwaited (c : CoroId) (p : Loc × Packet) : Bool :=
  p.2.kind.pc.isSome && p.2.op.coro = c

/-- Each coroutine waits for at most one packet, in the function and for the operation of the
packet. -/
structure State.Sound (σ : State) : Prop where
  placed : ∀ ℓ p, (ℓ, p) ∈ σ.net → Placed ℓ p.kind
  single : ∀ c, σ.net.countP (isAwaited c) ≤ 1
  waits : ∀ ℓ p pc, (ℓ, p) ∈ σ.net → p.kind.pc = some pc → σ.coro p.op.coro = some (pc, p.op)

theorem State.Sound.initial : State.initial.Sound :=
  ⟨fun _ _ h ↦ absurd h List.not_mem_nil, fun _ ↦ Nat.zero_le 1,
    fun _ _ _ h ↦ absurd h List.not_mem_nil⟩

variable {f : Flags} {secondary_test : Bool} {key_size : ℕ} {σ σ' : State} {label : Label}

/-- What remains when a packet is taken that a coroutine waits for is waited for by others. -/
theorem State.Sound.coro_ne (h : σ.Sound) {ℓ ℓ' : Loc} {p q : Packet} {rest : List (Loc × Packet)}
    (htake : Take σ.net ℓ p rest) (hp : p.kind.pc ≠ none) (hq : (ℓ', q) ∈ rest)
    (hqpc : q.kind.pc ≠ none) : q.op.coro ≠ p.op.coro := by
  intro hcoro
  have hcount := htake.countP (isAwaited p.op.coro)
  have hawaited : isAwaited p.op.coro (ℓ, p) = true := by
    simp [isAwaited, Option.isSome_iff_ne_none, hp]
  have hpos : 0 < rest.countP (isAwaited p.op.coro) :=
    List.countP_pos_iff.mpr ⟨_, hq, by simp [isAwaited, Option.isSome_iff_ne_none, hqpc, hcoro]⟩
  have hsingle := h.single p.op.coro
  rw [if_pos hawaited] at hcount
  omega

/-- A packet becomes others of its operation, of which the coroutine waits for as many as before. -/
theorem State.Sound.move (h : σ.Sound) {ℓ : Loc} {p : Packet} {rest new : List (Loc × Packet)}
    (htake : Take σ.net ℓ p rest) (hplaced : ∀ ℓ' q, (ℓ', q) ∈ new → Placed ℓ' q.kind)
    (hop : ∀ ℓ' q, (ℓ', q) ∈ new → q.op = p.op ∧ (q.kind.pc = none ∨ q.kind.pc = p.kind.pc))
    (hcount : new.countP (fun q ↦ q.2.kind.pc.isSome) ≤ if p.kind.pc.isSome then 1 else 0)
    (hnet : σ'.net = rest ++ new) (hcoro : σ'.coro = σ.coro) : σ'.Sound where
  placed := by
    intro ℓ' q hq
    rw [hnet] at hq
    rcases List.mem_append.mp hq with hq | hq
    · exact h.placed _ _ (htake.mem_of_mem hq)
    · exact hplaced _ _ hq
  single := by
    intro c
    have hold := htake.countP (isAwaited c)
    have hsingle := h.single c
    have hnew : new.countP (isAwaited c) ≤ if isAwaited c (ℓ, p) then 1 else 0 := by
      by_cases hc : p.op.coro = c
      · refine le_trans (List.countP_mono_left fun q hq ↦ ?_) (hcount.trans (by simp [isAwaited, hc]))
        simp only [isAwaited, Bool.and_eq_true]
        exact fun hq' ↦ hq'.1
      · rw [List.countP_eq_zero.mpr fun q hq ↦ ?_]
        · exact Nat.zero_le _
        · simp [isAwaited, (hop q.1 q.2 hq).1, hc]
    rw [hnet, List.countP_append]
    omega
  waits := by
    intro ℓ' q pc hq hpc
    rw [hnet] at hq
    rw [hcoro]
    rcases List.mem_append.mp hq with hq | hq
    · exact h.waits _ _ _ (htake.mem_of_mem hq) hpc
    · obtain ⟨hqop, hqpc⟩ := hop _ _ hq
      rw [hqop]
      refine h.waits _ _ _ htake.mem ?_
      rcases hqpc with hqpc | hqpc
      · rw [hqpc] at hpc
        cases hpc
      · rw [← hqpc, hpc]

/-- A packet becomes another one that its coroutine waits for if it waited for this one. -/
theorem State.Sound.turn (h : σ.Sound) {ℓ ℓ' : Loc} {p q : Packet} {rest : List (Loc × Packet)}
    (htake : Take σ.net ℓ p rest) (hnet : σ'.net = rest ++ [(ℓ', q)]) (hcoro : σ'.coro = σ.coro)
    (hplaced : Placed ℓ' q.kind) (hop : q.op = p.op) (hpc : q.kind.pc = p.kind.pc) :
    σ'.Sound := by
  refine h.move htake (fun ℓ'' r hr ↦ ?_) (fun ℓ'' r hr ↦ ?_) ?_ hnet hcoro
  · obtain ⟨rfl, rfl⟩ := Prod.mk.inj (List.mem_singleton.mp hr)
    exact hplaced
  · obtain ⟨rfl, rfl⟩ := Prod.mk.inj (List.mem_singleton.mp hr)
    exact ⟨hop, Or.inr hpc⟩
  · rw [List.countP_singleton, hpc]

/-- A coroutine that waits for nothing else sends a request. -/
theorem State.Sound.send (h : σ.Sound) {net : List (Loc × Packet)} {p : Packet} {pc : Pc}
    (hmem : ∀ q ∈ net, q ∈ σ.net) (hle : ∀ c, net.countP (isAwaited c) ≤ σ.net.countP (isAwaited c))
    (hnone : ∀ ℓ q, (ℓ, q) ∈ net → q.kind.pc ≠ none → q.op.coro ≠ p.op.coro)
    (hplaced : Placed .switch p.kind) (hpc : p.kind.pc = some pc)
    (hnet : σ'.net = net ++ [(.switch, p)])
    (hcoro : σ'.coro = Function.update σ.coro p.op.coro (some (pc, p.op))) : σ'.Sound where
  placed := by
    intro ℓ q hq
    rw [hnet] at hq
    rcases List.mem_append.mp hq with hq | hq
    · exact h.placed _ _ (hmem _ hq)
    · obtain ⟨rfl, rfl⟩ := Prod.mk.inj (List.mem_singleton.mp hq)
      exact hplaced
  single := by
    intro c
    rw [hnet, List.countP_append, List.countP_singleton]
    by_cases hc : p.op.coro = c
    · rw [List.countP_eq_zero.mpr fun q hq ↦ ?_]
      · split_ifs <;> simp
      · simp only [isAwaited, Bool.and_eq_true, decide_eq_true_eq, Option.isSome_iff_ne_none]
        exact fun hq' ↦ hnone q.1 q.2 hq hq'.1 (hq'.2.trans hc.symm)
    · rw [if_neg (by simp [isAwaited, hc]), add_zero]
      exact (hle c).trans (h.single c)
  waits := by
    intro ℓ q pc' hq hpc'
    rw [hnet] at hq
    rw [hcoro]
    rcases List.mem_append.mp hq with hq | hq
    · rw [Function.update_of_ne (hnone _ _ hq (by simp [hpc']))]
      exact h.waits _ _ _ (hmem _ hq) hpc'
    · obtain ⟨rfl, rfl⟩ := Prod.mk.inj (List.mem_singleton.mp hq)
      rw [Function.update_self, Option.some.inj (hpc.symm.trans hpc')]

/-- A packet is taken, and the coroutine waits no longer or goes on waiting. -/
theorem State.Sound.remove (h : σ.Sound) {ℓ : Loc} {p : Packet} {rest : List (Loc × Packet)}
    (htake : Take σ.net ℓ p rest) (hnet : σ'.net = rest)
    (hcoro : σ'.coro = σ.coro ∨
      p.kind.pc ≠ none ∧ σ'.coro = Function.update σ.coro p.op.coro none) : σ'.Sound where
  placed := fun ℓ' q hq ↦ h.placed ℓ' q (htake.mem_of_mem (hnet ▸ hq))
  single := by
    intro c
    have hcount := htake.countP (isAwaited c)
    have hsingle := h.single c
    rw [hnet]
    omega
  waits := by
    intro ℓ' q pc hq hpc
    rw [hnet] at hq
    have hwaits := h.waits _ _ _ (htake.mem_of_mem hq) hpc
    rcases hcoro with hcoro | ⟨hp, hcoro⟩
    · rw [hcoro, hwaits]
    · rw [hcoro, Function.update_of_ne (h.coro_ne htake hp hq (by simp [hpc])), hwaits]

theorem Placed.pc_of_client {kind : Kind} (h : Placed .client kind) : ∃ pc, kind.pc = some pc := by
  simp only [Placed, List.mem_cons, List.not_mem_nil, or_false] at h
  rcases h with rfl | rfl | rfl | rfl | rfl | rfl <;> exact ⟨_, rfl⟩

/-- The packet that resumes a coroutine belongs to the operation that waits. -/
theorem State.Sound.resumed (h : σ.Sound) {p : Packet} {rest : List (Loc × Packet)} {pc : Pc}
    {op : Op} (htake : Take σ.net .client p rest) (hcoro : σ.coro p.op.coro = some (pc, op)) :
    op = p.op ∧ p.kind.pc = some pc := by
  obtain ⟨pc', hpc'⟩ := (h.placed _ _ htake.mem).pc_of_client
  have hwaits := h.waits _ _ _ htake.mem hpc'
  obtain ⟨rfl, rfl⟩ := Prod.mk.inj (Option.some.inj (hcoro.symm.trans hwaits))
  exact ⟨rfl, hpc'⟩

theorem State.Sound.step (h : σ.Sound) (hstep : Step f secondary_test key_size σ label σ') :
    σ'.Sound := by
  cases hstep with
  | write hidle | read hidle =>
    refine h.send (fun q hq ↦ hq) (fun c ↦ le_rfl) (fun ℓ q hq hpc hcoro ↦ ?_) ?_ rfl rfl rfl
    · obtain ⟨pc, hpc⟩ := Option.ne_none_iff_exists'.mp hpc
      have hwaits := h.waits _ _ _ hq hpc
      rw [hcoro, hidle] at hwaits
      cases hwaits
    · simp [Placed]
  | @pass p rest dest htake hdest =>
    have hplaced := h.placed _ _ htake.mem
    refine h.turn htake rfl rfl ?_ rfl rfl
    cases hkind : p.kind <;> simp_all [Kind.dest, Placed, Kind.IsInsert] <;> subst hdest <;> simp
  | @install p rest toIndex toClient htake hinstalled =>
    have hkinds := Kind.installed_eq_some hinstalled
    refine h.move htake (fun ℓ' q hq ↦ ?_) (fun ℓ' q hq ↦ ?_) ?_ rfl rfl
    · rcases hkinds with ⟨-, rfl, rfl⟩ | ⟨-, rfl, rfl⟩ <;>
        simp only [List.mem_cons, Prod.mk.injEq, List.not_mem_nil, or_false] at hq <;>
        rcases hq with ⟨rfl, rfl⟩ | ⟨rfl, rfl⟩ <;> simp [Placed, Kind.IsInsert]
    · rcases hkinds with ⟨hkind, rfl, rfl⟩ | ⟨hkind, rfl, rfl⟩ <;>
        simp only [List.mem_cons, Prod.mk.injEq, List.not_mem_nil, or_false] at hq <;>
        rcases hq with ⟨rfl, rfl⟩ | ⟨rfl, rfl⟩ <;> simp [hkind, Kind.pc]
    · rcases hkinds with ⟨hkind, rfl, rfl⟩ | ⟨hkind, rfl, rfl⟩ <;>
        simp [hkind, Kind.pc]
  | hit htake hkind =>
    exact h.turn htake rfl rfl (by simp [Placed]) rfl (by simp [hkind, Kind.pc])
  | clear htake hkind => exact h.remove htake rfl (Or.inl rfl)
  | append time_ns buf htake hkind =>
    exact h.turn htake rfl rfl (by simp [Placed]) rfl (by simp [hkind, Kind.pc])
  | insert buf htake hkind =>
    refine h.turn htake rfl rfl ?_ rfl ?_
    · rcases hkind with hkind | hkind | hkind <;> simp [hkind, Kind.indexReply, Placed]
    · rcases hkind with hkind | hkind | hkind <;> simp [hkind, Kind.indexReply, Kind.pc]
  | scan buf htake hkind =>
    exact h.turn htake rfl rfl (by simp [Placed]) rfl (by simp [hkind, Kind.pc])
  | send => exact ⟨h.placed, h.single, h.waits⟩
  | del => exact ⟨h.placed, h.single, h.waits⟩
  | @client p rest pc op htake hcoro =>
    obtain ⟨rfl, hpc⟩ := h.resumed htake hcoro
    have hne : p.kind.pc ≠ none := by simp [hpc]
    unfold State.resume
    cases pc with
    | put_primary =>
      dsimp only
      split_ifs
      · exact h.remove htake rfl (Or.inr ⟨hne, rfl⟩)
      · refine h.send (fun q hq ↦ htake.mem_of_mem hq) (fun c ↦ ?_) (fun ℓ q hq hqpc ↦ ?_) ?_ rfl rfl
          rfl
        · rw [htake.countP (isAwaited c)]
          exact Nat.le_add_right _ _
        · have hother := h.coro_ne htake hne hq hqpc
          exact hother
        · simp [Placed]
    | put_secondary => exact h.remove htake rfl (Or.inr ⟨hne, rfl⟩)
    | get_secondary =>
      dsimp only
      split_ifs
      · exact h.remove htake rfl (Or.inl rfl)
      · exact h.remove htake rfl (Or.inr ⟨hne, rfl⟩)

end SwitchDelta.Secondary

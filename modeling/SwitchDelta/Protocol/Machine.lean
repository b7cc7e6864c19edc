import SwitchDelta.Kv.System

/-!
# The protocol without its wire format

The messages of the system carry many fields, most of which only route them. Here a packet is an
`Item`: what kind of message it is, the operation it belongs to, and a log position and a timestamp
where it carries them. A slot of the switch is the write that owns it with its log position, the
index maps a key to a log position, and a coroutine is idle or waits in one of the functions of
`kv_test`.

The machine is weaker than the switch programs where the proofs do not need them: a slot that is
empty or holds the fingerprint of a write may accept it, any slot may refuse it, and a `ReplySwitch`
may clear a foreign entry. `Discipline` takes back some of these freedoms for the results that need
more. What is kept is what all of them share: a write is installed in its slot and copied to its
index thread in one step, a `ReplySwitch` clears the entry of its own write, and the links of a
thread are queues.
-/

set_option autoImplicit false
set_option relaxedAutoImplicit false

namespace SwitchDelta.Protocol

open Foundation Kv

/-! ### Items -/

/-- The kinds of messages. `copy` and `answer` are the two packets of a multicast, to the index node
and to the client; `readHit` is a read that the switch answered. -/
inductive Kind
  | appendReq
  | appendReply
  | copy
  | answer
  | replySwitch
  | updateReq
  | updateReply
  | readReq
  | readHit
  | readReply
  | readLog
  | logReply
  | probe
  deriving DecidableEq

/-- The function in which a coroutine waits for the outcome of a message. The copy of a write at the
index node and the `ReplySwitch` it causes are waited for by nobody. -/
def Kind.pc : Kind → Option Pc
  | appendReq | appendReply | answer => some .put_value
  | updateReq | updateReply => some .put_index
  | readReq | readHit | readReply => some .get_index
  | readLog | logReply => some .get_value
  | probe => some .check_req_cnt
  | copy | replySwitch => none

/-- A message. -/
structure Item where
  kind : Kind
  op : OpId
  log : UInt64
  ts : ℕ

/-- What a waiting coroutine waits for, and the log position it holds. -/
structure Waiting where
  pc : Pc
  op : OpId
  log : UInt64

/-- How keys are spread over threads and slots. -/
structure Layout where
  dataThread : KvKeyType → UInt8
  indexThread : KvKeyType → UInt8
  /-- The index thread that the copy of a write is sent to. -/
  copyThread : KvKeyType → UInt8
  /-- The data thread that keeps a log position, if there is one. -/
  logThread : UInt64 → Option UInt8
  slot : KvKeyType → UInt16
  /-- The two keys have the same slot and fingerprint. -/
  Same : KvKeyType → KvKeyType → Prop
  counter : KvKeyType → UInt16
  keys : List KvKeyType
  HasCoro : CoroId → Prop

/-- What a result may assume about the switch. -/
structure Discipline where
  /-- A write is refused only when the slot does not hold its fingerprint. -/
  refuseFree : Prop
  /-- A `ReplySwitch` clears no entry but that of its own write. -/
  clearOwn : Prop
  /-- The log positions that the data node hands out. -/
  logs : UInt64 → Prop

/-- The log positions that can be in the system: those handed out, and that of the initial index. -/
def Discipline.Issues (D : Discipline) (log : UInt64) : Prop :=
  log = 0 ∨ D.logs log

/-- A state of the protocol. -/
structure PState where
  net : List (Loc × Item)
  slot : UInt16 → Option (OpId × UInt64)
  phase : CoroId → Option Waiting
  seq : CoroId → ℕ
  clock : UInt16 → UInt64
  index : KvKeyType → UInt64
  hist : List (Event OpId UInt64)

/-- The initial state: every key is in the index with log position zero. -/
def PState.initial : PState where
  net := []
  slot := fun _ ↦ none
  phase := fun _ ↦ none
  seq := fun _ ↦ 0
  clock := fun _ ↦ 1
  index := fun _ ↦ 0
  hist := []

/-- The link to the client thread of an item's operation. -/
def Item.home (x : Item) : Loc := .down x.op.coro.server_id x.op.coro.thread_id

/-- The slot of key `k` holds an entry with its fingerprint. -/
def PState.Holds (M : Layout) (π : PState) (k : KvKeyType) : Prop :=
  ∃ w log, π.slot (M.slot k) = some (w, log) ∧ M.Same w.key k

/-! ### What the nodes do with an item -/

/-- Where the switch sends an item that it only passes on. A read is passed on when the slot does
not hold its key, and the reply to an append when it is refused. -/
inductive Passes (M : Layout) (D : Discipline) (π : PState) : Loc → Item → Loc → Prop
  | appendReq {x : Item} : x.kind = .appendReq →
      Passes M D π .up x (.dnIn (M.dataThread x.op.key))
  | readLog {x : Item} {t : UInt8} : x.kind = .readLog → M.logThread x.log = some t →
      Passes M D π .up x (.dnIn t)
  | probe {x : Item} : x.kind = .probe → Passes M D π .up x x.home
  | updateReq {x : Item} : x.kind = .updateReq →
      Passes M D π .up x (.ixIn (M.indexThread x.op.key))
  | readReq {x : Item} : x.kind = .readReq → ¬ π.Holds M x.op.key →
      Passes M D π .up x (.ixIn (M.indexThread x.op.key))
  | appendReply {x : Item} {t : UInt8} : x.kind = .appendReply →
      (D.refuseFree → ¬ π.Holds M x.op.key) → Passes M D π (.dnOut t) x x.home
  | logReply {x : Item} {t : UInt8} : x.kind = .logReply → Passes M D π (.dnOut t) x x.home
  | updateReply {x : Item} {t : UInt8} : x.kind = .updateReply →
      Passes M D π (.ixOut t) x x.home
  | readReply {x : Item} {t : UInt8} : x.kind = .readReply → Passes M D π (.ixOut t) x x.home

/-- The item is an update of the index of key `k`. -/
def Item.Updates (x : Item) (k : KvKeyType) : Prop :=
  (x.kind = .copy ∨ x.kind = .updateReq) ∧ x.op.key = k

instance (x : Item) (k : KvKeyType) : Decidable (x.Updates k) :=
  inferInstanceAs (Decidable (_ ∧ _))

/-- The reply of an index thread, for the index after the request. -/
def Item.reply (index : KvKeyType → UInt64) (x : Item) : Item :=
  match x.kind with
  | .copy => { x with kind := .replySwitch }
  | .updateReq => { x with kind := .updateReply }
  | .readReq => { x with kind := .readReply, log := index x.op.key }
  | _ => x

/-- The kinds of requests that an index thread handles. -/
def Kind.AtIndex (kind : Kind) : Prop :=
  kind = .copy ∨ kind = .updateReq ∨ kind = .readReq

/-- The index of key `k` after a batch: that of its newest update, if the batch has one. -/
def BatchIndex (batch : List Item) (index index' : KvKeyType → UInt64) (k : KvKeyType) : Prop :=
  ((∀ x ∈ batch, ¬ x.Updates k) ∧ index' k = index k) ∨
    ∃ newest ∈ batch, newest.Updates k ∧ (∀ x ∈ batch, x.Updates k → x.ts ≤ newest.ts) ∧
      index' k = newest.log

/-- The index of key `k` after a batch, whatever the order: the old one or that of an update. -/
def BatchWrites (batch : List Item) (index index' : KvKeyType → UInt64) (k : KvKeyType) : Prop :=
  index' k = index k ∨ ∃ x ∈ batch, x.Updates k ∧ index' k = x.log

theorem BatchIndex.batchWrites {batch : List Item} {index index' : KvKeyType → UInt64}
    {k : KvKeyType} (h : BatchIndex batch index index' k) : BatchWrites batch index index' k := by
  rcases h with ⟨-, hsame⟩ | ⟨newest, hmem, hupdates, -, hlog⟩
  · exact Or.inl hsame
  · exact Or.inr ⟨newest, hmem, hupdates, hlog⟩

/-- The coroutine of a delivered item, and what it sends next if it goes on. -/
def Item.next (x : Item) : Option Item :=
  match x.kind with
  | .appendReply => some { x with kind := .updateReq }
  | .readHit | .readReply =>
    if x.log = 0xFFFFFFFF then none else some { x with kind := .readLog, ts := 0 }
  | _ => none

/-- The response that a delivered item is. -/
def Item.response (x : Item) : List (Event OpId UInt64) :=
  match x.kind with
  | .answer | .updateReply => [.respondWrite x.op x.log]
  | .readHit | .readReply => [.respondRead x.op x.log]
  | _ => []

/-! ### Steps -/

/-- What kind of step it is: a coroutine starts, a message moves on from its link, or a batch is
answered. -/
inductive Action
  | start
  | move (ℓ : Loc) (x : Item)
  | flush

/-- One step of the protocol. -/
inductive PStep (M : Layout) (D : Discipline) : PState → Action → PState → Prop
  | write {π : PState} {c : CoroId} {k : KvKeyType} :
      M.HasCoro c → π.phase c = none → k ∈ M.keys →
      PStep M D π .start
        { π with
          net := π.net ++ [(.up, ⟨.appendReq, ⟨c, π.seq c + 1, k⟩, 0, 0⟩)]
          phase := Function.update π.phase c (some ⟨.put_value, ⟨c, π.seq c + 1, k⟩, 0⟩)
          seq := Function.update π.seq c (π.seq c + 1)
          hist := π.hist ++ [.invokeWrite ⟨c, π.seq c + 1, k⟩] }
  | read {π : PState} {c : CoroId} {k : KvKeyType} :
      M.HasCoro c → π.phase c = none → k ∈ M.keys →
      PStep M D π .start
        { π with
          net := π.net ++ [(.up, ⟨.readReq, ⟨c, π.seq c + 1, k⟩, 0, 0⟩)]
          phase := Function.update π.phase c (some ⟨.get_index, ⟨c, π.seq c + 1, k⟩, 0⟩)
          seq := Function.update π.seq c (π.seq c + 1)
          hist := π.hist ++ [.invokeRead ⟨c, π.seq c + 1, k⟩] }
  | probe {π : PState} {c : CoroId} {k : KvKeyType} :
      M.HasCoro c → π.phase c = none → k ∈ M.keys →
      PStep M D π .start
        { π with
          net := π.net ++ [(.up, ⟨.probe, ⟨c, π.seq c, k⟩, 0, 0⟩)]
          phase := Function.update π.phase c (some ⟨.check_req_cnt, ⟨c, π.seq c, k⟩, 0⟩) }
  | passUp {π : PState} {x : Item} {ℓ : Loc} {rest : List (Loc × Item)} :
      Take π.net .up x rest → Passes M D π .up x ℓ →
      PStep M D π (.move .up x) { π with net := rest ++ [(ℓ, x)] }
  | passOut {π : PState} {x : Item} {ℓ ℓ' : Loc} {rest : List (Loc × Item)} :
      ℓ ≠ .up → TakeFirst π.net ℓ x rest → Passes M D π ℓ x ℓ' →
      PStep M D π (.move ℓ x) { π with net := rest ++ [(ℓ', x)] }
  | lose {π : PState} {x : Item} {rest : List (Loc × Item)} :
      Take π.net .up x rest → x.kind = .readLog → M.logThread x.log = none →
      PStep M D π (.move .up x) { π with net := rest }
  | install {π : PState} {x : Item} {t : UInt8} {rest : List (Loc × Item)} :
      TakeFirst π.net (.dnOut t) x rest → x.kind = .appendReply →
      π.slot (M.slot x.op.key) = none ∨ π.Holds M x.op.key →
      PStep M D π (.move (.dnOut t) x)
        { π with
          net := rest ++ [(.ixIn (M.copyThread x.op.key), { x with kind := .copy }),
            (x.home, { x with kind := .answer })]
          slot := Function.update π.slot (M.slot x.op.key) (some (x.op, x.log)) }
  | hit {π : PState} {x : Item} {w : OpId} {log : UInt64} {rest : List (Loc × Item)} :
      Take π.net .up x rest → x.kind = .readReq → π.slot (M.slot x.op.key) = some (w, log) →
      M.Same w.key x.op.key →
      PStep M D π (.move .up x)
        { π with net := rest ++ [(x.home, { x with kind := .readHit, log := log })] }
  | clear {π : PState} {x : Item} {t : UInt8} {rest : List (Loc × Item)} :
      TakeFirst π.net (.ixOut t) x rest → x.kind = .replySwitch →
      (D.clearOwn → ∀ w log, π.slot (M.slot x.op.key) = some (w, log) → w = x.op) →
      PStep M D π (.move (.ixOut t) x)
        { π with net := rest, slot := Function.update π.slot (M.slot x.op.key) none }
  | keep {π : PState} {x : Item} {t : UInt8} {rest : List (Loc × Item)} :
      TakeFirst π.net (.ixOut t) x rest → x.kind = .replySwitch →
      (∀ log, π.slot (M.slot x.op.key) ≠ some (x.op, log)) →
      PStep M D π (.move (.ixOut t) x) { π with net := rest }
  | append {π : PState} {x : Item} {t : UInt8} {log : UInt64} {rest : List (Loc × Item)} :
      Take π.net (.dnIn t) x rest → x.kind = .appendReq → D.logs log →
      PStep M D π (.move (.dnIn t) x)
        { π with
          net := rest ++ [(.dnOut t, ⟨.appendReply, x.op, log,
            timestampValue (next_timestamp (π.clock (M.counter x.op.key))).2⟩)]
          clock := Function.update π.clock (M.counter x.op.key)
            (next_timestamp (π.clock (M.counter x.op.key))).1
          hist := π.hist ++ [.assign x.op log] }
  | serveLog {π : PState} {x : Item} {t : UInt8} {rest : List (Loc × Item)} :
      Take π.net (.dnIn t) x rest → x.kind = .readLog →
      PStep M D π (.move (.dnIn t) x)
        { π with net := rest ++ [(.dnOut t, { x with kind := .logReply })] }
  | serve {π : PState} {x : Item} {t : UInt8} {index : KvKeyType → UInt64}
      {rest : List (Loc × Item)} :
      TakeFirst π.net (.ixIn t) x rest → x.kind.AtIndex →
      (∀ k, BatchIndex [x] π.index index k) →
      PStep M D π (.move (.ixIn t) x)
        { π with net := rest ++ [(.ixOut t, x.reply index)], index := index }
  | collect {π : PState} {x : Item} {t : UInt8} {rest : List (Loc × Item)} :
      TakeFirst π.net (.ixIn t) x rest → x.kind.AtIndex →
      PStep M D π (.move (.ixIn t) x) { π with net := rest ++ [(.ixBatch t, x)] }
  | flush {π : PState} {t : UInt8} {index : KvKeyType → UInt64} :
      (∀ k ∈ M.keys, BatchWrites (queue π.net (.ixBatch t)) π.index index k) →
      (∀ k ∈ M.keys, k ≠ 0 → BatchIndex (queue π.net (.ixBatch t)) π.index index k) →
      PStep M D π .flush
        { π with
          net := π.net.filter (fun p ↦ p.1 ≠ .ixBatch t) ++
            (queue π.net (.ixBatch t)).map fun x ↦ (.ixOut t, x.reply index)
          index := index }
  | finish {π : PState} {x : Item} {rest : List (Loc × Item)} :
      Take π.net x.home x rest → x.next = none →
      PStep M D π (.move x.home x)
        { π with
          net := rest
          phase := Function.update π.phase x.op.coro none
          hist := π.hist ++ x.response }
  | goOn {π : PState} {x y : Item} {pc : Pc} {rest : List (Loc × Item)} :
      Take π.net x.home x rest → x.next = some y → y.kind.pc = some pc →
      PStep M D π (.move x.home x)
        { π with
          net := rest ++ [(.up, y)]
          phase := Function.update π.phase x.op.coro (some ⟨pc, y.op, y.log⟩)
          hist := π.hist ++ x.response }

/-- The reachable states of the protocol. -/
def PReachable (M : Layout) (D : Discipline) : PState → Prop :=
  Relation.ReflTransGen (fun π π' ↦ ∃ action, PStep M D π action π') PState.initial

end SwitchDelta.Protocol

import SwitchDelta.Foundation.Placement
import SwitchDelta.Rdma.RecvRing

/-!
# The region of the receive buffers

The constructor of `Rdma` lets each queue pair reserve a range of one region for its receive buffers:
the range begins where the last one ended. `config_recv_region` posts the buffers, those of a shared
receive queue from the beginning of the region and those of the other queue pairs from the beginning of
their range.

`recv_region_separate_iff` says for which configurations the posted buffers do not overlap: a shared
receive queue with buffers has to be the first one that reserves any.
-/

set_option autoImplicit false
set_option relaxedAutoImplicit false

namespace SwitchDelta.Rdma

open Foundation

/-- `QPInfo::kRawPacketHeader`. -/
def kRawPacketHeader : ℕ := 42

/-- `QPInfo::kUDHeader`. -/
def kUDHeader : ℕ := 40

/-- `ALIGNMENT_XB`. -/
def ALIGNMENT_XB (x b : ℕ) : ℕ := (x + (b - 1)) / b * b

/-! ### The configuration -/

/-- `TopoType`, with the value of an entry that has not been set. -/
inductive TopoType
  | unset
  | All
  | LoadBalance
  | AtoB
  | BtoA
  deriving DecidableEq

/-- `ConnectType`, without the one of a shared receive queue for all threads. -/
inductive ConnectType
  | RC
  | RAW
  | UD
  | T_LOCAL_SRQ
  | DCT
  deriving DecidableEq

/-- `SrqConfig`. -/
structure SrqConfig where
  normal_srq_len : ℤ
  mp_flag : Bool
  log_num_of_strides : ℕ
  log_stride_size : ℕ

/-- `GlobalConfig`, the part that the receive buffers depend on. -/
structure GlobalConfig where
  matrix : ℕ → ℕ → TopoType
  matrix_TSRQ : ℕ → ℕ → TopoType
  func : ConnectType → Bool
  raw_msg_size : ℕ
  rc_msg_size : ℕ
  ud_msg_size : ℕ
  srq_config : SrqConfig

/-- `ServerConfig`, the part that the receive buffers depend on. -/
structure ServerConfig where
  thread_num : ℕ
  srq_receiver : Bool

/-- What `Rdma` is instantiated and constructed with. The constructor asserts that the servers and its own
`thread_id` fit into the arrays. Each thread of each server constructs an `Rdma` of its own with the same
list, so together they assert that all threads fit. The numbers of servers and threads are bytes. -/
structure RdmaSetup where
  kMaxServer : ℕ
  kMaxThread : ℕ
  kMaxQPNum : ℕ
  FLAGS_qp_len : ℕ
  server_list : List ServerConfig
  server_id : Fin server_list.length
  global_config : GlobalConfig
  maxServer_le : kMaxServer ≤ 2 ^ 8
  maxThread_le : kMaxThread ≤ 2 ^ 8
  length_le : server_list.length ≤ kMaxServer
  thread_num_le : ∀ server ∈ server_list, server.thread_num ≤ kMaxThread

/-- The queue pairs and shared receive queues of a thread. -/
inductive QP
  | rc (gid k : ℕ)
  | raw (k : ℕ)
  | ud (k : ℕ)
  | dct (k : ℕ)
  | dci (gid k : ℕ)
  | tsrq
  | tsrqConnect (gid k : ℕ)
  deriving DecidableEq

/-- `config_recv_region` posts the buffers with `init_srq_with_one_wr`. -/
def QP.srq : QP → Bool
  | .dct _ => true
  | .tsrq => true
  | _ => false

/-- What a queue pair reserves: it has `POSTPIPE` batches of `kBatchRecv` buffers. -/
structure Reservation where
  qp : QP
  kBatchRecv : ℕ
  recv_msg_size : ℕ

/-- `get_recv_msg_num`. -/
def Reservation.get_recv_msg_num (r : Reservation) : ℕ := r.kBatchRecv * POSTPIPE

/-- The bytes that are reserved. -/
def Reservation.len (r : Reservation) : ℕ := r.recv_msg_size * r.get_recv_msg_num

/-- The ring of a queue pair after its reservation. -/
structure Ring where
  kBatchRecv : ℕ
  recv_msg_size : ℕ
  recv_offset : ℕ

/-- A buffer that is posted, with the queue pair and the place in its ring. -/
structure Post where
  qp : QP
  batch : ℕ
  slot : ℕ
  offset : ℕ
  size : ℕ
  deriving DecidableEq

/-- The bytes of a buffer. -/
def Post.bytes (p : Post) : Set ℕ := Set.Ico p.offset (p.offset + p.size)

/-- `total_recv_buf_size`, and the rings that have been reserved. -/
structure Agent where
  total_recv_buf_size : ℕ
  rings : QP → Option Ring

/-- `config_msg_buf`, and `config_mp_msg_buf`: the range begins at the running total, an `uint32_t`. -/
def Agent.reserve (a : Agent) (r : Reservation) : Agent where
  total_recv_buf_size := (a.total_recv_buf_size + r.len) % 2 ^ 32
  rings := Function.update a.rings r.qp
    (some ⟨r.kBatchRecv, r.recv_msg_size, a.total_recv_buf_size⟩)

/-- The loops that post the buffers of a ring, at offsets that are `uint32_t`s. -/
def Ring.posts (ring : Ring) (qp : QP) (offset : ℕ) : List Post :=
  (List.range POSTPIPE).flatMap fun i ↦ (List.range ring.kBatchRecv).map fun j ↦
    ⟨qp, i, j, (offset + ring.recv_msg_size * (i * ring.kBatchRecv + j)) % 2 ^ 32,
      ring.recv_msg_size⟩

/-- `QPInfo::init_recv_with_one_mr`. -/
def Agent.init_recv_with_one_mr (a : Agent) (qp : QP) : List Post :=
  (a.rings qp).elim [] fun ring ↦ ring.posts qp ring.recv_offset

/-- `QPInfo::init_srq_with_one_wr`, which leaves `recv_offset` out. -/
def Agent.init_srq_with_one_wr (a : Agent) (qp : QP) : List Post :=
  (a.rings qp).elim [] fun ring ↦ ring.posts qp 0

namespace RdmaSetup

variable (c : RdmaSetup)

/-- `server`. -/
def server : ServerConfig := c.server_list.get c.server_id

/-- `kBatchRecv` of a queue pair. -/
def kBatchRecv : ℕ := Rdma.kBatchRecv c.FLAGS_qp_len

/-- `kBatchRecv` of the shared receive queue of the thread. -/
def kBatchSrq : ℕ :=
  let mp_config := c.global_config.srq_config
  if mp_config.mp_flag then 1
  else if mp_config.normal_srq_len ≠ 0 ∧ mp_config.normal_srq_len > c.FLAGS_qp_len then
    (mp_config.normal_srq_len / POSTPIPE).toNat
  else c.kBatchRecv

/-- `compute_gid`, of bytes and as an `uint16_t`. -/
def compute_gid (s_id t_id : ℕ) : ℕ := (s_id % 2 ^ 8 * c.kMaxThread + t_id % 2 ^ 8) % 2 ^ 16

/-- The threads of the other servers that a test accepts, in the order of the loops. -/
def peers (test : ℕ → Bool) : List ℕ :=
  (List.range c.server_list.length).flatMap fun i ↦
    if test i && i ≠ c.server_id then
      (List.range (c.server_list[i]?.elim 0 ServerConfig.thread_num)).map fun j ↦ c.compute_gid i j
    else []

/-- The threads with `connects->remote_node_[gid].valid`. -/
def rcPeers : List ℕ := c.peers fun i ↦ c.global_config.matrix i c.server_id == .All

/-- The threads with `connects->remote_node_[gid].dct_valid`. -/
def dctPeers : List ℕ := c.peers fun _ ↦ true

/-- The threads with `tsrq_connects->remote_node_[gid].valid`. -/
def tsrqPeers : List ℕ := c.peers fun i ↦ c.global_config.matrix_TSRQ i c.server_id == .All

/-- A reservation of `config_msg_buf`. -/
def config_msg_buf (recv_msg_size : ℕ) (qp : QP) : Reservation :=
  ⟨qp, c.kBatchRecv, ALIGNMENT_XB recv_msg_size 64⟩

/-- The reservation of the shared receive queue, with `config_mp_msg_buf` or `config_msg_buf`. -/
def configSrq : Reservation where
  qp := .tsrq
  kBatchRecv := c.kBatchSrq
  recv_msg_size :=
    let srq_config := c.global_config.srq_config
    if srq_config.mp_flag then 2 ^ (srq_config.log_stride_size + srq_config.log_num_of_strides)
    else ALIGNMENT_XB c.global_config.rc_msg_size 64

/-- The queue pairs of each thread in a list. -/
def ofPeers (gids : List ℕ) (qp : ℕ → ℕ → QP) : List QP :=
  gids.flatMap fun gid ↦ (List.range c.kMaxQPNum).map fun k ↦ qp gid k

/-- The reservations of the constructor, in their order. -/
def reservations : List Reservation :=
  let g := c.global_config
  (if g.func .RC then (c.ofPeers c.rcPeers .rc).map (c.config_msg_buf g.rc_msg_size) else []) ++
  ((if g.func .RAW then
    (List.range c.kMaxQPNum).map fun k ↦ c.config_msg_buf (g.raw_msg_size + kRawPacketHeader) (.raw k)
  else []) ++
  ((if g.func .UD then
    (List.range c.kMaxQPNum).map fun k ↦ c.config_msg_buf (g.ud_msg_size + kUDHeader) (.ud k)
  else []) ++
  ((if g.func .DCT then
    (List.range c.kMaxQPNum).map (fun k ↦ c.config_msg_buf g.rc_msg_size (.dct k)) ++
      (c.ofPeers c.dctPeers .dci).map (c.config_msg_buf 0)
  else []) ++
  (if g.func .T_LOCAL_SRQ then
    (if c.server.srq_receiver then [c.configSrq] else []) ++
      (c.ofPeers c.tsrqPeers .tsrqConnect).map
        (c.config_msg_buf (if c.server.srq_receiver then 0 else g.rc_msg_size))
  else []))))

/-- The constructor. -/
def construct : Agent := c.reservations.foldl Agent.reserve ⟨0, fun _ ↦ none⟩

/-- The queue pairs of the threads that are valid, in the order of the loops of
`config_recv_region`. -/
def validQPs (gids : List ℕ) (qp : ℕ → ℕ → QP) : List QP :=
  c.ofPeers ((List.range (c.server_list.length * c.kMaxThread)).filter fun gid ↦ gid ∈ gids) qp

/-- `config_recv_region`. -/
def config_recv_region : List Post :=
  let g := c.global_config
  (if g.func .RC then (c.validQPs c.rcPeers .rc).flatMap c.construct.init_recv_with_one_mr
  else []) ++
  ((if g.func .RAW then
    (List.range c.kMaxQPNum).flatMap fun k ↦ c.construct.init_recv_with_one_mr (.raw k)
  else []) ++
  ((if g.func .UD then
    (List.range c.kMaxQPNum).flatMap fun k ↦ c.construct.init_recv_with_one_mr (.ud k)
  else []) ++
  ((if g.func .DCT then
    (List.range c.kMaxQPNum).flatMap fun k ↦ c.construct.init_srq_with_one_wr (.dct k)
  else []) ++
  (if g.func .T_LOCAL_SRQ then
    if c.server.srq_receiver then c.construct.init_srq_with_one_wr .tsrq
    else (c.validQPs c.tsrqPeers .tsrqConnect).flatMap c.construct.init_recv_with_one_mr
  else []))))

end RdmaSetup

/-! ### The rings -/

section

variable {a : Agent} {rs : List Reservation} {r : Reservation} {qp : QP} {ring : Ring} {p p' : Post}
  {offset : ℕ}

theorem reserve_total (hsize : a.total_recv_buf_size + (rs.map Reservation.len).sum < 2 ^ 32) :
    (rs.foldl Agent.reserve a).total_recv_buf_size =
      a.total_recv_buf_size + (rs.map Reservation.len).sum := by
  induction rs generalizing a with
  | nil => rfl
  | cons r rs ih =>
    rw [List.map_cons, List.sum_cons] at hsize ⊢
    have hwrap : (a.reserve r).total_recv_buf_size = a.total_recv_buf_size + r.len :=
      Nat.mod_eq_of_lt (by omega)
    rw [List.foldl_cons, ih (by rw [hwrap]; omega), hwrap]
    omega

/-- A ring is where its reservation was placed. -/
theorem reserve_rings (hsize : a.total_recv_buf_size + (rs.map Reservation.len).sum < 2 ^ 32)
    (hring : (rs.foldl Agent.reserve a).rings qp = some ring) : a.rings qp = some ring ∨
      ∃ r, (r, ring.recv_offset) ∈ place Reservation.len a.total_recv_buf_size rs ∧ r.qp = qp ∧
        ring.kBatchRecv = r.kBatchRecv ∧ ring.recv_msg_size = r.recv_msg_size := by
  induction rs generalizing a with
  | nil => exact Or.inl hring
  | cons r rs ih =>
    rw [List.map_cons, List.sum_cons] at hsize
    have hwrap : (a.reserve r).total_recv_buf_size = a.total_recv_buf_size + r.len :=
      Nat.mod_eq_of_lt (by omega)
    rw [List.foldl_cons] at hring
    rcases ih (by rw [hwrap]; omega) hring with hring | ⟨r', hplace, hr'⟩
    · by_cases hqp : qp = r.qp
      · have hself : (a.reserve r).rings r.qp =
            some ⟨r.kBatchRecv, r.recv_msg_size, a.total_recv_buf_size⟩ := Function.update_self _ _ _
        rw [hqp, hself] at hring
        obtain rfl := Option.some.inj hring
        exact Or.inr ⟨r, List.mem_cons_self, hqp.symm, rfl, rfl⟩
      · have hother : (a.reserve r).rings qp = a.rings qp := Function.update_of_ne hqp _ _
        exact Or.inl (hother.symm.trans hring)
    · rw [hwrap] at hplace
      exact Or.inr ⟨r', List.mem_cons_of_mem _ hplace, hr'⟩

theorem reserve_notMem (hqp : qp ∉ rs.map Reservation.qp) :
    (rs.foldl Agent.reserve a).rings qp = a.rings qp := by
  induction rs generalizing a with
  | nil => rfl
  | cons r rs ih =>
    rw [List.map_cons, List.mem_cons, not_or] at hqp
    rw [List.foldl_cons, ih hqp.2]
    exact Function.update_of_ne hqp.1 _ _

/-- Where no queue pair reserves twice, each reservation gives a ring. -/
theorem reserve_mem (hsize : a.total_recv_buf_size + (rs.map Reservation.len).sum < 2 ^ 32)
    (hnodup : (rs.map Reservation.qp).Nodup)
    (hplace : (r, offset) ∈ place Reservation.len a.total_recv_buf_size rs) :
    (rs.foldl Agent.reserve a).rings r.qp = some ⟨r.kBatchRecv, r.recv_msg_size, offset⟩ := by
  induction rs generalizing a with
  | nil => exact absurd hplace List.not_mem_nil
  | cons first rs ih =>
    rw [List.map_cons, List.sum_cons] at hsize
    rw [List.map_cons, List.nodup_cons] at hnodup
    have hwrap : (a.reserve first).total_recv_buf_size = a.total_recv_buf_size + first.len :=
      Nat.mod_eq_of_lt (by omega)
    rw [List.foldl_cons]
    rcases List.mem_cons.mp hplace with heq | hplace
    · obtain ⟨rfl, rfl⟩ := Prod.mk.inj heq
      rw [reserve_notMem hnodup.1]
      exact Function.update_self _ _ _
    · exact ih (by rw [hwrap]; omega) hnodup.2 (hwrap ▸ hplace)

/-- The buffers of a ring are numbered through. -/
theorem slot_lt {B i j : ℕ} (hi : i < POSTPIPE) (hj : j < B) : i * B + j < B * POSTPIPE := by
  have hle : (i + 1) * B ≤ POSTPIPE * B := Nat.mul_le_mul_right B hi
  rw [Nat.add_mul, Nat.one_mul, Nat.mul_comm POSTPIPE] at hle
  omega

/-- The buffers of a ring, at offsets that do not wrap around. -/
theorem mem_posts_iff (hsize : offset + ring.recv_msg_size * (ring.kBatchRecv * POSTPIPE) < 2 ^ 32) :
    p ∈ ring.posts qp offset ↔ p.qp = qp ∧ p.batch < POSTPIPE ∧ p.slot < ring.kBatchRecv ∧
      p.offset = offset + ring.recv_msg_size * (p.batch * ring.kBatchRecv + p.slot) ∧
      p.size = ring.recv_msg_size := by
  have hwrap {i j : ℕ} (hi : i < POSTPIPE) (hj : j < ring.kBatchRecv) :
      (offset + ring.recv_msg_size * (i * ring.kBatchRecv + j)) % 2 ^ 32 =
        offset + ring.recv_msg_size * (i * ring.kBatchRecv + j) := by
    have hlt := slot_lt hi hj
    have hle := Nat.mul_le_mul_left ring.recv_msg_size hlt.le
    exact Nat.mod_eq_of_lt (by omega)
  rw [Ring.posts, List.mem_flatMap]
  simp only [List.mem_range, List.mem_map]
  constructor
  · rintro ⟨i, hi, j, hj, rfl⟩
    exact ⟨rfl, hi, hj, hwrap hi hj, rfl⟩
  · rintro ⟨rfl, hi, hj, hoffset, hposted⟩
    refine ⟨p.batch, hi, p.slot, hj, ?_⟩
    rw [hwrap hi hj, ← hoffset, ← hposted]

/-- A buffer of a ring lies within the range that the ring takes from the offset on. -/
theorem posts_within (hsize : offset + ring.recv_msg_size * (ring.kBatchRecv * POSTPIPE) < 2 ^ 32)
    (hp : p ∈ ring.posts qp offset) : offset ≤ p.offset ∧
      p.offset + p.size ≤ offset + ring.recv_msg_size * (ring.kBatchRecv * POSTPIPE) := by
  obtain ⟨-, hi, hj, hoffset, hposted⟩ := (mem_posts_iff hsize).mp hp
  have hle := Nat.mul_le_mul_left ring.recv_msg_size (Nat.succ_le_of_lt (slot_lt hi hj))
  rw [Nat.mul_succ] at hle
  omega

/-- Two buffers of a ring do not overlap. -/
theorem posts_apart (hsize : offset + ring.recv_msg_size * (ring.kBatchRecv * POSTPIPE) < 2 ^ 32)
    (hp : p ∈ ring.posts qp offset) (hp' : p' ∈ ring.posts qp offset)
    (hne : p.batch ≠ p'.batch ∨ p.slot ≠ p'.slot) :
    p.offset + p.size ≤ p'.offset ∨ p'.offset + p'.size ≤ p.offset := by
  obtain ⟨-, hi, hj, hoffset, hposted⟩ := (mem_posts_iff hsize).mp hp
  obtain ⟨-, hi', hj', hoffset', hposted'⟩ := (mem_posts_iff hsize).mp hp'
  have hnumber : p.batch * ring.kBatchRecv + p.slot ≠ p'.batch * ring.kBatchRecv + p'.slot := by
    intro heq
    have hdiv : p.batch = p'.batch := by
      have h := congrArg (· / ring.kBatchRecv) heq
      simp only [Nat.mul_comm _ ring.kBatchRecv, Nat.mul_add_div (Nat.zero_lt_of_lt hj),
        Nat.div_eq_of_lt hj, Nat.div_eq_of_lt hj', Nat.add_zero] at h
      exact h
    rw [hdiv] at heq
    exact hne.elim (fun h ↦ h hdiv) fun h ↦ h (Nat.add_left_cancel heq)
  rcases Nat.lt_or_gt_of_ne hnumber with hlt | hlt
  · have hle := Nat.mul_le_mul_left ring.recv_msg_size (Nat.succ_le_of_lt hlt)
    rw [Nat.mul_succ] at hle
    omega
  · have hle := Nat.mul_le_mul_left ring.recv_msg_size (Nat.succ_le_of_lt hlt)
    rw [Nat.mul_succ] at hle
    omega

end

/-! ### The buffers that are posted -/

namespace RdmaSetup

variable {c : RdmaSetup} {p p' : Post} {qp : QP} {ring : Ring} {r : Reservation} {gids : List ℕ}

/-- The offset that the buffers of a ring are posted from. -/
def base (qp : QP) (ring : Ring) : ℕ := if qp.srq then 0 else ring.recv_offset

/-- The bytes that the constructor reserves. -/
def size (c : RdmaSetup) : ℕ := (c.reservations.map Reservation.len).sum

theorem total_eq (hsize : c.size < 2 ^ 32) : c.construct.total_recv_buf_size = c.size := by
  have htotal : c.construct.total_recv_buf_size = 0 + c.size :=
    reserve_total ((Nat.zero_add _).trans_lt hsize)
  exact htotal.trans (Nat.zero_add _)

/-- A ring is where its reservation was placed. -/
theorem ring_placed (hsize : c.size < 2 ^ 32) (hring : c.construct.rings qp = some ring) :
    ∃ r, (r, ring.recv_offset) ∈ place Reservation.len 0 c.reservations ∧ r.qp = qp ∧
      ring.kBatchRecv = r.kBatchRecv ∧ ring.recv_msg_size = r.recv_msg_size := by
  rcases reserve_rings (a := ⟨0, fun _ ↦ none⟩) ((Nat.zero_add _).trans_lt hsize) hring with h | h
  · cases h
  · exact h

theorem init_recv_eq {a : Agent} (hqp : qp.srq = false) (hp : p ∈ a.init_recv_with_one_mr qp) :
    ∃ qp ring, a.rings qp = some ring ∧ p ∈ ring.posts qp (base qp ring) := by
  rw [Agent.init_recv_with_one_mr] at hp
  cases hring : a.rings qp with
  | none =>
    rw [hring] at hp
    exact absurd hp List.not_mem_nil
  | some ring =>
    rw [hring] at hp
    refine ⟨qp, ring, hring, ?_⟩
    rw [base, hqp]
    exact hp

theorem init_srq_eq {a : Agent} (hqp : qp.srq = true) (hp : p ∈ a.init_srq_with_one_wr qp) :
    ∃ qp ring, a.rings qp = some ring ∧ p ∈ ring.posts qp (base qp ring) := by
  rw [Agent.init_srq_with_one_wr] at hp
  cases hring : a.rings qp with
  | none =>
    rw [hring] at hp
    exact absurd hp List.not_mem_nil
  | some ring =>
    rw [hring] at hp
    refine ⟨qp, ring, hring, ?_⟩
    rw [base, hqp]
    exact hp

theorem mem_ofPeers {q : ℕ → ℕ → QP} :
    qp ∈ c.ofPeers gids q ↔ ∃ gid ∈ gids, ∃ k < c.kMaxQPNum, q gid k = qp := by
  simp only [ofPeers, List.mem_flatMap, List.mem_map, List.mem_range]

/-- Each buffer that is posted is one of a ring. -/
theorem exists_ring (hp : p ∈ c.config_recv_region) :
    ∃ qp ring, c.construct.rings qp = some ring ∧ p ∈ ring.posts qp (base qp ring) := by
  have hpeers {gids : List ℕ} {q : ℕ → ℕ → QP} (hq : ∀ gid k, (q gid k).srq = false)
      (hp : p ∈ (c.validQPs gids q).flatMap c.construct.init_recv_with_one_mr) :
      ∃ qp ring, c.construct.rings qp = some ring ∧ p ∈ ring.posts qp (base qp ring) := by
    obtain ⟨qp, hqp, hp⟩ := List.mem_flatMap.mp hp
    obtain ⟨gid, -, k, -, rfl⟩ := mem_ofPeers.mp hqp
    exact init_recv_eq (hq gid k) hp
  have hnone {b : Bool} {l : List Post} (hp : p ∈ if b then l else []) : p ∈ l := by
    split_ifs at hp
    · exact hp
    · exact absurd hp List.not_mem_nil
  rw [config_recv_region] at hp
  rcases List.mem_append.mp hp with hp | hp
  · exact hpeers (fun _ _ ↦ rfl) (hnone hp)
  rcases List.mem_append.mp hp with hp | hp
  · obtain ⟨k, -, hp⟩ := List.mem_flatMap.mp (hnone hp)
    exact init_recv_eq rfl hp
  rcases List.mem_append.mp hp with hp | hp
  · obtain ⟨k, -, hp⟩ := List.mem_flatMap.mp (hnone hp)
    exact init_recv_eq rfl hp
  rcases List.mem_append.mp hp with hp | hp
  · obtain ⟨k, -, hp⟩ := List.mem_flatMap.mp (hnone hp)
    exact init_srq_eq rfl hp
  · have hp := hnone hp
    split_ifs at hp
    · exact init_srq_eq rfl hp
    · exact hpeers (fun _ _ ↦ rfl) hp

/-! ### The threads of the other servers -/

theorem gid_eq {i j : ℕ} (hi : i < c.server_list.length) (hj : j < c.kMaxThread) :
    c.compute_gid i j = i * c.kMaxThread + j := by
  have hmaxServer := c.maxServer_le
  have hmaxThread := c.maxThread_le
  have hlength := c.length_le
  have hle : i * c.kMaxThread ≤ (2 ^ 8 - 1) * 2 ^ 8 :=
    Nat.mul_le_mul (by omega) hmaxThread
  rw [compute_gid, Nat.mod_eq_of_lt (a := i) (by omega), Nat.mod_eq_of_lt (a := j) (by omega),
    Nat.mod_eq_of_lt (by omega)]

/-- The threads of one server that the loops come to. -/
theorem mem_peers_of {test : ℕ → Bool} {i gid : ℕ} (hi : i < c.server_list.length)
    (hgid : gid ∈ if test i && i ≠ c.server_id then
      (List.range (c.server_list[i]?.elim 0 ServerConfig.thread_num)).map fun j ↦ c.compute_gid i j
    else []) : ∃ j < c.kMaxThread, gid = i * c.kMaxThread + j := by
  split_ifs at hgid
  · obtain ⟨j, hj, rfl⟩ := List.mem_map.mp hgid
    rw [List.getElem?_eq_getElem hi, Option.elim_some, List.mem_range] at hj
    have hbound := hj.trans_le (c.thread_num_le _ (List.getElem_mem hi))
    exact ⟨j, hbound, gid_eq hi hbound⟩
  · exact absurd hgid List.not_mem_nil

/-- The servers and threads that the loops come to. -/
theorem mem_peers {test : ℕ → Bool} {gid : ℕ} (hgid : gid ∈ c.peers test) :
    ∃ i < c.server_list.length, ∃ j < c.kMaxThread, gid = i * c.kMaxThread + j := by
  obtain ⟨i, hi, hgid⟩ := List.mem_flatMap.mp hgid
  exact ⟨i, List.mem_range.mp hi, mem_peers_of (List.mem_range.mp hi) hgid⟩

theorem peers_nodup (test : ℕ → Bool) : (c.peers test).Nodup := by
  refine List.nodup_flatMap.mpr ⟨fun i hi ↦ ?_, ?_⟩
  · have hi := List.mem_range.mp hi
    split_ifs
    · refine List.Nodup.map_on (fun j hj j' hj' heq ↦ ?_) List.nodup_range
      rw [List.getElem?_eq_getElem hi, Option.elim_some, List.mem_range] at hj hj'
      have hbound := c.thread_num_le _ (List.getElem_mem hi)
      rw [gid_eq hi (hj.trans_le hbound), gid_eq hi (hj'.trans_le hbound)] at heq
      exact Nat.add_left_cancel heq
    · exact List.nodup_nil
  · refine List.nodup_range.imp_of_mem fun hi hi' hne gid hgid hgid' ↦ hne ?_
    obtain ⟨j, hj, heq⟩ := mem_peers_of (List.mem_range.mp hi) hgid
    obtain ⟨j', hj', heq'⟩ := mem_peers_of (List.mem_range.mp hi') hgid'
    have hdiv := congrArg (· / c.kMaxThread) (heq.symm.trans heq')
    simp only [Nat.mul_comm _ c.kMaxThread, Nat.mul_add_div (Nat.zero_lt_of_lt hj),
      Nat.div_eq_of_lt hj, Nat.div_eq_of_lt hj', Nat.add_zero] at hdiv
    exact hdiv

theorem peers_valid {test : ℕ → Bool} {gid : ℕ} (hgid : gid ∈ c.peers test) :
    gid < c.server_list.length * c.kMaxThread := by
  obtain ⟨i, hi, j, hj, rfl⟩ := mem_peers hgid
  have hle := Nat.mul_le_mul_right c.kMaxThread (Nat.succ_le_of_lt hi)
  rw [Nat.succ_mul] at hle
  omega

/-! ### No queue pair reserves twice -/

/-- The place of the reservations of a queue pair among the others. -/
def kind : QP → ℕ
  | .rc _ _ => 0
  | .raw _ => 1
  | .ud _ => 2
  | .dct _ => 3
  | .dci _ _ => 4
  | .tsrq => 5
  | .tsrqConnect _ _ => 6

/-- Different queue pairs, from a place on. -/
def Ordered (n : ℕ) (l : List Reservation) : Prop :=
  (l.map Reservation.qp).Nodup ∧ ∀ r ∈ l, n ≤ kind r.qp

theorem Ordered.cons {n : ℕ} {l l' : List Reservation} (h' : Ordered (n + 1) l')
    (h : (l.map Reservation.qp).Nodup) (hkind : ∀ r ∈ l, kind r.qp = n) : Ordered n (l ++ l') := by
  refine ⟨?_, fun r hr ↦ ?_⟩
  · rw [List.map_append]
    refine h.append h'.1 fun qp hqp hqp' ↦ ?_
    obtain ⟨r, hr, rfl⟩ := List.mem_map.mp hqp
    obtain ⟨r', hr', heq⟩ := List.mem_map.mp hqp'
    have hlt := h'.2 r' hr'
    rw [heq, hkind r hr] at hlt
    omega
  · rcases List.mem_append.mp hr with hr | hr
    · exact (hkind r hr).ge
    · exact Nat.le_of_succ_le (h'.2 r hr)

theorem ofPeers_nodup {q : ℕ → ℕ → QP} (hgids : gids.Nodup)
    (hq : ∀ gid k gid' k', q gid k = q gid' k' → gid = gid' ∧ k = k') : (c.ofPeers gids q).Nodup := by
  refine List.nodup_flatMap.mpr ⟨fun gid _ ↦ ?_, hgids.imp fun hne qp hqp hqp' ↦ hne ?_⟩
  · exact List.nodup_range.map fun k k' heq ↦ (hq _ _ _ _ heq).2
  · obtain ⟨k, -, rfl⟩ := List.mem_map.mp hqp
    obtain ⟨k', -, heq⟩ := List.mem_map.mp hqp'
    exact (hq _ _ _ _ heq).1.symm

/-- The queue pairs of the other threads. -/
theorem ordered_peers {n size : ℕ} {q : ℕ → ℕ → QP} {l : List Reservation} (b : Bool)
    (hgids : gids.Nodup) (hq : ∀ gid k gid' k', q gid k = q gid' k' → gid = gid' ∧ k = k')
    (hkind : ∀ gid k, kind (q gid k) = n) (h : Ordered (n + 1) l) :
    Ordered n ((if b then (c.ofPeers gids q).map (c.config_msg_buf size) else []) ++ l) := by
  cases b with
  | false => exact h.cons List.nodup_nil fun r hr ↦ absurd hr List.not_mem_nil
  | true =>
    refine h.cons ?_ fun r hr ↦ ?_
    · rw [if_pos rfl, List.map_map]
      exact (List.map_id _).symm ▸ ofPeers_nodup hgids hq
    · rw [if_pos rfl] at hr
      obtain ⟨qp, hqp, rfl⟩ := List.mem_map.mp hr
      obtain ⟨gid, -, k, -, rfl⟩ := mem_ofPeers.mp hqp
      exact hkind gid k

/-- The queue pairs of the thread itself. -/
theorem ordered_own {n size : ℕ} {q : ℕ → QP} {l : List Reservation} (b : Bool)
    (hq : Function.Injective q) (hkind : ∀ k, kind (q k) = n) (h : Ordered (n + 1) l) :
    Ordered n ((if b then (List.range c.kMaxQPNum).map fun k ↦ c.config_msg_buf size (q k)
      else []) ++ l) := by
  cases b with
  | false => exact h.cons List.nodup_nil fun r hr ↦ absurd hr List.not_mem_nil
  | true =>
    refine h.cons ?_ fun r hr ↦ ?_
    · rw [if_pos rfl, List.map_map]
      exact List.nodup_range.map hq
    · rw [if_pos rfl] at hr
      obtain ⟨k, -, rfl⟩ := List.mem_map.mp hr
      exact hkind k

theorem ite_append {α : Type*} (b : Bool) (l l' : List α) :
    (if b then l ++ l' else []) = (if b then l else []) ++ if b then l' else [] := by
  cases b <;> rfl

/-- The reservations, block after block. -/
theorem reservations_eq (c : RdmaSetup) : c.reservations =
    (if c.global_config.func .RC then
      (c.ofPeers c.rcPeers .rc).map (c.config_msg_buf c.global_config.rc_msg_size) else []) ++
    ((if c.global_config.func .RAW then (List.range c.kMaxQPNum).map fun k ↦
      c.config_msg_buf (c.global_config.raw_msg_size + kRawPacketHeader) (.raw k) else []) ++
    ((if c.global_config.func .UD then (List.range c.kMaxQPNum).map fun k ↦
      c.config_msg_buf (c.global_config.ud_msg_size + kUDHeader) (.ud k) else []) ++
    ((if c.global_config.func .DCT then (List.range c.kMaxQPNum).map fun k ↦
      c.config_msg_buf c.global_config.rc_msg_size (.dct k) else []) ++
    ((if c.global_config.func .DCT then
      (c.ofPeers c.dctPeers .dci).map (c.config_msg_buf 0) else []) ++
    ((if c.global_config.func .T_LOCAL_SRQ then
      if c.server.srq_receiver then [c.configSrq] else [] else []) ++
    ((if c.global_config.func .T_LOCAL_SRQ then
      (c.ofPeers c.tsrqPeers .tsrqConnect).map (c.config_msg_buf
        (if c.server.srq_receiver then 0 else c.global_config.rc_msg_size)) else []) ++ [])))))) := by
  rw [reservations, ite_append, ite_append, List.append_nil, List.append_assoc]

theorem reservations_nodup (c : RdmaSetup) : (c.reservations.map Reservation.qp).Nodup := by
  rw [reservations_eq]
  refine (ordered_peers (n := 0) _ (c.peers_nodup _) (fun _ _ _ _ h ↦ QP.rc.inj h)
    (fun _ _ ↦ rfl) ?_).1
  refine ordered_own _ (fun _ _ h ↦ QP.raw.inj h) (fun _ ↦ rfl) ?_
  refine ordered_own _ (fun _ _ h ↦ QP.ud.inj h) (fun _ ↦ rfl) ?_
  refine ordered_own _ (fun _ _ h ↦ QP.dct.inj h) (fun _ ↦ rfl) ?_
  refine ordered_peers _ (c.peers_nodup _) (fun _ _ _ _ h ↦ QP.dci.inj h) (fun _ _ ↦ rfl) ?_
  refine Ordered.cons ?_ ?_ ?_
  · refine ordered_peers _ (c.peers_nodup _) (fun _ _ _ _ h ↦ QP.tsrqConnect.inj h)
      (fun _ _ ↦ rfl) ?_
    exact ⟨List.nodup_nil, fun r hr ↦ absurd hr List.not_mem_nil⟩
  · split_ifs
    · exact List.nodup_singleton _
    · exact List.nodup_nil
    · exact List.nodup_nil
  · intro r hr
    split_ifs at hr
    · rw [List.mem_singleton.mp hr]
      rfl
    · exact absurd hr List.not_mem_nil
    · exact absurd hr List.not_mem_nil

/-! ### All rings with buffers are posted -/

theorem len_config_msg_buf (size : ℕ) (qp : QP) :
    (c.config_msg_buf size qp).len ≠ 0 ↔ 0 < size ∧ 0 < c.kBatchRecv := by
  have halign : ALIGNMENT_XB size 64 ≠ 0 ↔ 0 < size := by
    rw [ALIGNMENT_XB]
    omega
  rw [Reservation.len, Reservation.get_recv_msg_num, config_msg_buf, mul_ne_zero_iff,
    mul_ne_zero_iff, halign, Nat.pos_iff_ne_zero (n := c.kBatchRecv)]
  exact and_congr_right fun _ ↦ and_iff_left (by decide)

theorem mem_init_recv {a : Agent} (hring : a.rings qp = some ring) (hqp : qp.srq = false)
    (hp : p ∈ ring.posts qp (base qp ring)) : p ∈ a.init_recv_with_one_mr qp := by
  rw [base, hqp] at hp
  rw [Agent.init_recv_with_one_mr, hring]
  exact hp

theorem mem_init_srq {a : Agent} (hring : a.rings qp = some ring) (hqp : qp.srq = true)
    (hp : p ∈ ring.posts qp (base qp ring)) : p ∈ a.init_srq_with_one_wr qp := by
  rw [base, hqp] at hp
  rw [Agent.init_srq_with_one_wr, hring]
  exact hp

theorem mem_validQPs {test : ℕ → Bool} {q : ℕ → ℕ → QP} (hqp : qp ∈ c.ofPeers (c.peers test) q) :
    qp ∈ c.validQPs (c.peers test) q := by
  obtain ⟨gid, hgid, hk⟩ := mem_ofPeers.mp hqp
  refine mem_ofPeers.mpr ⟨gid, List.mem_filter.mpr ⟨List.mem_range.mpr (peers_valid hgid), ?_⟩, hk⟩
  exact decide_eq_true hgid

/-- The buffers of a ring that is not empty are posted. -/
theorem mem_config (hr : r ∈ c.reservations) (hlen : r.len ≠ 0)
    (hring : c.construct.rings r.qp = some ring) (hp : p ∈ ring.posts r.qp (base r.qp ring)) :
    p ∈ c.config_recv_region := by
  have hblock {b : Bool} {l : List Reservation} (hr : r ∈ if b then l else []) :
      b = true ∧ r ∈ l := by
    split_ifs at hr with hb
    · exact ⟨hb, hr⟩
    · exact absurd hr List.not_mem_nil
  rw [reservations_eq] at hr
  rw [config_recv_region]
  rcases List.mem_append.mp hr with hr | hr
  · obtain ⟨hb, hr⟩ := hblock hr
    obtain ⟨qp, hqp, rfl⟩ := List.mem_map.mp hr
    obtain ⟨gid, -, k, -, rfl⟩ := mem_ofPeers.mp hqp
    refine List.mem_append_left _ ?_
    rw [if_pos hb]
    exact List.mem_flatMap.mpr ⟨_, mem_validQPs hqp, mem_init_recv hring rfl hp⟩
  refine List.mem_append_right _ ?_
  rcases List.mem_append.mp hr with hr | hr
  · obtain ⟨hb, hr⟩ := hblock hr
    obtain ⟨k, hk, rfl⟩ := List.mem_map.mp hr
    refine List.mem_append_left _ ?_
    rw [if_pos hb]
    exact List.mem_flatMap.mpr ⟨k, hk, mem_init_recv hring rfl hp⟩
  refine List.mem_append_right _ ?_
  rcases List.mem_append.mp hr with hr | hr
  · obtain ⟨hb, hr⟩ := hblock hr
    obtain ⟨k, hk, rfl⟩ := List.mem_map.mp hr
    refine List.mem_append_left _ ?_
    rw [if_pos hb]
    exact List.mem_flatMap.mpr ⟨k, hk, mem_init_recv hring rfl hp⟩
  refine List.mem_append_right _ ?_
  rcases List.mem_append.mp hr with hr | hr
  · obtain ⟨hb, hr⟩ := hblock hr
    obtain ⟨k, hk, rfl⟩ := List.mem_map.mp hr
    refine List.mem_append_left _ ?_
    rw [if_pos hb]
    exact List.mem_flatMap.mpr ⟨k, hk, mem_init_srq hring rfl hp⟩
  refine List.mem_append_right _ ?_
  rcases List.mem_append.mp hr with hr | hr
  · -- the initiators receive nothing
    obtain ⟨-, hr⟩ := hblock hr
    obtain ⟨qp, -, rfl⟩ := List.mem_map.mp hr
    exact absurd ((len_config_msg_buf 0 qp).mp hlen).1 (Nat.lt_irrefl 0)
  rcases List.mem_append.mp hr with hr | hr
  · obtain ⟨hb, hr⟩ := hblock hr
    obtain ⟨hreceiver, hr⟩ := hblock hr
    obtain rfl := List.mem_singleton.mp hr
    rw [if_pos hb, if_pos hreceiver]
    exact mem_init_srq hring rfl hp
  · rw [List.append_nil] at hr
    obtain ⟨hb, hr⟩ := hblock hr
    obtain ⟨qp, hqp, rfl⟩ := List.mem_map.mp hr
    obtain ⟨gid, -, k, -, rfl⟩ := mem_ofPeers.mp hqp
    have hpos := ((len_config_msg_buf _ _).mp hlen).1
    have hreceiver : ¬ c.server.srq_receiver = true := by
      intro hreceiver
      rw [if_pos hreceiver] at hpos
      exact Nat.lt_irrefl 0 hpos
    rw [if_pos hb, if_neg hreceiver]
    exact List.mem_flatMap.mpr ⟨_, mem_validQPs hqp, mem_init_recv hring rfl hp⟩

/-! ### Which shared receive queues are the first -/

/-- There are queue pairs of type RC with buffers. -/
def HasRC (c : RdmaSetup) : Prop :=
  c.global_config.func .RC = true ∧ c.rcPeers ≠ [] ∧ 0 < c.kMaxQPNum ∧
    0 < c.global_config.rc_msg_size ∧ 0 < c.kBatchRecv

/-- There are raw queue pairs with buffers. -/
def HasRAW (c : RdmaSetup) : Prop :=
  c.global_config.func .RAW = true ∧ 0 < c.kMaxQPNum ∧ 0 < c.kBatchRecv

/-- There are queue pairs of type UD with buffers. -/
def HasUD (c : RdmaSetup) : Prop :=
  c.global_config.func .UD = true ∧ 0 < c.kMaxQPNum ∧ 0 < c.kBatchRecv

/-- There are DC targets with buffers. -/
def HasDCT (c : RdmaSetup) : Prop :=
  c.global_config.func .DCT = true ∧ 0 < c.kMaxQPNum ∧ 0 < c.global_config.rc_msg_size ∧
    0 < c.kBatchRecv

/-- The thread has a shared receive queue with buffers. -/
def HasSRQ (c : RdmaSetup) : Prop :=
  c.global_config.func .T_LOCAL_SRQ = true ∧ c.server.srq_receiver = true ∧ 0 < c.kBatchSrq ∧
    (c.global_config.srq_config.mp_flag = true ∨ 0 < c.global_config.rc_msg_size)

/-- Whatever has a shared receive queue is alone: no other queue pair with buffers reserves them
before. -/
def SrqFirst (c : RdmaSetup) : Prop :=
  (c.HasDCT → c.kMaxQPNum = 1 ∧ ¬ c.HasRC ∧ ¬ c.HasRAW ∧ ¬ c.HasUD) ∧
    (c.HasSRQ → ¬ c.HasRC ∧ ¬ c.HasRAW ∧ ¬ c.HasUD ∧ ¬ c.HasDCT)

/-- A reservation of a list is not empty. -/
def Takes (l : List Reservation) : Prop := ∃ r ∈ l, r.len ≠ 0

/-- A reservation of a shared receive queue is not empty. -/
def IsSrq (r : Reservation) : Prop := r.qp.srq = true ∧ r.len ≠ 0

/-- Before a shared receive queue with buffers, all reservations are empty. -/
abbrev Free (l : List Reservation) : Prop := l.Pairwise fun a b ↦ IsSrq b → a.len = 0

theorem free_append {l l' : List Reservation} :
    Free (l ++ l') ↔ Free l ∧ Free l' ∧ ((∃ r ∈ l', IsSrq r) → ¬ Takes l) := by
  refine List.pairwise_append.trans (and_congr_right fun _ ↦ and_congr_right fun _ ↦ ?_)
  constructor
  · rintro h ⟨b, hb, hsrq⟩ ⟨a, ha, hlen⟩
    exact hlen (h a ha b hb hsrq)
  · intro h a ha b hb hsrq
    by_contra hlen
    exact h ⟨b, hb, hsrq⟩ ⟨a, ha, hlen⟩

/-- A block without shared receive queues. -/
theorem free_plain {l : List Reservation} (h : ∀ r ∈ l, r.qp.srq = false) :
    Free l ∧ ¬ ∃ r ∈ l, IsSrq r := by
  have hno : ∀ r ∈ l, ¬ IsSrq r := fun r hr hsrq ↦
    Bool.false_ne_true ((h r hr).symm.trans hsrq.1)
  exact ⟨List.pairwise_of_forall_mem_list fun _ _ b hb hsrq ↦ absurd hsrq (hno b hb),
    fun ⟨r, hr, hsrq⟩ ↦ hno r hr hsrq⟩

/-- A block of queue pairs of the same size. -/
theorem takes_block {b : Bool} {size : ℕ} {l : List QP} :
    Takes (if b then l.map (c.config_msg_buf size) else []) ↔
      b = true ∧ l ≠ [] ∧ 0 < size ∧ 0 < c.kBatchRecv := by
  constructor
  · rintro ⟨r, hr, hlen⟩
    split_ifs at hr with hb
    · obtain ⟨qp, hqp, rfl⟩ := List.mem_map.mp hr
      exact ⟨hb, List.ne_nil_of_mem hqp, (len_config_msg_buf size qp).mp hlen⟩
    · exact absurd hr List.not_mem_nil
  · rintro ⟨rfl, hne, hlen⟩
    obtain ⟨qp, hqp⟩ := List.exists_mem_of_ne_nil l hne
    exact ⟨_, List.mem_map_of_mem hqp, (len_config_msg_buf size qp).mpr hlen⟩

/-- A block of queue pairs of the thread itself. -/
theorem takes_own {b : Bool} {size : ℕ} {q : ℕ → QP} :
    Takes (if b then (List.range c.kMaxQPNum).map fun k ↦ c.config_msg_buf size (q k) else []) ↔
      b = true ∧ 0 < c.kMaxQPNum ∧ 0 < size ∧ 0 < c.kBatchRecv := by
  have hmap : ((List.range c.kMaxQPNum).map fun k ↦ c.config_msg_buf size (q k)) =
      ((List.range c.kMaxQPNum).map q).map (c.config_msg_buf size) := by
    rw [List.map_map]
    rfl
  rw [hmap, takes_block, ne_eq, List.map_eq_nil_iff, List.range_eq_nil,
    Nat.pos_iff_ne_zero (n := c.kMaxQPNum)]

theorem ofPeers_ne_nil {q : ℕ → ℕ → QP} :
    c.ofPeers gids q ≠ [] ↔ gids ≠ [] ∧ 0 < c.kMaxQPNum := by
  constructor
  · intro hne
    obtain ⟨qp, hqp⟩ := List.exists_mem_of_ne_nil _ hne
    obtain ⟨gid, hgid, k, hk, -⟩ := mem_ofPeers.mp hqp
    exact ⟨List.ne_nil_of_mem hgid, Nat.zero_lt_of_lt hk⟩
  · rintro ⟨hne, hpos⟩
    obtain ⟨gid, hgid⟩ := List.exists_mem_of_ne_nil gids hne
    exact List.ne_nil_of_mem (mem_ofPeers.mpr ⟨gid, hgid, 0, hpos, rfl⟩)

theorem exists_srq_append {l l' : List Reservation} :
    (∃ r ∈ l ++ l', IsSrq r) ↔ (∃ r ∈ l, IsSrq r) ∨ ∃ r ∈ l', IsSrq r := by
  simp only [List.mem_append, or_and_right, exists_or]

/-- Blocks one after another, the fourth and the sixth of shared receive queues. -/
theorem free_blocks {l₀ l₁ l₂ l₃ l₄ l₅ l₆ : List Reservation} (h₀ : ∀ r ∈ l₀, r.qp.srq = false)
    (h₁ : ∀ r ∈ l₁, r.qp.srq = false) (h₂ : ∀ r ∈ l₂, r.qp.srq = false)
    (h₄ : ∀ r ∈ l₄, r.qp.srq = false) (hempty : ¬ Takes l₄) (h₅ : Free l₅)
    (h₆ : ∀ r ∈ l₆, r.qp.srq = false) :
    Free (l₀ ++ (l₁ ++ (l₂ ++ (l₃ ++ (l₄ ++ (l₅ ++ (l₆ ++ []))))))) ↔ Free l₃ ∧
      ((∃ r ∈ l₃, IsSrq r) → ¬ Takes l₀ ∧ ¬ Takes l₁ ∧ ¬ Takes l₂) ∧
      ((∃ r ∈ l₅, IsSrq r) → ¬ Takes l₀ ∧ ¬ Takes l₁ ∧ ¬ Takes l₂ ∧ ¬ Takes l₃) := by
  obtain ⟨hfree₀, -⟩ := free_plain h₀
  obtain ⟨hfree₁, hno₁⟩ := free_plain h₁
  obtain ⟨hfree₂, hno₂⟩ := free_plain h₂
  obtain ⟨hfree₄, hno₄⟩ := free_plain h₄
  obtain ⟨hfree₆, hno₆⟩ := free_plain h₆
  rw [List.append_nil]
  simp only [free_append, exists_srq_append, hfree₀, hfree₁, hfree₂, hfree₄, hfree₆, h₅, hno₁, hno₂,
    hno₄, hno₆, hempty, true_and, and_true, or_false, false_or, not_false_eq_true, implies_true,
    false_imp_iff]
  generalize (∃ r ∈ l₃, IsSrq r) = srq₃
  generalize (∃ r ∈ l₅, IsSrq r) = srq₅
  tauto

/-- What holds of a block holds where it is left out. -/
theorem plain_block {b : Bool} {l : List Reservation} (h : ∀ r ∈ l, r.qp.srq = false) :
    ∀ r ∈ if b then l else [], r.qp.srq = false := by
  intro r hr
  split_ifs at hr
  · exact h r hr
  · exact absurd hr List.not_mem_nil

/-- The DC targets. -/
theorem free_dct : (∃ r ∈ if c.global_config.func .DCT then (List.range c.kMaxQPNum).map fun k ↦
      c.config_msg_buf c.global_config.rc_msg_size (.dct k) else [], IsSrq r) ↔ c.HasDCT := by
  refine Iff.trans ⟨fun ⟨r, hr, hsrq⟩ ↦ ⟨r, hr, hsrq.2⟩, fun ⟨r, hr, hlen⟩ ↦ ⟨r, hr, ?_, hlen⟩⟩
    takes_own
  split_ifs at hr
  · obtain ⟨k, -, rfl⟩ := List.mem_map.mp hr
    rfl
  · exact absurd hr List.not_mem_nil

theorem free_dct_iff : Free (if c.global_config.func .DCT then
    (List.range c.kMaxQPNum).map fun k ↦ c.config_msg_buf c.global_config.rc_msg_size (.dct k)
    else []) ↔ (c.HasDCT → c.kMaxQPNum = 1) := by
  constructor
  · rintro hfree ⟨hb, hK, hsize, hbatch⟩
    rw [if_pos hb, Free, List.pairwise_map] at hfree
    by_contra hne
    have h01 : (0 : ℕ) < 1 := Nat.zero_lt_one
    have hpair := List.pairwise_iff_getElem.mp hfree 0 1 (by rw [List.length_range]; omega)
      (by rw [List.length_range]; omega) h01
    have hlen (k : ℕ) : (c.config_msg_buf c.global_config.rc_msg_size (.dct k)).len ≠ 0 :=
      (len_config_msg_buf _ _).mpr ⟨hsize, hbatch⟩
    exact hlen _ (hpair ⟨rfl, hlen _⟩)
  · intro h
    by_cases hdct : c.HasDCT
    · rw [h hdct]
      split_ifs
      · exact List.pairwise_singleton _ _
      · exact List.Pairwise.nil
    · refine List.pairwise_of_forall_mem_list fun _ _ r hr hsrq ↦ ?_
      exact absurd (free_dct.mp ⟨r, hr, hsrq⟩) hdct

/-- The shared receive queue of the thread. -/
theorem srq_iff : (∃ r ∈ if c.global_config.func .T_LOCAL_SRQ then
    if c.server.srq_receiver then [c.configSrq] else [] else [], IsSrq r) ↔ c.HasSRQ := by
  have hsize : c.configSrq.len ≠ 0 ↔ 0 < c.kBatchSrq ∧
      (c.global_config.srq_config.mp_flag = true ∨ 0 < c.global_config.rc_msg_size) := by
    rw [Reservation.len, Reservation.get_recv_msg_num, configSrq, mul_ne_zero_iff, mul_ne_zero_iff,
      and_iff_left (by decide : POSTPIPE ≠ 0), and_comm, Nat.pos_iff_ne_zero]
    refine and_congr_right fun _ ↦ ?_
    dsimp only
    split_ifs with hmp
    · exact iff_of_true (Nat.two_pow_pos _).ne' (Or.inl hmp)
    · rw [or_iff_right hmp, ALIGNMENT_XB]
      omega
  constructor
  · rintro ⟨r, hr, -, hlen⟩
    split_ifs at hr with hb hreceiver
    · obtain rfl := List.mem_singleton.mp hr
      exact ⟨hb, hreceiver, hsize.mp hlen⟩
    · exact absurd hr List.not_mem_nil
    · exact absurd hr List.not_mem_nil
  · rintro ⟨hb, hreceiver, hlen⟩
    rw [if_pos hb, if_pos hreceiver]
    exact ⟨c.configSrq, List.mem_cons_self, rfl, hsize.mpr hlen⟩

theorem peers_plain {size : ℕ} {q : ℕ → ℕ → QP} (hq : ∀ gid k, (q gid k).srq = false) :
    ∀ r ∈ (c.ofPeers gids q).map (c.config_msg_buf size), r.qp.srq = false := by
  intro r hr
  obtain ⟨qp, hqp, rfl⟩ := List.mem_map.mp hr
  obtain ⟨gid, -, k, -, rfl⟩ := mem_ofPeers.mp hqp
  exact hq gid k

theorem own_plain {size : ℕ} {q : ℕ → QP} (hq : ∀ k, (q k).srq = false) :
    ∀ r ∈ (List.range c.kMaxQPNum).map fun k ↦ c.config_msg_buf size (q k), r.qp.srq = false := by
  intro r hr
  obtain ⟨k, -, rfl⟩ := List.mem_map.mp hr
  exact hq k

/-- The condition on the configuration, as one on the reservations. -/
theorem free_reservations : Free c.reservations ↔ c.SrqFirst := by
  have hrc : Takes (if c.global_config.func .RC then
      (c.ofPeers c.rcPeers .rc).map (c.config_msg_buf c.global_config.rc_msg_size) else []) ↔
      c.HasRC := by
    rw [takes_block, ofPeers_ne_nil, and_assoc]
    exact Iff.rfl
  have hraw : Takes (if c.global_config.func .RAW then (List.range c.kMaxQPNum).map fun k ↦
      c.config_msg_buf (c.global_config.raw_msg_size + kRawPacketHeader) (.raw k) else []) ↔
      c.HasRAW := by
    rw [takes_own, and_iff_right (Nat.add_pos_right _ (by decide : 0 < kRawPacketHeader))]
    exact Iff.rfl
  have hud : Takes (if c.global_config.func .UD then (List.range c.kMaxQPNum).map fun k ↦
      c.config_msg_buf (c.global_config.ud_msg_size + kUDHeader) (.ud k) else []) ↔ c.HasUD := by
    rw [takes_own, and_iff_right (Nat.add_pos_right _ (by decide : 0 < kUDHeader))]
    exact Iff.rfl
  have hdct : Takes (if c.global_config.func .DCT then (List.range c.kMaxQPNum).map fun k ↦
      c.config_msg_buf c.global_config.rc_msg_size (.dct k) else []) ↔ c.HasDCT := takes_own
  have hdci : ¬ Takes (if c.global_config.func .DCT then
      (c.ofPeers c.dctPeers .dci).map (c.config_msg_buf 0) else []) := by
    rw [takes_block]
    exact fun h ↦ Nat.lt_irrefl 0 h.2.2.1
  rw [reservations_eq]
  refine (free_blocks (plain_block (peers_plain fun _ _ ↦ rfl)) (plain_block (own_plain fun _ ↦ rfl))
    (plain_block (own_plain fun _ ↦ rfl)) (plain_block (peers_plain fun _ _ ↦ rfl)) hdci ?_
    (plain_block (peers_plain fun _ _ ↦ rfl))).trans ?_
  · split_ifs
    · exact List.pairwise_singleton _ _
    · exact List.Pairwise.nil
    · exact List.Pairwise.nil
  · rw [free_dct_iff, free_dct, srq_iff, hrc, hraw, hud, hdct, SrqFirst]
    tauto

/-! ### The posted buffers -/

/-- The byte ranges of different buffers are disjoint, and they lie in the region. -/
def Separate (c : RdmaSetup) : Prop :=
  (∀ p ∈ c.config_recv_region, ∀ p' ∈ c.config_recv_region,
    (p.qp, p.batch, p.slot) ≠ (p'.qp, p'.batch, p'.slot) → Disjoint p.bytes p'.bytes) ∧
  ∀ p ∈ c.config_recv_region, p.bytes ⊆ Set.Ico 0 c.construct.total_recv_buf_size

/-- A ring ends before the region does, also if it is posted from its beginning. -/
theorem ring_bound (hsize : c.size < 2 ^ 32) (hring : c.construct.rings qp = some ring) :
    base qp ring + ring.recv_msg_size * (ring.kBatchRecv * POSTPIPE) ≤ c.size := by
  obtain ⟨r, hplace, -, hbatch, hmsg⟩ := ring_placed hsize hring
  have hbound := (place_bound hplace).2
  rw [Nat.zero_add, Reservation.len, Reservation.get_recv_msg_num, ← hbatch, ← hmsg] at hbound
  have hbase : base qp ring ≤ ring.recv_offset := by
    rw [base]
    split_ifs
    · exact Nat.zero_le _
    · exact le_rfl
  exact (Nat.add_le_add_right hbase _).trans hbound

theorem bytes_disjoint {p p' : Post}
    (h : p.offset + p.size ≤ p'.offset ∨ p'.offset + p'.size ≤ p.offset) :
    Disjoint p.bytes p'.bytes := by
  rw [Post.bytes, Post.bytes, Set.Ico_disjoint_Ico]
  omega

/-- Where every shared receive queue with buffers is at the beginning anyway, no buffers overlap. -/
theorem separate_of_free (hsize : c.size < 2 ^ 32) (hfree : Free c.reservations) : c.Separate := by
  have hfirst := (forall_first_iff IsSrq).mpr hfree
  have hno (qp : QP) (ring : Ring) (hring : c.construct.rings qp = some ring) :
      base qp ring + ring.recv_msg_size * (ring.kBatchRecv * POSTPIPE) < 2 ^ 32 :=
    (ring_bound hsize hring).trans_lt hsize
  -- a ring with buffers is posted where it was placed
  have hbase {qp : QP} {ring : Ring} {p : Post} (hring : c.construct.rings qp = some ring)
      (hp : p ∈ ring.posts qp (base qp ring)) (hzero : p.size ≠ 0) :
      base qp ring = ring.recv_offset := by
    rw [base]
    split_ifs with hsrq
    · obtain ⟨r, hplace, rfl, hbatch, hmsg⟩ := ring_placed hsize hring
      obtain ⟨-, -, hslot, -, hposted⟩ := (mem_posts_iff (hno _ ring hring)).mp hp
      refine (hfirst r _ hplace ⟨hsrq, ?_⟩).symm
      rw [Reservation.len, Reservation.get_recv_msg_num, ← hbatch, ← hmsg, ← hposted]
      exact mul_ne_zero hzero (mul_ne_zero (Nat.ne_zero_of_lt hslot) (by decide))
    · rfl
  refine ⟨fun p hp p' hp' hne ↦ ?_, fun p hp ↦ ?_⟩
  · obtain ⟨qp, ring, hring, hp⟩ := exists_ring hp
    obtain ⟨qp', ring', hring', hp'⟩ := exists_ring hp'
    have hqp := ((mem_posts_iff (hno qp ring hring)).mp hp).1
    have hqp' := ((mem_posts_iff (hno qp' ring' hring')).mp hp').1
    by_cases hsame : qp = qp'
    · subst hsame
      obtain rfl := Option.some.inj (hring.symm.trans hring')
      refine bytes_disjoint (posts_apart (hno qp ring hring) hp hp' ?_)
      by_contra hslots
      rw [not_or, not_not, not_not] at hslots
      exact hne (by rw [hqp, hqp', hslots.1, hslots.2])
    · obtain ⟨r, hplace, rfl, hbatch, hmsg⟩ := ring_placed hsize hring
      obtain ⟨r', hplace', rfl, hbatch', hmsg'⟩ := ring_placed hsize hring'
      have hapart := place_apart hplace hplace' fun heq ↦
        hsame (congrArg (fun x ↦ x.1.qp) heq)
      rw [Reservation.len, Reservation.get_recv_msg_num, ← hbatch, ← hmsg, Reservation.len,
        Reservation.get_recv_msg_num, ← hbatch', ← hmsg'] at hapart
      by_cases hzero : p.size = 0 ∨ p'.size = 0
      · rcases hzero with hzero | hzero
        · rw [Post.bytes, hzero, Nat.add_zero, Set.Ico_self]
          exact Set.empty_disjoint _
        · rw [Post.bytes, Post.bytes, hzero, Nat.add_zero, Set.Ico_self]
          exact Set.disjoint_empty _
      · rw [not_or] at hzero
        have hin := posts_within (hno _ ring hring) hp
        have hin' := posts_within (hno _ ring' hring') hp'
        rw [hbase hring hp hzero.1] at hin
        rw [hbase hring' hp' hzero.2] at hin'
        exact bytes_disjoint (by omega)
  · obtain ⟨qp, ring, hring, hp⟩ := exists_ring hp
    have hin := posts_within (hno qp ring hring) hp
    have hbound := ring_bound hsize hring
    rw [total_eq hsize]
    exact Set.Ico_subset_Ico (Nat.zero_le _) (by omega)

/-- The first buffer of a ring. -/
theorem first_post (hsize : c.size < 2 ^ 32) (hr : r ∈ c.reservations) (hlen : r.len ≠ 0)
    {offset : ℕ} (hring : c.construct.rings r.qp = some ⟨r.kBatchRecv, r.recv_msg_size, offset⟩) :
    ⟨r.qp, 0, 0, if r.qp.srq then 0 else offset, r.recv_msg_size⟩ ∈ c.config_recv_region := by
  refine mem_config hr hlen hring ((mem_posts_iff ?_).mpr ⟨rfl, Nat.zero_lt_succ 63, ?_, ?_, rfl⟩)
  · exact (ring_bound hsize hring).trans_lt hsize
  · refine Nat.pos_of_ne_zero fun hzero ↦ hlen ?_
    have hbatch : r.kBatchRecv = 0 := hzero
    rw [Reservation.len, Reservation.get_recv_msg_num, hbatch, Nat.zero_mul, Nat.mul_zero]
  · rw [Nat.zero_mul, Nat.add_zero, Nat.mul_zero, Nat.add_zero]
    rfl

/-- Where no buffers overlap, every shared receive queue with buffers is at the beginning. -/
theorem free_of_separate (hsize : c.size < 2 ^ 32) (hseparate : c.Separate) :
    Free c.reservations := by
  have hrings (r : Reservation) (offset : ℕ)
      (hplace : (r, offset) ∈ place Reservation.len 0 c.reservations) :
      c.construct.rings r.qp = some ⟨r.kBatchRecv, r.recv_msg_size, offset⟩ :=
    reserve_mem (a := ⟨0, fun _ ↦ none⟩) ((Nat.zero_add _).trans_lt hsize) (reservations_nodup c)
      hplace
  refine (forall_first_iff IsSrq).mp fun r offset hplace hsrq ↦ ?_
  by_contra hoffset
  -- the first reservation that is not empty is at the beginning too
  obtain ⟨first, hfirst, hlen⟩ := exists_first hplace hoffset
  have hne : first.qp ≠ r.qp := by
    intro heq
    have hsame := (hrings first 0 hfirst).symm.trans (heq ▸ hrings r offset hplace)
    exact hoffset (congrArg Ring.recv_offset (Option.some.inj hsame)).symm
  have hpost := first_post hsize (mem_of_mem_place hplace) hsrq.2 (hrings r offset hplace)
  have hpost' := first_post hsize (mem_of_mem_place hfirst) hlen (hrings first 0 hfirst)
  have hdisjoint := hseparate.1 _ hpost _ hpost' fun heq ↦ hne (congrArg Prod.fst heq).symm
  have hpos {r : Reservation} (hlen : r.len ≠ 0) : 0 < r.recv_msg_size := by
    refine Nat.pos_of_ne_zero fun hzero ↦ hlen ?_
    rw [Reservation.len, hzero, Nat.zero_mul]
  rw [Post.bytes, Post.bytes, if_pos hsrq.1, ite_self, Set.Ico_disjoint_Ico] at hdisjoint
  dsimp only at hdisjoint
  have hpost := hpos hsrq.2
  have hpost' := hpos hlen
  omega

/-- The buffers that are posted do not overlap, and lie in the region, exactly where each shared receive
queue with buffers is the first one that reserves any. -/
theorem recv_region_separate_iff (c : RdmaSetup) (hsize : c.size < 2 ^ 32) :
    c.Separate ↔ c.SrqFirst :=
  ⟨fun h ↦ free_reservations.mp (free_of_separate hsize h),
    fun h ↦ separate_of_free hsize (free_reservations.mpr h)⟩

/-- Two servers of one thread each, with queue pairs of type RC and possibly a shared receive queue. -/
def twoServers (srq : Bool) : RdmaSetup where
  kMaxServer := 6
  kMaxThread := 48
  kMaxQPNum := 1
  FLAGS_qp_len := 64
  server_list := [⟨1, true⟩, ⟨1, true⟩]
  server_id := ⟨0, by decide⟩
  global_config :=
    { matrix := fun _ _ ↦ .All
      matrix_TSRQ := fun _ _ ↦ .All
      func := fun type ↦ type == .RC || srq && type == .T_LOCAL_SRQ
      raw_msg_size := 0
      rc_msg_size := 64
      ud_msg_size := 0
      srq_config := ⟨0, false, 0, 0⟩ }
  maxServer_le := by decide
  maxThread_le := by decide
  length_le := by decide
  thread_num_le := by decide

/-- A thread with a queue pair of type RC and a shared receive queue posts two buffers at the beginning
of the region. -/
theorem rc_and_srq_overlap :
    (twoServers true).size < 2 ^ 32 ∧ POSTPIPE ∣ (twoServers true).FLAGS_qp_len ∧
      (⟨.rc 48 0, 0, 0, 0, 64⟩ : Post) ∈ (twoServers true).config_recv_region ∧
      (⟨.tsrq, 0, 0, 0, 64⟩ : Post) ∈ (twoServers true).config_recv_region ∧
      ¬ (twoServers true).Separate := by
  have hrc : (⟨.rc 48 0, 0, 0, 0, 64⟩ : Post) ∈ (twoServers true).config_recv_region := by
    decide +kernel
  have hsrq : (⟨.tsrq, 0, 0, 0, 64⟩ : Post) ∈ (twoServers true).config_recv_region := by
    decide +kernel
  refine ⟨by decide +kernel, by decide, hrc, hsrq, fun h ↦ ?_⟩
  have hdisjoint := h.1 _ hrc _ hsrq fun heq ↦ by cases heq
  rw [Post.bytes, Post.bytes, Set.Ico_disjoint_Ico] at hdisjoint
  exact absurd hdisjoint (by decide)

/-- Without the shared receive queue, the buffers do not overlap. -/
theorem recv_region_separate_rc :
    (twoServers false).size < 2 ^ 32 ∧ (twoServers false).Separate := by
  have hsize : (twoServers false).size < 2 ^ 32 := by decide +kernel
  refine ⟨hsize, (recv_region_separate_iff _ hsize).mpr ⟨fun h ↦ ?_, fun h ↦ ?_⟩⟩
  · exact absurd h.1 Bool.false_ne_true
  · exact absurd h.1 Bool.false_ne_true

end RdmaSetup

end SwitchDelta.Rdma

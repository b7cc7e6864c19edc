import Mathlib

/-!
# The memory of the file system

`MemoryManager` allocates one block of memory and lays the regions of the file system out in it, in
the order of the diagram in `mempool.h`. The size of the block and the addresses of the regions come
from two chains of sums.

The data region begins `METADATA_SIZE` behind the server receive region instead of the metadata
region, and the size of the block has the server messages once instead of twice. So all regions are
inside the block, but the end of the metadata lies in the data (`layout_overlaps`).
-/

set_option autoImplicit false
set_option relaxedAutoImplicit false

namespace SwitchDelta.Fs

/-- `CLIENT_MESSAGE_SIZE`. -/
def CLIENT_MESSAGE_SIZE : UInt64 := 4096

/-- `MAX_CLIENT_NUMBER`. -/
def MAX_CLIENT_NUMBER : UInt64 := 1024

/-- `SERVER_MASSAGE_SIZE`. -/
def SERVER_MASSAGE_SIZE : UInt64 := CLIENT_MESSAGE_SIZE

/-- `SERVER_MASSAGE_NUM`. -/
def SERVER_MASSAGE_NUM : UInt64 := 8

/-- `METADATA_SIZE`. -/
def METADATA_SIZE : UInt64 := 1024 * 1024 * 1024

/-- `LOCALLOGSIZE`. -/
def LOCALLOGSIZE : UInt64 := 40 * 1024 * 1024

/-- `DISTRIBUTEDLOGSIZE`. -/
def DISTRIBUTEDLOGSIZE : UInt64 := 1024 * 1024

/-- `MemoryManager`, with the size that it has allocated. -/
structure MemoryManager where
  ServerCount : UInt64
  MemoryBaseAddress : UInt64
  ClientBaseAddress : UInt64
  ServerSendBaseAddress : UInt64
  ServerRecvBaseAddress : UInt64
  MetadataBaseAddress : UInt64
  DataBaseAddress : UInt64
  DMFSTotalSize : UInt64
  LocalLogAddress : UInt64
  DistributedLogAddress : UInt64
  allocated : UInt64

namespace MemoryManager

variable (malloc : UInt64 → UInt64) (ServerCount : UInt64) (DataSize : Int32)

/-- `DMFSTotalSize`. -/
def totalSize : UInt64 :=
  DataSize.toInt64.toUInt64 * 1024 * 1024 * 1024 + METADATA_SIZE +
    CLIENT_MESSAGE_SIZE * MAX_CLIENT_NUMBER +
    SERVER_MASSAGE_SIZE * SERVER_MASSAGE_NUM * ServerCount

/-- `MemoryManager::MemoryManager`, where `mm` is 0. -/
def construct : MemoryManager :=
  let DMFSTotalSize := totalSize ServerCount DataSize
  let allocated := DMFSTotalSize + LOCALLOGSIZE + DISTRIBUTEDLOGSIZE
  let MemoryBaseAddress := malloc allocated
  let ServerSendBaseAddress := MemoryBaseAddress + CLIENT_MESSAGE_SIZE * MAX_CLIENT_NUMBER
  let ServerRecvBaseAddress :=
    ServerSendBaseAddress + SERVER_MASSAGE_SIZE * SERVER_MASSAGE_NUM * ServerCount
  let MetadataBaseAddress :=
    ServerRecvBaseAddress + SERVER_MASSAGE_SIZE * SERVER_MASSAGE_NUM * ServerCount
  let DataBaseAddress := ServerRecvBaseAddress + METADATA_SIZE
  let LocalLogAddress := DataSize.toInt64.toUInt64 * (1024 * 1024 * 1024) + DataBaseAddress
  { ServerCount, MemoryBaseAddress, ServerSendBaseAddress, ServerRecvBaseAddress,
    MetadataBaseAddress, DataBaseAddress, DMFSTotalSize, LocalLogAddress, allocated
    ClientBaseAddress := MemoryBaseAddress
    DistributedLogAddress := LocalLogAddress + LOCALLOGSIZE }

/-- The bytes of the data region. -/
def dataBytes : ℕ := DataSize.toInt.toNat * 2 ^ 30

/-- The bytes of the messages of all servers. -/
def serverBytes : ℕ := 4096 * 8 * ServerCount.toNat

/-- The regions in the order of the diagram, each with its start and its size. -/
def regions (m : MemoryManager) : List (ℕ × ℕ) :=
  [(m.ClientBaseAddress.toNat, 4096 * 1024),
    (m.ServerSendBaseAddress.toNat, serverBytes m.ServerCount),
    (m.ServerRecvBaseAddress.toNat, serverBytes m.ServerCount),
    (m.MetadataBaseAddress.toNat, METADATA_SIZE.toNat),
    (m.DataBaseAddress.toNat, dataBytes DataSize),
    (m.LocalLogAddress.toNat, LOCALLOGSIZE.toNat),
    (m.DistributedLogAddress.toNat, DISTRIBUTEDLOGSIZE.toNat)]

/-- The law of the layout: the regions are disjoint, in the order of the diagram, and inside the
allocated block. -/
structure LaidOut (m : MemoryManager) : Prop where
  disjoint : (m.regions DataSize).Pairwise fun r r' ↦ r.1 + r.2 ≤ r'.1 ∨ r'.1 + r'.2 ≤ r.1
  order : (m.regions DataSize).Pairwise fun r r' ↦ r.1 ≤ r'.1
  contained : ∀ r ∈ m.regions DataSize, m.MemoryBaseAddress.toNat ≤ r.1 ∧
    r.1 + r.2 ≤ m.MemoryBaseAddress.toNat + m.allocated.toNat

/-- The sums that the constructor computes have no more than 64 bits: the end of the metadata, and
the end of the block, which begins where `malloc` says. -/
def NoOverflow : Prop :=
  (malloc (construct malloc ServerCount DataSize).allocated).toNat + 4096 * 1024 +
      2 * serverBytes ServerCount + METADATA_SIZE.toNat < 2 ^ 64 ∧
    (malloc (construct malloc ServerCount DataSize).allocated).toNat + 4096 * 1024 +
      serverBytes ServerCount + METADATA_SIZE.toNat + dataBytes DataSize + LOCALLOGSIZE.toNat +
      DISTRIBUTEDLOGSIZE.toNat < 2 ^ 64

variable {malloc ServerCount DataSize}

/-- A size that is not negative keeps its value in 64 bits. -/
theorem toNat_dataSize (hData : 0 ≤ DataSize.toInt) :
    DataSize.toInt64.toUInt64.toNat = DataSize.toInt.toNat := by
  have hint : DataSize.toInt64.toInt = DataSize.toInt := Int32.toInt_toInt64 DataSize
  have hcond : DataSize.toInt64.toInt =
      if 2 * DataSize.toInt64.toUInt64.toNat < 2 ^ 64 then
        (DataSize.toInt64.toUInt64.toNat : ℤ)
      else (DataSize.toInt64.toUInt64.toNat : ℤ) - (2 ^ 64 : ℕ) :=
    BitVec.toInt_eq_toNat_cond DataSize.toInt64.toBitVec
  have hlt := DataSize.toInt64.toUInt64.toNat_lt
  split_ifs at hcond <;> omega

/-- The addresses as sums of the sizes. -/
structure Sums (m : MemoryManager) (base server size : ℕ) : Prop where
  client : m.ClientBaseAddress.toNat = base
  send : m.ServerSendBaseAddress.toNat = base + 4194304
  recv : m.ServerRecvBaseAddress.toNat = base + 4194304 + server
  metadata : m.MetadataBaseAddress.toNat = base + 4194304 + 2 * server
  data : m.DataBaseAddress.toNat = base + 4194304 + server + 1073741824
  localLog : m.LocalLogAddress.toNat = base + 4194304 + server + 1073741824 + size
  distributedLog :
    m.DistributedLogAddress.toNat = base + 4194304 + server + 1073741824 + size + 41943040
  allocated : m.allocated.toNat = 4194304 + server + 1073741824 + size + 41943040 + 1048576

theorem construct_sums (hData : 0 ≤ DataSize.toInt) (h : NoOverflow malloc ServerCount DataSize) :
    Sums (construct malloc ServerCount DataSize)
      (construct malloc ServerCount DataSize).MemoryBaseAddress.toNat (serverBytes ServerCount)
      (dataBytes DataSize) := by
  obtain ⟨hmetadata, hend⟩ := h
  have hmeta : METADATA_SIZE.toNat = 1073741824 := by decide
  have hlog : LOCALLOGSIZE.toNat = 41943040 := by decide
  have hdistributed : DISTRIBUTEDLOGSIZE.toNat = 1048576 := by decide
  have hclients : (CLIENT_MESSAGE_SIZE * MAX_CLIENT_NUMBER).toNat = 4194304 := by decide
  have hmessages : (SERVER_MASSAGE_SIZE * SERVER_MASSAGE_NUM).toNat = 4096 * 8 := by decide
  have hunit : (1024 * 1024 * 1024 : UInt64).toNat = 2 ^ 30 := by decide
  have hserver : (SERVER_MASSAGE_SIZE * SERVER_MASSAGE_NUM * ServerCount).toNat =
      serverBytes ServerCount := by
    rw [UInt64.toNat_mul, hmessages]
    exact Nat.mod_eq_of_lt (by rw [serverBytes] at hmetadata; omega)
  have hdata : (DataSize.toInt64.toUInt64 * (1024 * 1024 * 1024)).toNat = dataBytes DataSize := by
    rw [UInt64.toNat_mul, toNat_dataSize hData, hunit]
    exact Nat.mod_eq_of_lt (by rw [dataBytes] at hend; omega)
  have hproduct : DataSize.toInt64.toUInt64 * 1024 * 1024 * 1024 =
      DataSize.toInt64.toUInt64 * (1024 * 1024 * 1024) := by
    rw [UInt64.mul_assoc, UInt64.mul_assoc]
    rfl
  rw [hmeta] at hmetadata hend
  rw [hlog, hdistributed] at hend
  have hallocated : (construct malloc ServerCount DataSize).allocated.toNat =
      4194304 + serverBytes ServerCount + 1073741824 + dataBytes DataSize + 41943040 + 1048576 := by
    change (totalSize ServerCount DataSize + LOCALLOGSIZE + DISTRIBUTEDLOGSIZE).toNat = _
    rw [totalSize, hproduct]
    simp only [UInt64.toNat_add, hserver, hclients, hmeta, hlog, hdistributed, hdata]
    omega
  constructor
  case client => rfl
  case allocated => exact hallocated
  all_goals
    simp only [construct] at hmetadata hend ⊢
    simp only [UInt64.toNat_add, hserver, hclients, hmeta, hlog, hdata]
    omega

/-! ### The law of the layout -/

/-- The regions as the sums say. -/
theorem Sums.regions_eq {m : MemoryManager} {base server : ℕ}
    (hsums : Sums m base server (dataBytes DataSize))
    (hserver : serverBytes m.ServerCount = server) :
    m.regions DataSize =
      [(base, 4194304), (base + 4194304, server), (base + 4194304 + server, server),
        (base + 4194304 + 2 * server, 1073741824),
        (base + 4194304 + server + 1073741824, dataBytes DataSize),
        (base + 4194304 + server + 1073741824 + dataBytes DataSize, 41943040),
        (base + 4194304 + server + 1073741824 + dataBytes DataSize + 41943040, 1048576)] := by
  have hclients : 4096 * 1024 = 4194304 := by norm_num
  have hmeta : METADATA_SIZE.toNat = 1073741824 := by decide
  have hlog : LOCALLOGSIZE.toNat = 41943040 := by decide
  have hdistributed : DISTRIBUTEDLOGSIZE.toNat = 1048576 := by decide
  rw [regions, hsums.client, hsums.send, hsums.recv, hsums.metadata, hsums.data, hsums.localLog,
    hsums.distributedLog, hserver, hclients, hmeta, hlog, hdistributed]

/-- Nothing is outside the block, as long as the servers have no more messages than data. -/
theorem Sums.contained {m : MemoryManager} {server : ℕ}
    (hsums : Sums m m.MemoryBaseAddress.toNat server (dataBytes DataSize))
    (hserver : serverBytes m.ServerCount = server) (hfew : server ≤ dataBytes DataSize) :
    ∀ r ∈ m.regions DataSize, m.MemoryBaseAddress.toNat ≤ r.1 ∧
      r.1 + r.2 ≤ m.MemoryBaseAddress.toNat + m.allocated.toNat := by
  rw [hsums.regions_eq hserver, hsums.allocated]
  intro r hr
  simp only [List.mem_cons, List.not_mem_nil, or_false] at hr
  rcases hr with rfl | rfl | rfl | rfl | rfl | rfl | rfl <;> dsimp only <;> omega

/-- In order and apart, the data would be behind the metadata. -/
theorem Sums.not_laidOut {m : MemoryManager} {base server : ℕ}
    (hsums : Sums m base server (dataBytes DataSize)) (hserver : serverBytes m.ServerCount = server)
    (hpos : 0 < server) (hsize : 0 < dataBytes DataSize) : ¬m.LaidOut DataSize := by
  rintro ⟨hdisjoint, horder, -⟩
  rw [hsums.regions_eq hserver] at hdisjoint horder
  -- the fourth and the fifth region
  have hapart := hdisjoint.of_cons.of_cons.of_cons
  have hsorted := horder.of_cons.of_cons.of_cons
  have hpair := (List.pairwise_cons.mp hapart).1 _ List.mem_cons_self
  have hle := (List.pairwise_cons.mp hsorted).1 _ List.mem_cons_self
  dsimp only at hpair hle
  omega

/-- The layout breaks its law for every number of servers: the metadata and the data overlap, or the
data is in front of the metadata. -/
theorem layout_overlaps (malloc : UInt64 → UInt64) (ServerCount : UInt64) (DataSize : Int32)
    (hServer : 1 ≤ ServerCount.toNat) (hData : 1 ≤ DataSize.toInt)
    (h : NoOverflow malloc ServerCount DataSize) :
    ¬(construct malloc ServerCount DataSize).LaidOut DataSize := by
  have hsums := construct_sums (zero_le_one.trans hData) h
  refine hsums.not_laidOut rfl ?_ ?_
  · rw [serverBytes]
    omega
  · rw [dataBytes]
    omega

/-- The layout of the data server, where `malloc` returns its lowest addresses. -/
theorem layout_overlaps_one :
    ¬(construct (fun _ ↦ 4096) 1 9).LaidOut 9 :=
  layout_overlaps _ 1 9 (by decide) (by decide) (by constructor <;> decide +kernel)

/-- There the last bytes of the metadata are the first ones of the data. -/
theorem layout_shares :
    let m := construct (fun _ ↦ 4096) 1 9
    m.DataBaseAddress + 32768 = m.MetadataBaseAddress + METADATA_SIZE ∧ ¬m.LaidOut 9 := by
  refine ⟨by decide +kernel, fun hlaid ↦ ?_⟩
  have hpair := (List.pairwise_cons.mp hlaid.disjoint.of_cons.of_cons.of_cons).1 _
    List.mem_cons_self
  exact absurd hpair (by decide +kernel)

end MemoryManager

end SwitchDelta.Fs

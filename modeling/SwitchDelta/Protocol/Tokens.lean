import SwitchDelta.Protocol.Machine

/-!
# One message for each waiting coroutine

A message that a coroutine waits for is its token. `TokenOk` is the invariant behind "exactly one
reply": a waiting coroutine has exactly one token on the links, of a kind that its function expects,
and an idle one has none. The only exception is a `kEnumReadLog` for a log position that no data
thread keeps: such a token is dropped and its coroutine waits for good.

`Placed` says on which link each kind of message can be, and `Recorded` relates the messages to the
history. The three together are the invariant `Sound` of every reachable state.
-/

set_option autoImplicit false
set_option relaxedAutoImplicit false

namespace SwitchDelta.Protocol

open Foundation Kv

/-! ### Tokens -/

/-- The tokens of a coroutine. -/
def tokens (net : List (Loc × Item)) (c : CoroId) : List Item :=
  net.filterMap fun p ↦ if p.2.kind.pc ≠ none ∧ p.2.op.coro = c then some p.2 else none

@[simp] theorem tokens_nil (c : CoroId) : tokens [] c = [] := rfl

@[simp] theorem tokens_append (net net' : List (Loc × Item)) (c : CoroId) :
    tokens (net ++ net') c = tokens net c ++ tokens net' c :=
  List.filterMap_append

theorem tokens_cons_self {net : List (Loc × Item)} {ℓ : Loc} {x : Item} {c : CoroId}
    (hpc : x.kind.pc ≠ none) (hc : x.op.coro = c) :
    tokens ((ℓ, x) :: net) c = x :: tokens net c := by
  simp [tokens, hpc, hc]

theorem tokens_cons_of_not {net : List (Loc × Item)} {ℓ : Loc} {x : Item} {c : CoroId}
    (h : x.kind.pc = none ∨ x.op.coro ≠ c) : tokens ((ℓ, x) :: net) c = tokens net c := by
  unfold tokens
  rw [List.filterMap_cons_none]
  exact if_neg fun hboth ↦ h.elim hboth.1 fun hne ↦ hne hboth.2

theorem mem_tokens {net : List (Loc × Item)} {x : Item} {c : CoroId} :
    x ∈ tokens net c ↔ x.kind.pc ≠ none ∧ x.op.coro = c ∧ ∃ ℓ, (ℓ, x) ∈ net := by
  simp only [tokens, List.mem_filterMap, Option.ite_none_right_eq_some, Option.some.injEq]
  constructor
  · rintro ⟨⟨ℓ, y⟩, hp, ⟨hpc, hc⟩, rfl⟩
    exact ⟨hpc, hc, ℓ, hp⟩
  · rintro ⟨hpc, hc, ℓ, hp⟩
    exact ⟨(ℓ, x), hp, ⟨hpc, hc⟩, rfl⟩

/-- The tokens of a coroutine are right for what it waits for. In a lossy system, a coroutine may
wait for a record that no thread keeps. -/
def TokenOk (lossy : Prop) (waiting : Option Waiting) (l : List Item) : Prop :=
  match waiting with
  | none => l = []
  | some w =>
    (∃ x, l = [x] ∧ x.kind.pc = some w.pc ∧ x.op = w.op ∧ (w.pc = .put_index → x.log = w.log)) ∨
      (lossy ∧ w.pc = .get_value ∧ l = [])

/-- Taking a token leaves its coroutine without one. -/
theorem tokens_take_self {lossy : Prop} {net rest : List (Loc × Item)} {ℓ : Loc} {x : Item}
    {w : Option Waiting} (htake : Take net ℓ x rest) (hpc : x.kind.pc ≠ none)
    (hok : TokenOk lossy w (tokens net x.op.coro)) :
    tokens rest x.op.coro = [] ∧ ∃ waiting, w = some waiting ∧ x.kind.pc = some waiting.pc ∧
      x.op = waiting.op ∧ (waiting.pc = .put_index → x.log = waiting.log) := by
  have hperm : (tokens net x.op.coro).Perm (x :: tokens rest x.op.coro) := by
    have h := (htake.perm).filterMap
      fun p ↦ if p.2.kind.pc ≠ none ∧ p.2.op.coro = x.op.coro then some p.2 else none
    rwa [← tokens, ← tokens, tokens_cons_self hpc rfl] at h
  cases w with
  | none =>
    rw [show tokens net x.op.coro = [] from hok] at hperm
    exact absurd hperm.length_eq (by simp)
  | some waiting =>
    rcases hok with ⟨y, hnet, hkind, hop, hlog⟩ | ⟨-, -, hnet⟩
    · rw [hnet] at hperm
      have hlength := hperm.length_eq
      have hrest : tokens rest x.op.coro = [] := by
        simp only [List.length_cons, List.length_nil] at hlength
        exact List.length_eq_zero_iff.mp (by omega)
      rw [hrest] at hperm
      obtain rfl : y = x := List.singleton_perm_singleton.mp hperm
      exact ⟨hrest, waiting, rfl, hkind, hop, hlog⟩
    · rw [hnet] at hperm
      exact absurd hperm.length_eq (by simp)

theorem tokens_take_of_ne {net rest : List (Loc × Item)} {ℓ : Loc} {x : Item} {c : CoroId}
    (htake : Take net ℓ x rest) (h : x.kind.pc = none ∨ x.op.coro ≠ c) :
    tokens rest c = tokens net c := by
  refine htake.filterMap ?_
  exact if_neg fun hboth ↦ h.elim hboth.1 fun hne ↦ hne hboth.2

/-- Every coroutine has the tokens it should have. -/
def PState.TokensOk (lossy : Prop) (π : PState) : Prop :=
  ∀ c, TokenOk lossy (π.phase c) (tokens π.net c)

/-! ### Places -/

/-- The links on which an item can be. -/
def Placed (M : Layout) (ℓ : Loc) (x : Item) : Prop :=
  match x.kind with
  | .appendReq => ℓ = .up ∨ ℓ = .dnIn (M.dataThread x.op.key)
  | .appendReply => ℓ = .dnOut (M.dataThread x.op.key) ∨ ℓ = x.home
  | .copy => ℓ = .ixIn (M.copyThread x.op.key) ∨ ℓ = .ixBatch (M.copyThread x.op.key)
  | .answer | .readHit => ℓ = x.home
  | .replySwitch => ℓ = .ixOut (M.copyThread x.op.key)
  | .updateReq | .readReq => ℓ = .up ∨ ℓ = .ixIn (M.indexThread x.op.key) ∨
      ℓ = .ixBatch (M.indexThread x.op.key)
  | .updateReply | .readReply => ℓ = .ixOut (M.indexThread x.op.key) ∨ ℓ = x.home
  | .readLog => ℓ = .up ∨ ∃ t, M.logThread x.log = some t ∧ ℓ = .dnIn t
  | .logReply => (∃ t, ℓ = .dnOut t) ∨ ℓ = x.home
  | .probe => ℓ = .up ∨ ℓ = x.home

/-! ### The history -/

/-- What the history says about an item. -/
def Recorded (hist : List (Event OpId UInt64)) (x : Item) : Prop :=
  match x.kind with
  | .appendReq => .invokeWrite x.op ∈ hist ∧ ¬ Responded hist x.op ∧ ∀ v, .assign x.op v ∉ hist
  | .appendReply | .answer | .updateReq | .updateReply =>
    .assign x.op x.log ∈ hist ∧ ¬ Responded hist x.op
  | .copy => .assign x.op x.log ∈ hist
  | .readReq | .readHit | .readReply => .invokeRead x.op ∈ hist ∧ ¬ Responded hist x.op
  | _ => True

/-- Some log position in the system belongs to no data thread. -/
def Lossy (M : Layout) (D : Discipline) : Prop :=
  ∃ log, D.Issues log ∧ M.logThread log = none

/-- The invariant of the reachable states. -/
structure PState.Sound (M : Layout) (D : Discipline) (π : PState) : Prop where
  tokens : π.TokensOk (Lossy M D)
  placed : ∀ ℓ x, (ℓ, x) ∈ π.net → Placed M ℓ x
  recorded : ∀ ℓ x, (ℓ, x) ∈ π.net → Recorded π.hist x
  item_key : ∀ ℓ x, (ℓ, x) ∈ π.net → x.op.key ∈ M.keys
  item_coro : ∀ ℓ x, (ℓ, x) ∈ π.net → M.HasCoro x.op.coro
  slot_owner : ∀ s w log, π.slot s = some (w, log) →
    s = M.slot w.key ∧ w.key ∈ M.keys ∧ .assign w log ∈ π.hist
  hist_seq : ∀ e ∈ π.hist, e.op.seq ≤ π.seq e.op.coro
  item_log : ∀ ℓ x, (ℓ, x) ∈ π.net → D.Issues x.log
  slot_log : ∀ s w log, π.slot s = some (w, log) → D.Issues log
  index_log : ∀ k ∈ M.keys, D.Issues (π.index k)

variable {M : Layout} {D : Discipline} {π π' : PState} {action : Action} {lossy : Prop}

/-! ### Tokens are kept -/

/-- A coroutine without a token gets one. -/
theorem PState.TokensOk.begin (h : π.TokensOk lossy) {ℓ : Loc} {y : Item} {w : Waiting}
    (hidle : π.phase y.op.coro = none) (hpc : y.kind.pc = some w.pc) (hop : y.op = w.op)
    (hlog : w.pc = .put_index → y.log = w.log) (hnet : π'.net = π.net ++ [(ℓ, y)])
    (hphase : π'.phase = Function.update π.phase y.op.coro (some w)) : π'.TokensOk lossy := by
  intro c
  have hne : y.kind.pc ≠ none := by simp [hpc]
  have hc := h c
  rw [hnet, hphase, tokens_append]
  by_cases hcoro : y.op.coro = c
  · subst hcoro
    rw [hidle] at hc
    rw [Function.update_self, show tokens π.net y.op.coro = [] from hc, tokens_cons_self hne rfl]
    exact Or.inl ⟨y, rfl, hpc, hop, hlog⟩
  · rw [Function.update_of_ne (Ne.symm hcoro), tokens_cons_of_not (Or.inr hcoro), tokens_nil,
      List.append_nil]
    exact hc

/-- A token becomes another one of the same function and operation. -/
theorem PState.TokensOk.move (h : π.TokensOk lossy) {ℓ ℓ' : Loc} {x y : Item}
    {rest : List (Loc × Item)} (extra : List (Loc × Item)) (htake : Take π.net ℓ x rest)
    (hpc : x.kind.pc ≠ none) (hkind : y.kind.pc = x.kind.pc) (hop : y.op = x.op)
    (hlog : y.kind.pc = some .put_index → y.log = x.log)
    (hextra : ∀ p ∈ extra, p.2.kind.pc = none) (hnet : π'.net = rest ++ extra ++ [(ℓ', y)])
    (hphase : π'.phase = π.phase) : π'.TokensOk lossy := by
  intro c
  have hdetached : tokens extra c = [] :=
    List.filterMap_eq_nil_iff.mpr fun p hp ↦ if_neg fun hboth ↦ hboth.1 (hextra p hp)
  rw [hnet, hphase, tokens_append, tokens_append, hdetached, List.append_nil]
  by_cases hcoro : x.op.coro = c
  · subst hcoro
    obtain ⟨hrest, w, hw, hwpc, hwop, hwlog⟩ := tokens_take_self htake hpc (h x.op.coro)
    rw [hrest, hw, tokens_cons_self (hkind ▸ hpc) (by rw [hop]), tokens_nil]
    refine Or.inl ⟨y, rfl, hkind.trans hwpc, hop.trans hwop, fun hput ↦ ?_⟩
    rw [hlog (by rw [hkind, hwpc, hput]), hwlog hput]
  · rw [tokens_take_of_ne htake (Or.inr hcoro), tokens_cons_of_not (Or.inr (by rwa [hop])),
      tokens_nil, List.append_nil]
    exact h c

/-- A token moves on, alone. -/
theorem PState.TokensOk.relocate (h : π.TokensOk lossy) {ℓ ℓ' : Loc} {x y : Item}
    {rest : List (Loc × Item)} (htake : Take π.net ℓ x rest) (hnet : π'.net = rest ++ [(ℓ', y)])
    (hphase : π'.phase = π.phase) (hpc : x.kind.pc ≠ none) (hkind : y.kind.pc = x.kind.pc)
    (hop : y.op = x.op) (hlog : y.kind.pc = some .put_index → y.log = x.log) : π'.TokensOk lossy :=
  h.move [] htake hpc hkind hop hlog (by simp) (by simpa using hnet) hphase

/-- A message that nobody waits for comes, goes or changes. -/
theorem PState.TokensOk.detached (h : π.TokensOk lossy) {ℓ : Loc} {x : Item}
    {rest : List (Loc × Item)} (extra : List (Loc × Item)) (htake : Take π.net ℓ x rest)
    (hpc : x.kind.pc = none) (hextra : ∀ p ∈ extra, p.2.kind.pc = none) (hnet : π'.net = rest ++ extra)
    (hphase : π'.phase = π.phase) : π'.TokensOk lossy := by
  intro c
  have hdetached : tokens extra c = [] :=
    List.filterMap_eq_nil_iff.mpr fun p hp ↦ if_neg fun hboth ↦ hboth.1 (hextra p hp)
  rw [hnet, hphase, tokens_append, hdetached, List.append_nil,
    tokens_take_of_ne htake (Or.inl hpc)]
  exact h c

/-- A token ends the wait of its coroutine, which may send another one. -/
theorem PState.TokensOk.deliver (h : π.TokensOk lossy) {ℓ : Loc} {x : Item}
    {rest : List (Loc × Item)} {w : Option Waiting} (new : List (Loc × Item))
    (htake : Take π.net ℓ x rest) (hpc : x.kind.pc ≠ none)
    (hnew : TokenOk lossy w (tokens new x.op.coro)) (hother : ∀ p ∈ new, p.2.op.coro = x.op.coro)
    (hnet : π'.net = rest ++ new) (hphase : π'.phase = Function.update π.phase x.op.coro w) :
    π'.TokensOk lossy := by
  intro c
  rw [hnet, hphase, tokens_append]
  by_cases hcoro : x.op.coro = c
  · subst hcoro
    rw [(tokens_take_self htake hpc (h x.op.coro)).1, Function.update_self, List.nil_append]
    exact hnew
  · have hnone : tokens new c = [] := List.filterMap_eq_nil_iff.mpr fun p hp ↦
      if_neg fun hboth ↦ hcoro ((hother p hp).symm.trans hboth.2)
    rw [hnone, List.append_nil, Function.update_of_ne (Ne.symm hcoro),
      tokens_take_of_ne htake (Or.inr hcoro)]
    exact h c

theorem Item.reply_pc {x : Item} {index : KvKeyType → UInt64} :
    (x.reply index).kind.pc = x.kind.pc := by
  unfold Item.reply
  split <;> simp_all [Kind.pc]

theorem Item.reply_op {x : Item} {index : KvKeyType → UInt64} : (x.reply index).op = x.op := by
  unfold Item.reply
  split <;> rfl

theorem Item.reply_log {x : Item} {index : KvKeyType → UInt64}
    (hput : x.kind.pc = some .put_index) : (x.reply index).log = x.log := by
  unfold Item.reply
  split <;> simp_all [Kind.pc]

/-- The tokens among the replies to a batch are the replies to the tokens in it. -/
theorem tokens_replies (net : List (Loc × Item)) (ℓ ℓ' : Loc) (index : KvKeyType → UInt64)
    (c : CoroId) :
    tokens ((queue net ℓ).map fun x ↦ (ℓ', x.reply index)) c =
      (tokens (net.filter fun p ↦ p.1 = ℓ) c).map (Item.reply index) := by
  induction net with
  | nil => rfl
  | cons p net ih =>
    obtain ⟨ℓ₀, x⟩ := p
    by_cases hℓ : ℓ₀ = ℓ
    · subst hℓ
      rw [queue_cons_self, List.map_cons, List.filter_cons_of_pos (by simp)]
      by_cases htoken : x.kind.pc ≠ none ∧ x.op.coro = c
      · rw [tokens_cons_self (by rw [Item.reply_pc]; exact htoken.1)
          (by rw [Item.reply_op]; exact htoken.2), tokens_cons_self htoken.1 htoken.2, ih,
          List.map_cons]
      · have hnot : x.kind.pc = none ∨ x.op.coro ≠ c := by
          rw [not_and_or, not_not] at htoken
          exact htoken
        rw [tokens_cons_of_not (by rwa [Item.reply_pc, Item.reply_op]), tokens_cons_of_not hnot,
          ih]
    · rw [queue_cons_of_ne hℓ, List.filter_cons_of_neg (by simpa using hℓ), ih]

/-- A batch is answered in place. -/
theorem PState.TokensOk.flush (h : π.TokensOk lossy) {t : UInt8} {index : KvKeyType → UInt64}
    (hnet : π'.net = π.net.filter (fun p ↦ p.1 ≠ .ixBatch t) ++
      (queue π.net (.ixBatch t)).map fun x ↦ (.ixOut t, x.reply index))
    (hphase : π'.phase = π.phase) : π'.TokensOk lossy := by
  intro c
  have hperm : (tokens (π.net.filter fun p ↦ p.1 = .ixBatch t) c ++
      tokens (π.net.filter fun p ↦ p.1 ≠ .ixBatch t) c).Perm (tokens π.net c) := by
    rw [← tokens_append]
    refine List.Perm.filterMap _ ?_
    have hsplit := List.filter_append_perm (fun p : Loc × Item ↦ decide (p.1 = .ixBatch t)) π.net
    simpa using hsplit
  have hc := h c
  rw [hnet, hphase, tokens_append, tokens_replies]
  cases hw : π.phase c with
  | none =>
    rw [hw] at hc
    rw [show tokens π.net c = [] from hc, List.perm_nil, List.append_eq_nil_iff] at hperm
    rw [hperm.1, hperm.2]
    rfl
  | some w =>
    rw [hw] at hc
    rcases hc with ⟨x, hx, hkind, hop, hlog⟩ | ⟨hlossy, hpc, hnone⟩
    · rw [hx, List.perm_singleton, List.append_eq_singleton_iff] at hperm
      rcases hperm with ⟨hbatch, hother⟩ | ⟨hbatch, hother⟩
      · rw [hbatch, hother]
        exact Or.inl ⟨x, rfl, hkind, hop, hlog⟩
      · rw [hbatch, hother]
        refine Or.inl ⟨x.reply index, rfl, Item.reply_pc.trans hkind, Item.reply_op.trans hop,
          fun hput ↦ ?_⟩
        rw [Item.reply_log (hkind.trans (by rw [hput])), hlog hput]
    · rw [hnone, List.perm_nil, List.append_eq_nil_iff] at hperm
      rw [hperm.1, hperm.2]
      exact Or.inr ⟨hlossy, hpc, rfl⟩

/-- The switch passes on tokens only. -/
theorem Passes.pc_ne_none {ℓ ℓ' : Loc} {x : Item} (h : Passes M D π ℓ x ℓ') :
    x.kind.pc ≠ none := by
  cases h <;> simp_all [Kind.pc]

/-- What arrives at a client is a token. -/
theorem Placed.pc_ne_none_of_home {x : Item} (h : Placed M x.home x) : x.kind.pc ≠ none := by
  unfold Placed Item.home at h
  split at h <;> simp_all [Kind.pc]

theorem Item.next_eq_some {x y : Item} (h : x.next = some y) :
    (x.kind = .appendReply ∧ y = { x with kind := .updateReq }) ∨
      ((x.kind = .readHit ∨ x.kind = .readReply) ∧ x.log ≠ 0xFFFFFFFF ∧
        y = { x with kind := .readLog, ts := 0 }) := by
  unfold Item.next at h
  split at h
  · rename_i hkind
    exact Or.inl ⟨hkind, (Option.some.inj h).symm⟩
  · rename_i hkind
    split_ifs at h with hlog
    exact Or.inr ⟨Or.inl hkind, hlog, (Option.some.inj h).symm⟩
  · rename_i hkind
    split_ifs at h with hlog
    exact Or.inr ⟨Or.inr hkind, hlog, (Option.some.inj h).symm⟩
  · exact absurd h (by simp)

theorem Item.next_op {x y : Item} (h : x.next = some y) : y.op = x.op := by
  rcases Item.next_eq_some h with ⟨-, rfl⟩ | ⟨-, -, rfl⟩ <;> rfl

/-- Every step keeps one token for each waiting coroutine. -/
theorem PState.Sound.tokens_step (h : π.Sound M D) (hstep : PStep M D π action π') :
    π'.TokensOk (Lossy M D) := by
  have hplaced {ℓ : Loc} {x : Item} {rest : List (Loc × Item)} (htake : Take π.net ℓ x rest) :=
    h.placed ℓ x htake.mem
  cases hstep with
  | write _ hidle _ => exact h.tokens.begin hidle rfl rfl (by simp) rfl rfl
  | read _ hidle _ => exact h.tokens.begin hidle rfl rfl (by simp) rfl rfl
  | probe _ hidle _ => exact h.tokens.begin hidle rfl rfl (by simp) rfl rfl
  | passUp htake hpass =>
    exact h.tokens.relocate htake rfl rfl hpass.pc_ne_none rfl rfl fun _ ↦ rfl
  | passOut _ htake hpass =>
    exact h.tokens.relocate htake.take rfl rfl hpass.pc_ne_none rfl rfl fun _ ↦ rfl
  | @lose x rest htake hkind hthread =>
    intro c
    by_cases hcoro : x.op.coro = c
    · subst hcoro
      obtain ⟨hrest, w, hw, hwpc, -, -⟩ :=
        tokens_take_self htake (by simp [hkind, Kind.pc]) (h.tokens x.op.coro)
      have hget : w.pc = .get_value := by
        rw [hkind] at hwpc
        exact (Option.some.inj hwpc).symm
      change TokenOk (Lossy M D) (π.phase x.op.coro) (Protocol.tokens rest x.op.coro)
      rw [hw, hrest]
      exact Or.inr ⟨⟨x.log, h.item_log _ _ htake.mem, hthread⟩, hget, rfl⟩
    · change TokenOk (Lossy M D) (π.phase c) (Protocol.tokens rest c)
      rw [tokens_take_of_ne htake (Or.inr hcoro)]
      exact h.tokens c
  | @install x t rest htake hkind _ =>
    have hnet : rest ++ [(Loc.ixIn (M.copyThread x.op.key), { x with kind := .copy }),
        (x.home, { x with kind := .answer })] =
        rest ++ [(Loc.ixIn (M.copyThread x.op.key), { x with kind := .copy })] ++
          [(x.home, { x with kind := .answer })] := by simp
    refine h.tokens.move (y := { x with kind := .answer }) _ htake.take (by simp [hkind, Kind.pc])
      (by simp [hkind, Kind.pc]) rfl (fun _ ↦ rfl) ?_ hnet rfl
    simp [Kind.pc]
  | hit htake hkind _ _ =>
    exact h.tokens.relocate htake rfl rfl (by simp [hkind, Kind.pc]) (by simp [hkind, Kind.pc]) rfl
      (by simp [Kind.pc])
  | clear htake hkind _ =>
    exact h.tokens.detached [] htake.take (by simp [hkind, Kind.pc]) (by simp)
      (by simp) rfl
  | keep htake hkind _ =>
    exact h.tokens.detached [] htake.take (by simp [hkind, Kind.pc]) (by simp)
      (by simp) rfl
  | append htake hkind =>
    exact h.tokens.relocate htake rfl rfl (by simp [hkind, Kind.pc]) (by simp [hkind, Kind.pc]) rfl
      (by simp [Kind.pc])
  | serveLog htake hkind =>
    exact h.tokens.relocate htake rfl rfl (by simp [hkind, Kind.pc]) (by simp [hkind, Kind.pc]) rfl
      fun _ ↦ rfl
  | @serve x t index rest htake hkind _ =>
    by_cases hpc : x.kind.pc = none
    · exact h.tokens.detached [(.ixOut t, x.reply index)] htake.take hpc
        (by simpa [Item.reply_pc] using hpc) rfl rfl
    · exact h.tokens.relocate htake.take rfl rfl hpc Item.reply_pc Item.reply_op
        fun hput ↦ Item.reply_log (Item.reply_pc.symm.trans hput)
  | @collect x t rest htake hkind =>
    by_cases hpc : x.kind.pc = none
    · exact h.tokens.detached [(.ixBatch t, x)] htake.take hpc (by simpa using hpc) rfl
        rfl
    · exact h.tokens.relocate htake.take rfl rfl hpc rfl rfl fun _ ↦ rfl
  | flush _ => exact h.tokens.flush rfl rfl
  | finish htake _ =>
    exact h.tokens.deliver (w := none) [] htake (hplaced htake).pc_ne_none_of_home rfl
      (by simp) (by simp) rfl
  | @goOn x y pc rest htake hnext hpc =>
    have hop := Item.next_op hnext
    refine h.tokens.deliver [(.up, y)] htake (hplaced htake).pc_ne_none_of_home ?_
      (by simp [hop]) rfl rfl
    rw [tokens_cons_self (by simp [hpc]) (by rw [hop]), tokens_nil]
    exact Or.inl ⟨y, rfl, hpc, rfl, fun _ ↦ rfl⟩

/-! ### Places are kept -/

theorem Passes.placed {ℓ ℓ' : Loc} {x : Item} (h : Passes M D π ℓ x ℓ') : Placed M ℓ' x := by
  unfold Placed
  cases h <;> simp_all

theorem Placed.atIndex {t : UInt8} {x : Item} (h : Placed M (.ixIn t) x ∨ Placed M (.ixBatch t) x) :
    x.kind.AtIndex := by
  unfold Placed Item.home at h
  unfold Kind.AtIndex
  cases hkind : x.kind <;> simp_all

/-- What is on a link to a client thread is at home there. -/
theorem Placed.home_of_down {server_id thread_id : UInt8} {x : Item}
    (h : Placed M (.down server_id thread_id) x) : Loc.down server_id thread_id = x.home := by
  unfold Placed at h
  cases hkind : x.kind <;> simp_all

theorem Placed.collect {t : UInt8} {x : Item} (h : Placed M (.ixIn t) x) :
    Placed M (.ixBatch t) x := by
  unfold Placed Item.home at *
  cases hkind : x.kind <;> simp_all

theorem Placed.reply {t : UInt8} {x : Item} (h : Placed M (.ixIn t) x ∨ Placed M (.ixBatch t) x)
    (index : KvKeyType → UInt64) : Placed M (.ixOut t) (x.reply index) := by
  unfold Placed Item.home at *
  unfold Item.reply
  cases hkind : x.kind <;> simp_all

theorem Item.next_placed {x y : Item} (h : x.next = some y) : Placed M .up y := by
  rcases Item.next_eq_some h with ⟨-, rfl⟩ | ⟨-, -, rfl⟩ <;> simp [Placed]

/-- The items after a step are items from before it, and items on the right links. -/
theorem PState.Sound.placed_step (h : π.Sound M D) (hstep : PStep M D π action π') (ℓ : Loc) (y : Item)
    (hy : (ℓ, y) ∈ π'.net) : Placed M ℓ y := by
  have hrest {ℓ₀ : Loc} {x : Item} {rest : List (Loc × Item)} (htake : Take π.net ℓ₀ x rest)
      (hmem : (ℓ, y) ∈ rest) : Placed M ℓ y := h.placed ℓ y (htake.mem_of_mem hmem)
  cases hstep with
  | write | read | probe =>
    rcases List.mem_append.mp hy with hy | hy
    · exact h.placed ℓ y hy
    · obtain ⟨rfl, rfl⟩ : ℓ = .up ∧ y = _ := by simpa using hy
      simp [Placed]
  | passUp htake hpass =>
    rcases List.mem_append.mp hy with hy | hy
    · exact hrest htake hy
    · obtain ⟨rfl, rfl⟩ := Prod.mk.inj (List.mem_singleton.mp hy)
      exact hpass.placed
  | passOut _ htake hpass =>
    rcases List.mem_append.mp hy with hy | hy
    · exact hrest htake.take hy
    · obtain ⟨rfl, rfl⟩ := Prod.mk.inj (List.mem_singleton.mp hy)
      exact hpass.placed
  | lose htake => exact hrest htake hy
  | install htake hkind =>
    simp only [List.mem_append, List.mem_cons, List.not_mem_nil, or_false, Prod.mk.injEq] at hy
    rcases hy with hy | ⟨rfl, rfl⟩ | ⟨rfl, rfl⟩
    · exact hrest htake.take hy
    · simp [Placed]
    · simp [Placed, Item.home]
  | hit htake =>
    rcases List.mem_append.mp hy with hy | hy
    · exact hrest htake hy
    · obtain ⟨rfl, rfl⟩ := Prod.mk.inj (List.mem_singleton.mp hy)
      simp [Placed, Item.home]
  | clear htake => exact hrest htake.take hy
  | keep htake => exact hrest htake.take hy
  | append htake hkind =>
    rcases List.mem_append.mp hy with hy | hy
    · exact hrest htake hy
    · obtain ⟨rfl, rfl⟩ := Prod.mk.inj (List.mem_singleton.mp hy)
      have hplaced := h.placed _ _ htake.mem
      simp only [Placed, hkind, reduceCtorEq, Loc.dnIn.injEq, false_or] at hplaced
      simp [Placed, hplaced]
  | serveLog htake =>
    rcases List.mem_append.mp hy with hy | hy
    · exact hrest htake hy
    · obtain ⟨rfl, rfl⟩ := Prod.mk.inj (List.mem_singleton.mp hy)
      simp [Placed]
  | serve htake =>
    rcases List.mem_append.mp hy with hy | hy
    · exact hrest htake.take hy
    · obtain ⟨rfl, rfl⟩ := Prod.mk.inj (List.mem_singleton.mp hy)
      exact Placed.reply (Or.inl (h.placed _ _ htake.take.mem)) _
  | collect htake =>
    rcases List.mem_append.mp hy with hy | hy
    · exact hrest htake.take hy
    · obtain ⟨rfl, rfl⟩ := Prod.mk.inj (List.mem_singleton.mp hy)
      exact (h.placed _ _ htake.take.mem).collect
  | flush =>
    rcases List.mem_append.mp hy with hy | hy
    · exact h.placed ℓ y (List.mem_of_mem_filter hy)
    · obtain ⟨x, hx, heq⟩ := List.mem_map.mp hy
      obtain ⟨rfl, rfl⟩ := Prod.mk.inj heq
      exact Placed.reply (Or.inr (h.placed _ _ (mem_queue.mp hx))) _
  | finish htake => exact hrest htake hy
  | goOn htake hnext =>
    rcases List.mem_append.mp hy with hy | hy
    · exact hrest htake hy
    · obtain ⟨rfl, rfl⟩ := Prod.mk.inj (List.mem_singleton.mp hy)
      exact Item.next_placed hnext

/-! ### The operations of the items -/

/-- An item after a step belongs to an operation that had an item before it, or to a new one. -/
theorem PStep.item_origin (hstep : PStep M D π action π') {ℓ : Loc} {y : Item} (hy : (ℓ, y) ∈ π'.net) :
    (∃ ℓ₀ x, (ℓ₀, x) ∈ π.net ∧ x.op = y.op) ∨
      (M.HasCoro y.op.coro ∧ y.op.key ∈ M.keys ∧ π.phase y.op.coro = none) := by
  have hold {ℓ₀ : Loc} {x : Item} {rest new : List (Loc × Item)} (htake : Take π.net ℓ₀ x rest)
      (hnew : ∀ p ∈ new, p.2.op = x.op) (hy : (ℓ, y) ∈ rest ++ new) :
      ∃ ℓ₀ x, (ℓ₀, x) ∈ π.net ∧ x.op = y.op := by
    rcases List.mem_append.mp hy with hy | hy
    · exact ⟨ℓ, y, htake.mem_of_mem hy, rfl⟩
    · exact ⟨ℓ₀, x, htake.mem, (hnew _ hy).symm⟩
  cases hstep with
  | write hcoro hidle hkey | read hcoro hidle hkey | probe hcoro hidle hkey =>
    rcases List.mem_append.mp hy with hy | hy
    · exact Or.inl ⟨ℓ, y, hy, rfl⟩
    · obtain ⟨-, rfl⟩ := Prod.mk.inj (List.mem_singleton.mp hy)
      exact Or.inr ⟨hcoro, hkey, hidle⟩
  | passUp htake => exact Or.inl (hold htake (by simp) hy)
  | passOut _ htake => exact Or.inl (hold htake.take (by simp) hy)
  | lose htake => exact Or.inl ⟨ℓ, y, htake.mem_of_mem hy, rfl⟩
  | install htake => exact Or.inl (hold htake.take (by simp) hy)
  | hit htake => exact Or.inl (hold htake (by simp) hy)
  | clear htake => exact Or.inl ⟨ℓ, y, htake.take.mem_of_mem hy, rfl⟩
  | keep htake => exact Or.inl ⟨ℓ, y, htake.take.mem_of_mem hy, rfl⟩
  | append htake => exact Or.inl (hold htake (by simp) hy)
  | serveLog htake => exact Or.inl (hold htake (by simp) hy)
  | serve htake => exact Or.inl (hold htake.take (by simp [Item.reply_op]) hy)
  | collect htake => exact Or.inl (hold htake.take (by simp) hy)
  | flush =>
    rcases List.mem_append.mp hy with hy | hy
    · exact Or.inl ⟨ℓ, y, List.mem_of_mem_filter hy, rfl⟩
    · obtain ⟨x, hx, heq⟩ := List.mem_map.mp hy
      obtain ⟨-, rfl⟩ := Prod.mk.inj heq
      exact Or.inl ⟨_, x, mem_queue.mp hx, Item.reply_op.symm⟩
  | finish htake => exact Or.inl ⟨ℓ, y, htake.mem_of_mem hy, rfl⟩
  | goOn htake hnext => exact Or.inl (hold htake (by simpa using Item.next_op hnext) hy)

/-! ### The history is kept -/

/-- New events keep what the history says about an item, unless they respond to it or assign its
value. -/
theorem Recorded.append {hist events : List (Event OpId UInt64)} {x : Item}
    (h : Recorded hist x)
    (hresponds : x.kind.pc ≠ none → ∀ e ∈ events, e.responded ≠ some x.op)
    (hassigns : x.kind = .appendReq → ∀ v, .assign x.op v ∉ events) :
    Recorded (hist ++ events) x := by
  have hpending (hpc : x.kind.pc ≠ none) (hnot : ¬ Responded hist x.op) :
      ¬ Responded (hist ++ events) x.op := by
    rintro ⟨e, he, heq⟩
    rcases List.mem_append.mp he with he | he
    · exact hnot ⟨e, he, heq⟩
    · exact hresponds hpc e he heq
  unfold Recorded at *
  cases hkind : x.kind <;> simp only [hkind, Kind.pc, ne_eq, reduceCtorEq, not_false_eq_true,
    forall_const, not_true_eq_false, false_implies] at * <;> try trivial
  case appendReq =>
    refine ⟨List.mem_append_left _ h.1, hpending h.2.1, fun v hv ↦ ?_⟩
    rcases List.mem_append.mp hv with hv | hv
    · exact h.2.2 v hv
    · exact hassigns v hv
  case copy => exact List.mem_append_left _ h
  all_goals exact ⟨List.mem_append_left _ h.1, hpending h.2⟩

/-- After its token is taken, no other item of a coroutine is a token. -/
theorem PState.Sound.pc_eq_none_of_take (h : π.Sound M D) {ℓ ℓ' : Loc} {x y : Item}
    {rest : List (Loc × Item)} (htake : Take π.net ℓ x rest) (hpc : x.kind.pc ≠ none)
    (hy : (ℓ', y) ∈ rest) (hcoro : y.op.coro = x.op.coro) : y.kind.pc = none := by
  by_contra hypc
  have hnone := (tokens_take_self htake hpc (h.tokens x.op.coro)).1
  have hmem : y ∈ Protocol.tokens rest x.op.coro := mem_tokens.mpr ⟨hypc, hcoro, ℓ', hy⟩
  rw [hnone] at hmem
  simp at hmem

theorem Item.response_op {x : Item} {e : Event OpId UInt64} (he : e ∈ x.response) :
    e.op = x.op := by
  unfold Item.response at he
  split at he <;> simp_all [Event.op]

theorem Event.op_eq_of_responded {e : Event OpId UInt64} {o : OpId}
    (h : e.responded = some o) : e.op = o := by
  cases e <;> simp_all [Event.responded, Event.op]

theorem Item.assign_notMem_response {x : Item} {o : OpId} {v : UInt64} :
    .assign o v ∉ x.response := by
  unfold Item.response
  split <;> simp

/-- The items that stay on the links while a token is delivered stay recorded. -/
theorem PState.Sound.recorded_of_deliver (h : π.Sound M D) {ℓ ℓ' : Loc} {x y : Item}
    {rest : List (Loc × Item)} (htake : Take π.net ℓ x rest) (hpc : x.kind.pc ≠ none)
    (hy : (ℓ', y) ∈ rest) : Recorded (π.hist ++ x.response) y := by
  refine (h.recorded ℓ' y (htake.mem_of_mem hy)).append (fun hypc e he heq ↦ ?_)
    fun _ v hv ↦ Item.assign_notMem_response hv
  have hop : y.op = x.op := (Event.op_eq_of_responded heq).symm.trans (Item.response_op he)
  exact hypc (h.pc_eq_none_of_take htake hpc hy (by rw [hop]))

theorem Recorded.reply {hist : List (Event OpId UInt64)} {x : Item} (h : Recorded hist x)
    (index : KvKeyType → UInt64) : Recorded hist (x.reply index) := by
  unfold Recorded at *
  unfold Item.reply
  cases hkind : x.kind <;> simp_all

/-- Every step keeps the items recorded. -/
theorem PState.Sound.recorded_step (h : π.Sound M D) (hstep : PStep M D π action π') (ℓ : Loc) (y : Item)
    (hy : (ℓ, y) ∈ π'.net) : Recorded π'.hist y := by
  have hrest {ℓ₀ : Loc} {x : Item} {rest : List (Loc × Item)} (htake : Take π.net ℓ₀ x rest)
      (hmem : (ℓ, y) ∈ rest) : Recorded π.hist y := h.recorded ℓ y (htake.mem_of_mem hmem)
  have hfresh (c : CoroId) (k : KvKeyType) : ∀ e ∈ π.hist, e.op ≠ ⟨c, π.seq c + 1, k⟩ := by
    intro e he heq
    have hle := h.hist_seq e he
    rw [heq] at hle
    simp at hle
  have hpending (c : CoroId) (k : KvKeyType) (e : Event OpId UInt64) (he : e.responded = none) :
      ¬ Responded (π.hist ++ [e]) ⟨c, π.seq c + 1, k⟩ := by
    rw [responded_concat, he]
    rintro (⟨e', he', heq⟩ | heq)
    · exact hfresh c k e' he' (Event.op_eq_of_responded heq)
    · exact absurd heq (by simp)
  cases hstep with
  | @write c k =>
    rcases List.mem_append.mp hy with hy | hy
    · exact (h.recorded ℓ y hy).append (by simp [Event.responded]) (by simp)
    · obtain ⟨rfl, rfl⟩ := Prod.mk.inj (List.mem_singleton.mp hy)
      refine ⟨by simp, hpending c k _ rfl, fun v hv ↦ ?_⟩
      exact hfresh c k _ (by simpa using hv) rfl
  | @read c k =>
    rcases List.mem_append.mp hy with hy | hy
    · exact (h.recorded ℓ y hy).append (by simp [Event.responded]) (by simp)
    · obtain ⟨rfl, rfl⟩ := Prod.mk.inj (List.mem_singleton.mp hy)
      exact ⟨by simp, hpending c k _ rfl⟩
  | probe =>
    rcases List.mem_append.mp hy with hy | hy
    · exact h.recorded ℓ y hy
    · obtain ⟨rfl, rfl⟩ := Prod.mk.inj (List.mem_singleton.mp hy)
      trivial
  | passUp htake =>
    rcases List.mem_append.mp hy with hy | hy
    · exact hrest htake hy
    · obtain ⟨rfl, rfl⟩ := Prod.mk.inj (List.mem_singleton.mp hy)
      exact h.recorded _ _ htake.mem
  | passOut _ htake =>
    rcases List.mem_append.mp hy with hy | hy
    · exact hrest htake.take hy
    · obtain ⟨rfl, rfl⟩ := Prod.mk.inj (List.mem_singleton.mp hy)
      exact h.recorded _ _ htake.take.mem
  | lose htake => exact hrest htake hy
  | install htake hkind =>
    have hx := h.recorded _ _ htake.take.mem
    simp only [Recorded, hkind] at hx
    simp only [List.mem_append, List.mem_cons, List.not_mem_nil, or_false, Prod.mk.injEq] at hy
    rcases hy with hy | ⟨rfl, rfl⟩ | ⟨rfl, rfl⟩
    · exact hrest htake.take hy
    · exact hx.1
    · exact hx
  | hit htake hkind =>
    have hx := h.recorded _ _ htake.mem
    simp only [Recorded, hkind] at hx
    rcases List.mem_append.mp hy with hy | hy
    · exact hrest htake hy
    · obtain ⟨rfl, rfl⟩ := Prod.mk.inj (List.mem_singleton.mp hy)
      exact hx
  | clear htake => exact hrest htake.take hy
  | keep htake => exact hrest htake.take hy
  | @append x t log rest htake hkind =>
    have hx := h.recorded _ _ htake.mem
    simp only [Recorded, hkind] at hx
    rcases List.mem_append.mp hy with hy | hy
    · refine (hrest htake hy).append (by simp [Event.responded]) fun hyreq v hv ↦ ?_
      have hop : y.op = x.op := by simpa using (Event.assign.inj (List.mem_singleton.mp hv)).1
      have hnone := h.pc_eq_none_of_take htake (by simp [hkind, Kind.pc]) hy (by rw [hop])
      simp [hyreq, Kind.pc] at hnone
    · obtain ⟨rfl, rfl⟩ := Prod.mk.inj (List.mem_singleton.mp hy)
      refine ⟨by simp, ?_⟩
      rw [responded_concat]
      simpa [Event.responded] using hx.2.1
  | serveLog htake =>
    rcases List.mem_append.mp hy with hy | hy
    · exact hrest htake hy
    · obtain ⟨rfl, rfl⟩ := Prod.mk.inj (List.mem_singleton.mp hy)
      trivial
  | serve htake =>
    rcases List.mem_append.mp hy with hy | hy
    · exact hrest htake.take hy
    · obtain ⟨rfl, rfl⟩ := Prod.mk.inj (List.mem_singleton.mp hy)
      exact (h.recorded _ _ htake.take.mem).reply _
  | collect htake =>
    rcases List.mem_append.mp hy with hy | hy
    · exact hrest htake.take hy
    · obtain ⟨rfl, rfl⟩ := Prod.mk.inj (List.mem_singleton.mp hy)
      exact h.recorded _ _ htake.take.mem
  | flush =>
    rcases List.mem_append.mp hy with hy | hy
    · exact h.recorded ℓ y (List.mem_of_mem_filter hy)
    · obtain ⟨x, hx, heq⟩ := List.mem_map.mp hy
      obtain ⟨rfl, rfl⟩ := Prod.mk.inj heq
      exact (h.recorded _ _ (mem_queue.mp hx)).reply _
  | finish htake =>
    exact h.recorded_of_deliver htake (h.placed _ _ htake.mem).pc_ne_none_of_home hy
  | goOn htake hnext =>
    rcases List.mem_append.mp hy with hy | hy
    · exact h.recorded_of_deliver htake (h.placed _ _ htake.mem).pc_ne_none_of_home hy
    · obtain ⟨rfl, rfl⟩ := Prod.mk.inj (List.mem_singleton.mp hy)
      have hx := h.recorded _ _ htake.mem
      rcases Item.next_eq_some hnext with ⟨hkind, rfl⟩ | ⟨-, -, rfl⟩
      · simp only [Recorded, hkind] at hx
        simpa [Recorded, Item.response, hkind] using hx
      · trivial

/-! ### The invariant -/

/-- The owner of a slot is a write of a key of that slot. -/
theorem PState.Sound.slot_owner_step (h : π.Sound M D) (hstep : PStep M D π action π') (s : UInt16)
    (w : OpId) (log : UInt64) (hslot : π'.slot s = some (w, log)) :
    s = M.slot w.key ∧ w.key ∈ M.keys ∧ .assign w log ∈ π'.hist := by
  have hkept {events : List (Event OpId UInt64)} (hslot : π.slot s = some (w, log)) :
      s = M.slot w.key ∧ w.key ∈ M.keys ∧ .assign w log ∈ π.hist ++ events := by
    obtain ⟨hs, hkey, hassign⟩ := h.slot_owner s w log hslot
    exact ⟨hs, hkey, List.mem_append_left _ hassign⟩
  cases hstep with
  | @install x t rest htake hkind _ =>
    change Function.update π.slot (M.slot x.op.key) (some (x.op, x.log)) s = some (w, log) at hslot
    by_cases hs : s = M.slot x.op.key
    · rw [hs, Function.update_self] at hslot
      obtain ⟨rfl, rfl⟩ := Prod.mk.inj (Option.some.inj hslot)
      have hx := h.recorded _ _ htake.take.mem
      simp only [Recorded, hkind] at hx
      exact ⟨hs, h.item_key _ _ htake.take.mem, hx.1⟩
    · rw [Function.update_of_ne hs] at hslot
      exact h.slot_owner s w log hslot
  | @clear x t rest =>
    change Function.update π.slot (M.slot x.op.key) none s = some (w, log) at hslot
    by_cases hs : s = M.slot x.op.key
    · rw [hs, Function.update_self] at hslot
      exact absurd hslot (by simp)
    · rw [Function.update_of_ne hs] at hslot
      exact h.slot_owner s w log hslot
  | write | read | append | finish | goOn => exact hkept hslot
  | _ => exact h.slot_owner s w log hslot

/-- Events are of operations that have been started. -/
theorem PState.Sound.hist_seq_step (h : π.Sound M D) (hstep : PStep M D π action π')
    (e : Event OpId UInt64) (he : e ∈ π'.hist) : e.op.seq ≤ π'.seq e.op.coro := by
  have hop {ℓ : Loc} {x : Item} {rest : List (Loc × Item)} (htake : Take π.net ℓ x rest)
      (hpc : x.kind = .appendReq ∨ x.response ≠ []) : x.op.seq ≤ π.seq x.op.coro := by
    have hx := h.recorded _ _ htake.mem
    rcases hpc with hkind | hresponse
    · simp only [Recorded, hkind] at hx
      exact h.hist_seq _ hx.1
    · unfold Item.response at hresponse
      cases hkind : x.kind <;> simp_all [Recorded]
      all_goals exact h.hist_seq _ hx.1
  cases hstep with
  | @write c k | @read c k =>
    rcases List.mem_append.mp he with hold | he
    · by_cases hcoro : e.op.coro = c
      · subst hcoro
        exact (h.hist_seq e hold).trans (by simp)
      · simpa [Function.update_of_ne hcoro] using h.hist_seq e hold
    · obtain rfl := List.mem_singleton.mp he
      simp [Event.op]
  | append htake hkind =>
    rcases List.mem_append.mp he with he | he
    · exact h.hist_seq e he
    · obtain rfl := List.mem_singleton.mp he
      exact hop htake (Or.inl hkind)
  | finish htake | goOn htake =>
    rcases List.mem_append.mp he with he | he
    · exact h.hist_seq e he
    · rw [Item.response_op he]
      exact hop htake (Or.inr (List.ne_nil_of_mem he))
  | _ => exact h.hist_seq e he

theorem PState.Sound.index_log_of_writes (h : π.Sound M D) {ℓ : Loc} {batch : List Item}
    {index : KvKeyType → UInt64} (hbatch : ∀ x ∈ batch, (ℓ, x) ∈ π.net)
    (hwrites : ∀ k ∈ M.keys, BatchWrites batch π.index index k) (k : KvKeyType) (hk : k ∈ M.keys) :
    D.Issues (index k) := by
  rcases hwrites k hk with hsame | ⟨x, hx, -, hlog⟩
  · rw [hsame]
    exact h.index_log k hk
  · rw [hlog]
    exact h.item_log ℓ x (hbatch x hx)

theorem PState.Sound.index_log_step (h : π.Sound M D) (hstep : PStep M D π action π') (k : KvKeyType)
    (hk : k ∈ M.keys) : D.Issues (π'.index k) := by
  cases hstep with
  | serve htake _ hindex =>
    exact h.index_log_of_writes (by simpa using htake.take.mem)
      (fun k _ ↦ (hindex k).batchWrites) k hk
  | flush hwrites _ => exact h.index_log_of_writes (fun x hx ↦ mem_queue.mp hx) hwrites k hk
  | _ => exact h.index_log k hk

/-- The reply to a request carries its log position, or that of its key in the index. -/
theorem Item.reply_log_cases (index : KvKeyType → UInt64) (x : Item) :
    (x.reply index).log = x.log ∨ (x.reply index).log = index x.op.key := by
  unfold Item.reply
  split
  · exact Or.inl rfl
  · exact Or.inl rfl
  · exact Or.inr rfl
  · exact Or.inl rfl

theorem PState.Sound.reply_log (h : π.Sound M D) (hstep : PStep M D π action π') {ℓ : Loc} {x : Item}
    (hx : (ℓ, x) ∈ π.net) : D.Issues (x.reply π'.index).log := by
  rcases Item.reply_log_cases π'.index x with hlog | hlog
  · rw [hlog]
    exact h.item_log ℓ x hx
  · rw [hlog]
    exact h.index_log_step hstep _ (h.item_key ℓ x hx)

/-- Log positions come from the data node. -/
theorem PState.Sound.item_log_step (h : π.Sound M D) (hstep : PStep M D π action π') (ℓ : Loc) (y : Item)
    (hy : (ℓ, y) ∈ π'.net) : D.Issues y.log := by
  have hrest {ℓ₀ : Loc} {x : Item} {rest new : List (Loc × Item)} (htake : Take π.net ℓ₀ x rest)
      (hnew : ∀ p ∈ new, p.2.log = x.log) (hmem : (ℓ, y) ∈ rest ++ new) : D.Issues y.log := by
    rcases List.mem_append.mp hmem with hmem | hmem
    · exact h.item_log ℓ y (htake.mem_of_mem hmem)
    · rw [hnew _ hmem]
      exact h.item_log _ _ htake.mem
  have hstep' := hstep
  cases hstep with
  | write | read | probe =>
    rcases List.mem_append.mp hy with hy | hy
    · exact h.item_log ℓ y hy
    · obtain ⟨-, rfl⟩ := Prod.mk.inj (List.mem_singleton.mp hy)
      exact Or.inl rfl
  | passUp htake => exact hrest htake (by simp) hy
  | passOut _ htake => exact hrest htake.take (by simp) hy
  | lose htake => exact h.item_log ℓ y (htake.mem_of_mem hy)
  | install htake => exact hrest htake.take (by simp) hy
  | hit htake _ hslot =>
    rcases List.mem_append.mp hy with hy | hy
    · exact h.item_log ℓ y (htake.mem_of_mem hy)
    · obtain ⟨-, rfl⟩ := Prod.mk.inj (List.mem_singleton.mp hy)
      exact h.slot_log _ _ _ hslot
  | clear htake => exact h.item_log ℓ y (htake.take.mem_of_mem hy)
  | keep htake => exact h.item_log ℓ y (htake.take.mem_of_mem hy)
  | append htake _ hlog =>
    rcases List.mem_append.mp hy with hy | hy
    · exact h.item_log ℓ y (htake.mem_of_mem hy)
    · obtain ⟨-, rfl⟩ := Prod.mk.inj (List.mem_singleton.mp hy)
      exact Or.inr hlog
  | serveLog htake => exact hrest htake (by simp) hy
  | serve htake =>
    rcases List.mem_append.mp hy with hy | hy
    · exact h.item_log ℓ y (htake.take.mem_of_mem hy)
    · obtain ⟨-, rfl⟩ := Prod.mk.inj (List.mem_singleton.mp hy)
      exact h.reply_log hstep' htake.take.mem
  | collect htake => exact hrest htake.take (by simp) hy
  | flush =>
    rcases List.mem_append.mp hy with hy | hy
    · exact h.item_log ℓ y (List.mem_of_mem_filter hy)
    · obtain ⟨x, hx, heq⟩ := List.mem_map.mp hy
      obtain ⟨-, rfl⟩ := Prod.mk.inj heq
      exact h.reply_log hstep' (mem_queue.mp hx)
  | finish htake => exact h.item_log ℓ y (htake.mem_of_mem hy)
  | goOn htake hnext =>
    refine hrest htake ?_ hy
    rcases Item.next_eq_some hnext with ⟨-, rfl⟩ | ⟨-, -, rfl⟩ <;> simp

theorem PState.Sound.slot_log_step (h : π.Sound M D) (hstep : PStep M D π action π') (s : UInt16)
    (w : OpId) (log : UInt64) (hslot : π'.slot s = some (w, log)) : D.Issues log := by
  cases hstep with
  | @install x t rest htake =>
    change Function.update π.slot (M.slot x.op.key) (some (x.op, x.log)) s = some (w, log) at hslot
    by_cases hs : s = M.slot x.op.key
    · rw [hs, Function.update_self] at hslot
      obtain ⟨rfl, rfl⟩ := Prod.mk.inj (Option.some.inj hslot)
      exact h.item_log _ _ htake.take.mem
    · rw [Function.update_of_ne hs] at hslot
      exact h.slot_log s w log hslot
  | @clear x t rest =>
    change Function.update π.slot (M.slot x.op.key) none s = some (w, log) at hslot
    by_cases hs : s = M.slot x.op.key
    · rw [hs, Function.update_self] at hslot
      exact absurd hslot (by simp)
    · rw [Function.update_of_ne hs] at hslot
      exact h.slot_log s w log hslot
  | _ => exact h.slot_log s w log hslot

theorem PState.Sound.initial (M : Layout) (D : Discipline) : PState.initial.Sound M D where
  tokens := fun _ ↦ rfl
  placed := by simp [PState.initial]
  recorded := by simp [PState.initial]
  item_key := by simp [PState.initial]
  item_coro := by simp [PState.initial]
  slot_owner := by simp [PState.initial]
  hist_seq := by simp [PState.initial]
  item_log := by simp [PState.initial]
  slot_log := by simp [PState.initial]
  index_log := fun _ _ ↦ Or.inl rfl

/-- One step keeps the invariant. -/
theorem PState.Sound.step (h : π.Sound M D) (hstep : PStep M D π action π') : π'.Sound M D where
  tokens := h.tokens_step hstep
  placed := h.placed_step hstep
  recorded := h.recorded_step hstep
  item_key := fun ℓ y hy ↦ by
    rcases hstep.item_origin hy with ⟨ℓ₀, x, hx, hop⟩ | ⟨-, hkey, -⟩
    · exact hop ▸ h.item_key ℓ₀ x hx
    · exact hkey
  item_coro := fun ℓ y hy ↦ by
    rcases hstep.item_origin hy with ⟨ℓ₀, x, hx, hop⟩ | ⟨hcoro, -, -⟩
    · exact hop ▸ h.item_coro ℓ₀ x hx
    · exact hcoro
  slot_owner := h.slot_owner_step hstep
  hist_seq := h.hist_seq_step hstep
  item_log := h.item_log_step hstep
  slot_log := h.slot_log_step hstep
  index_log := h.index_log_step hstep

/-- The invariant holds in every reachable state. -/
theorem PReachable.sound (h : PReachable M D π) : π.Sound M D := by
  induction h with
  | refl => exact PState.Sound.initial M D
  | tail _ hstep ih =>
    obtain ⟨action, hstep⟩ := hstep
    exact ih.step hstep

end SwitchDelta.Protocol

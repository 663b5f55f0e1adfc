/-
# What a request is served with

The objects of a request are looked up in its order, and the answer is made up as they are found.
The blocks and the batches that are sent, and the open batch at their end, are then exactly the
objects that the items so far name (`Delivers`); each batch is closed by the transaction with which
it reaches a limit, and the open one has reached none (`Engine.Answer.Packs`).

What is found at one time does not depend on what was looked up before, although a lookup changes
the order in which a cache forgets (`Engine.findBlock_spec`, `Engine.findTransaction_spec`).  So it
is the state in which a request is received that decides how far it is served
(`Engine.served_of_fetch`).
-/
import BlockRelay.Proofs.Filing

namespace BlockRelay

/-! ## Batches -/

namespace Config.Cache

variable {limits : Config.Cache} {batch : List Transaction} {t : Transaction}

/-- Whether a batch has reached no limit, so that one more transaction is put into it. -/
def Admits (limits : Config.Cache) (batch : List Transaction) : Prop :=
  batch.length < max limits.maxBatchCount 1 ∧
    (batch.map Transaction.wireSize).sum ≤ limits.maxBatchBytes

/-- An empty batch has reached no limit. -/
theorem admits_nil (limits : Config.Cache) : limits.Admits [] := by
  refine ⟨?_, Nat.zero_le _⟩
  rw [List.length_nil]
  omega

/-- A batch that has reached no limit had reached none before. -/
theorem Admits.dropLast (h : limits.Admits batch) : limits.Admits batch.dropLast := by
  rcases List.eq_nil_or_concat batch with rfl | ⟨front, last, rfl⟩
  · exact h
  · rw [List.concat_eq_append] at h ⊢
    rw [Admits, List.length_append, List.map_append, List.sum_append] at h
    rw [List.dropLast_concat]
    exact ⟨by omega, by omega⟩

end Config.Cache

namespace Engine.Answer

/-- The size of a batch is that of its transactions. -/
theorem batchSize_eq_sum (batch : List Transaction) :
    batchSize batch = (batch.map Transaction.wireSize).sum := by
  rw [batchSize, List.sum_eq_foldl, List.foldl_map]

/-- A batch is closed once it has reached a limit. -/
theorem isFull_iff {limits : Config.Cache} {batch : List Transaction} :
    isFull limits batch = true ↔ ¬ limits.Admits batch := by
  rw [isFull, batchSize_eq_sum, Config.Cache.Admits, Bool.or_eq_true, decide_eq_true_eq,
    decide_eq_true_eq]
  omega

end Engine.Answer

/-! ## What messages deliver -/

namespace Message

variable {messages : List Message}

/-- The blocks that are sent one by one. -/
def blocksOf (messages : List Message) : List Block :=
  messages.filterMap fun | .block b => some b | _ => none

/-- The batches of transactions that are sent. -/
def batchesOf (messages : List Message) : List (List Transaction) :=
  messages.filterMap fun | .transactions batch => some batch | _ => none

/-- One more block is sent. -/
@[simp] theorem blocksOf_concat_block (b : Block) :
    blocksOf (messages ++ [.block b]) = blocksOf messages ++ [b] := by
  simp [blocksOf]

/-- A batch is no block. -/
@[simp] theorem blocksOf_concat_transactions (batch : List Transaction) :
    blocksOf (messages ++ [.transactions batch]) = blocksOf messages := by
  simp [blocksOf]

/-- A block is no batch. -/
@[simp] theorem batchesOf_concat_block (b : Block) :
    batchesOf (messages ++ [.block b]) = batchesOf messages := by
  simp [batchesOf]

/-- One more batch is sent. -/
@[simp] theorem batchesOf_concat_transactions (batch : List Transaction) :
    batchesOf (messages ++ [.transactions batch]) = batchesOf messages ++ [batch] := by
  simp [batchesOf]

end Message

open Message (blocksOf batchesOf)

/-- The messages deliver the objects that the items name, in the order of the items: every block,
and all transactions but those that are left.  They hold nothing else.  No batch is empty, and none
has reached a limit without its last transaction. -/
structure Delivers (limits : Config.Cache) (items : List Item) (messages : List Message)
    (left : List Transaction) : Prop where
  plain : ∀ m ∈ messages, (∃ b, m = .block b) ∨ ∃ batch, m = .transactions batch
  blocks : (blocksOf messages).map (·.id.item) = items.filter (·.kind = .block)
  transactions : ((batchesOf messages).flatten ++ left).map (·.item) =
    items.filter (·.kind = .transaction)
  batches : ∀ batch ∈ batchesOf messages, batch ≠ [] ∧ limits.Admits batch.dropLast

namespace Delivers

variable {limits : Config.Cache} {items : List Item} {messages : List Message}
  {left : List Transaction}

/-- Nothing delivers nothing. -/
theorem nil (limits : Config.Cache) : Delivers limits [] [] [] := ⟨nofun, rfl, rfl, nofun⟩

/-- One more block is delivered. -/
theorem block (h : Delivers limits items messages left) (b : Block) :
    Delivers limits (items ++ [b.id.item]) (messages ++ [.block b]) left := by
  have named : (items ++ [b.id.item]).filter (·.kind = .block) =
      items.filter (·.kind = .block) ++ [b.id.item] := List.filter_append ..
  have other : (items ++ [b.id.item]).filter (·.kind = .transaction) =
      items.filter (·.kind = .transaction) :=
    (List.filter_append ..).trans (List.append_nil _)
  constructor
  · exact fun m mem => (List.mem_append.1 mem).elim (h.plain m)
      fun new => .inl ⟨b, List.mem_singleton.1 new⟩
  · rw [Message.blocksOf_concat_block, List.map_append, h.blocks, named]
    rfl
  · rw [Message.batchesOf_concat_block, h.transactions, other]
  · rw [Message.batchesOf_concat_block]
    exact h.batches

/-- One more transaction is left. -/
theorem transaction (h : Delivers limits items messages left) (t : Transaction) :
    Delivers limits (items ++ [t.item]) messages (left ++ [t]) := by
  have named : (items ++ [t.item]).filter (·.kind = .transaction) =
      items.filter (·.kind = .transaction) ++ [t.item] := List.filter_append ..
  have other : (items ++ [t.item]).filter (·.kind = .block) = items.filter (·.kind = .block) :=
    (List.filter_append ..).trans (List.append_nil _)
  refine ⟨h.plain, h.blocks.trans other.symm, ?_, h.batches⟩
  rw [← List.append_assoc, List.map_append, h.transactions, named]
  rfl

/-- What is left is sent as one more batch. -/
theorem close (h : Delivers limits items messages left) (some : left ≠ [])
    (room : limits.Admits left.dropLast) :
    Delivers limits items (messages ++ [.transactions left]) [] := by
  constructor
  · exact fun m mem => (List.mem_append.1 mem).elim (h.plain m)
      fun new => .inr ⟨left, List.mem_singleton.1 new⟩
  · rw [Message.blocksOf_concat_transactions, h.blocks]
  · rw [Message.batchesOf_concat_transactions, ← h.transactions, List.flatten_concat,
      List.append_nil]
  · intro batch mem
    rw [Message.batchesOf_concat_transactions] at mem
    rcases List.mem_append.1 mem with old | new
    · exact h.batches batch old
    · exact List.mem_singleton.1 new ▸ ⟨some, room⟩

end Delivers

namespace Engine

namespace Answer

/-- An answer in the making packs the objects that the items name.  Every batch that is closed has
reached a limit, and the open one has not. -/
structure Packs (limits : Config.Cache) (items : List Item) (a : Answer) : Prop where
  delivers : Delivers limits items a.messages a.batch
  full : ∀ batch ∈ batchesOf a.messages, ¬ limits.Admits batch
  room : limits.Admits a.batch
  last : a.lastBlock = (blocksOf a.messages).getLast?.map (·.id)

namespace Packs

variable {limits : Config.Cache} {items : List Item} {a : Answer}

/-- At the start nothing is packed. -/
theorem nil (limits : Config.Cache) : Packs limits [] {} :=
  ⟨.nil limits, nofun, limits.admits_nil, rfl⟩

/-- A block is packed. -/
theorem addBlock (h : a.Packs limits items) (b : Block) :
    (a.addBlock b).Packs limits (items ++ [b.id.item]) := by
  refine ⟨h.delivers.block b, ?_, h.room, ?_⟩
  · rw [Answer.addBlock, Message.batchesOf_concat_block]
    exact h.full
  · rw [Answer.addBlock, Message.blocksOf_concat_block, List.getLast?_concat]
    rfl

/-- A transaction is packed.  If the open batch reaches a limit with it, the batch is closed. -/
theorem addTransaction (h : a.Packs limits items) (t : Transaction) :
    (a.addTransaction limits t).Packs limits (items ++ [t.item]) := by
  have longer := h.delivers.transaction t
  unfold Answer.addTransaction
  dsimp only
  split
  next closed =>
    have room : limits.Admits (a.batch ++ [t]).dropLast := by
      rw [List.dropLast_concat]
      exact h.room
    refine ⟨longer.close (List.concat_ne_nil _ _) room, ?_, limits.admits_nil, ?_⟩
    · intro batch mem
      rw [Message.batchesOf_concat_transactions] at mem
      rcases List.mem_append.1 mem with old | new
      · exact h.full batch old
      · exact List.mem_singleton.1 new ▸ isFull_iff.1 closed
    · rw [Message.blocksOf_concat_transactions]
      exact h.last
  next open_ =>
    refine ⟨longer, h.full, ?_, h.last⟩
    exact Classical.not_not.1 (mt isFull_iff.2 open_)

/-- When everything is packed the open batch is sent as well, unless it is empty.  Only the last
batch may have reached no limit. -/
theorem finish (h : a.Packs limits items) :
    Delivers limits items a.finish [] ∧
      (∀ batch ∈ (batchesOf a.finish).dropLast, ¬ limits.Admits batch) ∧
        a.lastBlock = (blocksOf a.finish).getLast?.map (·.id) := by
  unfold Answer.finish
  split
  next nothing =>
    rw [List.isEmpty_iff] at nothing
    exact ⟨nothing ▸ h.delivers,
      fun batch mem => h.full batch ((List.dropLast_sublist _).subset mem), h.last⟩
  next some =>
    rw [List.isEmpty_iff] at some
    refine ⟨h.delivers.close some h.room.dropLast, ?_, ?_⟩
    · rw [Message.batchesOf_concat_transactions, List.dropLast_concat]
      exact h.full
    · rw [Message.blocksOf_concat_transactions]
      exact h.last

end Packs

end Answer

/-! ## Looking up -/

variable {σ : Type} [Ledger σ] {e e' : Engine σ}

/-- Whether the ledger stores the content that an item names. -/
def isStored (e : Engine σ) (i : Item) : Bool :=
  match i.kind with
  | .block => (Ledger.block? e.ledger i.hash).isSome
  | .transaction => (Ledger.transaction? e.ledger i.hash).isSome

/-- Whether the content that an item names is found, in the cache of its kind or in the ledger. -/
def finds (e : Engine σ) (i : Item) : Bool := e.isCached i || e.isStored i

/-- **Looking for a block.**  It is found if it is cached or stored, and then it is the one that is
named.  Looking for it changes nothing about what is found. -/
theorem findBlock_spec {hash : Hash} {found : Option Block} (filed : e.Filed)
    (done : e.findBlock hash = (found, e')) :
    found.isSome = e.finds (.block hash) ∧ (∀ b, found = some b → b.id.item = .block hash) ∧
      e'.Filed ∧ e'.finds = e.finds := by
  obtain ⟨rfl, rfl⟩ := Prod.mk.inj done
  refine ⟨AgingCache.isSome_get_orElse .., fun b eq => ?_, ⟨⟨fun entry mem => ?_,
    filed.transactions⟩, filed.storedBlocks, filed.storedTransactions⟩, funext fun i => ?_⟩
  · exact congrArg Item.block (AgingCache.key_of_get_orElse (f := fun b : Block => b.id.hash)
      filed.blocks (filed.storedBlocks hash) eq)
  · exact filed.blocks entry (AgingCache.entries_get_subset mem)
  · unfold finds isCached isStored
    cases i.kind with
    | transaction => rfl
    | block => exact congrArg (· || _) (AgingCache.contains_get ..)

/-- **Looking for a transaction** is like looking for a block. -/
theorem findTransaction_spec {hash : Hash} {found : Option Transaction} (filed : e.Filed)
    (done : e.findTransaction hash = (found, e')) :
    found.isSome = e.finds (.transaction hash) ∧
      (∀ t, found = some t → t.item = .transaction hash) ∧ e'.Filed ∧ e'.finds = e.finds := by
  obtain ⟨rfl, rfl⟩ := Prod.mk.inj done
  refine ⟨AgingCache.isSome_get_orElse .., fun t eq => ?_, ⟨⟨filed.blocks, fun entry mem => ?_⟩,
    filed.storedBlocks, filed.storedTransactions⟩, funext fun i => ?_⟩
  · exact congrArg Item.transaction (AgingCache.key_of_get_orElse (f := Transaction.hash)
      filed.transactions (filed.storedTransactions hash) eq)
  · exact filed.transactions entry (AgingCache.entries_get_subset mem)
  · unfold finds isCached isStored
    cases i.kind with
    | block => rfl
    | transaction => exact congrArg (· || _) (AgingCache.contains_get ..)

/-! ## Collecting -/

/-- How the answer to a list of items ends, after `before` was served: all items are found and
packed, or those in front of the first one that is not found are, and a notice follows. -/
inductive Collected (limits : Config.Cache) (finds : Item → Bool) (before items : List Item) :
    Option BlockId → List Message → Prop where
  | whole {a : Answer} (all : ∀ i ∈ items, finds i = true)
      (packs : a.Packs limits (before ++ items)) :
    Collected limits finds before items a.lastBlock a.finish
  | broken {a : Answer} {served rest : List Item} {missing : Item}
      (split : items = served ++ missing :: rest) (found : ∀ i ∈ served, finds i = true)
      (lacks : finds missing = false) (packs : a.Packs limits (before ++ served)) :
    Collected limits finds before items none (a.messages ++ [.notFound])

/-- An item that is found is served in front of the others. -/
theorem Collected.cons {limits : Config.Cache} {finds : Item → Bool} {before rest : List Item}
    {i : Item} {last : Option BlockId} {messages : List Message}
    (h : Collected limits finds (before ++ [i]) rest last messages) (here : finds i = true) :
    Collected limits finds before (i :: rest) last messages := by
  have shift (items : List Item) : before ++ [i] ++ items = before ++ i :: items := by simp
  cases h with
  | whole all packs => exact .whole (List.forall_mem_cons.2 ⟨here, all⟩) (shift rest ▸ packs)
  | @broken _ served _ _ split found lacks packs =>
    exact .broken (congrArg (i :: ·) split) (List.forall_mem_cons.2 ⟨here, found⟩) lacks
      (shift served ▸ packs)

/-- **Collecting an answer.**  While the items are found, one after the other, the answer packs
them. -/
theorem collected_collect {limits : Config.Cache} {before items : List Item} {a : Answer}
    (filed : e.Filed) (packs : a.Packs limits before) :
    Collected limits e.finds before items (collect limits items a e).1
      (collect limits items a e).2.1 := by
  fun_induction collect limits items a e generalizing before with
  | case1 a e => exact .whole (List.forall_mem_nil _) (by rwa [List.append_nil])
  | case2 i rest a e kind b e' found ih =>
    obtain ⟨here, named, filed', same⟩ := findBlock_spec filed found
    rw [Item.block_hash kind] at here named
    have later := ih filed' (packs.addBlock b)
    rw [named b rfl, same] at later
    exact later.cons here.symm
  | case3 i rest a e kind e' found =>
    obtain ⟨lacks, -⟩ := findBlock_spec filed found
    rw [Item.block_hash kind] at lacks
    refine .broken (List.nil_append _).symm (List.forall_mem_nil _) lacks.symm ?_
    rwa [List.append_nil]
  | case4 i rest a e kind t e' found ih =>
    obtain ⟨here, named, filed', same⟩ := findTransaction_spec filed found
    rw [Item.transaction_hash kind] at here named
    have later := ih filed' (packs.addTransaction t)
    rw [named t rfl, same] at later
    exact later.cons here.symm
  | case5 i rest a e kind e' found =>
    obtain ⟨lacks, -⟩ := findTransaction_spec filed found
    rw [Item.transaction_hash kind] at lacks
    refine .broken (List.nil_append _).symm (List.forall_mem_nil _) lacks.symm ?_
    rwa [List.append_nil]

/-! ## Answers -/

/-- The whole answer to a request, after which the marker of the peer is `last` if it was `old`:
everything is delivered, each batch but the last one has reached a limit, and the last block that is
sent is marked. -/
structure AnswersWhole (limits : Config.Cache) (items : List Item) (messages : List Message)
    (old last : BlockId) : Prop where
  delivers : Delivers limits items messages []
  full : ∀ batch ∈ (batchesOf messages).dropLast, ¬ limits.Admits batch
  marked : last = ((blocksOf messages).getLast?.map (·.id)).getD old

/-- An answer that breaks off after the items that are `served`: the blocks are delivered and the
batches that have reached a limit, the open batch is given up, and a notice is the last message. -/
def BreaksOff (limits : Config.Cache) (served : List Item) (messages : List Message) : Prop :=
  ∃ sent givenUp, messages = sent ++ [.notFound] ∧ Delivers limits served sent givenUp ∧
    (∀ batch ∈ batchesOf sent, ¬ limits.Admits batch) ∧ limits.Admits givenUp

/-- **Requests are served faithfully.**  In every state that is reached over a ledger in memory, a
request of a registered peer is answered at once.  If everything is found, the answer is whole.
Otherwise it breaks off at the first item that is not found, and the marker of the peer is kept.
All other records are as they were. -/
theorem served_of_fetch {config : Config} {clock : Clock} {genesis : Block}
    {solidifyDepth batch : Nat} {ledger : ChainLedger} {start e : Engine ChainLedger}
    {past : List (Moment ChainLedger)} {id : PeerId} {p : Peer}
    (calls : (ChainLedger.ofGenesis genesis solidifyDepth batch).Calls ledger)
    (started : Engine.start config ledger clock = .ok start) (run : Run start past e)
    (byCalls : ∀ m ∈ past, m.ByCalls) (hp : e.peers[id]? = some p) (items : List Item) :
    ∃ messages last e', e.perform (.receive id (.fetch items)) = .ok (.done, e') ∧
      (e'.journal = e.journal ++ messages.map fun m => .sent id m) ∧
      (∀ other : PeerId, e'.peers[other]? =
        if other = id then some { p with bothHave := last } else e.peers[other]?) ∧
      ((∀ i ∈ items, e.finds i = true) ∧
          AnswersWhole e.config.cache items messages p.bothHave last ∨
        ∃ served missing rest, items = served ++ missing :: rest ∧
          (∀ i ∈ served, e.finds i = true) ∧ e.finds missing = false ∧
            BreaksOff e.config.cache served messages ∧ last = p.bothHave) := by
  have known : e.isRegistered id = true := isRegistered_iff.2 ⟨p, hp⟩
  have received : e.perform (.receive id (.fetch items)) = .ok (.done, e.serve id items) := by
    rw [perform, receive, if_pos known]
    rfl
  obtain ⟨peers, journal⟩ := serve_registered known items
  have collected : Collected e.config.cache e.finds [] items
      (collect e.config.cache items {} e).1 (collect e.config.cache items {} e).2.1 :=
    collected_collect (run.filed calls started byCalls) (.nil e.config.cache)
  generalize (collect e.config.cache items {} e).1 = last at peers collected
  generalize (collect e.config.cache items {} e).2.1 = messages at journal collected
  refine ⟨messages, last.getD p.bothHave, _, received, journal, fun other => ?_, ?_⟩
  · rw [peers]
    refine (peers_modifyPeer e id _ other).trans ?_
    split
    next same => rw [same, hp, Option.map_some]
    next => rfl
  · cases collected with
    | whole all packs =>
      obtain ⟨delivers, full, marked⟩ := packs.finish
      exact .inl ⟨all, delivers, full, congrArg (Option.getD · p.bothHave) marked⟩
    | broken split found lacks packs =>
      exact .inr ⟨_, _, _, split, found, lacks, ⟨_, _, rfl, packs.delivers, packs.full,
        packs.room⟩, rfl⟩

/-- Two transactions are stored, a third one is queued for announcement, and batches hold two
transactions at most.  All of them are served with the genesis block, but a transaction that is
neither cached nor stored is not. -/
theorem served_pairs :
    let t (n : UInt8) : Transaction := ⟨[n], 0⟩
    let config : Config := { cache := { maxBatchCount := 2 } }
    let wanted := [(t 1).item, (Block.genesis 0).id.item, (t 2).item, (t 3).item]
    ∃ (ledger : ChainLedger) (start e : Engine ChainLedger) (past : List (Moment ChainLedger))
      (p : Peer), (ChainLedger.ofGenesis (.genesis 0) 0 10).Calls ledger ∧
        Engine.start config ledger {} = .ok start ∧ Run start past e ∧
          (∀ m ∈ past, m.ByCalls) ∧ e.peers[(⟨1⟩ : PeerId)]? = some p ∧
            (∃ messages last e', e.perform (.receive ⟨1⟩ (.fetch wanted)) = .ok (.done, e') ∧
              AnswersWhole e.config.cache wanted messages p.bothHave last) ∧
            ∃ messages e', e.perform (.receive ⟨1⟩ (.fetch (wanted ++ [(t 4).item]))) =
                .ok (.done, e') ∧ BreaksOff e.config.cache wanted messages := by
  intro t config wanted
  let ledger : ChainLedger :=
    (((ChainLedger.ofGenesis (.genesis 0) 0 10).applyTransaction (t 1)).2.applyTransaction (t 2)).2
  have calls : (ChainLedger.ofGenesis (.genesis 0) 0 10).Calls ledger :=
    (Relation.ReflTransGen.single (.applyTransaction (t 1))).tail (.applyTransaction (t 2))
  obtain ⟨start, past, e, started, run, checked⟩ := exists_run config ledger {}
    [.register ⟨1⟩ 0, .broadcast (.transaction (t 3))]
    (fun (past, e) => past.all (·.operation.isSome) && e.isRegistered ⟨1⟩ &&
      wanted.all e.finds && !e.finds (t 4).item) (by decide +kernel)
  simp only [Bool.and_eq_true, Bool.not_eq_true'] at checked
  obtain ⟨⟨⟨own, known⟩, found⟩, lacking⟩ := checked
  rw [List.all_eq_true] at own found
  obtain ⟨p, hp⟩ := isRegistered_iff.1 known
  have byCalls : ∀ m ∈ past, m.ByCalls := by
    intro m mem other
    have here := own m mem
    rw [other] at here
    cases here
  refine ⟨ledger, start, e, past, p, calls, started, run, byCalls, hp, ?_, ?_⟩
  · obtain ⟨messages, last, e', done, -, -, ⟨-, whole⟩ | ⟨served, missing, rest, split, -, lacks, -⟩⟩ :=
      served_of_fetch calls started run byCalls hp wanted
    · exact ⟨messages, last, e', done, whole⟩
    · rw [found missing (by rw [split]; simp)] at lacks
      cases lacks
  · obtain ⟨messages, last, e', done, -, -, ⟨all, -⟩ |
        ⟨served, missing, rest, split, front, lacks, breaks, -⟩⟩ :=
      served_of_fetch calls started run byCalls hp (wanted ++ [(t 4).item])
    · rw [all (t 4).item (by simp)] at lacking
      cases lacking
    · -- both lists of served items end at the first one that is not found
      have whole : (wanted ++ [(t 4).item]).takeWhile e.finds = wanted := by
        rw [List.takeWhile_append_of_pos found, List.takeWhile_cons_of_neg (by simp [lacking]),
          List.append_nil]
      rw [split, List.takeWhile_append_of_pos front, List.takeWhile_cons_of_neg (by simp [lacks]),
        List.append_nil] at whole
      exact ⟨messages, e', done, whole ▸ breaks⟩

end Engine

end BlockRelay

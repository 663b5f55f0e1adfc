/-
# Serving requests

A request is answered from the caches, and from the ledger for what they do not
hold.  Blocks are sent one by one; transactions are sent in batches that end as
soon as they reach the limit of their number or exceed the limit of their size.

The first object that cannot be found ends the answer: batches that are not full
are given up, and a notice is all that follows.
-/
import BlockRelay.Engine.Basic

namespace BlockRelay.Engine

variable {σ : Type} [Ledger σ]

/-- The block with a hash, from the cache or from the ledger. -/
def findBlock (e : Engine σ) (hash : Hash) : Option Block × Engine σ :=
  let (cached, blockCache) := e.blockCache.get hash e.now
  (cached <|> Ledger.block? e.ledger hash, { e with blockCache := blockCache })

/-- The transaction with a hash, from the cache or from the ledger. -/
def findTransaction (e : Engine σ) (hash : Hash) : Option Transaction × Engine σ :=
  let (cached, transactionCache) := e.transactionCache.get hash e.now
  (cached <|> Ledger.transaction? e.ledger hash,
    { e with transactionCache := transactionCache })

/-- An answer in the making: the messages that are complete, the transactions of the open
batch, and the last block. -/
structure Answer where
  messages : List Message := []
  batch : List Transaction := []
  lastBlock : Option BlockId := none

namespace Answer

/-- Add a block. -/
def addBlock (a : Answer) (b : Block) : Answer :=
  { a with messages := a.messages ++ [.block b], lastBlock := some b.id }

/-- The size of a batch on the wire. -/
def batchSize (batch : List Transaction) : Nat := batch.foldl (fun n t => n + t.wireSize) 0

/-- Whether a batch has reached a limit. -/
def isFull (limits : Config.Cache) (batch : List Transaction) : Bool :=
  max limits.maxBatchCount 1 ≤ batch.length || limits.maxBatchBytes < batchSize batch

/-- Add a transaction, and close the batch if it is full then. -/
def addTransaction (a : Answer) (limits : Config.Cache) (t : Transaction) : Answer :=
  let batch := a.batch ++ [t]
  if isFull limits batch then
    { a with messages := a.messages ++ [.transactions batch], batch := [] }
  else { a with batch := batch }

/-- The messages of an answer to which nothing is added any more. -/
def finish (a : Answer) : List Message :=
  if a.batch.isEmpty then a.messages else a.messages ++ [.transactions a.batch]

end Answer

/-- Collect the answer to a request.  With `none` in front, an object was not found, and the
messages are those of the objects before it. -/
def collect (limits : Config.Cache) : List Item → Answer → Engine σ →
    Option BlockId × List Message × Engine σ
  | [], a, e => (a.lastBlock, a.finish, e)
  | i :: rest, a, e =>
    match i.kind with
    | .block =>
      match e.findBlock i.hash with
      | (some b, e) => collect limits rest (a.addBlock b) e
      | (none, e) => (none, a.messages ++ [.notFound], e)
    | .transaction =>
      match e.findTransaction i.hash with
      | (some t, e) => collect limits rest (a.addTransaction limits t) e
      | (none, e) => (none, a.messages ++ [.notFound], e)

/-- Serve a request of a peer.  The last block of a complete answer is one that both sides
have. -/
def serve (e : Engine σ) (id : PeerId) (items : List Item) : Engine σ :=
  let (lastBlock, messages, e) := collect e.config.cache items {} e
  if e.isRegistered id then
    let e := e.modifyPeer id fun p => { p with bothHave := lastBlock.getD p.bothHave }
    messages.foldl (fun e m => e.send id m) e
  else e

/-- Looking for a block changes the cache of blocks only. -/
theorem findBlock_eq {e e' : Engine σ} {hash : Hash} {b : Option Block}
    (h : e.findBlock hash = (b, e')) : e' = { e with blockCache := e'.blockCache } := by
  obtain ⟨-, rfl⟩ := Prod.mk.inj h
  rfl

/-- Looking for a transaction changes the cache of transactions only. -/
theorem findTransaction_eq {e e' : Engine σ} {hash : Hash} {t : Option Transaction}
    (h : e.findTransaction hash = (t, e')) :
    e' = { e with transactionCache := e'.transactionCache } := by
  obtain ⟨-, rfl⟩ := Prod.mk.inj h
  rfl

namespace Answer

/-- Whether the messages of an answer are content. -/
def IsPlain (a : Answer) : Prop := ∀ m ∈ a.messages, m.IsContent

/-- An answer stays content with a further message of content. -/
theorem forall_mem_append {messages : List Message} {last : Message}
    (plain : ∀ m ∈ messages, m.IsContent) (h : last.IsContent) :
    ∀ m ∈ messages ++ [last], m.IsContent := by
  intro m hm
  rcases List.mem_append.1 hm with hm | hm
  · exact plain m hm
  · exact List.mem_singleton.1 hm ▸ h

/-- Adding a transaction adds content. -/
theorem IsPlain.addTransaction {a : Answer} (plain : a.IsPlain) (limits : Config.Cache)
    (t : Transaction) : (a.addTransaction limits t).IsPlain := by
  unfold Answer.addTransaction
  dsimp only
  split
  · exact forall_mem_append plain trivial
  · exact plain

/-- The messages of a finished answer are content. -/
theorem IsPlain.finish {a : Answer} (plain : a.IsPlain) : ∀ m ∈ a.finish, m.IsContent := by
  unfold Answer.finish
  split
  · exact plain
  · exact forall_mem_append plain trivial

end Answer

/-- Collecting an answer changes the caches only. -/
theorem collect_eq (limits : Config.Cache) (items : List Item) (a : Answer) (e : Engine σ) :
    ∃ blockCache transactionCache, (collect limits items a e).2.2 =
      { e with blockCache := blockCache, transactionCache := transactionCache } := by
  fun_induction collect limits items a e with
  | case1 => exact ⟨_, _, rfl⟩
  | case2 _ _ _ _ _ _ _ found ih =>
    obtain ⟨_, _, eq⟩ := ih
    rw [eq, findBlock_eq found]
    exact ⟨_, _, rfl⟩
  | case3 _ _ _ _ _ _ found =>
    rw [findBlock_eq found]
    exact ⟨_, _, rfl⟩
  | case4 _ _ _ _ _ _ _ found ih =>
    obtain ⟨_, _, eq⟩ := ih
    rw [eq, findTransaction_eq found]
    exact ⟨_, _, rfl⟩
  | case5 _ _ _ _ _ _ found =>
    rw [findTransaction_eq found]
    exact ⟨_, _, rfl⟩

/-- The messages of a collected answer are content. -/
theorem isContent_of_mem_collect (limits : Config.Cache) (items : List Item) (a : Answer)
    (e : Engine σ) (plain : a.IsPlain) :
    ∀ m ∈ (collect limits items a e).2.1, m.IsContent := by
  fun_induction collect limits items a e with
  | case1 => exact plain.finish
  | case2 _ _ _ _ _ _ _ _ ih => exact ih (Answer.forall_mem_append plain trivial)
  | case3 => exact Answer.forall_mem_append plain trivial
  | case4 _ _ _ _ _ _ _ _ ih => exact ih (plain.addTransaction limits _)
  | case5 => exact Answer.forall_mem_append plain trivial

/-- Serving a request changes the caches and the record of the peer, and queues content. -/
theorem serve_eq (e : Engine σ) (id : PeerId) (items : List Item) :
    ∃ blockCache transactionCache last, ∃ messages : List Message,
      (∀ m ∈ messages, m.IsContent) ∧
        (e.serve id items =
            { e with blockCache := blockCache, transactionCache := transactionCache } ∨
          e.serve id items =
            { e.modifyPeer id fun p => { p with bothHave := Option.getD last p.bothHave } with
              blockCache := blockCache
              transactionCache := transactionCache
              journal := e.journal ++ messages.map fun m => .sent id m }) := by
  obtain ⟨blockCache, transactionCache, eq⟩ := collect_eq e.config.cache items {} e
  refine ⟨blockCache, transactionCache, (collect e.config.cache items {} e).1,
    (collect e.config.cache items {} e).2.1, isContent_of_mem_collect _ _ _ _ nofun, ?_⟩
  unfold serve
  dsimp only
  rw [eq]
  split
  · exact .inr (foldl_send (fun _ => id) (fun m => m) _ _)
  · exact .inl rfl

end BlockRelay.Engine

/-
# Blocks that are handed out

A request is served with blocks that are cached or that the ledger finds (`Engine.Hands`).  Serving
it puts no block into the cache; the blocks that are sent were handed out, and so was the one that
the peer is marked with from then on (`serve_hands`).
-/
import BlockRelay.Engine.Serving
import BlockRelay.Proofs.Caches

namespace BlockRelay.Engine

variable {σ : Type} [Ledger σ] {e e' : Engine σ}

/-- Whether a block is cached, or is found by the ledger. -/
def Hands (e : Engine σ) (b : Block) : Prop :=
  (∃ entry ∈ e.blockCache.entries, entry.value = b) ∨
    ∃ hash, Ledger.block? e.ledger hash = some b

/-- A block that is found is handed out, and looking for it puts nothing into the cache. -/
theorem hands_findBlock {hash : Hash} {found : Option Block}
    (done : e.findBlock hash = (found, e')) :
    (∀ b, found = some b → e.Hands b) ∧ e'.blockCache.entries ⊆ e.blockCache.entries ∧
      e'.ledger = e.ledger := by
  obtain ⟨rfl, rfl⟩ := Prod.mk.inj done
  refine ⟨fun b eq => ?_, AgingCache.entries_get_subset, rfl⟩
  rcases Option.or_eq_some_iff.1 ((Option.orElse_eq_or ..).symm.trans eq) with hit | ⟨-, held⟩
  · obtain ⟨entry, mem, -, eq⟩ := AgingCache.mem_entries_of_get hit
    exact .inl ⟨entry, mem, eq⟩
  · exact .inr ⟨hash, held⟩

/-- Looking for a transaction puts nothing into the cache of blocks. -/
theorem hands_findTransaction {hash : Hash} {found : Option Transaction}
    (done : e.findTransaction hash = (found, e')) :
    e'.blockCache.entries ⊆ e.blockCache.entries ∧ e'.ledger = e.ledger := by
  rw [findTransaction_eq done]
  exact ⟨List.Subset.refl _, rfl⟩

/-- With no more in the cache no other blocks are handed out. -/
theorem Hands.of_subset {b : Block} (h : e'.Hands b)
    (cache : e'.blockCache.entries ⊆ e.blockCache.entries) (ledger : e'.ledger = e.ledger) :
    e.Hands b := by
  rcases h with ⟨entry, mem, rfl⟩ | held
  · exact .inl ⟨entry, cache mem, rfl⟩
  · exact .inr (ledger ▸ held)

/-! ## Answers -/

/-- Whether the blocks of an answer satisfy `P`: those that are sent, and the last one. -/
structure Answer.Made (P : Block → Prop) (last : Option BlockId) (messages : List Message) :
    Prop where
  sent : ∀ b, Message.block b ∈ messages → P b
  last : ∀ id ∈ last, ∃ b, P b ∧ b.id = id

namespace Answer.Made

variable {P : Block → Prop} {last : Option BlockId} {messages : List Message} {a : Answer}

/-- A message that is no block may be added. -/
theorem append (h : Made P last messages) {m : Message} (other : ∀ b, m ≠ .block b) :
    Made P last (messages ++ [m]) := by
  refine ⟨fun b mem => ?_, h.last⟩
  rcases List.mem_append.1 mem with old | new
  · exact h.sent b old
  · exact absurd (List.mem_singleton.1 new).symm (other b)

/-- Adding a block that satisfies `P`. -/
theorem addBlock (h : Made P a.lastBlock a.messages) {b : Block} (here : P b) :
    Made P (a.addBlock b).lastBlock (a.addBlock b).messages := by
  refine ⟨fun b' mem => ?_, fun id mem => ?_⟩
  · rcases List.mem_append.1 mem with old | new
    · exact h.sent b' old
    · cases List.mem_singleton.1 new
      exact here
  · cases mem
    exact ⟨b, here, rfl⟩

/-- Adding a transaction. -/
theorem addTransaction (h : Made P a.lastBlock a.messages) (limits : Config.Cache)
    (t : Transaction) :
    Made P (a.addTransaction limits t).lastBlock (a.addTransaction limits t).messages := by
  unfold Answer.addTransaction
  dsimp only
  split
  · exact h.append nofun
  · exact h

/-- Closing the open batch. -/
theorem finish (h : Made P a.lastBlock a.messages) : Made P a.lastBlock a.finish := by
  unfold Answer.finish
  split
  · exact h
  · exact h.append nofun

/-- The first object that is not found ends the answer, and then no block counts as the last. -/
theorem notFound (h : Made P last messages) : Made P none (messages ++ [.notFound]) := by
  have noticed : Made P last (messages ++ [.notFound]) := h.append nofun
  exact ⟨noticed.sent, nofun⟩

end Answer.Made

/-- An answer is made of blocks that are handed out, and collecting it puts nothing into the
cache. -/
theorem hands_collect {P : Block → Prop} (limits : Config.Cache) (items : List Item) (a : Answer)
    (hands : ∀ b, e.Hands b → P b) (made : Answer.Made P a.lastBlock a.messages) :
    (collect limits items a e).2.2.blockCache.entries ⊆ e.blockCache.entries ∧
      Answer.Made P (collect limits items a e).1 (collect limits items a e).2.1 := by
  fun_induction collect limits items a e with
  | case1 => exact ⟨List.Subset.refl _, made.finish⟩
  | case2 _ _ _ _ _ b _ found ih =>
    obtain ⟨handed, cache, ledger⟩ := hands_findBlock found
    obtain ⟨rest, whole⟩ := ih (fun b' h => hands b' (h.of_subset cache ledger))
      (made.addBlock (hands b (handed b rfl)))
    exact ⟨List.Subset.trans rest cache, whole⟩
  | case3 _ _ _ _ _ _ found => exact ⟨(hands_findBlock found).2.1, made.notFound⟩
  | case4 _ _ _ _ _ t _ found ih =>
    obtain ⟨cache, ledger⟩ := hands_findTransaction found
    obtain ⟨rest, whole⟩ := ih (fun b' h => hands b' (h.of_subset cache ledger))
      (made.addTransaction _ t)
    exact ⟨List.Subset.trans rest cache, whole⟩
  | case5 _ _ _ _ _ _ found => exact ⟨(hands_findTransaction found).1, made.notFound⟩

/-- A registered peer is sent the collected answer, and its marker is kept unless a last block was
collected. -/
theorem serve_registered {id : PeerId} (known : e.isRegistered id = true) (items : List Item) :
    (e.serve id items).peers = e.peers.modify id (fun p =>
        { p with bothHave := (collect e.config.cache items {} e).1.getD p.bothHave }) ∧
      (e.serve id items).journal =
        e.journal ++ (collect e.config.cache items {} e).2.1.map fun m => .sent id m := by
  obtain ⟨blockCache, transactionCache, eq⟩ := collect_eq e.config.cache items {} e
  unfold serve
  dsimp only
  rw [eq]
  split
  · rw [foldl_send (fun _ => id) (fun m => m)]
    exact ⟨rfl, rfl⟩
  next unknown => exact absurd known unknown

/-- **What serving a request hands out.**  Nothing is put into the cache.  A peer that is registered
is sent blocks that are handed out, and its marker is kept, or is one of these blocks. -/
theorem serve_hands (e : Engine σ) (id : PeerId) (items : List Item) :
    (e.serve id items).blockCache.entries ⊆ e.blockCache.entries ∧
      ((e.serve id items).peers = e.peers ∧ (e.serve id items).journal = e.journal ∨
        ∃ last messages, Answer.Made e.Hands last messages ∧
          (e.serve id items).peers = e.peers.modify id (fun p =>
            { p with bothHave := last.getD p.bothHave }) ∧
          (e.serve id items).journal = e.journal ++ messages.map fun m => .sent id m) := by
  obtain ⟨cache, made⟩ := hands_collect (e := e) e.config.cache items {} (fun _ h => h)
    ⟨nofun, nofun⟩
  obtain ⟨blockCache, transactionCache, eq⟩ := collect_eq e.config.cache items {} e
  unfold serve
  dsimp only
  split
  · rw [foldl_send (fun _ => id) (fun m => m)]
    refine ⟨cache, .inr ⟨_, _, made, ?_, ?_⟩⟩ <;> rw [eq] <;> rfl
  · refine ⟨cache, .inl ⟨?_, ?_⟩⟩ <;> rw [eq]

end BlockRelay.Engine

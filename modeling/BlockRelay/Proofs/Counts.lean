/-
# Counts of what is left to fetch

How many blocks a peer still has for us is the sum of what it claims in a reply and of what is
queued, and the sum is taken whenever progress is reported.  A reply after which some sum is no
word aborts as a whole (`maxUnsynced_cases`).  So all sums are words in every state of every run
(`Run.countsFit`), but nothing keeps a legal reply from aborting.

The bound on the blocks that can exist is what keeps a claim small.  A reply escapes it if it is
empty or if our chain has no block above the first one; the queue alone cannot make up for a claim
that the bound admits (`escapes_of_overflow`).
-/
import BlockRelay.Proofs.Legality
import BlockRelay.Proofs.Records

namespace BlockRelay

/-! ## The end of a queue -/

namespace Consecutive

/-- A stretch is no longer than its last height says. -/
theorem length_le {ids : List BlockId} {last : BlockId} (h : Consecutive ids)
    (ends : ids.getLast? = some last) : ids.length ≤ last.number.toNat + 1 := by
  cases ids with
  | nil => cases ends
  | cons first rest =>
    rw [h.number_getLast rfl ends]
    exact Nat.le_add_left ..

end Consecutive

namespace Peer

/-- What ends a joined queue has the height of what ends the reply. -/
theorem number_getLast_joinReply {p : Peer} {ids : List (BlockId × Bool)} (elsewhere : Bool)
    (queue : Consecutive p.toFetch) (reply : Consecutive (ids.map (·.1))) {last b : BlockId}
    (ends : (ids.map (·.1)).getLast? = some last)
    (mem : (p.joinReply ids elsewhere).toFetch.getLast? = some b) : b.number = last.number := by
  by_cases nothing : p.toFetch = []
  · rw [toFetch_joinReply_of_nil nothing] at mem
    have part : (if elsewhere then ids else (skipStored p.bothHave ids).2).map (·.1) <:+
        ids.map (·.1) := by
      split
      · exact List.suffix_refl _
      · exact (skipStored_suffix p.bothHave ids).map _
    obtain ⟨front, eq⟩ := part
    rw [← eq, List.getLast?_append, mem] at ends
    cases ends
    rfl
  · cases ids with
    | nil => cases ends
    | cons id rest =>
      obtain ⟨first, stored⟩ := id
      rw [toFetch_joinReply_cons nothing] at mem
      rw [List.map_cons] at reply ends
      cases rest with
      | cons next rest =>
        rw [List.map_cons, List.getLast?_cons_cons] at ends
        rw [List.map_cons, List.getLast?_append, ends] at mem
        cases mem
        rfl
      | nil =>
        rw [List.map_nil, List.getLast?_singleton] at ends
        cases ends
        rw [List.map_nil, List.append_nil] at mem
        -- what is kept ends where the reply begins, and both identities are faithful
        obtain ⟨list, kept, eq, same⟩ := toFetch_cutBehind_concat
          (List.ne_nil_of_mem (List.mem_of_getLast? mem))
        rw [eq, List.getLast?_concat] at mem
        cases mem
        have faithful : b.Faithful := queue.faithful b
          ((p.toFetch_cutBehind_prefix first stored).subset (by rw [eq]; simp))
        rw [faithful.eq_ofHash, same, ← (reply.faithful first (by simp)).eq_ofHash]

/-- Going on with a catch-up keeps what a peer claims. -/
@[simp] theorem unfetched_continueCatchUp (p : Peer) (ids : List (BlockId × Bool))
    (remaining : UInt64) (elsewhere : Bool) (recent : RecentBlocks) :
    (p.continueCatchUp ids remaining elsewhere recent).unfetched = remaining := by
  obtain ⟨_, _, _, _, eq⟩ := p.continueCatchUp_eq ids remaining elsewhere recent
  rw [eq]

/-- After a reply that names blocks the queue is no longer than the last height says. -/
theorem length_continueCatchUp_le {p : Peer} {ids : List (BlockId × Bool)} {last : BlockId}
    (remaining : UInt64) (elsewhere : Bool) (recent : RecentBlocks)
    (queue : Consecutive p.toFetch) (reply : Consecutive (ids.map (·.1)))
    (ends : (ids.map (·.1)).getLast? = some last) :
    (p.continueCatchUp ids remaining elsewhere recent).toFetch.length ≤ last.number.toNat + 1 := by
  have part := p.toFetch_continueCatchUp_suffix ids remaining elsewhere recent
  have stretch := consecutive_joinReply elsewhere queue reply
  cases final : (p.joinReply ids elsewhere).toFetch.getLast? with
  | none =>
    rw [List.getLast?_eq_none_iff.1 final] at part
    rw [List.suffix_nil.1 part]
    exact Nat.zero_le _
  | some b =>
    rw [← number_getLast_joinReply elsewhere queue reply ends final]
    exact part.length_le.trans (stretch.length_le final)

/-! ## Sums that are words -/

/-- Whether the number of blocks that a peer still has for us is a word. -/
def CountFits (p : Peer) : Prop := p.unfetched.toNat + p.toFetch.length < wordBound

/-- The number of blocks that a peer still has for us exists exactly if it is a word. -/
theorem unsynced_eq_ok_iff {p : Peer} {n : Nat} :
    p.unsynced = .ok n ↔ n = p.unfetched.toNat + p.toFetch.length ∧ p.CountFits :=
  Checked.add_eq_ok_iff

/-- A number that is no word aborts. -/
theorem unsynced_eq_error {p : Peer} (h : ¬ p.CountFits) : p.unsynced = .error .add :=
  if_neg h

/-- The number of blocks that a peer still has for us, be it a word or not. -/
def outstanding (p : Peer) : Nat := p.unfetched.toNat + p.toFetch.length

end Peer

namespace Engine

variable {σ : Type}

/-- Whether the counts of all registered peers are words. -/
def CountsFit (e : Engine σ) : Prop :=
  ∀ (id : PeerId) (p : Peer), e.peers[id]? = some p → p.CountFits

/-- **Counting.**  The largest count exists if all counts are words, and aborts otherwise. -/
theorem maxUnsynced_cases (e : Engine σ) :
    e.CountsFit ∧ (∃ n, e.maxUnsynced = .ok n) ∨ ¬ e.CountsFit ∧ e.maxUnsynced = .error .add := by
  have listed : e.CountsFit ↔ ∀ p ∈ e.peers.values, p.CountFits := by
    simp only [mem_values_peers, CountsFit]
    exact ⟨fun h p ⟨id, hp⟩ => h id p hp, fun h id p hp => h p ⟨id, hp⟩⟩
  suffices ∀ (peers : List Peer) (most : Nat),
      let counted := peers.foldlM (fun most p => do return max most (← p.unsynced)) most
      (∀ p ∈ peers, p.CountFits) ∧ (∃ n : Nat, counted = .ok n) ∨
        (¬ ∀ p ∈ peers, p.CountFits) ∧ counted = .error Overflow.add by
    rw [listed]
    exact this e.peers.values 0
  intro peers
  induction peers with
  | nil => exact fun most => .inl ⟨nofun, most, rfl⟩
  | cons p rest ih =>
    intro most
    by_cases fits : p.CountFits
    · simp only [List.foldlM_cons, Peer.unsynced_eq_ok_iff.2 ⟨rfl, fits⟩, List.forall_mem_cons,
        fits, true_and]
      exact ih _
    · simp only [List.foldlM_cons, Peer.unsynced_eq_error fits, List.forall_mem_cons, fits,
        false_and, not_false_eq_true, true_and]
      exact .inr rfl

/-- What is counted is the least bound of all counts. -/
theorem maxUnsynced_le_iff {e : Engine σ} {n bound : Nat} (counted : e.maxUnsynced = .ok n) :
    n ≤ bound ↔ ∀ (id : PeerId) (p : Peer), e.peers[id]? = some p → p.outstanding ≤ bound := by
  suffices ∀ (peers : List Peer) (most : Nat),
      peers.foldlM (fun most p => do return max most (← p.unsynced)) most = (.ok n : Checked Nat) →
        (n ≤ bound ↔ most ≤ bound ∧ ∀ p ∈ peers, p.outstanding ≤ bound) by
    rw [this e.peers.values 0 counted, and_iff_right (Nat.zero_le bound)]
    simp only [mem_values_peers]
    exact ⟨fun h id p hp => h p ⟨id, hp⟩, fun h p ⟨id, hp⟩ => h id p hp⟩
  intro peers
  induction peers with
  | nil =>
    intro most counted
    cases counted
    simp
  | cons p rest ih =>
    intro most counted
    rw [List.foldlM_cons] at counted
    obtain ⟨larger, compared, later⟩ := Checked.bind_eq_ok_iff.1 counted
    obtain ⟨own, summed, larger_eq⟩ := Checked.bind_eq_ok_iff.1 compared
    obtain ⟨rfl, -⟩ := Peer.unsynced_eq_ok_iff.1 summed
    cases larger_eq
    rw [ih _ later, Nat.max_le, List.forall_mem_cons, and_assoc]
    rfl

/-- Counting yields a number exactly if all counts are words. -/
theorem countsFit_iff {e : Engine σ} : e.CountsFit ↔ ∃ n, e.maxUnsynced = .ok n := by
  rcases e.maxUnsynced_cases with ⟨all, counted⟩ | ⟨some, aborts⟩
  · exact iff_of_true all counted
  · refine iff_of_false some fun ⟨n, counted⟩ => ?_
    cases aborts.symm.trans counted

/-- Counting aborts exactly if some count is no word. -/
theorem maxUnsynced_eq_error_iff {e : Engine σ} {o : Overflow} :
    e.maxUnsynced = .error o ↔ o = .add ∧ ¬ e.CountsFit := by
  rcases e.maxUnsynced_cases with ⟨all, n, counted⟩ | ⟨some, aborts⟩
  · rw [counted]
    exact iff_of_false nofun fun h => h.2 all
  · rw [aborts, Except.error.injEq, eq_comm, and_iff_left some]

/-- When all records can be counted and one of them is replaced, the new record decides. -/
theorem countsFit_insert_iff {e e' : Engine σ} (h : e.CountsFit) {id : PeerId} {p : Peer}
    (peers : e'.peers = e.peers.insert id p) : e'.CountsFit ↔ p.CountFits := by
  have found (other : PeerId) :
      e'.peers[other]? = if other = id then some p else e.peers[other]? := by
    rw [peers, Std.TreeMap.getElem?_insert]
    simp only [Std.LawfulEqCmp.compare_eq_iff_eq, eq_comm (a := id)]
  constructor
  · intro all
    exact all id p (by rw [found, if_pos rfl])
  · intro fits other q hq
    rw [found] at hq
    split at hq
    · cases hq
      exact fits
    · exact h other q hq

/-! ## One step -/

variable [Ledger σ]

/-- A revision that joins no reply leaves no more blocks to fetch. -/
theorem Revision.outstanding_le {e : Engine σ} {id : PeerId} {d : Deed} {p p' : Peer}
    (r : Revision e id d p p') (old : ∀ ids, d ≠ .joined id ids) :
    p'.outstanding ≤ p.outstanding := by
  cases r with
  | joined => exact absurd rfl (old _)
  | restarted p => exact Nat.zero_le _
  | announced p items =>
    rw [Peer.announceAll_eq]
    exact Nat.le_refl _
  | requested p batch =>
    rw [Peer.requestBlocks_eq]
    exact Nat.le_refl _
  | settled p hash b =>
    obtain ⟨_, _, settled⟩ := settlePeer_eq b (takeFront hash p)
    obtain ⟨_, _, rest, taken⟩ := takeFront_eq hash p
    rw [settled, taken]
    exact Nat.add_le_add_left rest.length_le _
  | refused p hash =>
    obtain ⟨_, _, rest, taken⟩ := takeFront_eq hash p
    rw [taken]
    exact Nat.add_le_add_left rest.length_le _
  | same | welcomed | summarized | answered | finished | noted | reserved | served | accepted
  | tookBlock | tookTransaction | forgot => exact Nat.le_refl _

/-- A revision that joins no reply leaves a count that is a word. -/
theorem Revision.countFits {e : Engine σ} {id : PeerId} {d : Deed} {p p' : Peer}
    (r : Revision e id d p p') (old : ∀ ids, d ≠ .joined id ids) (h : p.CountFits) :
    p'.CountFits :=
  Nat.lt_of_le_of_lt (r.outstanding_le old) h

/-- **No step leaves a count that is no word.**  A step that joins a reply counts. -/
theorem CountsFit.step {d : Deed} {e e' : Engine σ} (s : Step d e e') (h : e.CountsFit) :
    e'.CountsFit := by
  by_cases joins : ∃ id ids, d = .joined id ids
  · obtain ⟨id, ids, rfl⟩ := joins
    cases s with
    | takeUp hp asked legal done =>
      obtain ⟨n, counted, done⟩ := Checked.bind_eq_ok_iff.1 done
      have fits := countsFit_iff.2 ⟨n, counted⟩
      split at done <;> cases done <;> exact fits
  · intro id p' hp'
    rcases s.revised id p' hp' with ⟨-, rfl⟩ | ⟨p, hp, r⟩
    · show 0 + 0 < wordBound
      decide
    · exact r.countFits (fun ids eq => joins ⟨id, ids, eq⟩) (h id p hp)

/-- **In every run all counts are words.** -/
theorem Run.countsFit {config : Config} {ledger : σ} {clock : Clock} {start e : Engine σ}
    {past : List (Moment σ)} (run : Run start past e)
    (started : Engine.start config ledger clock = .ok start) : e.CountsFit := by
  refine run.invariant (I := CountsFit) ?_ (fun s h => h.step s) fun _ _ h => h
  intro id p hp
  cases (peers_of_start started id).symm.trans hp

/-! ## Replies that abort -/

/-- The record of a peer after a reply of it was joined. -/
def rejoin (e : Engine σ) (id : PeerId) (p : Peer) (ids : List BlockId) (remaining : UInt64) :
    Peer :=
  { p with summary := none }.continueCatchUp
    (ids.map fun b => (b, Ledger.containsBlock e.ledger b)) remaining (e.frontElsewhere id ids)
    e.recent

/-- A reply that brings nothing new names one block at most. -/
theorem length_le_of_nothingNew {p : Peer} {ids : List (BlockId × Bool)}
    (nothing : p.nothingNew ids = true) : ids.length ≤ 1 := by
  simp only [Peer.nothingNew, Bool.and_eq_true] at nothing
  obtain ⟨⟨known, -⟩, -⟩ := nothing
  rcases ids with _ | ⟨first, _ | ⟨second, rest⟩⟩
  · exact Nat.zero_le 1
  · exact Nat.le_refl 1
  · cases known

/-- A reply that brings nothing new leaves a count that is a word. -/
theorem countFits_of_nothingNew {e : Engine σ} (id : PeerId) {p : Peer} {ids : List BlockId}
    (nothing : p.nothingNew (ids.map fun b => (b, Ledger.containsBlock e.ledger b)) = true) :
    p.CountFits ∧ (e.rejoin id p ids 0).CountFits := by
  obtain ⟨empty, claim⟩ := Peer.fetched_of_nothingNew nothing
  have few : ids.length ≤ 1 := by
    rw [← List.length_map]
    exact length_le_of_nothingNew nothing
  have queue : (e.rejoin id p ids 0).toFetch.length ≤ ids.length := by
    refine (Peer.toFetch_continueCatchUp_suffix ..).length_le.trans ?_
    rw [Peer.toFetch_joinReply_of_nil (p := { p with summary := none }) empty, List.length_map]
    split
    · rw [List.length_map]
    · exact (skipStored_suffix ..).length_le.trans (List.length_map _).le
  constructor
  · rw [Peer.CountFits, claim, empty]
    decide
  · rw [Peer.CountFits, rejoin, Peer.unfetched_continueCatchUp]
    exact Nat.lt_of_le_of_lt (Nat.add_le_add_left (queue.trans few) _) (by decide)

/-- The end of a catch-up aborts exactly if the count of the peer is no word. -/
theorem finishCatchUp_eq_error_iff {e : Engine σ} (h : e.CountsFit) {id : PeerId} {p : Peer}
    {o : Overflow} : e.finishCatchUp id p = .error o ↔ o = .add ∧ ¬ p.CountFits := by
  have decided : { e with peers := e.peers.insert id p.endCatchUp }.CountsFit ↔ p.CountFits :=
    countsFit_insert_iff (p := p.endCatchUp) h rfl
  rw [← decided, ← maxUnsynced_eq_error_iff]
  refine Checked.bind_eq_error_iff.trans (or_iff_left ?_)
  rintro ⟨n, -, done⟩
  cases done

/-- Going on with a catch-up aborts exactly if the count of the peer is no word. -/
theorem takeUp_eq_error_iff {e : Engine σ} (h : e.CountsFit) {id : PeerId} {p : Peer}
    {enough : Bool} {o : Overflow} :
    e.takeUp id p enough = .error o ↔ o = .add ∧ ¬ p.CountFits := by
  have decided : { e with
      peers := e.peers.insert id p
      issueDue := e.issueDue || enough }.CountsFit ↔ p.CountFits := countsFit_insert_iff h rfl
  rw [← decided, ← maxUnsynced_eq_error_iff]
  refine Checked.bind_eq_error_iff.trans (or_iff_left ?_)
  rintro ⟨n, -, done⟩
  cases done

/-- **When a legal reply aborts.**  It aborts exactly if the count of the peer after the reply is
no word. -/
theorem perform_reply_eq_error_iff {e : Engine σ} (h : e.CountsFit) {id : PeerId} {p : Peer}
    {s : SummaryRequest} {ids : List BlockId} {remaining : UInt64} {o : Overflow}
    (hp : e.peers[id]? = some p) (asked : p.summary = some s)
    (legal : e.chainFacts.judge e.config.net e.clock.wallTime s.ids ids remaining =
      .ok (.ok ())) :
    e.perform (.receive id (.summaryReply ids remaining)) = .error o ↔
      o = .add ∧ ¬ (e.rejoin id p ids remaining).CountFits := by
  have received : e.perform (.receive id (.summaryReply ids remaining)) = .error o ↔
      e.receiveReply id ids remaining = .error o := by
    rw [perform_reply hp]
    cases e.receiveReply id ids remaining <;> simp [Except.map]
  rw [received, receiveReply_eq_of_legal hp asked legal]
  split
  next nothing =>
    rw [Bool.and_eq_true, decide_eq_true_eq] at nothing
    obtain ⟨rfl, nothing⟩ := nothing
    obtain ⟨old, new⟩ := countFits_of_nothingNew id nothing
    rw [finishCatchUp_eq_error_iff h]
    exact iff_of_false (fun aborts => aborts.2 old) fun aborts => aborts.2 new
  next =>
    have named : (ids.map fun b => (b, Ledger.containsBlock e.ledger b)).map (·.1) = ids := by
      simp [Function.comp_def]
    unfold resumeCatchUp
    rw [named]
    refine Iff.trans (Checked.bind_eq_error_iff.trans (or_iff_left ?_)) (takeUp_eq_error_iff h)
    rintro ⟨e', -, done⟩
    split at done <;> cases done

/-! ## Claims that are too large -/

/-- **How a claim escapes the bound.**  A reply aborts only if it names no block, if our chain has
no block above the first one, or if every word is within the bound. -/
theorem escapes_of_overflow {e : Engine σ} {id : PeerId} {p : Peer} {s : SummaryRequest}
    {ids : List BlockId} {remaining : UInt64} (queue : Consecutive p.toFetch)
    (legal : e.chainFacts.judge e.config.net e.clock.wallTime s.ids ids remaining =
      .ok (.ok ()))
    (large : ¬ (e.rejoin id p ids remaining).CountFits) :
    ids = [] ∨ (Ledger.head e.ledger).number = 0 ∨
      e.chainFacts.futureBound e.config.net e.clock.wallTime = .ok maxWord := by
  cases ends : ids.getLast? with
  | none => exact .inl (List.getLast?_eq_none_iff.1 ends)
  | some last =>
    refine .inr (or_iff_not_imp_left.2 fun above => ?_)
    obtain ⟨rules, fits⟩ := ChainFacts.judge_eq_ok_iff.1 legal
    have fits := fits above (List.ne_nil_of_mem (List.mem_of_getLast? ends))
    have named : (ids.map fun b => (b, Ledger.containsBlock e.ledger b)).map (·.1) = ids := by
      simp [Function.comp_def]
    have short : (e.rejoin id p ids remaining).toFetch.length ≤ last.number.toNat + 1 :=
      Peer.length_continueCatchUp_le (p := { p with summary := none }) remaining _ _ queue
        (named.symm ▸ rules.stretch) (named.symm ▸ ends)
    rw [Peer.CountFits, rejoin, Peer.unfetched_continueCatchUp, ← rejoin, Nat.not_lt] at large
    -- the claim and the last height together reach the largest word, and the horizon is a word
    have reached : saturatingAdd last.number.toNat remaining.toNat = maxWord := by
      unfold saturatingAdd maxWord
      omega
    refine ChainFacts.futureBound_eq_ok_iff.2 ⟨?_, fits⟩
    have within := rules.withinHorizon above last ends
    have word := fits.2
    unfold maxWord at reached ⊢
    omega

/-- **When counts overflow.**  In every run the counts of all registered peers are words, so that a
census can be taken.  A legal reply aborts exactly if what it claims and what is then queued are no
word together, and this takes a reply that escapes the bound on the blocks that can exist. -/
theorem counts_overflow_iff {config : Config} {ledger : σ} {clock : Clock} {start e : Engine σ}
    {past : List (Moment σ)} (started : Engine.start config ledger clock = .ok start)
    (run : Run start past e) :
    ((∀ (id : PeerId) (p : Peer), e.peers[id]? = some p →
        p.unfetched.toNat + p.toFetch.length < wordBound) ∧ ∃ c, e.census = .ok c) ∧
      ∀ (id : PeerId) (p : Peer) (s : SummaryRequest) (ids : List BlockId) (remaining : UInt64),
        e.peers[id]? = some p → p.summary = some s →
          e.chainFacts.judge e.config.net e.clock.wallTime s.ids ids remaining = .ok (.ok ()) →
            let overflows :=
              wordBound ≤ remaining.toNat + (e.rejoin id p ids remaining).toFetch.length
            ((∃ o, e.perform (.receive id (.summaryReply ids remaining)) = .error o) ↔ overflows) ∧
              (overflows → ids = [] ∨ (Ledger.head e.ledger).number = 0 ∨
                e.chainFacts.futureBound e.config.net e.clock.wallTime = .ok maxWord) := by
  have fits := run.countsFit started
  have queues := run.invariant (I := QueuesConsecutive) (.start started) (fun s h => h.step s)
    fun _ _ h => h
  refine ⟨⟨fits, ?_⟩, fun id p s ids remaining hp asked legal => ?_⟩
  · obtain ⟨n, counted⟩ := countsFit_iff.1 fits
    exact ⟨_, Checked.bind_eq_ok_iff.2 ⟨n, counted, rfl⟩⟩
  · have large : wordBound ≤ remaining.toNat + (e.rejoin id p ids remaining).toFetch.length ↔
        ¬ (e.rejoin id p ids remaining).CountFits := by
      rw [Peer.CountFits, rejoin, Peer.unfetched_continueCatchUp, Nat.not_lt]
    dsimp only
    rw [large]
    refine ⟨?_, escapes_of_overflow (queues id p.plan (planOf_eq hp)) legal⟩
    simp only [perform_reply_eq_error_iff fits hp asked legal]
    exact ⟨fun ⟨_, _, h⟩ => h, fun h => ⟨_, rfl, h⟩⟩

/-- Whether a reply to the outstanding summary of a peer is legal and overflows. -/
def overflowsAfter (e : Engine σ) (id : PeerId) (ids : List BlockId) (remaining : UInt64) : Bool :=
  (e.peers[id]?).any fun p => p.summary.any fun s =>
    e.chainFacts.judge e.config.net e.clock.wallTime s.ids ids remaining = .ok (.ok ()) &&
      wordBound ≤ remaining.toNat + (e.rejoin id p ids remaining).toFetch.length

/-- The first summary is answered with one block and with a claim of as many blocks as a word can
count. -/
theorem exists_overflowsAfter :
    ∃ (start e : Engine ChainLedger) (past : List (Moment ChainLedger)) (p : Peer)
      (s : SummaryRequest),
      Engine.start {} (.ofGenesis (.genesis 0) 0 10) {} = .ok start ∧ Run start past e ∧
        e.peers[PeerId.mk 1]? = some p ∧ p.summary = some s ∧
          e.chainFacts.judge e.config.net e.clock.wallTime s.ids
              [(Block.bare 0).id, (Block.bare 1).id] 0xffffffffffffffff = .ok (.ok ()) ∧
            wordBound ≤ (0xffffffffffffffff : UInt64).toNat + (e.rejoin ⟨1⟩ p
              [(Block.bare 0).id, (Block.bare 1).id] 0xffffffffffffffff).toFetch.length := by
  obtain ⟨start, past, e, started, run, checked⟩ := exists_run {}
    (ChainLedger.ofGenesis (.genesis 0) 0 10) {} [.register ⟨1⟩ 1]
    (fun r => r.2.overflowsAfter ⟨1⟩ [(Block.bare 0).id, (Block.bare 1).id] 0xffffffffffffffff)
    (by decide +kernel)
  simp only [overflowsAfter, Option.any_eq_true, Bool.and_eq_true, decide_eq_true_eq] at checked
  obtain ⟨p, hp, s, asked, legal, large⟩ := checked
  exact ⟨start, e, past, p, s, started, run, hp, asked, legal, large⟩

/-- The reply with the claim aborts, and it escapes the bound. -/
theorem claim_overflows :
    ∃ (start e : Engine ChainLedger) (past : List (Moment ChainLedger)),
      Engine.start {} (.ofGenesis (.genesis 0) 0 10) {} = .ok start ∧ Run start past e ∧
        (∃ c, e.census = .ok c) ∧
          (∃ o, e.perform (.receive ⟨1⟩ (.summaryReply [(Block.bare 0).id, (Block.bare 1).id]
            0xffffffffffffffff)) = .error o) ∧
            ((Ledger.head e.ledger).number = 0 ∨
              e.chainFacts.futureBound e.config.net e.clock.wallTime = .ok maxWord) := by
  obtain ⟨start, e, past, p, s, started, run, hp, asked, legal, large⟩ := exists_overflowsAfter
  obtain ⟨⟨-, census⟩, replies⟩ := counts_overflow_iff started run
  obtain ⟨aborts, escapes⟩ := replies ⟨1⟩ p s _ _ hp asked legal
  exact ⟨start, e, past, started, run, census, aborts.2 large,
    (escapes large).resolve_left (List.cons_ne_nil _ _)⟩

/-- With the default configuration a legal reply may abort. -/
theorem legal_reply_aborts :
    ¬ ∀ (ledger : ChainLedger) (clock : Clock) (start e : Engine ChainLedger)
      (past : List (Moment ChainLedger)) (id : PeerId) (p : Peer) (s : SummaryRequest)
      (ids : List BlockId) (remaining : UInt64),
      Engine.start {} ledger clock = .ok start → Run start past e →
        e.peers[id]? = some p → p.summary = some s →
          e.chainFacts.judge e.config.net e.clock.wallTime s.ids ids remaining = .ok (.ok ()) →
            ∃ r, e.perform (.receive id (.summaryReply ids remaining)) = .ok r := by
  intro always
  obtain ⟨start, e, past, p, s, started, run, hp, asked, legal, large⟩ := exists_overflowsAfter
  obtain ⟨r, done⟩ := always _ _ start e past ⟨1⟩ p s _ _ started run hp asked legal
  have aborts := (perform_reply_eq_error_iff (run.countsFit started) hp asked legal).2
    ⟨rfl, fun fits => Nat.not_lt.2 large (by simpa [Peer.CountFits, rejoin] using fits)⟩
  cases done.symm.trans aborts

end Engine

end BlockRelay

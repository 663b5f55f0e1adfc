/-
# Taking in announcements

An announcement is taken in as a whole or not at all.  Nothing comes of one from a peer that is not
registered or that is in a catch-up on either side, and one with fresh transactions is turned away
while they come too thick.

Otherwise the announcement is noted in the record of its peer, the listed items that are wanted are
offered as candidates, and the flood window counts the transactions that become candidates
(`Engine.Intake`); nothing else changes (`announcement_all_or_nothing`).
-/
import Mathlib.Data.List.Induction
import BlockRelay.Engine.Run
import BlockRelay.Ledger.Chain

namespace BlockRelay

variable {σ : Type}

/-! ## Offering several items -/

namespace CandidateQueue

/-- Offer several items, one after the other. -/
def offerAll (q : CandidateQueue) (items : List Item) (now : Nat) : CandidateQueue :=
  items.foldl (fun q i => (q.offer i now).2) q

/-- The transactions among the candidates whose hashes were no candidates in `q`. -/
def newTransactions (q q' : CandidateQueue) : Nat :=
  q'.items.countP fun i => i.kind = .transaction && !q.contains i.hash

/-- Forgetting a hash that is no candidate changes no item. -/
theorem items_erase_of_not_contains {q : CandidateQueue} {h : Hash} (new : q.contains h = false) :
    (q.erase h).items = q.items := by
  have same : (q.erase h).entries = q.entries := by
    refine List.filter_eq_self.2 fun c hc => ?_
    rw [decide_eq_true_eq]
    intro same
    rw [contains_iff.2 ⟨c, hc, same⟩] at new
    cases new
  rw [items, same, items]

/-- An item is new where its hash is no candidate. -/
theorem fst_offer (q : CandidateQueue) (i : Item) (now : Nat) :
    (q.offer i now).1 = !q.contains i.hash := by
  unfold offer
  split
  next old => rw [old, Bool.not_true]
  next new =>
    rw [Bool.not_eq_true] at new
    rw [new, Bool.not_false]

/-- An offered item is a candidate already, or becomes the last one. -/
theorem items_offer (q : CandidateQueue) (i : Item) (now : Nat) :
    (q.offer i now).2.items = if q.contains i.hash then q.items else q.items ++ [i] := by
  unfold offer
  split
  next => exact items_refresh ..
  next new =>
    rw [Bool.not_eq_true] at new
    rw [items_requeue, items_erase_of_not_contains new]

/-- The candidates after an item was offered. -/
theorem contains_offer {q : CandidateQueue} {i : Item} {now : Nat} {h : Hash} :
    (q.offer i now).2.contains h = true ↔ q.contains h = true ∨ i.hash = h := by
  simp only [contains_iff_mem_items, items_offer]
  split
  next old =>
    refine ⟨.inl, ?_⟩
    rintro (mem | rfl)
    · exact mem
    · exact old
  next =>
    simp only [List.mem_append, List.mem_singleton]
    constructor
    · rintro ⟨j, mem | rfl, same⟩
      · exact .inl ⟨j, mem, same⟩
      · exact .inr same
    · rintro (⟨j, mem, same⟩ | same)
      · exact ⟨j, .inl mem, same⟩
      · exact ⟨i, .inr rfl, same⟩

/-- The candidates after several items were offered. -/
theorem contains_offerAll {q : CandidateQueue} {items : List Item} {now : Nat} {h : Hash} :
    (q.offerAll items now).contains h = true ↔
      q.contains h = true ∨ ∃ i ∈ items, i.hash = h := by
  unfold offerAll
  induction items generalizing q with
  | nil => simp
  | cons i rest ih =>
    rw [List.foldl_cons, ih, contains_offer]
    simp only [List.mem_cons, exists_eq_or_imp]
    tauto

/-- Offering one more item after several. -/
theorem offerAll_concat (q : CandidateQueue) (items : List Item) (i : Item) (now : Nat) :
    q.offerAll (items ++ [i]) now = ((q.offerAll items now).offer i now).2 := by
  simp [offerAll]

/-- An offered transaction counts if it was no candidate. -/
theorem newTransactions_offer {q q' : CandidateQueue}
    (grown : ∀ h : Hash, q.contains h = true → q'.contains h = true) (i : Item) (now : Nat) :
    q.newTransactions (q'.offer i now).2 = q.newTransactions q' +
      if !q'.contains i.hash && i.kind = .transaction then 1 else 0 := by
  unfold newTransactions
  rw [items_offer]
  cases old : q'.contains i.hash with
  | true => simp
  | false =>
    have new : q.contains i.hash = false := by
      rw [← Bool.not_eq_true] at old ⊢
      exact fun h => old (grown _ h)
    simp [List.countP_append, List.countP_singleton, new]

/-- Nothing is new in an unchanged queue. -/
theorem newTransactions_self (q : CandidateQueue) : q.newTransactions q = 0 := by
  unfold newTransactions
  rw [List.countP_eq_zero]
  intro i mem
  have old : q.contains i.hash = true := contains_iff_mem_items.2 ⟨i, mem, rfl⟩
  simp [old]

end CandidateQueue

namespace FloodWindow

/-- Count several announcements. -/
def increaseBy (w : FloodWindow) (n : Nat) : FloodWindow := { w with current := w.current + n }

/-- Every announcement adds one to the total. -/
theorem total_increaseBy (w : FloodWindow) (n : Nat) : (w.increaseBy n).total = w.total + n := by
  show w.current + n + w.older.foldr (· + ·) 0 = w.current + w.older.foldr (· + ·) 0 + n
  omega

end FloodWindow

namespace Engine

/-! ## What an announcement holds -/

/-- Whether a listed item is fresh: no listed item with its hash is in the cache of the kind of
that item, and it is not a recently accepted block. -/
def IsFresh (e : Engine σ) (items : List Item) (i : Item) : Prop :=
  i ∈ items ∧ (∀ j ∈ items, j.hash = i.hash → e.isCached j = false) ∧
    (i.kind = .block → e.recent.contains (BlockId.ofHash i.hash) = false)

/-- Whether an announcement of an item is noted: the item is fresh, and we announced its hash to
nobody. -/
def IsNotable (e : Engine σ) (items : List Item) (i : Item) : Prop :=
  e.IsFresh items i ∧
    ∀ (id : PeerId) (p : Peer), e.peers[id]? = some p → p.announced.contains i.hash = false

/-- Whether an item is offered as a candidate: its announcement is noted, nobody is asked for it,
and its hash is not quarantined. -/
def IsWelcome (e : Engine σ) (items : List Item) (i : Item) : Prop :=
  e.IsNotable items i ∧
    (∀ (id : PeerId) (p : Peer), e.peers[id]? = some p → p.reserved.contains i = false) ∧
    e.isQuarantined i.hash = false

/-- Whether nothing comes of an announcement of a peer: the peer is not registered, or either side
is in a catch-up with the other. -/
def IsDeafTo (e : Engine σ) (id : PeerId) : Prop :=
  ∀ p, e.peers[id]? = some p → p.needFromPeer = true ∨ p.needFromUs = true

/-- Whether an announcement of a peer is turned away: a fresh item is a transaction, while the peer
has announced more than `cap` hashes or the flood window holds more than `ceiling`. -/
def IsFloodedBy (e : Engine σ) (id : PeerId) (items : List Item) (cap ceiling : Nat) : Prop :=
  (∃ i, e.IsFresh items i ∧ i.kind = .transaction) ∧
    ((∃ p, e.peers[id]? = some p ∧ cap < p.advertised.size) ∨ ceiling < e.flood.total)

/-- The fresh items are those that are listed as fresh. -/
theorem mem_freshItems {e : Engine σ} {items : List Item} {i : Item} :
    i ∈ e.freshItems items ↔ e.IsFresh items i := by
  unfold freshItems IsFresh
  simp only [List.mem_filter, Bool.and_eq_true, Bool.not_eq_true', List.any_eq_false,
    Bool.and_eq_false_imp, decide_eq_true_eq, not_and, Bool.not_eq_true]

/-- Whether we announced the hash of an item to nobody. -/
def isUntold (e : Engine σ) (i : Item) : Bool := !e.anyPeer (·.announced.contains i.hash)

/-- Whether nobody is asked for an item, and it is not quarantined. -/
def isUnasked (e : Engine σ) (i : Item) : Bool :=
  !e.anyPeer (·.reserved.contains i) && !e.isQuarantined i.hash

/-- No registered peer satisfies a predicate exactly when no record does. -/
theorem anyPeer_eq_false_iff {e : Engine σ} {f : Peer → Bool} :
    e.anyPeer f = false ↔ ∀ (id : PeerId) (p : Peer), e.peers[id]? = some p → f p = false := by
  rw [← Bool.not_eq_true, anyPeer_iff]
  push Not
  simp only [Bool.not_eq_true]

/-- The fresh items that we announced to nobody are those whose announcements are noted. -/
theorem mem_filter_isUntold {e : Engine σ} {items : List Item} {i : Item} :
    i ∈ (e.freshItems items).filter e.isUntold ↔ e.IsNotable items i := by
  unfold isUntold IsNotable
  rw [List.mem_filter, mem_freshItems, Bool.not_eq_true', anyPeer_eq_false_iff]

/-- Those of them that nobody is asked for and that are not quarantined are offered. -/
theorem mem_filter_isUnasked {e : Engine σ} {items : List Item} {i : Item} :
    i ∈ ((e.freshItems items).filter e.isUntold).filter e.isUnasked ↔ e.IsWelcome items i := by
  unfold isUnasked IsWelcome
  rw [List.mem_filter, mem_filter_isUntold, Bool.and_eq_true, Bool.not_eq_true',
    Bool.not_eq_true', anyPeer_eq_false_iff]

/-! ## Taking in -/

/-- The effect of noting the announcements `noted` of a peer and offering the items `offered`.  In
the record of the peer the time is noted under the hashes of `noted`, and no other record changes.
The items of `offered` are offered one after the other, so that their hashes are candidates
afterwards and no other hash becomes one.  The flood window counts the transactions that become
candidates.  Nothing else changes. -/
structure Intake (id : PeerId) (noted offered : List Item) (e e' : Engine σ) : Prop where
  record : ∀ p, e.peers[id]? = some p → ∃ p', e'.peers[id]? = some p' ∧
    p' = { p with advertised := p'.advertised } ∧
    ∀ h : Hash, p'.advertised[h]? =
      if h ∈ noted.map (·.hash) then some e.now else p.advertised[h]?
  others : ∀ other : PeerId, other ≠ id → e'.peers[other]? = e.peers[other]?
  queue : e'.candidates = e.candidates.offerAll offered e.now
  candidates : ∀ h : Hash, e'.candidates.contains h = true ↔
    e.candidates.contains h = true ∨ ∃ i ∈ offered, i.hash = h
  flood : e'.flood = e.flood.increaseBy (e.candidates.newTransactions e'.candidates)
  total : e'.flood.total = e.flood.total + e.candidates.newTransactions e'.candidates
  rest : e' = { e with peers := e'.peers, candidates := e'.candidates, flood := e'.flood }

namespace Intake

variable {id : PeerId} {noted offered : List Item} {e e₁ e₂ : Engine σ}
/-- What is said of the queue and of the flood window follows from what was offered. -/
theorem of_queue
    (record : ∀ p, e.peers[id]? = some p → ∃ p', e₁.peers[id]? = some p' ∧
      p' = { p with advertised := p'.advertised } ∧
      ∀ h : Hash, p'.advertised[h]? =
        if h ∈ noted.map (·.hash) then some e.now else p.advertised[h]?)
    (others : ∀ other : PeerId, other ≠ id → e₁.peers[other]? = e.peers[other]?)
    (queue : e₁.candidates = e.candidates.offerAll offered e.now)
    (flood : e₁.flood = e.flood.increaseBy (e.candidates.newTransactions e₁.candidates))
    (rest : e₁ = { e with peers := e₁.peers, candidates := e₁.candidates, flood := e₁.flood }) :
    Intake id noted offered e e₁ := by
  refine ⟨record, others, queue, fun h => ?_, flood, ?_, rest⟩
  · rw [queue, CandidateQueue.contains_offerAll]
  · rw [flood, FloodWindow.total_increaseBy]

/-- Nothing is taken in. -/
theorem refl (id : PeerId) (e : Engine σ) : Intake id [] [] e e := by
  refine of_queue (fun p hp => ⟨p, hp, rfl, fun h => ?_⟩) (fun _ _ => rfl) rfl ?_ rfl
  · simp
  · rw [CandidateQueue.newTransactions_self]
    rfl

/-- Taking in announcements changes no record in what was announced to the peer, or in what is
reserved on it. -/
theorem anyPeer_eq (t : Intake id noted offered e e₁) {f : Peer → Bool}
    (keeps : ∀ (p : Peer) (advertised : Std.TreeMap Hash Nat),
      f { p with advertised := advertised } = f p)
    (known : ∃ p, e.peers[id]? = some p) : e₁.anyPeer f = e.anyPeer f := by
  obtain ⟨p, hp⟩ := known
  obtain ⟨p', hp', same, -⟩ := t.record p hp
  have shows : f p' = f p := by
    rw [same]
    exact keeps p _
  rw [Bool.eq_iff_iff, anyPeer_iff, anyPeer_iff]
  constructor
  · rintro ⟨other, q, hq, holds⟩
    by_cases eq : other = id
    · subst eq
      obtain rfl : p' = q := Option.some_inj.1 (hp'.symm.trans hq)
      exact ⟨other, p, hp, shows ▸ holds⟩
    · exact ⟨other, q, (t.others other eq).symm.trans hq, holds⟩
  · rintro ⟨other, q, hq, holds⟩
    by_cases eq : other = id
    · subst eq
      obtain rfl : p = q := Option.some_inj.1 (hp.symm.trans hq)
      exact ⟨other, p', hp', shows.symm ▸ holds⟩
    · exact ⟨other, q, (t.others other eq).trans hq, holds⟩

/-- Noting one more announcement. -/
theorem note (t : Intake id noted offered e e₁) (i : Item) :
    Intake id (noted ++ [i]) offered e (e₁.modifyPeer id fun p => p.advertise i.hash e₁.now) := by
  have now : e₁.now = e.now := by
    rw [t.rest]
    rfl
  refine of_queue ?_ ?_ t.queue t.flood ?_
  · intro p hp
    obtain ⟨p', hp', same, marks⟩ := t.record p hp
    refine ⟨p'.advertise i.hash e₁.now, ?_, ?_, fun h => ?_⟩
    · rw [peers_modifyPeer, if_pos rfl, hp', Option.map_some]
    · rw [same]
      rfl
    · rw [Peer.advertise, Std.TreeMap.getElem?_insert, marks, now, List.map_append,
        List.map_singleton]
      simp only [Std.LawfulEqCmp.compare_eq_iff_eq, List.mem_append, List.mem_singleton,
        eq_comm (a := h)]
      by_cases before : h ∈ noted.map (·.hash) <;> by_cases here : i.hash = h <;>
        simp [before, here]
  · intro other ne
    rw [peers_modifyPeer, if_neg ne]
    exact t.others other ne
  · rw [modifyPeer, t.rest]

/-- Offering one more item. -/
theorem offer (t : Intake id noted offered e e₁) (i : Item) :
    Intake id noted (offered ++ [i]) e (e₁.offer i) := by
  have now : e₁.now = e.now := by
    rw [t.rest]
    rfl
  have grown (h : Hash) (old : e.candidates.contains h = true) :
      e₁.candidates.contains h = true := (t.candidates h).2 (.inl old)
  refine of_queue t.record t.others ?_ ?_ ?_
  · show (e₁.candidates.offer i e₁.now).2 = _
    rw [CandidateQueue.offerAll_concat, t.queue, now]
  · show (if (e₁.candidates.offer i e₁.now).1 && i.kind = .transaction then e₁.flood.increase
      else e₁.flood) = e.flood.increaseBy
        (e.candidates.newTransactions (e₁.candidates.offer i e₁.now).2)
    rw [CandidateQueue.newTransactions_offer grown, CandidateQueue.fst_offer, t.flood]
    split <;> rfl
  · rw [Engine.offer, t.rest]

/-- Taking in one more item. -/
theorem takeIn (t : Intake id noted offered e e₁) (i : Item) :
    Intake id (noted ++ [i].filter e₁.isUntold)
      (offered ++ ([i].filter e₁.isUntold).filter e₁.isUnasked) e (e₁.takeIn id i) := by
  unfold Engine.takeIn
  split
  next told =>
    have passed : e₁.isUntold i = false := by rw [isUntold, told, Bool.not_true]
    simpa [passed] using t
  next untold =>
    have noted : e₁.isUntold i = true := by rw [isUntold, Bool.not_eq_true']; simpa using untold
    rw [List.filter_cons_of_pos noted]
    dsimp only
    split
    next unasked =>
      have unasked : e₁.isUnasked i = true := unasked
      rw [List.filter_cons_of_pos unasked]
      exact (t.note i).offer i
    next asked =>
      have asked : ¬ e₁.isUnasked i = true := asked
      rw [List.filter_cons_of_neg asked]
      simpa using t.note i

end Intake

/-- **Taking in a list.**  Of the items that are taken in one after the other, those are noted that
we announced to nobody, and those of them are offered that nobody is asked for and that are not
quarantined. -/
theorem intake_foldl_takeIn {e : Engine σ} {id : PeerId} (known : ∃ p, e.peers[id]? = some p)
    (fresh : List Item) :
    Intake id (fresh.filter e.isUntold) ((fresh.filter e.isUntold).filter e.isUnasked) e
      (fresh.foldl (fun e i => e.takeIn id i) e) := by
  -- what was taken in before an item does not bear on whether it is noted or offered
  induction fresh using List.reverseRecOn with
  | nil => exact .refl id e
  | append_singleton fresh i ih =>
    have untold : (fresh.foldl (fun e i => e.takeIn id i) e).isUntold = e.isUntold := by
      funext j
      exact congrArg not (ih.anyPeer_eq (fun _ _ => rfl) known)
    have unasked : (fresh.foldl (fun e i => e.takeIn id i) e).isUnasked = e.isUnasked := by
      funext j
      have reserved := ih.anyPeer_eq (f := (·.reserved.contains j)) (fun _ _ => rfl) known
      rw [isUnasked, isUnasked, reserved, ih.rest]
      rfl
    have next := ih.takeIn i
    rw [untold, unasked] at next
    rw [List.foldl_concat, List.filter_append, List.filter_append]
    exact next

/-- Transactions come too thick from one peer, or from the whole network. -/
theorem overBudget_eq {e : Engine σ} {ceiling : Nat}
    (bounded : e.config.net.floodCeiling = .ok ceiling) (p : Peer) (cap : Nat) :
    e.overBudget p cap = .ok (p.inventoryFull cap || ceiling < e.flood.total) := by
  unfold overBudget
  rw [bounded]
  cases p.inventoryFull cap <;> rfl

variable [Ledger σ]

/-- What comes of an announcement from a registered peer. -/
theorem receive_announce {e : Engine σ} {id : PeerId} {p : Peer} (hp : e.peers[id]? = some p)
    {cap ceiling : Nat} (capped : e.config.net.inventoryCap = .ok cap)
    (bounded : e.config.net.floodCeiling = .ok ceiling) (items : List Item) :
    e.receive id (.announce items) = .ok (
      if p.needFromPeer || p.needFromUs then e
      else if (e.freshItems items).any (·.kind = .transaction) &&
          (p.inventoryFull cap || ceiling < e.flood.total) then
        { e with metrics := e.metrics.countRejection }
      else (e.freshItems items).foldl (fun e i => e.takeIn id i) e) := by
  have known : e.isRegistered id = true := isRegistered_iff.2 ⟨p, hp⟩
  unfold receive
  rw [if_pos known]
  simp only [receiveAnnouncement, hp, capped, overBudget_eq bounded]
  refine Checked.bind_eq_ok_iff.2 ⟨cap, rfl, ?_⟩
  cases p.needFromPeer || p.needFromUs with
  | true => rfl
  | false =>
    cases (e.freshItems items).any (·.kind = .transaction) with
    | false => rfl
    | true =>
      cases p.inventoryFull cap || decide (ceiling < e.flood.total) <;> rfl

/-- **All or nothing.**  In every state in which the limits are words, an announcement has one of
three outcomes.  From a peer that is not registered or that is in a catch-up on either side, it
changes nothing.  If it holds a fresh transaction while transactions come too thick, it is only
counted as rejected.  Otherwise the fresh items that we announced to nobody are noted with the peer,
and those of them that nobody is asked for and that are not quarantined are offered as candidates,
in the order in which they are listed; nothing else changes. -/
theorem announcement_all_or_nothing {e : Engine σ} {cap ceiling : Nat}
    (capped : e.config.net.inventoryCap = .ok cap)
    (bounded : e.config.net.floodCeiling = .ok ceiling) (id : PeerId) (items : List Item) :
    (e.IsDeafTo id → e.receive id (.announce items) = .ok e) ∧
    (¬ e.IsDeafTo id → e.IsFloodedBy id items cap ceiling →
      e.receive id (.announce items) = .ok { e with metrics := e.metrics.countRejection }) ∧
    (¬ e.IsDeafTo id → ¬ e.IsFloodedBy id items cap ceiling →
      ∃ noted offered e', e.receive id (.announce items) = .ok e' ∧
        noted.Sublist items ∧ (∀ i, i ∈ noted ↔ e.IsNotable items i) ∧
        offered.Sublist items ∧ (∀ i, i ∈ offered ↔ e.IsWelcome items i) ∧
        Intake id noted offered e e') := by
  cases hp : e.peers[id]? with
  | none =>
    have deaf : e.IsDeafTo id := by
      intro p hp'
      rw [hp] at hp'
      cases hp'
    have unknown : ¬ e.isRegistered id = true := by
      rw [isRegistered_iff, hp]
      exact nofun
    refine ⟨fun _ => ?_, fun h => absurd deaf h, fun h => absurd deaf h⟩
    unfold receive
    rw [if_neg unknown]
  | some p =>
    have deaf_iff : e.IsDeafTo id ↔ (p.needFromPeer || p.needFromUs) = true := by
      simp [IsDeafTo, hp]
    have flooded_iff : e.IsFloodedBy id items cap ceiling ↔
        ((e.freshItems items).any (·.kind = .transaction) &&
          (p.inventoryFull cap || ceiling < e.flood.total)) = true := by
      simp [IsFloodedBy, Peer.inventoryFull, hp, mem_freshItems]
    rw [receive_announce hp capped bounded, deaf_iff, flooded_iff]
    refine ⟨fun deaf => ?_, fun hears flooded => ?_, fun hears calm => ?_⟩
    · rw [if_pos deaf]
    · rw [if_neg hears, if_pos flooded]
    · rw [if_neg hears, if_neg calm]
      have listed : (e.freshItems items).filter e.isUntold |>.Sublist items :=
        List.filter_sublist.trans List.filter_sublist
      exact ⟨_, _, _, rfl, listed, fun i => mem_filter_isUntold,
        List.filter_sublist.trans listed, fun i => mem_filter_isUnasked,
        intake_foldl_takeIn ⟨p, hp⟩ _⟩

/-- A transaction that is announced twice in one message becomes a candidate and counts once. -/
theorem intake_of_repeated_transaction :
    ∃ (start e e' : Engine ChainLedger) (past : List (Moment ChainLedger))
        (noted offered : List Item),
      Engine.start {} (.ofGenesis (.genesis 0) 0 10) {} = .ok start ∧ Run start past e ∧
        e.receive ⟨1⟩ (.announce (List.replicate 2 (.transaction ⟨0, 0, 0, 7⟩))) = .ok e' ∧
          Intake ⟨1⟩ noted offered e e' ∧ e'.candidates.contains ⟨0, 0, 0, 7⟩ = true ∧
            e'.flood.total = 1 := by
  obtain ⟨start, past, e, started, run, checked⟩ := exists_run {}
    (ChainLedger.ofGenesis (.genesis 0) 0 10) {} [.register ⟨1⟩ 0]
    (fun (_, e) => e.config = {} ∧ e.flood.total = 0 ∧
      ((e.peers[PeerId.mk 1]?).any fun p =>
        !p.needFromPeer && !p.needFromUs && p.advertised.isEmpty) ∧
      (e.receive ⟨1⟩ (.announce (List.replicate 2 (.transaction ⟨0, 0, 0, 7⟩)))).toOption.any
        fun e' => e'.candidates.contains ⟨0, 0, 0, 7⟩ ∧ e'.flood.total = 1) (by decide +kernel)
  simp only [decide_eq_true_eq, Option.any_eq_true, Bool.and_eq_true, Bool.not_eq_true'] at checked
  obtain ⟨config, calm, ⟨p, hp, ⟨fetched, served⟩, silent⟩, e', taken, counted⟩ := checked
  have hears : ¬ e.IsDeafTo ⟨1⟩ := fun deaf => by simpa [fetched, served] using deaf p hp
  have room : ¬ e.IsFloodedBy ⟨1⟩ (List.replicate 2 (.transaction ⟨0, 0, 0, 7⟩)) 84000 10500 := by
    rintro ⟨-, ⟨q, hq, full⟩ | full⟩
    · obtain rfl : p = q := Option.some_inj.1 (hp.symm.trans hq)
      rw [Std.TreeMap.isEmpty_eq_size_eq_zero, beq_iff_eq] at silent
      omega
    · omega
  have capped : e.config.net.inventoryCap = .ok 84000 := by rw [config]; decide
  have bounded : e.config.net.floodCeiling = .ok 10500 := by rw [config]; decide
  obtain ⟨noted, offered, e'', done, -, -, -, -, intake⟩ :=
    (announcement_all_or_nothing capped bounded ⟨1⟩ _).2.2 hears room
  rw [Checked.toOption_eq_some_iff, done] at taken
  cases taken
  exact ⟨start, e, e', past, noted, offered, started, run, done, intake, counted⟩

end Engine

end BlockRelay

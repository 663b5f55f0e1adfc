/-
# When a marker goes back

While a peer is registered its marker should only advance, except that a catch-up which begins anew
sets it to the genesis block.  But a marker is set without regard to what it was.  Whenever both
sides turn out to have a block, the block is marked (`Engine.Marks`): the last block of a complete
answer to a request, the last block of a reply that is passed over, and a block that is accepted,
with every peer that announced it or has it in front of its queue.  In no other way does a marker
change (`Step.marks`).  So a marker goes back exactly where a lower block is marked
(`markers_advance_iff`).

Over a ledger in memory a block that is new is above every marker.  There a marker goes back only to
a block that was stored before (`Run.stores_of_retreat`).
-/
import BlockRelay.Proofs.Batching
import BlockRelay.Proofs.Fronts
import BlockRelay.Proofs.Markers

namespace BlockRelay

open Message (blocksOf)

/-! ## Complete answers -/

namespace Engine.Answer

/-- Whether nothing is missing from an answer in the making, and its last block is the one that it
is said to be. -/
structure Tracks (a : Answer) : Prop where
  complete : .notFound ∉ a.messages
  last : a.lastBlock = (blocksOf a.messages).getLast?.map (·.id)

namespace Tracks

variable {a : Answer}

/-- A block is the last one when it is added. -/
theorem addBlock (h : a.Tracks) (b : Block) : (a.addBlock b).Tracks := by
  refine ⟨?_, ?_⟩
  · simpa [Answer.addBlock] using h.complete
  · simp [Answer.addBlock]

/-- Closing a batch leaves the last block alone. -/
theorem close (h : a.Tracks) (batch left : List Transaction) :
    Tracks { a with messages := a.messages ++ [.transactions batch], batch := left } := by
  refine ⟨by simpa using h.complete, ?_⟩
  rw [Message.blocksOf_concat_transactions]
  exact h.last

/-- Adding a transaction leaves the last block alone. -/
theorem addTransaction (h : a.Tracks) (limits : Config.Cache) (t : Transaction) :
    (a.addTransaction limits t).Tracks := by
  unfold Answer.addTransaction
  dsimp only
  split
  · exact h.close _ _
  · exact ⟨h.complete, h.last⟩

/-- The last block of a finished answer. -/
theorem finish (h : a.Tracks) :
    .notFound ∉ a.finish ∧ a.lastBlock = (blocksOf a.finish).getLast?.map (·.id) := by
  unfold Answer.finish
  split
  · exact ⟨h.complete, h.last⟩
  · exact ⟨(h.close a.batch []).complete, (h.close a.batch []).last⟩

end Tracks

end Engine.Answer

namespace Engine

variable {σ : Type} [Ledger σ] {e e' : Engine σ}

/-- The last block of a complete answer is the last one that is sent. -/
theorem last_collect (limits : Config.Cache) (items : List Item) (a : Answer) (e : Engine σ)
    (tracks : a.Tracks) :
    (collect limits items a e).1 = if .notFound ∈ (collect limits items a e).2.1 then none
      else (blocksOf (collect limits items a e).2.1).getLast?.map (·.id) := by
  fun_induction collect limits items a e with
  | case1 =>
    rw [if_neg tracks.finish.1]
    exact tracks.finish.2
  | case2 _ _ _ _ _ b _ _ ih => exact ih (tracks.addBlock b)
  | case3 => rw [if_pos (by simp)]
  | case4 _ _ _ _ _ t _ _ ih => exact ih (tracks.addTransaction limits t)
  | case5 => rw [if_pos (by simp)]

/-- The request of a registered peer is served. -/
theorem perform_fetch {id : PeerId} {p : Peer} (hp : e.peers[id]? = some p) (items : List Item) :
    e.perform (.receive id (.fetch items)) = .ok (.done, e.serve id items) := by
  rw [perform, receive, if_pos (isRegistered_iff.2 ⟨p, hp⟩)]
  rfl

/-- **The marker of a peer that is served.**  It is the last block that is sent, unless an object is
missing from the answer or no block is sent.  No other record changes. -/
theorem bothHave_of_fetch {id : PeerId} {p : Peer} (hp : e.peers[id]? = some p)
    (items : List Item) :
    ∃ messages e', e.perform (.receive id (.fetch items)) = .ok (.done, e') ∧
      e'.journal = e.journal ++ messages.map (fun m => .sent id m) ∧
      ∀ other : PeerId, e'.peers[other]? = if other = id then
        some { p with
          bothHave := if .notFound ∈ messages then p.bothHave
            else ((blocksOf messages).getLast?.map (·.id)).getD p.bothHave }
        else e.peers[other]? := by
  obtain ⟨peers, journal⟩ := serve_registered (isRegistered_iff.2 ⟨p, hp⟩) items
  refine ⟨_, _, perform_fetch hp items, journal, fun other => ?_⟩
  rw [peers]
  refine (peers_modifyPeer e id _ other).trans ?_
  split
  next same =>
    rw [same, hp, Option.map_some, last_collect e.config.cache items {} e ⟨nofun, rfl⟩]
    split <;> rfl
  next => rfl

/-! ## What is marked -/

end Engine

/-- The last of the stored blocks in front is marked. -/
theorem skipStored_fst (bothHave : BlockId) (ids : List (BlockId × Bool)) :
    (skipStored bothHave ids).1 = ((ids.takeWhile (·.2)).map (·.1)).getLast?.getD bothHave := by
  fun_induction skipStored bothHave ids with
  | case1 bothHave id rest ih => simp [ih, List.getLast?_cons]
  | case2 bothHave rest fetched =>
    rcases rest with - | ⟨⟨id, _ | _⟩, rest⟩
    · rfl
    · rfl
    · exact (fetched id rest rfl).elim

/-- The last of the recent blocks in front is marked. -/
theorem skipRecent_fst (recent : RecentBlocks) (bothHave : BlockId) (ids : List BlockId) :
    (skipRecent recent bothHave ids).1 =
      (ids.takeWhile recent.contains).getLast?.getD bothHave := by
  fun_induction skipRecent recent bothHave ids with
  | case1 => rfl
  | case2 bothHave id rest found ih => simp [ih, found, List.getLast?_cons]
  | case3 bothHave id rest unknown => simp [unknown]

namespace Peer

/-- The blocks in front of a reply that are known to be stored, while they are looked at: all of
them if nothing is to be fetched and no other peer is about to deliver them, and the first one if
nothing to fetch is kept behind it. -/
def storedFront (p : Peer) (ids : List (BlockId × Bool)) (elsewhere : Bool) : List BlockId :=
  match p.toFetch, ids with
  | [], ids => if elsewhere then [] else (ids.takeWhile (·.2)).map (·.1)
  | _ :: _, [] => []
  | _ :: _, (first, stored) :: _ =>
    if (p.cutBehind first stored).toFetch.isEmpty && stored then [first] else []

/-- The blocks that are passed over when a reply is joined: those in front that are stored, and then
those in front of the queue that are recent. -/
def passedOver (p : Peer) (ids : List (BlockId × Bool)) (elsewhere : Bool)
    (recent : RecentBlocks) : List BlockId :=
  p.storedFront ids elsewhere ++ (p.joinReply ids elsewhere).toFetch.takeWhile recent.contains

/-- Joining a reply marks the last stored block in front. -/
theorem bothHave_joinReply_eq (p : Peer) (ids : List (BlockId × Bool)) (elsewhere : Bool) :
    (p.joinReply ids elsewhere).bothHave =
      (p.storedFront ids elsewhere).getLast?.getD p.bothHave := by
  unfold joinReply storedFront
  rcases p.toFetch with - | ⟨_, _⟩
  · cases elsewhere with
    | true => rfl
    | false => exact skipStored_fst ..
  · rcases ids with - | ⟨⟨first, stored⟩, rest⟩
    · rfl
    · show (if (p.cutBehind first stored).toFetch.isEmpty && stored then first else p.bothHave) =
        (if (p.cutBehind first stored).toFetch.isEmpty && stored then [first]
          else []).getLast?.getD p.bothHave
      split <;> rfl

/-- **The marker of a peer whose reply is joined.**  It is the last block that is passed over. -/
theorem bothHave_continueCatchUp_eq (p : Peer) (ids : List (BlockId × Bool)) (remaining : UInt64)
    (elsewhere : Bool) (recent : RecentBlocks) :
    (p.continueCatchUp ids remaining elsewhere recent).bothHave =
      (p.passedOver ids elsewhere recent).getLast?.getD p.bothHave := by
  rw [passedOver, List.getLast?_append]
  refine (skipRecent_fst ..).trans ?_
  rw [bothHave_joinReply_eq]
  cases ((p.joinReply ids elsewhere).toFetch.takeWhile recent.contains).getLast? <;> rfl

/-- A block that is passed over is stored or recent. -/
theorem mem_passedOver {p : Peer} {ids : List (BlockId × Bool)} {elsewhere : Bool}
    {recent : RecentBlocks} {b : BlockId} (mem : b ∈ p.passedOver ids elsewhere recent) :
    (b, true) ∈ ids ∨ recent.contains b = true := by
  rcases List.mem_append.1 mem with front | skipped
  · refine .inl ?_
    unfold storedFront at front
    split at front
    · split at front
      · cases front
      · obtain ⟨⟨b, stored⟩, held, rfl⟩ := List.mem_map.1 front
        obtain rfl : stored = true := List.mem_takeWhile_imp held
        exact (List.takeWhile_sublist _).subset held
    · cases front
    · split at front
      next cut =>
        rw [Bool.and_eq_true] at cut
        obtain ⟨-, rfl⟩ := cut
        obtain rfl := List.mem_singleton.1 front
        exact List.mem_cons_self ..
      next => cases front
  · exact .inr (List.mem_takeWhile_imp skipped)

end Peer

namespace Engine

variable {σ : Type} [Ledger σ] {e e' : Engine σ}

/-- Whether a step finds out that a peer has a block, which is then marked. -/
inductive Marks : Deed → Engine σ → Engine σ → PeerId → BlockId → Prop where
  /-- The last block of a complete answer to a request of the peer. -/
  | served {e : Engine σ} {id : PeerId} {p : Peer} {items : List Item} {b : BlockId}
    (hp : e.peers[id]? = some p) (last : (collect e.config.cache items {} e).1 = some b) :
    Marks .internal e (e.serve id items) id b
  /-- The last block that is passed over when a reply of the peer is joined. -/
  | joined {e e' : Engine σ} {id : PeerId} {p : Peer} {ids : List BlockId} {remaining : UInt64}
    {elsewhere enough : Bool} {b : BlockId} (hp : e.peers[id]? = some p)
    (done : e.takeUp id ({ p with summary := none }.continueCatchUp
      (ids.map fun b => (b, Ledger.containsBlock e.ledger b)) remaining elsewhere e.recent) enough =
        .ok e')
    (last : (({ p with summary := none } : Peer).passedOver
      (ids.map fun b => (b, Ledger.containsBlock e.ledger b)) elsewhere e.recent).getLast? =
        some b) :
    Marks (.joined id ids) e e' id b
  /-- An announced block that is accepted, if the peer announced it as well. -/
  | accepted {e e' : Engine σ} {source id : PeerId} {p q : Peer} {b : Block}
    (hp : e.peers[source]? = some p) (fresh : e.recent.contains b.id = false)
    (done : { e with peers := e.peers.insert source (p.takeDelivery b.id) }.submitAnnounced b =
      .ok (none, e'))
    (hq : e.peers[id]? = some q) (announced : q.advertised.contains b.id.hash = true) :
    Marks (.tookBlock source b) e e' id b.id
  /-- A fetched block that is settled, if it was in front of the queue of the peer. -/
  | settled {e e' : Engine σ} {id : PeerId} {p : Peer} {hash : Hash} {w : WaitingBlock}
    (hw : e.waiting[hash]? = some w)
    (done : (e.takeNext hash).submitFetched w.block = .ok (none, e'))
    (hp : e.peers[id]? = some p) (front : heads hash p = true) :
    Marks .settled e e' id w.block.id

/-! ## Markers after a step -/

/-- The marker of a peer after one is served. -/
theorem bothHave_serve {id other : PeerId} {p q : Peer} (hq : e.peers[other]? = some q)
    (items : List Item) (hp : e.peers[id]? = some p) :
    ∃ p', (e.serve other items).peers[id]? = some p' ∧ p'.bothHave =
      if id = other then (collect e.config.cache items {} e).1.getD p.bothHave
      else p.bothHave := by
  rw [(serve_registered (isRegistered_iff.2 ⟨q, hq⟩) items).1]
  have after := peers_modifyPeer e other (fun p =>
    { p with bothHave := (collect e.config.cache items {} e).1.getD p.bothHave }) id
  rw [hp] at after
  refine ⟨_, after.trans (apply_ite some _ _ _).symm, ?_⟩
  split <;> rfl

/-- The marker of a peer after a reply is joined. -/
theorem bothHave_takeUp {id other : PeerId} {p q : Peer} {ids : List (BlockId × Bool)}
    {remaining : UInt64} {elsewhere enough : Bool} (hq : e.peers[other]? = some q)
    (done : e.takeUp other ({ q with summary := none }.continueCatchUp ids remaining elsewhere
      e.recent) enough = .ok e') (hp : e.peers[id]? = some p) :
    ∃ p', e'.peers[id]? = some p' ∧ p'.bothHave =
      if id = other then
        (({ q with summary := none } : Peer).passedOver ids elsewhere e.recent).getLast?.getD
          p.bothHave
      else p.bothHave := by
  rw [peers_takeUp done, Std.TreeMap.getElem?_insert]
  split
  next same =>
    rw [Std.LawfulEqCmp.compare_eq_iff_eq] at same
    subst same
    cases hp.symm.trans hq
    exact ⟨_, rfl, (Peer.bothHave_continueCatchUp_eq ..).trans (if_pos rfl).symm⟩
  next differ =>
    refine ⟨p, hp, (if_neg ?_).symm⟩
    rintro rfl
    exact differ Std.ReflCmp.compare_self

omit [Ledger σ] in
/-- Noting a delivery leaves the markers alone, and what was announced. -/
theorem exists_delivered {source id : PeerId} {p q : Peer} (hq : e.peers[source]? = some q)
    (b : BlockId) (hp : e.peers[id]? = some p) :
    ∃ p', (e.peers.insert source (q.takeDelivery b))[id]? = some p' ∧ p'.bothHave = p.bothHave ∧
      p'.advertised = p.advertised := by
  rw [Std.TreeMap.getElem?_insert]
  split
  next same =>
    rw [Std.LawfulEqCmp.compare_eq_iff_eq] at same
    subst same
    cases hp.symm.trans hq
    exact ⟨_, rfl, rfl, rfl⟩
  next => exact ⟨p, hp, rfl, rfl⟩

/-- The records after an announced block is submitted: those of the peers that announced it are
marked if it is accepted as new, and otherwise nothing changes. -/
theorem peers_submitAnnounced {b : Block} {r : Option Refusal}
    (done : e.submitAnnounced b = .ok (r, e')) (id : PeerId) :
    e'.peers[id]? = (e.peers[id]?).map fun p =>
      if r = none ∧ e.recent.contains b.id = false ∧ p.advertised.contains b.id.hash = true then
        { p with bothHave := b.id }
      else p := by
  cases known : e.recent.contains b.id with
  | true =>
    simp only [submitAnnounced, known, if_true] at done
    cases done
    simp
  | false =>
    rcases submitAnnounced_cases done with ⟨recent, -⟩ | ⟨result, ledger, -, result_eq⟩
    · cases known.symm.trans recent
    cases result with
    | ok =>
      obtain ⟨rfl, rfl⟩ := result_eq
      simp [settleAnnounced, broadcastBlock, mapPeers, record, Std.TreeMap.getElem?_map]
    | error =>
      obtain ⟨rfl, quarantine, rfl⟩ := result_eq
      simp [record]

/-- The marker of a peer after an announced block is submitted. -/
theorem bothHave_submitAnnounced {source id : PeerId} {p q : Peer} {b : Block} {r : Option Refusal}
    (hq : e.peers[source]? = some q)
    (done : { e with peers := e.peers.insert source (q.takeDelivery b.id) }.submitAnnounced b =
      .ok (r, e')) (hp : e.peers[id]? = some p) :
    ∃ p', e'.peers[id]? = some p' ∧ p'.bothHave =
      if r = none ∧ e.recent.contains b.id = false ∧ p.advertised.contains b.id.hash = true then
        b.id
      else p.bothHave := by
  obtain ⟨delivered, here, same, known⟩ := exists_delivered hq b.id hp
  have after := peers_submitAnnounced done id
  rw [here, Option.map_some, known] at after
  refine ⟨_, after, ?_⟩
  split
  · rfl
  · exact same

omit [Ledger σ] in
/-- Settling a waiting block marks the peers that have it in front, while nothing is in process. -/
theorem bothHave_settlePeer_takeFront (b : BlockId) {p : Peer}
    (rests : p.beingApplied.isEmpty = true) :
    (settlePeer b (takeFront b.hash p)).bothHave = if heads b.hash p then b else p.bothHave := by
  split
  next front =>
    rw [settlePeer, if_neg (settledFor_takeFront_ne_idle front),
      if_pos (contains_beingApplied_takeFront front)]
  next elsewhere =>
    have notHere := Std.TreeMap.contains_of_isEmpty (a := b.hash) rests
    rw [takeFront, if_neg elsewhere, settlePeer]
    split
    · rfl
    · rw [if_neg (Bool.eq_false_iff.1 notHere)]

/-- The marker of a peer after a waiting block is settled. -/
theorem bothHave_settle {id : PeerId} {p : Peer} {hash : Hash} {w : WaitingBlock} (keyed : e.Keyed)
    (rest : e.AtRest) (hw : e.waiting[hash]? = some w)
    (done : (e.takeNext hash).submitFetched w.block = .ok (none, e'))
    (hp : e.peers[id]? = some p) :
    ∃ p', e'.peers[id]? = some p' ∧
      p'.bothHave = if heads hash p then w.block.id else p.bothHave := by
  refine ⟨_, by rw [revised_submitFetched done, hp]; rfl, ?_⟩
  rw [← keyed hash w hw]
  exact bothHave_settlePeer_takeFront w.block.id (rest id p hp)

/-- What is marked is the marker afterwards. -/
theorem Marks.marker {d : Deed} {id : PeerId} {b : BlockId} (h : Marks d e e' id b)
    (keyed : e.Keyed) (rest : e.AtRest) : ∃ p', e'.peers[id]? = some p' ∧ p'.bothHave = b := by
  cases h with
  | served hp last =>
    obtain ⟨p', hp', eq⟩ := bothHave_serve hp _ hp
    rw [if_pos rfl, last] at eq
    exact ⟨p', hp', eq⟩
  | joined hp done last =>
    obtain ⟨p', hp', eq⟩ := bothHave_takeUp hp done hp
    rw [if_pos rfl, last] at eq
    exact ⟨p', hp', eq⟩
  | accepted hp fresh done hq announced =>
    obtain ⟨p', hp', eq⟩ := bothHave_submitAnnounced hp done hq
    exact ⟨p', hp', eq.trans (if_pos ⟨rfl, fresh, announced⟩)⟩
  | settled hw done hp front =>
    obtain ⟨p', hp', eq⟩ := bothHave_settle keyed rest hw done hp
    exact ⟨p', hp', eq.trans (if_pos front)⟩

/-- No catch-up begins anew in a step that marks a block. -/
theorem Marks.begins_nothing {d : Deed} {id other : PeerId} {b : BlockId}
    (h : Marks d e e' id b) : d ≠ .restarted other := by
  rintro rfl
  cases h

end Engine

/-- The deeds that leave the marker of a peer alone. -/
def Deed.KeepsMarker (id : PeerId) : Deed → Prop
  | .restarted other => other ≠ id
  | .joined .. | .tookBlock .. | .settled | .internal => False
  | _ => True

namespace Engine

variable {σ : Type} [Ledger σ] {e e' : Engine σ}

/-- Most revisions leave the marker alone. -/
theorem Revision.bothHave {id : PeerId} {d : Deed} {p p' : Peer} (r : Revision e id d p p')
    (keeps : d.KeepsMarker id) : p'.bothHave = p.bothHave := by
  cases r with
  | welcomed | answered | announced | served | joined | accepted | tookBlock | settled =>
    exact keeps.elim
  | restarted => exact absurd rfl keeps
  | requested p batch => rw [Peer.requestBlocks_eq]
  | refused p hash =>
    obtain ⟨_, _, -, eq⟩ := takeFront_eq hash p
    rw [eq]
  | same | summarized | finished | noted | reserved | tookTransaction | forgot => rfl

/-- **How markers change.**  Unless a catch-up with a peer begins anew, a step leaves its marker
alone or marks a block. -/
theorem Step.marks {d : Deed} (s : Step d e e') (keyed : e.Keyed) (rest : e.AtRest) {id : PeerId}
    {p p' : Peer} (hp : e.peers[id]? = some p) (hp' : e'.peers[id]? = some p')
    (kept : d ≠ .restarted id) : p'.bothHave = p.bothHave ∨ Marks d e e' id p'.bothHave := by
  have unchanged (same : e'.view (·.bothHave) id = e.view (·.bothHave) id) :
      p'.bothHave = p.bothHave := by
    rw [view, view, hp, hp'] at same
    exact Option.some.inj same
  have revised (keeps : d.KeepsMarker id) : p'.bothHave = p.bothHave := by
    rcases s.revised id p' hp' with ⟨rfl, -⟩ | ⟨q, hq, r⟩
    · cases s with
      | openSession unknown => cases hp.symm.trans unknown
    · cases hp.symm.trans hq
      exact r.bothHave keeps
  cases s with
  | @serve _ other _ items hq =>
    obtain ⟨q', hq', eq⟩ := bothHave_serve hq items hp
    cases hp'.symm.trans hq'
    rw [eq]
    split
    next same =>
      subst same
      cases last : (collect e.config.cache items {} e).1 with
      | none => exact .inl rfl
      | some b => exact .inr (.served hp last)
    next => exact .inl rfl
  | @takeUp _ _ other q _ ids _ elsewhere _ hq _ _ done =>
    obtain ⟨q', hq', eq⟩ := bothHave_takeUp hq done hp
    cases hp'.symm.trans hq'
    rw [eq]
    split
    next same =>
      subst same
      cases last : (({ q with summary := none } : Peer).passedOver
          (ids.map fun b => (b, Ledger.containsBlock e.ledger b)) elsewhere e.recent).getLast? with
      | none => exact .inl rfl
      | some b => exact .inr (.joined hq done last)
    next => exact .inl rfl
  | @arrive _ _ _ b hq =>
    obtain ⟨q', hq', same, -⟩ := exists_delivered hq b.id hp
    cases hp'.symm.trans hq'
    exact .inl same
  | submitAnnounced hq _ _ done =>
    obtain ⟨q', hq', eq⟩ := bothHave_submitAnnounced hq done hp
    cases hp'.symm.trans hq'
    rw [eq]
    split
    next marked =>
      obtain ⟨rfl, fresh, announced⟩ := marked
      exact .inr (.accepted hq fresh done hp announced)
    next => exact .inl rfl
  | settle hw _ done =>
    obtain ⟨q', hq', eq⟩ := bothHave_settle keyed rest hw done hp
    cases hp'.symm.trans hq'
    rw [eq]
    split
    next front => exact .inr (.settled hw done hp front)
    next => exact .inl rfl
  | welcome =>
    exact .inl (unchanged (view_modify (g := fun p => { p with phase := .caughtUp }) rfl
      (fun _ => rfl) id))
  | @sendAnswer _ _ _ summary ids =>
    exact .inl (unchanged (view_modify
      (g := fun p => { p with needFromUs := !isComplete summary ids }) rfl (fun _ => rfl) id))
  | announceSpread =>
    obtain ⟨news, eq⟩ := announceSpread_eq e
    rw [eq] at unchanged
    refine .inl (unchanged (view_map rfl (fun _ p => ?_) id))
    rw [Peer.announceAll_eq]
  | measure | due | absorb | suspend | dropOrphan | advanceFlood | advanceClock =>
    exact .inl (unchanged rfl)
  | restart => exact .inl (revised fun same => kept (congrArg Deed.restarted same))
  | _ => exact .inl (revised trivial)

end Engine

/-! ## Going back -/

namespace Moment

variable {σ : Type} [Ledger σ]

/-- Whether a step is taken in a moment. -/
def Takes (m : Moment σ) (d : Deed) (e e' : Engine σ) : Prop :=
  ∃ op, m.operation = some op ∧ op.Allows d ∧ Engine.Course op.Allows m.before e ∧
    Engine.Step d e e' ∧ Engine.Course op.Allows e' m.after

/-- What is taken in a moment is a step. -/
theorem Takes.step {m : Moment σ} {d : Deed} {e e' : Engine σ} (h : m.Takes d e e') :
    Engine.Step d e e' := by
  obtain ⟨_, -, -, -, s, -⟩ := h
  exact s

/-- Whether a catch-up with a peer begins anew in a moment. -/
def Restarts (m : Moment σ) (id : PeerId) : Prop := ∃ e e', m.Takes (.restarted id) e e'

/-- Whether the marker of a peer goes back in a moment, other than by a catch-up that begins
anew. -/
def Retreats (m : Moment σ) (id : PeerId) : Prop :=
  ∃ d e e' p p', m.Takes d e e' ∧ d ≠ .restarted id ∧ e.peers[id]? = some p ∧
    e'.peers[id]? = some p' ∧ p'.bothHave.number < p.bothHave.number

/-- Whether a block is marked in a moment that is below the marker of the peer. -/
def MarksBelow (m : Moment σ) (id : PeerId) : Prop :=
  ∃ d e e' p b, m.Takes d e e' ∧ e.peers[id]? = some p ∧ Engine.Marks d e e' id b ∧
    b.number < p.bothHave.number

end Moment

namespace Engine

variable {σ : Type} [Ledger σ] {e e' : Engine σ}

/-- A marker that is lower after a course in which no session begins went back in one of its
steps. -/
theorem Course.exists_fall {allowed : Deed → Prop} (c : Course allowed e e') {id : PeerId}
    {p p' : Peer} (unopened : ¬ allowed (.opened id)) (hp : e.peers[id]? = some p)
    (hp' : e'.peers[id]? = some p') (falls : p'.bothHave.number < p.bothHave.number) :
    ∃ d e₁ e₂ q q', allowed d ∧ Course allowed e e₁ ∧ Step d e₁ e₂ ∧ Course allowed e₂ e' ∧
      e₁.peers[id]? = some q ∧ e₂.peers[id]? = some q' ∧
        q'.bothHave.number < q.bothHave.number := by
  induction c generalizing p' with
  | refl =>
    cases hp.symm.trans hp'
    exact absurd falls (UInt64.lt_irrefl _)
  | @tail e₁ e₂ first last ih =>
    obtain ⟨d, allows, last⟩ := last
    obtain ⟨q, hq⟩ := last.registered hp' fun opened => unopened (opened ▸ allows)
    by_cases lower : q.bothHave.number < p.bothHave.number
    · -- it went back before the last step
      obtain ⟨d', f, f', r, r', allows', before, s, after, rest⟩ := ih hq lower
      exact ⟨d', f, f', r, r', allows', before, s, after.trans (.step last allows), rest⟩
    · have here := UInt64.lt_of_lt_of_le falls (UInt64.not_lt.1 lower)
      exact ⟨d, e₁, e₂, q, p', allows, first, last, .refl _, hq, hp', here⟩

section

variable {config : Config} {ledger : σ} {clock : Clock} {start : Engine σ}
  {past : List (Moment σ)} {m : Moment σ}

/-- A peer was registered before a moment in which no session of it begins if it is afterwards. -/
theorem Run.registered_before (run : Run start (m :: past) e) {id : PeerId}
    (unopened : m.opens id = false) {p' : Peer} (hp' : e.peers[id]? = some p') :
    ∃ p, m.before.peers[id]? = some p := by
  cases run with
  | meddle => exact ⟨p', hp'⟩
  | @perform _ before _ op _ _ done =>
    rcases (course_perform done).cause (F := fun e => ∃ p, e.peers[id]? = some p)
      (C := fun d => d = .opened id) (fun s ⟨_, hq⟩ => or_iff_not_imp_right.2 (s.registered hq))
      ⟨p', hp'⟩ with known | ⟨_, allows, rfl⟩
    · exact known
    · exact absurd (Moment.opens_iff.2 (allows.imp fun _ => congrArg some))
        (Bool.eq_false_iff.1 unopened)

/-- A marker that is lower after a moment went back in it, unless a catch-up began anew. -/
theorem Run.retreats_of_fall (run : Run start (m :: past) e) {id : PeerId}
    (unopened : m.opens id = false) {p p' : Peer} (hp : m.before.peers[id]? = some p)
    (hp' : e.peers[id]? = some p') (falls : p'.bothHave.number < p.bothHave.number) :
    m.Restarts id ∨ m.Retreats id := by
  cases run with
  | meddle =>
    cases hp.symm.trans hp'
    exact absurd falls (UInt64.lt_irrefl _)
  | @perform _ before _ op _ _ done =>
    have unallowed : ¬ op.Allows (.opened id) := fun allows =>
      Bool.eq_false_iff.1 unopened (Moment.opens_iff.2 (allows.imp fun _ => congrArg some))
    obtain ⟨d, e₁, e₂, q, q', allows, first, s, rest, hq, hq', lower⟩ :=
      (course_perform done).exists_fall unallowed hp hp' falls
    have takes : (⟨before, some op, e⟩ : Moment σ).Takes d e₁ e₂ :=
      ⟨op, rfl, allows, first, s, rest⟩
    by_cases again : d = .restarted id
    · exact .inl ⟨e₁, e₂, again ▸ takes⟩
    · exact .inr ⟨d, e₁, e₂, q, q', takes, again, hq, hq', lower⟩

/-- A marker that is lower at the end of a run than before a moment of the same session went back in
between, unless a catch-up began anew. -/
theorem Run.exists_retreat {newer older : List (Moment σ)} (run : Run start (newer ++ m :: older) e)
    {id : PeerId} (stays : ∀ m' ∈ newer ++ [m], m'.opens id = false) {p p' : Peer}
    (hp : m.before.peers[id]? = some p) (hp' : e.peers[id]? = some p')
    (falls : p'.bothHave.number < p.bothHave.number) :
    ∃ m' ∈ newer ++ [m], m'.Restarts id ∨ m'.Retreats id := by
  induction newer generalizing e p' with
  | nil =>
    have unopened := stays m (List.mem_cons_self ..)
    exact ⟨m, List.mem_cons_self .., run.retreats_of_fall unopened hp hp' falls⟩
  | cons last newer ih =>
    have unopened := stays last (List.mem_cons_self ..)
    obtain ⟨q, hq⟩ := run.registered_before unopened hp'
    by_cases lower : q.bothHave.number < p.bothHave.number
    · obtain ⟨m', mem, back⟩ :=
        ih run.before (fun m' mem => stays m' (List.mem_cons_of_mem _ mem)) hq lower
      exact ⟨m', List.mem_cons_of_mem _ mem, back⟩
    · have here := UInt64.lt_of_lt_of_le falls (UInt64.not_lt.1 lower)
      exact ⟨last, List.mem_cons_self .., run.retreats_of_fall unopened hq hp' here⟩

/-- Before a step that is taken blocks wait under their own hashes, and none is in process. -/
theorem Run.atRest_of_takes (started : Engine.start config ledger clock = .ok start)
    (run : Run start past e) (mem : m ∈ past) {d : Deed} {e₁ e₂ : Engine σ}
    (takes : m.Takes d e₁ e₂) : e₁.Keyed ∧ e₁.AtRest := by
  obtain ⟨op, operation, -, first, -⟩ := takes
  obtain ⟨_, -, newest⟩ := run.reached mem
  exact first.preserves (I := fun e => e.Keyed ∧ e.AtRest)
    (fun _ s h => ⟨h.1.step s, h.2.step s h.1⟩)
    ⟨newest.before.keyed started, newest.before.atRest started⟩

/-- **Markers advance unless a lower block is marked.**  In every run no marker goes back, other
than by a catch-up that begins anew, exactly if no block below a marker is marked.  A marker that is
lower than it was in the same session went back in a moment in between, unless a catch-up began
anew.  Each step that begins no catch-up anew leaves a marker alone or sets it to the block that is
marked.  A request sets it to the last block that is sent, unless an object is missing from the
answer. -/
theorem markers_advance_iff (started : Engine.start config ledger clock = .ok start)
    (run : Run start past e) :
    ((∀ m ∈ past, ∀ id, ¬ m.Retreats id) ↔ ∀ m ∈ past, ∀ id, ¬ m.MarksBelow id) ∧
      (∀ newer m older, past = newer ++ m :: older → ∀ id,
        (∀ m' ∈ newer ++ [m], m'.opens id = false) →
        ∀ p p', m.before.peers[id]? = some p → e.peers[id]? = some p' →
          p'.bothHave.number < p.bothHave.number →
            ∃ m' ∈ newer ++ [m], m'.Restarts id ∨ m'.Retreats id) ∧
      (∀ m ∈ past, ∀ d e₁ e₂, m.Takes d e₁ e₂ → ∀ id, d ≠ .restarted id → ∀ p p',
        e₁.peers[id]? = some p → e₂.peers[id]? = some p' →
          (p'.bothHave = p.bothHave ∨ Marks d e₁ e₂ id p'.bothHave) ∧
            ∀ b, Marks d e₁ e₂ id b → p'.bothHave = b) ∧
      ∀ id p, e.peers[id]? = some p → ∀ items,
        ∃ messages e', e.perform (.receive id (.fetch items)) = .ok (.done, e') ∧
          e'.journal = e.journal ++ messages.map (fun m => .sent id m) ∧
          ∀ other : PeerId, e'.peers[other]? = if other = id then
            some { p with
              bothHave := if .notFound ∈ messages then p.bothHave
                else ((blocksOf messages).getLast?.map (·.id)).getD p.bothHave }
            else e.peers[other]? := by
  refine ⟨forall₂_congr fun m mem => forall_congr' fun id => not_congr ⟨?_, ?_⟩,
    fun newer m older eq id stays p p' => ?_, fun m mem d e₁ e₂ takes id kept p p' hp hp' => ?_,
    fun id p hp items => bothHave_of_fetch hp items⟩
  · rintro ⟨d, e₁, e₂, p, p', takes, kept, hp, hp', falls⟩
    obtain ⟨keyed, rest⟩ := run.atRest_of_takes started mem takes
    rcases takes.step.marks keyed rest hp hp' kept with same | marks
    · exact absurd (same ▸ falls) (UInt64.lt_irrefl _)
    · exact ⟨d, e₁, e₂, p, p'.bothHave, takes, hp, marks, falls⟩
  · rintro ⟨d, e₁, e₂, p, b, takes, hp, marks, below⟩
    obtain ⟨keyed, rest⟩ := run.atRest_of_takes started mem takes
    obtain ⟨p', hp', rfl⟩ := marks.marker keyed rest
    exact ⟨d, e₁, e₂, p, p', takes, marks.begins_nothing, hp, hp', below⟩
  · subst eq
    exact run.exists_retreat stays
  · obtain ⟨keyed, rest⟩ := run.atRest_of_takes started mem takes
    refine ⟨takes.step.marks keyed rest hp hp' kept, fun b marks => ?_⟩
    obtain ⟨_, hq, same⟩ := marks.marker keyed rest
    cases hp'.symm.trans hq
    exact same

end

/-- A ledger that holds two blocks above the genesis block. -/
def twoBlocks : ChainLedger :=
  ((ChainLedger.ofGenesis (.genesis 0) 0 10).extend (.bare 1)).extend (.bare 2)

/-- A peer fetches the second block. -/
def secondFetched : List Operation :=
  [.register ⟨1⟩ 0, .receive ⟨1⟩ (.fetch [(Block.bare 2).id.item])]

/-- Whether the marker of a peer is lower after some objects are served to it. -/
def lowersFor (e : Engine ChainLedger) (id : PeerId) (items : List Item) : Bool :=
  match e.peers[id]?, (e.serve id items).peers[id]? with
  | some p, some p' => p'.bothHave.number < p.bothHave.number
  | _, _ => false

/-- When the first block is fetched after the second one, the marker goes back. -/
theorem exists_lower_served :
    ∃ (start e : Engine ChainLedger) (past : List (Moment ChainLedger)) (p p' : Peer),
      Engine.start {} twoBlocks {} = .ok start ∧ Run start past e ∧
        e.peers[PeerId.mk 1]? = some p ∧
          (e.serve ⟨1⟩ [(Block.bare 1).id.item]).peers[PeerId.mk 1]? = some p' ∧
            p'.bothHave.number < p.bothHave.number := by
  obtain ⟨start, past, e, started, run, checked⟩ := exists_run {} twoBlocks {} secondFetched
    (fun r => r.2.lowersFor ⟨1⟩ [(Block.bare 1).id.item]) (by decide +kernel)
  unfold lowersFor at checked
  split at checked
  next p p' hp hp' =>
    exact ⟨start, e, past, p, p', started, run, hp, hp', of_decide_eq_true checked⟩
  next => cases checked

/-- The block that is served last is marked below the marker. -/
theorem below_when_served :
    ∃ (start e : Engine ChainLedger) (past : List (Moment ChainLedger)),
      Engine.start {} twoBlocks {} = .ok start ∧ Run start past e ∧
        ∃ m ∈ past, ∃ id, m.MarksBelow id := by
  obtain ⟨start, e, past, p, p', started, run, hp, hp', lower⟩ := exists_lower_served
  have later := run.perform (perform_fetch hp [(Block.bare 1).id.item])
  refine ⟨start, _, _, started, later, ?_⟩
  by_contra none
  have advances := (markers_advance_iff started later).1.2 fun m mem id below =>
    none ⟨m, mem, id, below⟩
  refine advances _ (List.mem_cons_self ..) ⟨1⟩ ⟨.internal, e, _, p, p', ?_, nofun, hp, hp', lower⟩
  exact ⟨_, rfl, trivial, .refl e, .serve _ hp, .refl _⟩

/-- Serving a request may move a marker back. -/
theorem lower_after_request :
    ¬ ∀ (config : Config) (ledger : ChainLedger) (clock : Clock) (start e : Engine ChainLedger)
      (past : List (Moment ChainLedger)),
      Engine.start config ledger clock = .ok start → Run start past e →
        ∀ m ∈ past, ∀ id items, m.operation = some (.receive id (.fetch items)) →
          ∀ p p', m.before.peers[id]? = some p → m.after.peers[id]? = some p' →
            p.bothHave.number ≤ p'.bothHave.number := by
  intro always
  obtain ⟨start, e, past, p, p', started, run, hp, hp', lower⟩ := exists_lower_served
  have advances := always _ _ _ start _ _ started
    (run.perform (perform_fetch hp [(Block.bare 1).id.item])) _ (List.mem_cons_self ..) _ _ rfl
    p p' hp hp'
  exact UInt64.not_lt.2 advances lower

/-! ## Over a ledger in memory -/

/-- A block that is applied and not stored yet is above everything that is stored. -/
theorem Marked.stores_or_above {e : Engine ChainLedger} (h : e.Marked) (linear : e.ledger.Linear)
    {b : Block} {transactions : List Hash} {ledger : ChainLedger}
    (done : e.ledger.applyBlock b = .ok (.ok transactions, ledger)) :
    e.Stores b.id ∨ ∀ (id : PeerId) (p : Peer), e.peers[id]? = some p →
      p.bothHave.number < b.id.number := by
  rcases ChainLedger.applyBlock_cases done with ⟨-, held⟩ | ⟨-, -, -, -, next⟩
  · exact .inl (held transactions rfl)
  · refine .inr fun id p hp => ?_
    obtain ⟨faithful, stored⟩ := h.marker id p hp
    have low := linear.height_le faithful stored
    rw [UInt64.lt_iff_toNat_lt, Block.number_id]
    omega

/-- **Where markers go back over a ledger in memory.**  A block that is marked below the marker of a
peer was stored before. -/
theorem stores_of_marks {e e' : Engine ChainLedger} (sound : e.Sound) (h : e.Marked) {d : Deed}
    {id : PeerId} {b : BlockId} (marks : Marks d e e' id b) {p : Peer}
    (hp : e.peers[id]? = some p) (below : b.number < p.bothHave.number) : e.Stores b := by
  cases marks with
  | served _ last =>
    obtain ⟨block, hands, rfl⟩ := (hands_collect (e := e) e.config.cache _ {} (fun _ h => h)
      ⟨nofun, nofun⟩).2.last b last
    exact (h.knows_of_hands hands).2
  | joined _ _ last =>
    rcases Peer.mem_passedOver (List.mem_of_getLast? last) with named | recent
    · obtain ⟨other, -, eq⟩ := List.mem_map.1 named
      obtain ⟨rfl, stored⟩ := Prod.mk.inj eq
      exact stored
    · exact sound.stores_of_contains recent
  | accepted _ fresh done =>
    rcases submitAnnounced_cases done with ⟨recent, -⟩ | ⟨result, ledger, applied, result_eq⟩
    · cases fresh.symm.trans recent
    cases result with
    | error => cases result_eq.1
    | ok =>
      refine (h.stores_or_above sound.linear applied).resolve_right fun above => ?_
      exact UInt64.lt_asymm below (above id p hp)
  | @settled _ _ _ _ _ w _ done =>
    rcases submitFetched_cases done with ⟨recent, -⟩ | ⟨result, ledger, applied, result_eq⟩
    · exact sound.stores_of_contains recent
    cases result with
    | error => cases result_eq.1
    | ok =>
      refine (h.stores_or_above sound.linear applied).resolve_right fun above => ?_
      exact UInt64.lt_asymm below (above id p hp)

/-- In a local run over a ledger in memory a marker goes back only to a block that was stored
before. -/
theorem Run.stores_of_retreat {config : Config} {clock : Clock} {genesis : Block}
    {solidifyDepth batch : Nat} {ledger : ChainLedger} {start e : Engine ChainLedger}
    {past : List (Moment ChainLedger)} (run : Run start past e) (zero : genesis.number = 0)
    (calls : (ChainLedger.ofGenesis genesis solidifyDepth batch).Calls ledger)
    (started : Engine.start config ledger clock = .ok start) (loc : ∀ m ∈ past, m.Local)
    {m : Moment ChainLedger} (mem : m ∈ past) {d : Deed} {e₁ e₂ : Engine ChainLedger}
    (takes : m.Takes d e₁ e₂) {id : PeerId} (kept : d ≠ .restarted id) {p p' : Peer}
    (hp : e₁.peers[id]? = some p) (hp' : e₂.peers[id]? = some p')
    (falls : p'.bothHave.number < p.bothHave.number) : e₁.Stores p'.bothHave := by
  obtain ⟨keyed, rest⟩ := run.atRest_of_takes started mem takes
  have step := takes.step
  obtain ⟨e₀, _, e₃⟩ := m
  obtain ⟨op, rfl, -, first, -⟩ := takes
  obtain ⟨older, part, newest⟩ := run.reached mem
  have earlier : ∀ m ∈ older, m.Local := fun m' mem' =>
    loc m' (part.subset (List.mem_cons_of_mem _ mem'))
  obtain ⟨sound, marked⟩ := newest.before.marked zero calls started earlier
  have held := held_of_local (loc _ mem)
  have here := sound.course first held
  rcases step.marks keyed rest hp hp' kept with same | marks
  · exact absurd (same ▸ falls) (UInt64.lt_irrefl _)
  · exact stores_of_marks here.1 (marked.course first sound held) marks hp falls

end Engine

end BlockRelay

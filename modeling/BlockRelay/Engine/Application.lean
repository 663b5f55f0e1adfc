/-
# Applying blocks of a catch-up

Waiting blocks are applied in the order of their heights.  A block is next in line
when it is in front of the queue of some peer; it then leaves the front of every
queue.  One pass applies a bounded number of blocks, and when it ends with too many
waiting, no more blocks are asked for until there are fewer.
-/
import BlockRelay.Engine.Summary

namespace BlockRelay.Engine

variable {σ : Type}

/-! ## Settling a block -/

/-- What settling a block means for a peer: nothing, that it has become idle, or that all that
was to be fetched from it is applied. -/
inductive Settled where
  | untouched
  | idle
  | drained
  deriving DecidableEq

/-- What settling a block means for a peer. -/
def settledFor (hash : Hash) (p : Peer) : Settled :=
  if p.toFetch.isEmpty && p.beingApplied.isEmpty && !p.needFromPeer && !p.needFromUs then .idle
  else if p.beingApplied.contains hash && p.toFetch.isEmpty then .drained
  else .untouched

/-- Note that a peer has a block that was in process. -/
def settlePeer (id : BlockId) (p : Peer) : Peer :=
  if settledFor id.hash p = .idle then p
  else if p.beingApplied.contains id.hash then
    { p with beingApplied := p.beingApplied.erase id.hash, bothHave := id }
  else p

/-- Noting that a peer has a block changes what is in process and what both sides have. -/
theorem settlePeer_eq (id : BlockId) (p : Peer) :
    ∃ beingApplied bothHave,
      settlePeer id p = { p with beingApplied := beingApplied, bothHave := bothHave } := by
  unfold settlePeer
  split
  · exact ⟨_, _, rfl⟩
  · split <;> exact ⟨_, _, rfl⟩

/-- Noting that a peer has a block reserves nothing. -/
@[simp] theorem reserved_settlePeer (id : BlockId) (p : Peer) :
    (settlePeer id p).reserved = p.reserved := by
  obtain ⟨_, _, eq⟩ := settlePeer_eq id p
  rw [eq]

/-- Noting that a peer has a block leaves alone what it announced. -/
@[simp] theorem advertised_settlePeer (id : BlockId) (p : Peer) :
    (settlePeer id p).advertised = p.advertised := by
  obtain ⟨_, _, eq⟩ := settlePeer_eq id p
  rw [eq]

/-- Noting that a peer has a block leaves alone what is to be fetched. -/
@[simp] theorem toFetch_settlePeer (id : BlockId) (p : Peer) :
    (settlePeer id p).toFetch = p.toFetch := by
  obtain ⟨_, _, eq⟩ := settlePeer_eq id p
  rw [eq]

/-- Settle a block that was applied or that was known already. -/
def settle (e : Engine σ) (id : BlockId) : Engine σ :=
  { e with requested := e.requested.erase id.hash }.mapPeers fun _ p => settlePeer id p

/-- The peers for which settling a block means `s`. -/
def settledPeers (e : Engine σ) (hash : Hash) (s : Settled) : List PeerId :=
  (e.peers.toList.filter fun (_, p) => settledFor hash p = s).map (·.1)

/-! ## Applying a block -/

/-- Leave every peer that has a block in process. -/
def leaveOffenders (e : Engine σ) (hash : Hash) (r : Reason) : Engine σ :=
  let offenders := e.peers.toList.filter fun (_, p) => p.beingApplied.contains hash
  e.disconnectAll (offenders.map fun (peer, _) => (peer, r))

/-- After a block is refused exactly the peers that had it in process are gone. -/
theorem peers_leaveOffenders (e : Engine σ) (hash : Hash) (r : Reason) (id : PeerId) :
    (e.leaveOffenders hash r).peers[id]? =
      (e.peers[id]?).filter fun p => !p.beingApplied.contains hash := by
  rw [leaveOffenders, peers_disconnectAll, List.map_map]
  cases hp : e.peers[id]? with
  | none => split <;> rfl
  | some p =>
    cases offends : p.beingApplied.contains hash with
    | true =>
      rw [if_pos, Option.filter_some_neg (by rw [offends]; decide)]
      refine List.mem_map.2 ⟨(id, p), List.mem_filter.2 ⟨?_, offends⟩, rfl⟩
      exact Std.TreeMap.mem_toList_iff_getElem?_eq_some.2 hp
    | false =>
      rw [if_neg, Option.filter_some_pos (by rw [offends]; rfl)]
      intro mem
      obtain ⟨⟨other, q⟩, hq, rfl⟩ := List.mem_map.1 mem
      obtain ⟨listed, blamed⟩ := List.mem_filter.1 hq
      have same := Std.TreeMap.mem_toList_iff_getElem?_eq_some.1 listed
      cases hp.symm.trans same
      exact Bool.eq_false_iff.1 offends blamed

/-- Submit a block that is next in line to the ledger, unless it was accepted recently, and
settle it.  The answer is the refusal, if there is one; a refused block is released. -/
def submitFetched [Ledger σ] (e : Engine σ) (b : Block) :
    Checked (Option Refusal × Engine σ) := do
  let id := b.id
  if e.recent.contains id then return (none, e.settle id)
  else
    let (result, e) ← e.applyBlock b true
    let e := { e with applyDue := true }
    match result with
    | .ok _ =>
      let e := { e with recent := e.recent.push id, metrics := e.metrics.countBlock }
      return (none, e.settle id)
    | .error error =>
      let e := e.quarantineFor error id.hash
      return (some error, { e with requested := e.requested.erase id.hash })

/-- **Submitting a fetched block.**  A block that was accepted recently is settled.  Any other
block is applied; then it is recent and settled, or it is released. -/
theorem submitFetched_cases [Ledger σ] {e e' : Engine σ} {b : Block} {r : Option Refusal}
    (done : e.submitFetched b = .ok (r, e')) :
    e.recent.contains b.id = true ∧ r = none ∧ e' = e.settle b.id ∨
      ∃ result ledger, Ledger.applyBlock e.ledger b true = .ok (result, ledger) ∧
        match result with
        | .ok _ => r = none ∧ e' =
            { { e with ledger := ledger, applyDue := true }.record (.appliedBlock b.id true) with
              recent := e.recent.push b.id
              metrics := e.metrics.countBlock }.settle b.id
        | .error error => r = some error ∧ ∃ quarantine, e' =
            { { e with ledger := ledger, applyDue := true }.record (.appliedBlock b.id true) with
              quarantine := quarantine
              requested := e.requested.erase b.id.hash } := by
  unfold submitFetched at done
  dsimp only at done
  split at done
  next recent =>
    cases done
    exact .inl ⟨recent, rfl, rfl⟩
  next =>
    obtain ⟨⟨result, e₁⟩, called, done⟩ := Checked.bind_eq_ok_iff.1 done
    obtain ⟨ledger, applied, rfl⟩ := applyBlock_eq_ok_iff.1 called
    refine .inr ⟨result, ledger, applied, ?_⟩
    cases result with
    | ok =>
      cases done
      exact ⟨rfl, rfl⟩
    | error error =>
      cases done
      obtain ⟨quarantine, eq⟩ := quarantineFor_eq
        { { e with ledger := ledger }.record (.appliedBlock b.id true) with applyDue := true }
        error b.id.hash
      rw [eq]
      exact ⟨rfl, quarantine, rfl⟩

/-- Submitting a fetched block has nothing to do with announcements, nor with other blocks of a
catch-up. -/
theorem submitFetched_eq [Ledger σ] {e e' : Engine σ} {b : Block} {r : Option Refusal}
    (done : e.submitFetched b = .ok (r, e')) :
    ∃ ledger peers quarantine recent requested applyDue metrics journal, e' =
      { e with
        ledger := ledger
        peers := peers
        quarantine := quarantine
        recent := recent
        requested := requested
        applyDue := applyDue
        metrics := metrics
        journal := journal } := by
  rcases submitFetched_cases done with ⟨-, -, rfl⟩ | ⟨result, ledger, -, result_eq⟩
  · exact ⟨_, _, _, _, _, _, _, _, rfl⟩
  · cases result with
    | ok =>
      obtain ⟨-, rfl⟩ := result_eq
      exact ⟨_, _, _, _, _, _, _, _, rfl⟩
    | error =>
      obtain ⟨-, quarantine, rfl⟩ := result_eq
      exact ⟨_, _, _, _, _, _, _, _, rfl⟩

/-- Apply a block that is next in line.  Once it is settled, a peer that has become idle is
caught up with from the start, and one that is drained is sent the next summary.  If it is
refused, the peers that had it in process are left. -/
def applyFetched [Ledger σ] (e : Engine σ) (b : Block) : Checked (Engine σ) := do
  let idle := e.settledPeers b.id.hash .idle
  let drained := e.settledPeers b.id.hash .drained
  match ← e.submitFetched b with
  | (none, e) => return (e.startCatchUps idle).nextSummaries drained
  | (some error, e) => return e.leaveOffenders b.id.hash error.reason

/-! ## One pass -/

/-- Put the blocks that have arrived with those that wait. -/
def absorb (e : Engine σ) : Engine σ :=
  { e with
    waiting := e.arrived.foldl (fun w b => w.insert b.block.id.hash b) e.waiting
    arrived := [] }

/-- Whether a block is in front of the queue of a peer. -/
def heads (hash : Hash) (p : Peer) : Bool := p.toFetch.head?.any fun id => id.hash = hash

/-- Take a block from the front of the queue of a peer, and note that it is in process. -/
def takeFront (hash : Hash) (p : Peer) : Peer :=
  if heads hash p then { p with toFetch := p.toFetch.tail }.process (BlockId.ofHash hash) else p

/-- Taking a block from the front changes the queue and what is in process. -/
theorem takeFront_eq (hash : Hash) (p : Peer) :
    ∃ toFetch beingApplied, toFetch <:+ p.toFetch ∧
      takeFront hash p = { p with toFetch := toFetch, beingApplied := beingApplied } := by
  unfold takeFront
  split
  · exact ⟨_, _, List.tail_suffix _, rfl⟩
  · exact ⟨_, _, List.suffix_refl _, rfl⟩

/-- Taking a block from the front reserves nothing. -/
@[simp] theorem reserved_takeFront (hash : Hash) (p : Peer) :
    (takeFront hash p).reserved = p.reserved := by
  obtain ⟨_, _, -, eq⟩ := takeFront_eq hash p
  rw [eq]

/-- Taking a block from the front leaves alone what the peer announced. -/
@[simp] theorem advertised_takeFront (hash : Hash) (p : Peer) :
    (takeFront hash p).advertised = p.advertised := by
  obtain ⟨_, _, -, eq⟩ := takeFront_eq hash p
  rw [eq]

/-- Taking a block from the front leaves the end of the queue. -/
theorem toFetch_takeFront_suffix (hash : Hash) (p : Peer) :
    (takeFront hash p).toFetch <:+ p.toFetch := by
  obtain ⟨_, _, rest, eq⟩ := takeFront_eq hash p
  rw [eq]
  exact rest

/-- A block that is taken from the front of a queue is in process. -/
theorem contains_beingApplied_takeFront {hash : Hash} {p : Peer} (front : heads hash p = true) :
    (takeFront hash p).beingApplied.contains hash = true := by
  rw [takeFront, if_pos front, Peer.process]
  simp [BlockId.ofHash]

/-- Take a waiting block up: it leaves the front of every queue. -/
def takeNext (e : Engine σ) (hash : Hash) : Engine σ :=
  { e with waiting := e.waiting.erase hash }.mapPeers fun _ p => takeFront hash p

/-- Drop a waiting block whose origin has left.  It may be asked of another peer. -/
def dropOrphan (e : Engine σ) (hash : Hash) : Engine σ :=
  { e with
    requested := e.requested.erase hash
    issueDue := true
    waiting := e.waiting.erase hash }

/-- The progress of a pass: how many blocks were applied, and whether there was one since the
waiting blocks were last listed. -/
structure ApplyPass (σ : Type) where
  applied : Nat := 0
  progressed : Bool := false
  engine : Engine σ

/-- Visit one waiting block: drop it, apply it, or leave it where it is. -/
def ApplyPass.visit [Ledger σ] (s : ApplyPass σ) (hash : Hash) : Checked (ApplyPass σ) :=
  let e := s.engine
  match e.waiting[hash]? with
  | none => .ok s
  | some w =>
    if !e.isRegistered w.origin then .ok { s with engine := e.dropOrphan hash }
    else if e.anyPeer (heads hash) then do
      return ⟨s.applied + 1, true, ← (e.takeNext hash).applyFetched w.block⟩
    else .ok s

/-- The ways in which a visit ends: the block is left where it is, dropped, or submitted. -/
inductive ApplyPass.Visited [Ledger σ] (s : ApplyPass σ) (hash : Hash) : ApplyPass σ → Prop where
  | passed (notNext : ∀ w, s.engine.waiting[hash]? = some w →
      s.engine.anyPeer (heads hash) = false) :
    Visited s hash s
  | dropped {w : WaitingBlock} (hw : s.engine.waiting[hash]? = some w)
      (gone : s.engine.isRegistered w.origin = false) :
    Visited s hash { s with engine := s.engine.dropOrphan hash }
  | submitted {w : WaitingBlock} {e : Engine σ} (hw : s.engine.waiting[hash]? = some w)
      (here : s.engine.isRegistered w.origin = true)
      (next : s.engine.anyPeer (heads hash) = true)
      (done : (s.engine.takeNext hash).applyFetched w.block = .ok e) :
    Visited s hash ⟨s.applied + 1, true, e⟩

/-- **One visit.** -/
theorem ApplyPass.visited_of_visit [Ledger σ] {s s' : ApplyPass σ} {hash : Hash}
    (done : s.visit hash = .ok s') : s.Visited hash s' := by
  simp only [ApplyPass.visit] at done
  split at done
  next absent =>
    cases done
    refine .passed fun w hw => ?_
    cases absent.symm.trans hw
  next w hw =>
    split at done
    next gone =>
      cases done
      exact .dropped hw (by simpa using gone)
    next here =>
      have here : s.engine.isRegistered w.origin = true := by simpa using here
      split at done
      next next =>
        obtain ⟨e, applied, done⟩ := Checked.bind_eq_ok_iff.1 done
        cases done
        exact .submitted hw here next applied
      next notNext =>
        cases done
        exact .passed fun _ _ => Bool.eq_false_iff.2 notNext

/-- Visit waiting blocks in order until the budget is used up. -/
def ApplyPass.sweep [Ledger σ] (budget : Nat) : List Hash → ApplyPass σ → Checked (ApplyPass σ)
  | [], s => .ok s
  | hash :: rest, s =>
    if budget ≤ s.applied then .ok s else do ApplyPass.sweep budget rest (← s.visit hash)

/-- Sweep over the waiting blocks until a sweep applies nothing or the budget is used up.
Every sweep but the last takes a waiting block away, so that as many sweeps as there are
waiting blocks, and one more, are always enough. -/
def ApplyPass.run [Ledger σ] (budget : Nat) : Nat → ApplyPass σ → Checked (ApplyPass σ)
  | 0, s => .ok s
  | n + 1, s => do
    let s ← ApplyPass.sweep budget s.engine.waiting.keys { s with progressed := false }
    if budget ≤ s.applied || !s.progressed then return s
    else ApplyPass.run budget n s

/-- Lift the suspension if there are few enough waiting blocks. -/
def resume (e : Engine σ) : Engine σ :=
  if e.suspended && e.waiting.size < e.config.sync.backlogCap then { e with suspended := false }
  else e

/-- Lifting the suspension changes nothing else. -/
theorem resume_eq (e : Engine σ) : ∃ suspended, e.resume = { e with suspended := suspended } := by
  unfold resume
  split
  · exact ⟨false, rfl⟩
  · exact ⟨e.suspended, rfl⟩

/-- When a pass begins nothing has just arrived. -/
theorem arrived_resume (e : Engine σ) : e.absorb.resume.arrived = [] := by
  obtain ⟨suspended, eq⟩ := resume_eq e.absorb
  rw [eq]
  rfl

/-- End a pass that used up its budget: another one is due, and asking for blocks is suspended
if too many are waiting. -/
def exhaust (e : Engine σ) : Engine σ :=
  { e with
    suspended := e.suspended || e.config.sync.backlogCap ≤ e.waiting.size
    applyDue := true }

/-- Apply waiting blocks.  The answer is the number of blocks that were applied. -/
def applyWaiting [Ledger σ] (e : Engine σ) : Checked (Nat × Engine σ) := do
  let budget := max e.config.sync.applyBudget 1
  let e := e.absorb.resume
  let s ← ApplyPass.run budget (e.waiting.size + 1) { engine := e }
  return (s.applied, if budget ≤ s.applied then s.engine.exhaust else s.engine)

/-- Waiting blocks are applied in a pass, which may end with its budget used up. -/
theorem applyWaiting_cases [Ledger σ] {e e' : Engine σ} {n : Nat}
    (done : e.applyWaiting = .ok (n, e')) :
    ∃ s, ApplyPass.run (max e.config.sync.applyBudget 1) (e.absorb.resume.waiting.size + 1)
        { engine := e.absorb.resume } = .ok s ∧
      n = s.applied ∧ (e' = s.engine ∧ ¬ max e.config.sync.applyBudget 1 ≤ n ∨
        e' = s.engine.exhaust) := by
  obtain ⟨s, ran, done⟩ := Checked.bind_eq_ok_iff.1 done
  cases done
  refine ⟨s, ran, rfl, ?_⟩
  split
  next => exact .inr rfl
  next left => exact .inl ⟨rfl, left⟩

/-- Apply waiting blocks if that is due. -/
def applyTick [Ledger σ] (e : Engine σ) : Checked (Nat × Engine σ) :=
  if e.applyDue then { e with applyDue := false }.applyWaiting else .ok (0, e)

end BlockRelay.Engine

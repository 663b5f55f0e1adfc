/-
# Requests that are released

A block has an entry in the cache of requests from when a peer is asked for it
(`Engine.Remembers`).  The entry is no use any more once the block is settled, and would keep the
block from being asked for again.

Nothing is leaked: a change that leaves the entry of a block leaves the block where it was as well,
unless the peer that it is awaited from delivers it (`Engine.Retains`).  So in every run a block
with an entry is awaited from a peer or in hand, and whoever takes it from there erases the entry
(`Run.no_leaked_request`).
-/
import BlockRelay.Proofs.Sharing

namespace BlockRelay.Engine

variable {σ : Type}

/-- Whether the cache of requests has an entry for a block, be it live or expired. -/
def Remembers (e : Engine σ) (hash : Hash) : Prop := e.requested.Holds hash

/-- A block that is in hand stays in hand, and one that is awaited from a peer stays awaited from
it, unless the peer delivers it in a deed that is allowed. -/
structure Retains (allowed : Deed → Prop) (e e' : Engine σ) (hash : Hash) : Prop where
  delivered : e.Delivered hash → e'.Delivered hash
  asked : ∀ id, e.AskedOf id hash → e'.AskedOf id hash ∨
    (∃ b, allowed (.tookBlock id b) ∧ b.id.hash = hash) ∧ e'.Delivered hash

namespace Retains

variable {allowed wider : Deed → Prop} {e e₁ e₂ : Engine σ} {hash : Hash}

/-- Where nothing changes, everything is retained. -/
theorem refl (allowed : Deed → Prop) (e : Engine σ) (hash : Hash) : Retains allowed e e hash :=
  ⟨fun h => h, fun _ => .inl⟩

/-- What is retained first and later is retained. -/
theorem trans (h : Retains allowed e e₁ hash) (h' : Retains allowed e₁ e₂ hash) :
    Retains allowed e e₂ hash := by
  refine ⟨fun delivered => h'.delivered (h.delivered delivered), fun id asked => ?_⟩
  rcases h.asked id asked with asked | ⟨brought, delivered⟩
  · exact h'.asked id asked
  · exact .inr ⟨brought, h'.delivered delivered⟩

/-- What is allowed may be widened. -/
theorem mono (wide : ∀ d, allowed d → wider d) (h : Retains allowed e e₁ hash) :
    Retains wider e e₁ hash :=
  ⟨h.delivered, fun id asked => (h.asked id asked).imp_right fun ⟨⟨b, allows, same⟩, delivered⟩ =>
    ⟨⟨b, wide _ allows, same⟩, delivered⟩⟩

/-- A block that is retained is not settled. -/
theorem unsettled (h : Retains allowed e e₁ hash) (before : e.Unsettled hash) :
    e₁.Unsettled hash := by
  rcases before with ⟨id, asked⟩ | delivered
  · exact (h.asked id asked).imp (fun asked => ⟨id, asked⟩) And.right
  · exact .inr (h.delivered delivered)

end Retains

/-! ## What is in hand -/

/-- A block that is in hand has arrived, or waits under its hash. -/
theorem Keyed.delivered_iff {e : Engine σ} (keyed : e.Keyed) {hash : Hash} :
    e.Delivered hash ↔
      (∃ w ∈ e.arrived, w.block.id.hash = hash) ∨ e.waiting.contains hash = true := by
  rw [contains_iff_exists]
  constructor
  · rintro ⟨w, mem | ⟨key, hw⟩, rfl⟩
    · exact .inl ⟨w, mem, rfl⟩
    · exact .inr ⟨w, keyed key w hw ▸ hw⟩
  · rintro (⟨w, mem, same⟩ | ⟨w, hw⟩)
    · exact ⟨w, .inl mem, same⟩
    · exact ⟨w, .inr ⟨hash, hw⟩, keyed hash w hw⟩

/-! ## Peers that leave -/

/-- A peer from which a block is awaited gives it back when it leaves. -/
theorem Remembers.of_remove {e : Engine σ} {id : PeerId} {r : Option Reason} {hash : Hash}
    (h : (e.remove id r).Remembers hash) :
    e.Remembers hash ∧ ∀ other, e.AskedOf other hash → (e.remove id r).AskedOf other hash := by
  cases hp : e.peers[id]? with
  | none =>
    rw [remove_of_unknown hp] at h ⊢
    exact ⟨h, fun _ asked => asked⟩
  | some p =>
    rw [Remembers, requested_remove hp, AgingCache.holds_foldl_erase] at h
    refine ⟨h.1, fun other ⟨q, hq, asked⟩ => ⟨q, ?_, asked⟩⟩
    rw [peers_remove, if_neg, hq]
    rintro rfl
    cases hp.symm.trans hq
    exact h.2 (Std.TreeMap.mem_keys.2 asked)

/-- Peers from which a block is awaited give it back when they leave. -/
theorem Remembers.of_disconnectAll {e : Engine σ} {leaving : List (PeerId × Reason)} {hash : Hash}
    (h : (e.disconnectAll leaving).Remembers hash) :
    e.Remembers hash ∧
      ∀ other, e.AskedOf other hash → (e.disconnectAll leaving).AskedOf other hash := by
  induction leaving generalizing e with
  | nil => exact ⟨h, fun _ asked => asked⟩
  | cons l rest ih =>
    obtain ⟨first, later⟩ := ih (e := e.disconnect l.1 l.2) h
    obtain ⟨before, asked⟩ := first.of_remove
    exact ⟨before, fun other awaited => later other (asked other awaited)⟩

/-- With the same requests the same blocks are awaited. -/
theorem AskedOf.congr {e e' : Engine σ} {id : PeerId} {hash : Hash} (h : e.AskedOf id hash)
    (same : e'.view Peer.blocksAsked id = e.view Peer.blocksAsked id) : e'.AskedOf id hash := by
  obtain ⟨p, hp, asked⟩ := h
  rw [view, view, hp, Option.map_some, Option.map_eq_some_iff] at same
  obtain ⟨p', hp', eq⟩ := same
  exact ⟨p', hp', eq ▸ asked⟩

/-- The blocks that are awaited from a peer are among what it was asked for. -/
theorem view_blocksAsked (e : Engine σ) (id : PeerId) :
    e.view Peer.blocksAsked id = (e.requestsOf id).map Prod.snd := by
  rw [requestsOf, view, view, Option.map_map]
  rfl

variable [Ledger σ]

/-! ## One step -/

/-- A step that asks for no blocks makes no entries, and takes no block from hand whose entry it
leaves. -/
theorem Step.remembers {d : Deed} {e e' : Engine σ} (s : Step d e e')
    (calm : ∀ id, d ≠ .requested id) (keyed : e.Keyed) {hash : Hash} (h : e'.Remembers hash) :
    e.Remembers hash ∧ (e.Delivered hash → e'.Delivered hash) := by
  rw [keyed.delivered_iff, (keyed.step s).delivered_iff]
  unfold Remembers at h ⊢
  -- what waits is still there unless it waits under the hash of an entry that is erased
  have rest {other : Hash} (waits : e.waiting.contains hash = true) (ne : hash ≠ other) :
      (e.waiting.erase other).contains hash = true := by
    rw [Std.TreeMap.contains_erase, waits, Bool.and_true, bne_iff_ne, ne_eq,
      Std.LawfulEqCmp.compare_eq_iff_eq]
    exact ne.symm
  cases s.work with
  | asked => exact absurd rfl (calm _)
  | @left _ _ p r _ hp work =>
    rw [requested_remove hp, AgingCache.holds_foldl_erase] at h
    rw [work.arrived, work.waiting]
    exact ⟨h.1, fun delivered => delivered⟩
  | arrived =>
    refine ⟨h, Or.imp_left fun ⟨w, mem, same⟩ => ⟨w, List.mem_append_left _ mem, same⟩⟩
  | absorbed =>
    refine ⟨h, fun delivered => .inr ?_⟩
    exact contains_foldl_insert.2 delivered
  | dropped =>
    have h := AgingCache.holds_erase.1 h
    exact ⟨h.1, Or.imp_right fun waits => rest waits h.2⟩
  | @takenUp _ _ e₁ other w r leaving _ _ _ hw done _ work =>
    obtain ⟨_, -, taken⟩ := work_submitFetched done
    have before := (Remembers.of_disconnectAll h).1
    rw [Remembers, taken.requested, AgingCache.holds_erase, keyed other w hw] at before
    rw [work.arrived, work.waiting]
    exact ⟨before.1, Or.imp_right fun waits => rest waits before.2⟩
  | purged work =>
    rw [work.requested] at h
    rw [work.arrived, work.waiting]
    exact ⟨h.of_purge, fun delivered => delivered⟩
  | same work | due _ work =>
    rw [work.requested] at h
    rw [work.arrived, work.waiting]
    exact ⟨h, fun delivered => delivered⟩
  | rested | later => exact ⟨h, fun delivered => delivered⟩

omit [Ledger σ] in
/-- A delivery leaves what is awaited alone, but for what it takes from the peer. -/
theorem TakesFrom.askedOf {id other : PeerId} {p q : Peer} {e e' : Engine σ} {hash : Hash}
    (t : TakesFrom id q e e') (hp : e.peers[id]? = some p) (awaited : e.AskedOf other hash)
    (kept : other = id → p.blocksAsked.contains hash = true → q.blocksAsked.contains hash = true) :
    e'.AskedOf other hash := by
  have shown := t.requests other
  by_cases same : other = id
  · obtain ⟨p₀, hp₀, asked⟩ := awaited
    subst same
    cases hp.symm.trans hp₀
    rw [if_pos rfl] at shown
    obtain ⟨p', hp', eq⟩ := Option.map_eq_some_iff.1 shown
    have left : p'.blocksAsked = q.blocksAsked := congrArg Prod.snd eq
    exact ⟨p', hp', left ▸ kept rfl asked⟩
  · rw [if_neg same] at shown
    exact awaited.congr (by rw [view_blocksAsked, view_blocksAsked, shown])

/-- A delivered block is awaited no longer from the peer that delivers it, and everything else is
awaited on. -/
theorem Step.awaited_tookBlock {e e' : Engine σ} {id other : PeerId} {b : Block} {hash : Hash}
    (s : Step (.tookBlock id b) e e') (awaited : e.AskedOf other hash) :
    e'.AskedOf other hash ∨ other = id ∧ b.id.hash = hash := by
  obtain ⟨p, hp, -, taken⟩ := s.tookBlock
  by_cases brought : other = id ∧ b.id.hash = hash
  · exact .inr brought
  · refine .inl (taken.askedOf hp awaited fun same asked => ?_)
    rw [Peer.takeDelivery, Std.TreeMap.contains_erase, asked, Bool.and_true, bne_iff_ne, ne_eq,
      Std.LawfulEqCmp.compare_eq_iff_eq]
    exact fun eq => brought ⟨same, eq⟩

/-- A step that leaves the entry of a block does not take the block from a peer that it is awaited
from, unless this peer delivers it. -/
theorem Step.awaited {d : Deed} {e e' : Engine σ} (s : Step d e e') {hash : Hash}
    (h : e'.Remembers hash) {id : PeerId} (awaited : e.AskedOf id hash) :
    e'.AskedOf id hash ∨ (∃ b, d = .tookBlock id b ∧ b.id.hash = hash) ∧ e'.Delivered hash := by
  by_cases keeps : d.KeepsRequests
  · refine .inl (awaited.congr ?_)
    rw [view_blocksAsked, view_blocksAsked, (s.sameRequests keeps).requests]
  cases s with
  | @openSession _ other unknown =>
    obtain ⟨p, hp, asked⟩ := awaited
    refine .inl ⟨p, ?_, asked⟩
    rw [peers_openSession, if_neg, hp]
    rintro rfl
    cases unknown.symm.trans hp
  | remove => exact .inl (h.of_remove.2 id awaited)
  | @takeIn _ other _ i =>
    refine .inl (awaited.congr ?_)
    rcases takeIn_cases e other i with eq | ⟨_, _, eq, -⟩ <;> rw [eq]
    exact view_modify (g := fun p => p.advertise i.hash e.now) rfl (fun _ => rfl) id
  | dropStale => exact .inl awaited
  | reserve =>
    refine .inl (awaited.congr ?_)
    rw [requestReserved_eq]
    exact view_reserveAll (f := Peer.blocksAsked) (fun _ _ _ => rfl) e id
  | @arrive _ other _ b hp asked =>
    refine ((Step.arrive hp asked).awaited_tookBlock awaited).imp_right ?_
    rintro ⟨rfl, same⟩
    have here : ⟨b, id⟩ ∈ e.arrived ++ [⟨b, id⟩] :=
      List.mem_append_right _ (List.mem_singleton_self _)
    exact ⟨⟨b, rfl, same⟩, ⟨b, id⟩, .inl here, same⟩
  | submitAnnounced hp notAsked reserved done =>
    refine .inl (((Step.submitAnnounced hp notAsked reserved done).awaited_tookBlock
      awaited).resolve_right ?_)
    -- a block of a catch-up is not taken as an announced one
    rintro ⟨rfl, rfl⟩
    obtain ⟨p, hp', asked⟩ := awaited
    cases hp.symm.trans hp'
    cases asked.symm.trans notAsked
  | submitTransaction hp reserved =>
    obtain ⟨p, hp, -, taken⟩ := (Step.submitTransaction hp reserved).tookTransaction
    exact .inl (taken.askedOf hp awaited fun _ asked => asked)
  | requestBlocks hp => exact .inl ((askedOf_requestBlocks_iff hp).2 (.inl awaited))
  | refuse hw next done =>
    refine .inl (h.of_disconnectAll.2 id (awaited.congr ?_))
    rw [view_blocksAsked, view_blocksAsked, (SameRequests.submitFetched done).requests]
  | welcome | restart | sendSummary | sendAnswer | finishCatchUp | takeUp | measure
  | announceSpread | serve | due | rest | absorb | suspend | dropOrphan | settle | forgetOutdated
  | advanceFlood | advanceClock | broadcast => exact absurd trivial keeps

/-- **Nothing is leaked in a step.**  A step that asks for no blocks makes no entries, and the
blocks whose entries it leaves are where they were. -/
theorem Step.retains {d : Deed} {e e' : Engine σ} (s : Step d e e')
    (calm : ∀ id, d ≠ .requested id) (keyed : e.Keyed) {hash : Hash} (h : e'.Remembers hash) :
    e.Remembers hash ∧ Retains (· = d) e e' hash := by
  obtain ⟨before, delivered⟩ := s.remembers calm keyed h
  refine ⟨before, delivered, fun id awaited => ?_⟩
  exact (s.awaited h awaited).imp_right fun ⟨⟨b, eq, same⟩, here⟩ => ⟨⟨b, eq.symm, same⟩, here⟩

/-- A course that asks for no blocks makes no entries, and the blocks whose entries it leaves are
where they were. -/
theorem Course.retains {allowed : Deed → Prop} {e e' : Engine σ} (c : Course allowed e e')
    (calm : ∀ id, ¬ allowed (.requested id)) (keyed : e.Keyed) {hash : Hash}
    (h : e'.Remembers hash) : e.Remembers hash ∧ Retains allowed e e' hash := by
  induction c with
  | refl => exact ⟨h, .refl allowed e hash⟩
  | tail before last ih =>
    have keyed := Course.preserves (I := Keyed) (fun _ s => Keyed.step s) before keyed
    obtain ⟨d, allows, last⟩ := last
    obtain ⟨between, kept⟩ := last.retains (fun id eq => calm id (eq ▸ allows)) keyed h
    obtain ⟨first, retains⟩ := ih between
    refine ⟨first, retains.trans (kept.mono ?_)⟩
    rintro _ rfl
    exact allows

/-! ## Operations and runs -/

omit [Ledger σ] in
/-- Asking for blocks leaves all blocks where they are, and makes entries for the blocks that are
asked for. -/
theorem Asking.retains {e e' : Engine σ} {asked : List Hash} (h : Asking e e' asked)
    (allowed : Deed → Prop) {hash : Hash} (remembered : e'.Remembers hash) :
    (e.Remembers hash ∨ ∃ id, e'.AskedOf id hash) ∧ Retains allowed e e' hash := by
  refine ⟨?_, (h.delivered_iff hash).2, fun id awaited => .inl (h.kept id hash awaited)⟩
  rw [Remembers, h.requested] at remembered
  rcases remembered.of_foldl_insert with mem | before
  · obtain ⟨id, awaited, -⟩ := h.asks hash mem
    exact .inr ⟨id, awaited⟩
  · exact .inl before

/-- **Nothing is leaked in an operation.**  A block with an entry after an operation had one before,
or a peer is asked for it; and the block is where it was. -/
theorem retains_perform {e e' : Engine σ} {op : Operation} {answer : Outcome} (keyed : e.Keyed)
    (done : e.perform op = .ok (answer, e')) {hash : Hash} (h : e'.Remembers hash) :
    (e.Remembers hash ∨ ∃ id, e'.AskedOf id hash) ∧ Retains op.Allows e e' hash := by
  by_cases issue : op = .issueRequests ∨ op = .issueTick
  · obtain ⟨asked, asking⟩ := exists_asking issue done
    exact asking.retains op.Allows h
  · obtain ⟨before, retains⟩ := (course_perform done).retains (fun _ => issue) keyed h
    exact ⟨.inl before, retains⟩

/-- **No request is leaked.**  In every run each block with an entry in the cache of requests, be it
live or expired, is awaited from a registered peer or in hand.  Whichever operation takes a block
from hand, or from a peer that it is awaited from, leaves no entry for it; but if the peer delivers
the block, then the block is in hand from then on. -/
theorem Run.no_leaked_request {config : Config} {ledger : σ} {clock : Clock}
    {start e : Engine σ} {past : List (Moment σ)}
    (started : Engine.start config ledger clock = .ok start) (run : Run start past e) :
    (∀ hash, e.Remembers hash → e.Unsettled hash) ∧
      ∀ (op : Operation) (answer : Outcome) (e' : Engine σ),
        e.perform op = .ok (answer, e') → ∀ hash,
          (e.Delivered hash → ¬ e'.Delivered hash → ¬ e'.Remembers hash) ∧
          ∀ id, e.AskedOf id hash → ¬ e'.AskedOf id hash → ¬ e'.Remembers hash ∨
            (∃ b, op = .receive id (.block b) ∧ b.id.hash = hash) ∧ e'.Delivered hash := by
  constructor
  · induction run with
    | start =>
      obtain ⟨_, -, eq⟩ := Checked.bind_eq_ok_iff.1 started
      cases eq
      rintro hash ⟨_, mem, -⟩
      cases mem
    | meddle => assumption
    | perform before done ih =>
      intro hash remembered
      obtain ⟨held | asked, retains⟩ := retains_perform (before.keyed started) done remembered
      · exact retains.unsettled (ih hash held)
      · exact .inl asked
  · intro op answer e' done hash
    have retains (h : e'.Remembers hash) : Retains op.Allows e e' hash :=
      (retains_perform (run.keyed started) done h).2
    refine ⟨fun before gone h => gone ((retains h).delivered before), fun id before gone => ?_⟩
    by_cases h : e'.Remembers hash
    · exact .inr (((retains h).asked id before).resolve_left gone)
    · exact .inl h

/-- Of two blocks that a peer is asked for, the first one is delivered. -/
def deliveredInPart : List Operation :=
  [.register ⟨1⟩ 2,
    .receive ⟨1⟩ (.summaryReply [(Block.bare 0).id, (Block.bare 1).id, (Block.bare 2).id] 0),
    .issueRequests, .receive ⟨1⟩ (.block (.bare 1))]

/-- The entry of a block that was delivered is erased when the block is applied, and the entry of a
block that is awaited when the peer is lost. -/
theorem released_when_applied_or_lost :
    ∃ (start e applied lost : Engine ChainLedger) (past : List (Moment ChainLedger))
      (answer answer' : Outcome),
      Engine.start {} (.ofGenesis (.genesis 0) 0 10) {} = .ok start ∧ Run start past e ∧
        e.Remembers (Block.bare 1).id.hash ∧ e.Unsettled (Block.bare 1).id.hash ∧
          e.perform .applyWaiting = .ok (answer, applied) ∧
            ¬ applied.Remembers (Block.bare 1).id.hash ∧
              e.Remembers (Block.bare 2).id.hash ∧ e.Unsettled (Block.bare 2).id.hash ∧
                e.perform (.lost ⟨1⟩) = .ok (answer', lost) ∧
                  ¬ lost.Remembers (Block.bare 2).id.hash := by
  obtain ⟨start, past, e, started, run, checked⟩ := exists_run {}
    (ChainLedger.ofGenesis (.genesis 0) 0 10) {} deliveredInPart
    (fun (_, e) => [1, 2].all (fun n => e.requested.entries.any (·.key = (Block.bare n).id.hash)) &&
      e.arrived.any (·.block.id.hash = (Block.bare 1).id.hash) &&
      (e.peers[PeerId.mk 1]?).any (·.blocksAsked.contains (Block.bare 2).id.hash) &&
      (e.perform .applyWaiting).toOption.any (fun r =>
        r.2.arrived.isEmpty && r.2.waiting.isEmpty) &&
      (e.perform (.lost ⟨1⟩)).toOption.any (fun r => r.2.peers[PeerId.mk 1]? |>.isNone))
    (by decide +kernel)
  simp only [Bool.and_eq_true, List.all_cons, List.all_nil, and_true, List.any_eq_true,
    decide_eq_true_eq, Option.any_eq_true, Checked.toOption_eq_some_iff, List.isEmpty_iff,
    Option.isNone_iff_eq_none] at checked
  obtain ⟨⟨⟨⟨⟨first, second⟩, w, mem, same⟩, p, hp, asked⟩, ⟨answer, applied⟩, done, arrived,
    waiting⟩, ⟨answer', lost⟩, left, gone⟩ := checked
  obtain ⟨unsettled, released⟩ := run.no_leaked_request started
  refine ⟨start, e, applied, lost, past, answer, answer', started, run, first, unsettled _ first,
    done, ?_, second, unsettled _ second, left, ?_⟩
  · refine (released _ _ _ done _).1 ⟨w, .inl mem, same⟩ ?_
    rintro ⟨v, mem | ⟨key, hv⟩, -⟩
    · rw [arrived] at mem
      cases mem
    · cases (Std.TreeMap.getElem?_of_isEmpty waiting).symm.trans hv
  · refine (((released _ _ _ left _).2 ⟨1⟩ ⟨p, hp, asked⟩ ?_).resolve_right ?_)
    · rintro ⟨q, hq, -⟩
      cases gone.symm.trans hq
    · rintro ⟨⟨b, eq, -⟩, -⟩
      cases eq

end BlockRelay.Engine

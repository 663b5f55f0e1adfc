/-
# What peers offered

A peer offers an item by announcing it.  It is asked for a candidate only if it announced the hash
of the candidate, and every candidate was announced by somebody, in the kind that it has.  But
a peer is remembered for the bare hash.  So it may be asked for an item that it never offered,
and this happens in one way only: it offered the item of the same hash and of the other kind
(`offered_of_asked`).
-/
import BlockRelay.Ledger.Chain
import BlockRelay.Proofs.Records

namespace BlockRelay

/-! ## Kinds and offers -/

/-- The other one of the two kinds. -/
def ItemKind.other : ItemKind → ItemKind
  | .block => .transaction
  | .transaction => .block

/-- The item with the same hash and of the other kind. -/
def Item.twin (i : Item) : Item := ⟨i.hash, i.kind.other⟩

/-- Two items with one hash are the same, or each is the twin of the other. -/
theorem Item.eq_or_eq_twin {i j : Item} (same : j.hash = i.hash) : j = i ∨ j = i.twin := by
  obtain ⟨hash, kind⟩ := i
  obtain ⟨hash', kind'⟩ := j
  have same : hash' = hash := same
  subst same
  cases kind <;> cases kind' <;> simp [Item.twin, ItemKind.other]

variable {σ : Type}

/-- Whether a peer offers an item in a moment. -/
def Moment.offers (m : Moment σ) (id : PeerId) (i : Item) : Bool :=
  match m.heard? id with
  | some (.announce items) => items.contains i
  | _ => false

/-- An item is offered where an announcement that lists it is received. -/
theorem Moment.offers_iff {m : Moment σ} {id : PeerId} {i : Item} :
    m.offers id i = true ↔
      ∃ items, m.operation = some (.receive id (.announce items)) ∧ i ∈ items := by
  unfold offers
  split
  next items heard =>
    rw [heard?_eq_some_iff] at heard
    simp [heard]
  next other =>
    constructor
    · intro h
      cases h
    · rintro ⟨items, received, -⟩
      exact absurd (heard?_eq_some_iff.2 received) (other items)

namespace Engine

/-- What is noted in a moment is offered in it. -/
theorem offers_of_allows {m : Moment σ} {op : Operation} (performed : m.operation = some op)
    {id : PeerId} {i : Item} (allows : op.Allows (.noted id i)) : m.offers id i = true := by
  obtain ⟨items, rfl, mem⟩ := allows
  exact Moment.offers_iff.2 ⟨items, performed, mem⟩

variable [Ledger σ]

section

variable {config : Config} {ledger : σ} {clock : Clock} {start e : Engine σ}
  {past : List (Moment σ)}

/-- An engine starts without peers and without candidates. -/
theorem blank_of_start (started : Engine.start config ledger clock = .ok start) :
    start.peers = ∅ ∧ start.candidates = {} := by
  obtain ⟨_, -, eq⟩ := Checked.bind_eq_ok_iff.1 started
  cases eq
  exact ⟨rfl, rfl⟩

/-- Everything that is wanted was offered by somebody. -/
theorem Run.offered_of_wanted (run : Run start past e)
    (started : Engine.start config ledger clock = .ok start) {i : Item} (wanted : e.Wanted i) :
    ∃ d ∈ past, ∃ id, d.offers id i = true := by
  obtain ⟨peers, candidates⟩ := blank_of_start started
  have absent : ¬ start.Wanted i := by simp [Wanted, peers, candidates, CandidateQueue.items]
  obtain ⟨m, mem, op, _, performed, allows, id, rfl⟩ :=
    run.exists_cause (F := (·.Wanted i)) (C := fun d => ∃ id, d = .noted id i)
      (fun s h => s.wanted_or_noted h) absent (fun _ _ h => h) wanted
  exact ⟨m, mem, id, offers_of_allows performed allows⟩

/-- A hash for which a peer is remembered was offered by this peer since it was registered, in
one kind or the other. -/
theorem Run.offered_of_advertised (run : Run start past e)
    (started : Engine.start config ledger clock = .ok start) {id : PeerId} {i : Item}
    (advertised : e.Advertised id i.hash) :
    ∃ d ∈ session id past, d.offers id i = true ∨ d.offers id i.twin = true := by
  obtain ⟨peers, -⟩ := blank_of_start started
  have absent : ¬ start.Advertised id i.hash := by simp [Advertised, peers]
  have fresh (e : Engine σ) : ¬ (e.openSession id).Advertised id i.hash := by
    rintro ⟨p, hp, known⟩
    rw [peers_openSession, if_pos rfl] at hp
    cases hp
    simp [Peer.connected] at known
  have rare (d : Deed) (noted : ∃ j, d = .noted id j ∧ j.hash = i.hash) : ¬ d.IsRoutine := by
    obtain ⟨j, rfl, -⟩ := noted
    exact fun routine => Deed.isRoutine_iff.1 routine
  obtain ⟨m, mem, op, _, performed, allows, j, rfl, same⟩ :=
    run.exists_cause_session (F := (·.Advertised id i.hash)) (fun s h => s.advertised h) absent
      (fun _ _ h => h) fresh rare advertised
  refine ⟨m, mem, ?_⟩
  have offered := offers_of_allows performed allows
  rcases Item.eq_or_eq_twin same with rfl | rfl
  · exact .inl offered
  · exact .inr offered

end

/-- **What a peer is asked for it offered, up to the kind.**  In every run, a peer that is asked for
an announced item offered the item since it was registered, or it offered the twin of the
item while the item itself was offered by some other peer, or before this session. -/
theorem offered_of_asked {config : Config} {ledger : σ} {clock : Clock} {start e : Engine σ}
    {m : Moment σ} {past : List (Moment σ)}
    (started : Engine.start config ledger clock = .ok start) (run : Run start (m :: past) e)
    (reserves : m.operation = some .reserveCandidates) {id : PeerId} {items : List Item}
    (sent : Event.sent id (.fetch items) ∈ m.events) {i : Item} (asked : i ∈ items) :
    (∃ d ∈ session id past, d.offers id i = true) ∨
      (∃ d ∈ session id past, d.offers id i.twin = true) ∧
        ∃ d ∈ past, ∃ other, d.offers other i = true := by
  cases run with
  | meddle => cases reserves
  | perform before done =>
    cases reserves
    rcases asked_of_sent done sent asked with ⟨-, wanted, advertised⟩ | ⟨no, -⟩
    · obtain ⟨d, since, same | twin⟩ := before.offered_of_advertised started advertised
      · exact .inl ⟨d, since, same⟩
      · exact .inr ⟨⟨d, since, twin⟩, before.offered_of_wanted started wanted⟩
    · rcases no with no | no <;> cases no

/-- Two peers announce one hash, the second one as a transaction and the first one as a block. -/
def mixedAnnouncements : List Operation :=
  [.register ⟨1⟩ 0, .register ⟨2⟩ 0,
    .receive ⟨2⟩ (.announce [.transaction ⟨0, 0, 0, 7⟩]),
    .receive ⟨1⟩ (.announce [.block ⟨0, 0, 0, 7⟩]), .reserveCandidates]

/-- Whether the newest moment asks the first peer for the transaction, which it never offered. -/
def asksForTwin (past : List (Moment ChainLedger)) : Bool :=
  match past with
  | m :: past => m.operation = some .reserveCandidates &&
    m.events.contains (.sent ⟨1⟩ (.fetch [.transaction ⟨0, 0, 0, 7⟩])) &&
      (session ⟨1⟩ past).all fun d => !d.offers ⟨1⟩ (.transaction ⟨0, 0, 0, 7⟩)
  | [] => false

/-- After mixed announcements the first peer is asked for the transaction. -/
theorem exists_asksForTwin :
    ∃ (start e : Engine ChainLedger) (m : Moment ChainLedger) (past : List (Moment ChainLedger)),
      Engine.start {} (.ofGenesis (.genesis 0) 0 10) {} = .ok start ∧
        Run start (m :: past) e ∧ m.operation = some .reserveCandidates ∧
          Event.sent ⟨1⟩ (.fetch [.transaction ⟨0, 0, 0, 7⟩]) ∈ m.events ∧
            ∀ d ∈ session ⟨1⟩ past, ¬ d.offers ⟨1⟩ (.transaction ⟨0, 0, 0, 7⟩) = true := by
  obtain ⟨start, past, e, started, run, checked⟩ := exists_run {}
    (ChainLedger.ofGenesis (.genesis 0) 0 10) {} mixedAnnouncements
    (fun (past, _) => asksForTwin past) (by decide +kernel)
  cases past with
  | nil => cases checked
  | cons m past =>
    simp only [asksForTwin, Bool.and_eq_true, decide_eq_true_eq, List.all_eq_true,
      Bool.not_eq_true'] at checked
    obtain ⟨⟨reserves, sent⟩, never⟩ := checked
    refine ⟨start, e, m, past, started, run, reserves, List.contains_iff_mem.1 sent, ?_⟩
    intro d since offered
    rw [never d since] at offered
    cases offered

/-- The first peer is asked for the twin of what it offered, which the second peer offered. -/
theorem twin_offered :
    ∃ (start : Engine ChainLedger) (past : List (Moment ChainLedger)),
      Engine.start {} (.ofGenesis (.genesis 0) 0 10) {} = .ok start ∧
        (∃ d ∈ session ⟨1⟩ past, d.offers ⟨1⟩ (Item.transaction ⟨0, 0, 0, 7⟩).twin = true) ∧
          ∃ d ∈ past, ∃ other, d.offers other (.transaction ⟨0, 0, 0, 7⟩) = true := by
  obtain ⟨start, e, m, past, started, run, reserves, sent, never⟩ := exists_asksForTwin
  refine ⟨start, past, started, ?_⟩
  rcases offered_of_asked started run reserves sent (List.mem_singleton.2 rfl) with
    ⟨d, since, offered⟩ | twin
  · exact absurd offered (never d since)
  · exact twin

/-- A peer may be asked for an item that it never offered. -/
theorem asked_without_offer :
    ¬ ∀ (config : Config) (ledger : ChainLedger) (clock : Clock) (start e : Engine ChainLedger)
      (m : Moment ChainLedger) (past : List (Moment ChainLedger)) (id : PeerId)
      (items : List Item) (i : Item),
      Engine.start config ledger clock = .ok start → Run start (m :: past) e →
        m.operation = some .reserveCandidates → Event.sent id (.fetch items) ∈ m.events →
          i ∈ items → ∃ d ∈ session id past, d.offers id i = true := by
  intro always
  obtain ⟨start, e, m, past, started, run, reserves, sent, never⟩ := exists_asksForTwin
  obtain ⟨d, since, offered⟩ := always _ _ _ start e m past _ _ _ started run reserves sent
    (List.mem_singleton.2 rfl)
  exact never d since offered

end Engine

end BlockRelay

/-
# What an accepted block leaves to be fetched

Once the ledger has accepted a block, neither the block nor its transactions need be fetched.  A
block that was announced takes the transactions that the ledger names out of the queue of
candidates, and nothing else (`candidates_of_accepted`).  A pass over the waiting blocks takes no
candidate away, whatever it submits; it only adds what the peers that are left in it give back
(`Thins.candidates`, `thins_applyWaiting`).

So a hash of an accepted block is left among the candidates if it was one and the block was fetched
in a catch-up, or the ledger does not name it (`Moment.Leftover`, `accepted_forgotten_iff`).
-/
import BlockRelay.Proofs.Backlog
import BlockRelay.Proofs.Exclusion
import BlockRelay.Proofs.Sweeps

namespace BlockRelay

/-- The hash of a block, and those of its transactions. -/
def Block.hashes (b : Block) : List Hash := b.id.hash :: b.transactionHashes

/-- Forgetting several hashes leaves the candidates with other hashes. -/
theorem CandidateQueue.get?_foldl_erase (hashes : List Hash) (q : CandidateQueue) (h : Hash) :
    (hashes.foldl (fun q h => q.erase h) q).get? h = if h ∈ hashes then none else q.get? h := by
  induction hashes generalizing q with
  | nil => rfl
  | cons first rest ih =>
    rw [List.foldl_cons, ih, get?_erase]
    by_cases later : h ∈ rest
    · rw [if_pos later, if_pos (List.mem_cons_of_mem _ later)]
    by_cases here : h = first
    · rw [if_neg later, if_pos here, if_pos (here ▸ List.mem_cons_self ..)]
    · rw [if_neg later, if_neg here, if_neg]
      exact fun mem => (List.mem_cons.1 mem).elim here later

/-- What is put into a queue is a candidate, and so is what was one before. -/
theorem CandidateQueue.Renewal.contains_iff {q q' : CandidateQueue} {hash : Hash} {put : Prop}
    (h : Renewal q q' hash put) : q'.contains hash = true ↔ q.contains hash = true ∨ put := by
  unfold CandidateQueue.contains
  by_cases here : put
  · obtain ⟨c, found, -⟩ := h.renewed here
    simp [found, here]
  · simp [h.kept here, here]

namespace Engine

variable {σ : Type}

/-! ## While peers are left -/

/-- Peers are left, and otherwise the candidates, what is reserved and what was announced stay. -/
inductive Thins : Engine σ → Engine σ → Prop where
  | same {e e' : Engine σ} (candidates : e'.candidates = e.candidates)
      (records : ∀ id, e'.view (fun p => (p.reserved, p.advertised)) id =
        e.view (fun p => (p.reserved, p.advertised)) id) :
    Thins e e'
  | remove (e : Engine σ) (id : PeerId) (r : Option Reason) : Thins e (e.remove id r)
  | trans {e e₁ e' : Engine σ} (first : Thins e e₁) (later : Thins e₁ e') : Thins e e'

namespace Thins

variable {e e' : Engine σ}

/-- Nothing changes. -/
theorem refl (e : Engine σ) : Thins e e := .same rfl fun _ => rfl

/-- One element of a list after the other. -/
theorem foldl {α : Type} {f : Engine σ → α → Engine σ} (one : ∀ e a, Thins e (f e a))
    (list : List α) (e : Engine σ) : Thins e (list.foldl f e) := by
  induction list generalizing e with
  | nil => exact refl e
  | cons a rest ih => exact (one e a).trans (ih (f e a))

/-- A record that is left shows what a record showed before. -/
theorem record (h : Thins e e') {id : PeerId} {p' : Peer} (hp' : e'.peers[id]? = some p') :
    ∃ p, e.peers[id]? = some p ∧ p'.reserved = p.reserved ∧ p'.advertised = p.advertised := by
  induction h generalizing p' with
  | same candidates records =>
    have shown := records id
    rw [view, hp', Option.map_some, eq_comm, view, Option.map_eq_some_iff] at shown
    obtain ⟨p, hp, eq⟩ := shown
    obtain ⟨reserved, advertised⟩ := Prod.mk.inj eq
    exact ⟨p, hp, reserved.symm, advertised.symm⟩
  | remove e other r =>
    rw [peers_remove] at hp'
    split at hp'
    · cases hp'
    · exact ⟨p', hp', rfl, rfl⟩
  | trans _ _ first later =>
    obtain ⟨p₁, hp₁, reserved₁, advertised₁⟩ := later hp'
    obtain ⟨p, hp, reserved, advertised⟩ := first hp₁
    exact ⟨p, hp, reserved₁.trans reserved, advertised₁.trans advertised⟩

/-- What is reserved was reserved before. -/
theorem reservedOn (h : Thins e e') {id : PeerId} {hash : Hash} (held : e'.ReservedOn id hash) :
    e.ReservedOn id hash := by
  obtain ⟨p', hp', reserves⟩ := held
  obtain ⟨p, hp, reserved, -⟩ := h.record hp'
  refine ⟨p, hp, ?_⟩
  rwa [Peer.ReservesHash, ← reserved]

/-- What was announced was announced before. -/
theorem advertised (h : Thins e e') {id : PeerId} {hash : Hash} (known : e'.Advertised id hash) :
    e.Advertised id hash := by
  obtain ⟨p', hp', contains⟩ := known
  obtain ⟨p, hp, -, advertised⟩ := h.record hp'
  exact ⟨p, hp, advertised ▸ contains⟩

/-- Who is registered was registered before. -/
theorem isRegistered (h : Thins e e') {id : PeerId} (known : e'.isRegistered id = true) :
    e.isRegistered id = true := by
  obtain ⟨p', hp'⟩ := isRegistered_iff.1 known
  obtain ⟨p, hp, -⟩ := h.record hp'
  exact isRegistered_iff.2 ⟨p, hp⟩

/-- **While peers are left no candidate is taken away.**  What is put among the candidates was
reserved on a peer that is left, and another peer announced it. -/
theorem candidates (h : Thins e e') (hash : Hash) :
    ∃ put, e.candidates.Renewal e'.candidates hash put ∧ (put →
      ∃ id, e.ReservedOn id hash ∧ e'.isRegistered id = false ∧
        ∃ other, other ≠ id ∧ e.Advertised other hash) := by
  induction h with
  | same candidates => exact ⟨False, candidates ▸ .refl _ _ id, False.elim⟩
  | remove e id r =>
    refine ⟨_, renewal_remove e id r hash, fun ⟨_, held, announced⟩ => ⟨id, held, ?_, announced⟩⟩
    rw [Engine.isRegistered, Std.TreeMap.contains_eq_isSome_getElem?, peers_remove, if_pos rfl]
    rfl
  | trans thins thins' first later =>
    obtain ⟨put, renewal, given⟩ := first
    obtain ⟨put', renewal', given'⟩ := later
    refine ⟨put ∨ put', renewal.trans renewal', ?_⟩
    rintro (here | here)
    · obtain ⟨id, held, gone, announced⟩ := given here
      refine ⟨id, held, Bool.eq_false_iff.2 fun known => ?_, announced⟩
      exact Bool.false_ne_true (gone.symm.trans (thins'.isRegistered known))
    · obtain ⟨id, held, gone, other, ne, announced⟩ := given' here
      exact ⟨id, thins.reservedOn held, gone, other, ne, thins.advertised announced⟩

end Thins

/-- Leaving several peers. -/
theorem thins_disconnectAll (e : Engine σ) (leaving : List (PeerId × Reason)) :
    Thins e (e.disconnectAll leaving) :=
  .foldl (fun e (l : PeerId × Reason) => .remove e l.1 (some l.2)) leaving e

variable [Ledger σ] {e e' : Engine σ}

/-- The next summary is sent, or the peer is left. -/
theorem thins_nextSummary (e : Engine σ) (id : PeerId) : Thins e (e.nextSummary id) := by
  unfold nextSummary
  split
  · exact .refl e
  · split
    · exact .refl e
    · split
      · exact .same rfl (view_modify rfl fun _ => rfl)
      · exact .remove e id _

/-- A catch-up begins anew, or the peer is left. -/
theorem thins_startCatchUp (e : Engine σ) (id : PeerId) : Thins e (e.startCatchUp id) := by
  unfold startCatchUp
  split
  · have restarted : Thins e (e.restart id) := .same rfl (view_modify rfl fun _ => rfl)
    exact restarted.trans (thins_nextSummary _ id)
  · exact .refl e

/-- Submitting a waiting block leaves nobody, and no candidate changes. -/
theorem thins_submitFetched {hash : Hash} {b : Block} {r : Option Refusal}
    (done : (e.takeNext hash).submitFetched b = .ok (r, e')) : Thins e e' := by
  refine .same (SameRequests.submitFetched done).candidates fun id => ?_
  rw [view, revised_submitFetched done id, Option.map_map]
  refine congrArg (Option.map · _) (funext fun p => ?_)
  simp only [Function.comp_apply]
  split <;> simp

/-- Applying a waiting block only leaves peers. -/
theorem thins_applyFetched {hash : Hash} {b : Block}
    (done : (e.takeNext hash).applyFetched b = .ok e') : Thins e e' := by
  obtain ⟨⟨r, e₁⟩, submitted, done⟩ := Checked.bind_eq_ok_iff.1 done
  refine (thins_submitFetched submitted).trans ?_
  cases r with
  | none =>
    cases done
    exact (Thins.foldl thins_startCatchUp _ e₁).trans (.foldl thins_nextSummary _ _)
  | some error =>
    cases done
    exact thins_disconnectAll e₁ _

/-- Taking waiting blocks only leaves peers. -/
theorem Handles.thins {list : List (Handling σ)} (h : Handles e list e') : Thins e e' := by
  induction h with
  | nil => exact .refl _
  | cons legal _ ih =>
    refine Thins.trans ?_ ih
    cases legal with
    | submit _ _ _ done => exact thins_applyFetched done
    | drop => exact .same rfl fun _ => rfl

/-- A pass over the waiting blocks only leaves peers. -/
theorem Pass.thins {list : List (Handling σ)} {n : Nat} (pass : Pass e list n e') :
    Thins e e' := by
  obtain ⟨last, handles, final⟩ := pass.handles
  have opened : Thins e e.absorb.resume := by
    obtain ⟨suspended, resumed⟩ := resume_eq e.absorb
    rw [resumed]
    exact .same rfl fun _ => rfl
  refine (opened.trans handles.thins).trans ?_
  rcases final with rfl | rfl
  · exact .refl _
  · exact .same rfl fun _ => rfl

/-! ## Accepted blocks -/

/-- An announced block that the ledger accepts takes out of the queue of candidates what the ledger
names, and nothing else. -/
theorem candidates_of_accepted {id : PeerId} {p : Peer} {b : Block} {ts : List Hash} {ledger : σ}
    (hp : e.peers[id]? = some p) (notAsked : p.blocksAsked.contains b.id.hash = false)
    (reserved : p.reserved.contains b.id.item = true) (fresh : e.recent.contains b.id = false)
    (accepted : Ledger.applyBlock e.ledger b false = .ok (.ok ts, ledger))
    (done : e.receiveBlock id b = .ok e') :
    e'.candidates = ts.foldl (fun q h => q.erase h) e.candidates := by
  simp only [receiveBlock, hp, notAsked, reserved, Bool.false_eq_true, if_false, if_true] at done
  obtain ⟨⟨r, e₁⟩, submitted, done⟩ := Checked.bind_eq_ok_iff.1 done
  rcases submitAnnounced_cases submitted with ⟨known, -, -⟩ | ⟨result, ledger', applied, settled⟩
  · cases fresh.symm.trans known
  · cases accepted.symm.trans applied
    obtain ⟨rfl, rfl⟩ := settled
    cases done
    rfl

end Engine

namespace Moment

variable {σ : Type} [Ledger σ]

/-- Whether the ledger accepts a block for the engine in a moment, and names the transactions `ts`:
a block that was announced, or one that was fetched in a catch-up. -/
inductive Accepts (m : Moment σ) : Block → List Hash → Bool → Prop where
  | announced {id : PeerId} {p : Peer} {b : Block} {ts : List Hash} {ledger : σ}
    (received : m.operation = some (.receive id (.block b)))
    (hp : m.before.peers[id]? = some p) (notAsked : p.blocksAsked.contains b.id.hash = false)
    (reserved : p.reserved.contains b.id.item = true)
    (fresh : m.before.recent.contains b.id = false)
    (accepted : Ledger.applyBlock m.before.ledger b false = .ok (.ok ts, ledger)) :
    Accepts m b ts false
  | fetched {applyDue : Bool} {n : Nat} {list : List (Engine.Handling σ)} {h : Engine.Handling σ}
    {ts : List Hash} {ledger : σ} (passes : m.Passes n)
    (pass : Engine.Pass { m.before with applyDue } list n m.after) (mem : h ∈ list)
    (submitted : h.submitted = true) (fresh : h.before.recent.contains h.taken.block.id = false)
    (accepted : Ledger.applyBlock h.before.ledger h.taken.block true = .ok (.ok ts, ledger)) :
    Accepts m h.taken.block ts true

/-- Whether a hash of a block that the ledger accepts stays a candidate: the block was fetched in a
catch-up, or the ledger does not name the hash.  A pass may also put it among the candidates. -/
def Leftover (m : Moment σ) (b : Block) (hash : Hash) : Prop :=
  hash ∈ b.hashes ∧ ∃ ts sync, m.Accepts b ts sync ∧
    (m.before.candidates.contains hash = true ∧ (sync = true ∨ hash ∉ ts) ∨
      sync = true ∧ m.Puts hash)

end Moment

namespace Engine

variable {σ : Type} [Ledger σ] {e e' : Engine σ}

section

variable {config : Config} {ledger : σ} {clock : Clock} {start : Engine σ} {past : List (Moment σ)}
  {m : Moment σ}

/-- What becomes of the candidates when an announced block is accepted. -/
theorem Run.candidates_of_announced (run : Run start (m :: past) e)
    (started : Engine.start config ledger clock = .ok start) {b : Block} {ts : List Hash}
    (accepts : m.Accepts b ts false) :
    (∀ hash, m.after.candidates.get? hash =
        if hash ∈ ts then none else m.before.candidates.get? hash) ∧
      b.id.item ∉ m.after.candidates.items := by
  cases accepts with
  | @announced id p _ _ _ received hp notAsked reserved fresh accepted =>
    cases run with
    | meddle => cases received
    | @perform _ e₀ _ _ _ before done =>
      cases received
      have heard := receive_of_perform done
      rw [receive, if_pos (isRegistered_iff.2 ⟨p, hp⟩)] at heard
      have left := candidates_of_accepted hp notAsked reserved fresh accepted heard
      refine ⟨fun hash => ?_, fun mem => ?_⟩
      · rw [left, CandidateQueue.get?_foldl_erase]
      · -- the block itself was reserved, and so it was no candidate
        rw [left] at mem
        have held : e₀.hasReserved id b.id.item = true := by
          rw [hasReserved, hp]
          exact reserved
        exact (before.exclusive started).apart held
          ((CandidateQueue.items_foldl_erase_sublist ts _).subset mem)

/-- What becomes of the candidates in a pass over the waiting blocks. -/
theorem Run.candidates_of_passes (run : Run start (m :: past) e)
    (started : Engine.start config ledger clock = .ok start) {n : Nat} (passes : m.Passes n)
    (hash : Hash) :
    (m.after.candidates.contains hash = true ↔
        m.before.candidates.contains hash = true ∨ m.Puts hash) ∧
      (m.Puts hash → ∃ id, m.Leaves id ∧ m.before.ReservedOn id hash ∧
        ∃ other, other ≠ id ∧ m.before.Advertised other hash) := by
  cases run with
  | meddle => cases passes
  | @perform _ e _ _ _ before =>
    have stretches : e.QueuesConsecutive :=
      before.invariant (.start started) (fun s h => h.step s) fun _ _ h => h
    obtain ⟨applyDue, done⟩ := exists_applyWaiting_of_passes passes
    obtain ⟨list, pass⟩ := exists_pass (e := { e with applyDue }) (before.keyed started) stretches
      (before.atRest started) done
    obtain ⟨put, renewal, given⟩ := pass.thins.candidates hash
    have numbered := before.numbered started
    have puts := renewal.ne_iff numbered
    refine ⟨renewal.contains_iff.trans (or_congr_right puts.symm), fun here => ?_⟩
    obtain ⟨id, held, gone, announced⟩ := given (puts.1 here)
    exact ⟨id, ⟨held.isRegistered, gone⟩, held, announced⟩

/-- Which hashes are candidates after a block was accepted. -/
theorem Run.contains_of_accepts (run : Run start (m :: past) e)
    (started : Engine.start config ledger clock = .ok start) {b : Block} {ts : List Hash}
    {sync : Bool} (accepts : m.Accepts b ts sync) (hash : Hash) :
    m.after.candidates.contains hash = true ↔
      m.before.candidates.contains hash = true ∧ (sync = true ∨ hash ∉ ts) ∨
        sync = true ∧ m.Puts hash := by
  cases sync with
  | false =>
    rw [CandidateQueue.contains, (run.candidates_of_announced started accepts).1,
      CandidateQueue.contains]
    split
    next named => simp [named]
    next unnamed => simp [unnamed]
  | true =>
    cases accepts with
    | fetched passes =>
      rw [(run.candidates_of_passes started passes hash).1]
      simp

/-- What is no candidate is not asked for when candidates are reserved. -/
theorem contains_of_reserveCandidates {n : Nat} (done : e.reserveCandidates = .ok (n, e'))
    {id : PeerId} {items : List Item}
    (sent : Event.sent id (.fetch items) ∈ (Moment.mk e (some .reserveCandidates) e').events)
    {i : Item} (asked : i ∈ items) : e.candidates.contains i.hash = true := by
  suffices Appends (fun ev => ∀ id items, ev = .sent id (.fetch items) →
      ∀ i ∈ items, i ∈ e.candidates.items) e e' by
    have appended := (Appends.events (m := ⟨e, some .reserveCandidates, e'⟩) this).2
    exact CandidateQueue.contains_iff_mem_items.2 ⟨i, appended _ sent id items rfl i asked, rfl⟩
  unfold reserveCandidates at done
  split at done
  · cases done
    exact .same rfl
  · obtain ⟨maxAge, -, done⟩ := Checked.bind_eq_ok_iff.1 done
    cases done
    have reserves := Step.reserve { e with candidates := (e.candidates.dropStale e.now maxAge).2 }
    refine .trans (.same rfl) (reserves.appends_asksFor.mono fun ev asks id items eq i mem => ?_)
    obtain ⟨-, queued, -⟩ := (asks id items eq i mem).resolve_right (by simp)
    exact (CandidateQueue.items_dropStale_sublist ..).subset queued

/-- **Accepted blocks are forgotten, unless something is left over.**  In every run no hash of a
block that the ledger accepts is a candidate afterwards exactly if nothing is left over.  An
announced block takes out of the queue of candidates what the ledger names, and is no candidate
itself; nothing else changes there.  A pass over the waiting blocks takes no candidate away, and
puts only those there that a peer which is left gives back.  What is no candidate is not asked
for. -/
theorem accepted_forgotten_iff (started : Engine.start config ledger clock = .ok start)
    (run : Run start past e) :
    ((∀ m ∈ past, ∀ b ts sync, m.Accepts b ts sync →
          ∀ hash ∈ b.hashes, m.after.candidates.contains hash = false) ↔
        ∀ m ∈ past, ∀ b hash, ¬ m.Leftover b hash) ∧
      (∀ m ∈ past, ∀ b ts, m.Accepts b ts false →
        (∀ hash, m.after.candidates.get? hash =
          if hash ∈ ts then none else m.before.candidates.get? hash) ∧
        b.id.item ∉ m.after.candidates.items) ∧
      (∀ m ∈ past, ∀ n, m.Passes n → ∀ hash,
        (m.after.candidates.contains hash = true ↔
          m.before.candidates.contains hash = true ∨ m.Puts hash) ∧
        (m.Puts hash → ∃ id, m.Leaves id ∧ m.before.ReservedOn id hash ∧
          ∃ other, other ≠ id ∧ m.before.Advertised other hash)) ∧
      ∀ n e', e.reserveCandidates = .ok (n, e') → ∀ id items,
        Event.sent id (.fetch items) ∈ (Moment.mk e (some .reserveCandidates) e').events →
          ∀ i ∈ items, e.candidates.contains i.hash = true := by
  refine ⟨forall₂_congr fun m mem => ?_, fun m mem b ts accepts => ?_,
    fun m mem n passes hash => ?_,
    fun n e' done id items sent i asked => contains_of_reserveCandidates done sent asked⟩ <;>
    obtain ⟨older, -, newest⟩ := run.reached mem
  · constructor
    · rintro forgotten b hash ⟨mem, ts, sync, accepts, left⟩
      have gone := forgotten b ts sync accepts hash mem
      exact Bool.eq_false_iff.1 gone ((newest.contains_of_accepts started accepts hash).2 left)
    · intro none b ts sync accepts hash mem
      refine Bool.eq_false_iff.2 fun left => none b hash ⟨mem, ts, sync, accepts, ?_⟩
      exact (newest.contains_of_accepts started accepts hash).1 left
  · exact newest.candidates_of_announced started accepts
  · exact newest.candidates_of_passes started passes hash

end

/-- A block that carries a transaction. -/
def ladenBlock : Block := { Block.bare 1 with transactions := [⟨[], 0⟩] }

/-- A peer is asked for a block in a catch-up and delivers it, after another peer has announced the
transaction that the block carries. -/
def announcedElsewhere : List Operation :=
  [.register ⟨1⟩ 1, .receive ⟨1⟩ (.summaryReply [(Block.bare 0).id, ladenBlock.id] 0),
    .issueRequests, .register ⟨2⟩ 0,
    .receive ⟨2⟩ (.announce (ladenBlock.transactions.map Transaction.item)),
    .receive ⟨1⟩ (.block ladenBlock)]

/-- Whether nothing but one block waits, and it comes from a registered peer and would be accepted
as new. -/
def awaitsOnly (e : Engine ChainLedger) (b : Block) : Bool :=
  match e.waiting.toList with
  | [(hash, w)] => hash = b.id.hash && w.block = b && e.isRegistered w.origin &&
    !e.recent.contains b.id && (e.ledger.applyBlock b).toOption.any fun r =>
      r.1.toOption = some b.transactionHashes
  | _ => false

/-- A block that waits alone is accepted if a pass applies one. -/
theorem accepts_of_awaitsOnly {e e' : Engine ChainLedger} {list : List (Handling ChainLedger)}
    {b : Block} (pass : Pass e list 1 e') (done : e.applyWaiting = .ok (1, e'))
    (alone : e.absorb.resume.awaitsOnly b = true) :
    (Moment.mk e (some .applyWaiting) e').Accepts b b.transactionHashes true := by
  obtain ⟨last, handles, -⟩ := pass.handles
  generalize e.absorb.resume = opened at handles alone
  unfold awaitsOnly at alone
  split at alone
  next hash w waits =>
    simp only [Bool.and_eq_true, decide_eq_true_eq, Bool.not_eq_true', Option.any_eq_true,
      Checked.toOption_eq_some_iff] at alone
    obtain ⟨⟨⟨⟨rfl, rfl⟩, here⟩, fresh⟩, ⟨result, ledger⟩, applied, named⟩ := alone
    have only {hash : Hash} {other : WaitingBlock} (hw : opened.waiting[hash]? = some other) :
        other = w := by
      have mem := Std.TreeMap.mem_toList_iff_getElem?_eq_some.2 hw
      rw [waits, List.mem_singleton] at mem
      exact congrArg Prod.snd mem
    cases handles with
    | nil => cases pass.count
    | cons legal =>
      cases legal with
      | submit hw =>
        cases only hw
        cases result with
        | error => cases named
        | ok ts =>
          cases named
          exact .fetched (.asked done) pass (List.mem_cons_self ..) rfl fresh applied
      | drop hw gone =>
        cases only hw
        cases here.symm.trans gone
  next => cases alone

/-- The transaction of a block that is applied in a catch-up stays a candidate. -/
theorem exists_leftover :
    ∃ (start e e' : Engine ChainLedger) (past : List (Moment ChainLedger)),
      Engine.start {} (.ofGenesis (.genesis 0) 0 10) {} = .ok start ∧ Run start past e ∧
        (Moment.mk e (some .applyWaiting) e').Accepts ladenBlock ladenBlock.transactionHashes true ∧
          e.applyWaiting = .ok (1, e') ∧
          ∃ hash ∈ ladenBlock.hashes, e'.candidates.contains hash = true := by
  obtain ⟨start, past, e, started, run, checked⟩ := exists_run {}
    (ChainLedger.ofGenesis (.genesis 0) 0 10) {} announcedElsewhere
    (fun r => r.2.absorb.resume.awaitsOnly ladenBlock &&
      r.2.applyWaiting.toOption.any fun (n, e') => n = 1 &&
        ladenBlock.transactionHashes.any fun hash => e'.candidates.contains hash)
    (by decide +kernel)
  simp only [Bool.and_eq_true, Option.any_eq_true, Checked.toOption_eq_some_iff,
    decide_eq_true_eq, List.any_eq_true] at checked
  obtain ⟨alone, ⟨n, e'⟩, done, rfl, hash, mem, queued⟩ := checked
  obtain ⟨list, pass⟩ := (Run.pass_in_order started run).1 1 e' done
  exact ⟨start, e, e', past, started, run, accepts_of_awaitsOnly pass done alone, done, hash,
    List.mem_cons_of_mem _ mem, queued⟩

/-- What is left over is a hash of the block that was applied. -/
theorem leftover_of_catch_up :
    ∃ (start e : Engine ChainLedger) (past : List (Moment ChainLedger)),
      Engine.start {} (.ofGenesis (.genesis 0) 0 10) {} = .ok start ∧ Run start past e ∧
        ∃ m ∈ past, ∃ b hash, m.Leftover b hash := by
  obtain ⟨start, e, e', past, started, run, accepts, done, hash, mem, queued⟩ := exists_leftover
  have later := run.applyWaiting done
  refine ⟨start, e', _, started, later, ?_⟩
  by_contra none
  have forgotten := (accepted_forgotten_iff started later).1.2 fun m mem b hash left =>
    none ⟨m, mem, b, hash, left⟩
  have gone := forgotten _ (List.mem_cons_self ..) _ _ _ accepts hash mem
  exact Bool.false_ne_true (gone.symm.trans queued)

/-- A transaction of an accepted block may be left among the candidates. -/
theorem candidate_after_acceptance :
    ¬ ∀ (config : Config) (ledger : ChainLedger) (clock : Clock) (start e : Engine ChainLedger)
      (past : List (Moment ChainLedger)),
      Engine.start config ledger clock = .ok start → Run start past e →
        ∀ m ∈ past, ∀ b ts sync, m.Accepts b ts sync →
          ∀ hash ∈ b.hashes, m.after.candidates.contains hash = false := by
  intro always
  obtain ⟨start, e, e', past, started, run, accepts, done, hash, mem, queued⟩ := exists_leftover
  have forgotten := always _ _ _ start e' _ started (run.applyWaiting done) _
    (List.mem_cons_self ..) _ _ _ accepts hash mem
  exact Bool.false_ne_true (forgotten.symm.trans queued)

end Engine

end BlockRelay

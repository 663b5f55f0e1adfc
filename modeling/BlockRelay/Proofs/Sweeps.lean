/-
# What a sweep gives back

A sweep leaves several peers: those that have not answered in time, or all of them.  What was
reserved on the peers that are left should become a candidate again only for somebody who stays.

The peers are left one after the other, in the order of their numbers, and each of them gives back
what another peer that is registered at that time has announced.  So an object becomes a candidate
if one of the peers that are left holds it, and another one announced it that stays or is left later
(`renewal_disconnectAll`).  If all of these are left later, nobody is there to serve the object, and
the sweep has forsaken it (`Moment.Forsakes`, `sweeps_serve_iff`).
-/
import BlockRelay.Proofs.Departures
import BlockRelay.Proofs.Numbering
import BlockRelay.Proofs.Records

namespace BlockRelay

/-! ## Candidates that are put into a queue -/

namespace CandidateQueue

/-- How the candidate with a hash changes: if `put` holds it gets a number that was not given out
before, and otherwise it stays as it is. -/
structure Renewal (q q' : CandidateQueue) (hash : Hash) (put : Prop) : Prop where
  numbers : q.lastSequence ≤ q'.lastSequence
  renewed : put → ∃ c, q'.get? hash = some c ∧ q.lastSequence < c.sequence
  kept : ¬ put → q'.get? hash = q.get? hash

namespace Renewal

variable {q q₁ q' : CandidateQueue} {hash : Hash} {put put' : Prop}

/-- Nothing is put into a queue that stays the same. -/
theorem refl (q : CandidateQueue) (hash : Hash) (never : ¬ put) : Renewal q q hash put :=
  ⟨Nat.le_refl _, fun here => absurd here never, fun _ => rfl⟩

/-- What is put first or later. -/
theorem trans (h : Renewal q q₁ hash put) (h' : Renewal q₁ q' hash put') :
    Renewal q q' hash (put ∨ put') := by
  refine ⟨h.numbers.trans h'.numbers, fun some => ?_, fun none => ?_⟩
  · by_cases later : put'
    · obtain ⟨c, found, new⟩ := h'.renewed later
      exact ⟨c, found, Nat.lt_of_le_of_lt h.numbers new⟩
    · obtain ⟨c, found, new⟩ := h.renewed (some.resolve_right later)
      exact ⟨c, (h'.kept later).trans found, new⟩
  · rw [not_or] at none
    exact (h'.kept none.2).trans (h.kept none.1)

/-- The condition may be stated in another way. -/
theorem congr (h : Renewal q q' hash put) (same : put' ↔ put) : Renewal q q' hash put' :=
  ⟨h.numbers, fun here => h.renewed (same.1 here),
    fun none => h.kept fun here => none (same.2 here)⟩

/-- With a number that was not given out before, a candidate is not the one that it was. -/
theorem ne_iff (h : Renewal q q' hash put) (numbered : q.Numbered) :
    q'.get? hash ≠ q.get? hash ↔ put := by
  refine ⟨fun ne => not_not.1 fun none => ne (h.kept none), fun here same => ?_⟩
  obtain ⟨c, found, new⟩ := h.renewed here
  rw [same] at found
  exact Nat.not_lt.2 (numbered.bounded c (List.mem_of_find?_eq_some found)) new

end Renewal

end CandidateQueue

namespace Engine

variable {σ : Type} {e : Engine σ} {id : PeerId} {hash : Hash}

/-- Whether an announced object with a hash is reserved on a registered peer. -/
def ReservedOn (e : Engine σ) (id : PeerId) (hash : Hash) : Prop :=
  ∃ p, e.peers[id]? = some p ∧ p.ReservesHash hash

/-- Only on registered peers something is reserved. -/
theorem ReservedOn.isRegistered (h : e.ReservedOn id hash) : e.isRegistered id = true :=
  isRegistered_iff.2 (h.imp fun _ => And.left)

/-- Only what registered peers announced is remembered. -/
theorem Advertised.isRegistered (h : e.Advertised id hash) : e.isRegistered id = true :=
  isRegistered_iff.2 (h.imp fun _ => And.left)

/-! ## One removal -/

/-- Releasing the reservations of a peer puts those into the queue that return. -/
theorem renewal_releaseReservations (e : Engine σ) (p : Peer) (hash : Hash) :
    e.candidates.Renewal (e.releaseReservations p).candidates hash
      (p.ReservesHash hash ∧ e.Returns hash) := by
  have released := released_releaseReservations e p
  rw [← exists_mem_keys_reserved]
  refine ⟨released.numbers, fun back => ?_, released.stayed hash⟩
  obtain ⟨c, found, -, -, new⟩ := released.returned hash back.1 back.2
  exact ⟨c, found, new⟩

/-- **One removal.**  What was reserved on a peer is put into the queue if another peer announced it
and it is not quarantined. -/
theorem renewal_remove (e : Engine σ) (id : PeerId) (r : Option Reason) (hash : Hash) :
    e.candidates.Renewal (e.remove id r).candidates hash
      (e.isQuarantined hash = false ∧ e.ReservedOn id hash ∧
        ∃ other, other ≠ id ∧ e.Advertised other hash) := by
  cases hp : e.peers[id]? with
  | none =>
    rw [remove_of_unknown hp]
    refine .refl _ _ ?_
    rintro ⟨-, ⟨p, known, -⟩, -⟩
    cases hp.symm.trans known
  | some p =>
    obtain ⟨e', candidates, peers, quarantine, eq⟩ := candidates_remove hp r
    rw [eq, ← candidates]
    refine (renewal_releaseReservations e' p hash).congr ?_
    have returns : e'.Returns hash ↔ (e.remove id r).Returns hash := by
      obtain ⟨_, _, _, removed⟩ := remove_eq hp r
      rw [removed]
      unfold Returns anyPeer isQuarantined
      rw [peers, quarantine]
    have held : e.ReservedOn id hash ↔ p.ReservesHash hash := by
      simp [ReservedOn, hp]
    rw [returns, returns_remove hp, held]
    unfold Advertised
    tauto

/-- What is reserved on whom after a removal. -/
theorem reservedOn_remove {r : Option Reason} {other : PeerId} :
    (e.remove id r).ReservedOn other hash ↔ other ≠ id ∧ e.ReservedOn other hash := by
  unfold ReservedOn
  rw [peers_remove]
  split
  next same => simp [same]
  next ne => simp [ne]

/-- Who announced what after a removal. -/
theorem advertised_remove {r : Option Reason} {other : PeerId} :
    (e.remove id r).Advertised other hash ↔ other ≠ id ∧ e.Advertised other hash := by
  unfold Advertised
  rw [peers_remove]
  split
  next same => simp [same]
  next ne => simp [ne]

/-- A removal leaves the quarantine alone. -/
theorem isQuarantined_remove (r : Option Reason) :
    (e.remove id r).isQuarantined hash = e.isQuarantined hash := by
  cases hp : e.peers[id]? with
  | none => rw [remove_of_unknown hp]
  | some p =>
    obtain ⟨_, _, _, eq⟩ := remove_eq hp r
    rw [eq]
    rfl

/-! ## Several removals -/

/-- Whether leaving peers in the order of their numbers puts a hash into the queue: one of them
holds it, and another peer announced it that stays or is left later. -/
def GivesBack (e : Engine σ) (leaving : List PeerId) (hash : Hash) : Prop :=
  e.isQuarantined hash = false ∧ ∃ id ∈ leaving, e.ReservedOn id hash ∧
    ∃ other, other ≠ id ∧ e.Advertised other hash ∧ (other ∈ leaving → compare id other = .lt)

/-- What is put into the queue when peers are left is put there by the first or by the others. -/
theorem givesBack_cons {rest : List PeerId} {r : Option Reason}
    (sorted : (id :: rest).Pairwise fun a b => compare a b = .lt) :
    e.GivesBack (id :: rest) hash ↔
      (e.isQuarantined hash = false ∧ e.ReservedOn id hash ∧
        ∃ other, other ≠ id ∧ e.Advertised other hash) ∨
      (e.remove id r).GivesBack rest hash := by
  have first := (List.pairwise_cons.1 sorted).1
  simp only [GivesBack, isQuarantined_remove, reservedOn_remove, advertised_remove]
  constructor
  · rintro ⟨clean, holder, mem, holds, other, ne, announced, order⟩
    rcases List.mem_cons.1 mem with rfl | among
    · exact .inl ⟨clean, holds, other, ne, announced⟩
    · have after := first holder among
      have notFirst : holder ≠ id := by
        rintro rfl
        exact Std.OrientedCmp.not_lt_of_lt after after
      refine .inr ⟨clean, holder, among, ⟨notFirst, holds⟩, other, ne, ⟨?_, announced⟩,
        fun later => order (List.mem_cons_of_mem _ later)⟩
      -- the first peer is gone when the one that holds the object is left
      rintro rfl
      exact Std.OrientedCmp.not_lt_of_lt after (order (List.mem_cons_self ..))
  · rintro (⟨clean, holds, other, ne, announced⟩ |
      ⟨clean, holder, mem, ⟨-, holds⟩, other, ne, ⟨stays, announced⟩, order⟩)
    · refine ⟨clean, id, List.mem_cons_self .., holds, other, ne, announced, fun later => ?_⟩
      exact first other ((List.mem_cons.1 later).resolve_left ne)
    · exact ⟨clean, holder, List.mem_cons_of_mem _ mem, holds, other, ne, announced,
        fun later => order ((List.mem_cons.1 later).resolve_left stays)⟩

/-- **Several removals.**  What was reserved on one of the peers that are left is put into the queue
if another peer announced it that stays or is left later. -/
theorem renewal_disconnectAll (leaving : List (PeerId × Reason)) (e : Engine σ) (hash : Hash)
    (sorted : (leaving.map (·.1)).Pairwise fun a b => compare a b = .lt) :
    e.candidates.Renewal (e.disconnectAll leaving).candidates hash
      (e.GivesBack (leaving.map (·.1)) hash) := by
  unfold disconnectAll
  induction leaving generalizing e with
  | nil =>
    refine .refl _ _ ?_
    rintro ⟨-, holder, mem, -⟩
    cases mem
  | cons l rest ih =>
    have others := ih (e.remove l.1 (some l.2)) (List.pairwise_cons.1 sorted).2
    exact ((renewal_remove e l.1 (some l.2) hash).trans others).congr (givesBack_cons sorted)

end Engine

/-! ## Sweeps -/

namespace Moment

variable {σ : Type}

/-- Whether several peers may be left in a moment: those that have not answered in time, or all. -/
def Sweeps (m : Moment σ) : Prop :=
  m.operation = some .leaveSilent ∨ m.operation = some .close

/-- Whether a peer is left in a moment. -/
def Leaves (m : Moment σ) (id : PeerId) : Prop :=
  m.before.isRegistered id = true ∧ m.after.isRegistered id = false

/-- Whether a hash is put among the candidates, or what is noted of it as a candidate changes. -/
def Puts (m : Moment σ) (hash : Hash) : Prop :=
  m.after.candidates.get? hash ≠ m.before.candidates.get? hash

/-- Whether a sweep leaves everybody who announced an object, and one of them later than a peer that
holds it. -/
def Forsakes (m : Moment σ) (hash : Hash) : Prop :=
  m.Sweeps ∧ m.before.isQuarantined hash = false ∧
    (∀ id, m.before.Advertised id hash → m.Leaves id) ∧
      ∃ id other, m.Leaves id ∧ m.before.ReservedOn id hash ∧ m.before.Advertised other hash ∧
        compare id other = .lt

end Moment

namespace Engine

variable {σ : Type} {e : Engine σ}

/-- The peers that have not answered in time are listed in the order of their numbers. -/
theorem sorted_silentPeers (e : Engine σ) :
    (e.silentPeers.map (·.1)).Pairwise fun a b => compare a b = .lt := by
  have sorted := Std.TreeMap.ordered_keys_toList (t := e.peers)
  rw [List.pairwise_map, silentPeers, List.pairwise_filterMap]
  refine sorted.imp fun {a b} lt x hx y hy => ?_
  obtain ⟨_, -, rfl⟩ := Option.map_eq_some_iff.1 hx
  obtain ⟨_, -, rfl⟩ := Option.map_eq_some_iff.1 hy
  exact lt

/-- All peers are listed in the order of their numbers. -/
theorem sorted_keys (e : Engine σ) (r : Reason) :
    ((e.peers.keys.map fun id => (id, r)).map (·.1)).Pairwise fun a b => compare a b = .lt := by
  rw [List.map_map]
  simpa [Function.comp_def] using Std.TreeMap.ordered_keys (t := e.peers)

variable [Ledger σ]

/-- A sweep leaves peers in the order of their numbers. -/
theorem exists_leaving_of_sweeps {m : Moment σ} {start e : Engine σ} {past : List (Moment σ)}
    (run : Run start (m :: past) e) (sweeps : m.Sweeps) :
    Run start past m.before ∧ ∃ leaving : List (PeerId × Reason),
      m.after = m.before.disconnectAll leaving ∧
        (leaving.map (·.1)).Pairwise fun a b => compare a b = .lt := by
  cases run with
  | perform before done =>
    refine ⟨before, ?_⟩
    rcases sweeps with eq | eq <;> cases eq <;> cases done
    · exact ⟨_, rfl, sorted_silentPeers _⟩
    · exact ⟨_, rfl, sorted_keys _ .requested⟩
  | meddle => rcases sweeps with eq | eq <;> cases eq

omit [Ledger σ] in
/-- The registered peers among those that a sweep lists are left. -/
theorem leaves_iff {m : Moment σ} {leaving : List (PeerId × Reason)}
    (swept : m.after = m.before.disconnectAll leaving) {id : PeerId}
    (known : m.before.isRegistered id = true) : m.Leaves id ↔ id ∈ leaving.map (·.1) := by
  have after : m.after.isRegistered id = false ↔ id ∈ leaving.map (·.1) := by
    rw [isRegistered, Std.TreeMap.contains_eq_isSome_getElem?] at known
    rw [swept, isRegistered, Std.TreeMap.contains_eq_isSome_getElem?, peers_disconnectAll]
    split
    next mem => simp [mem]
    next out => simp [out, known]
  exact (and_iff_right known).trans after

/-- **What a sweep puts among the candidates.**  One of the peers that are left holds it, and another
peer announced it that stays or is left later. -/
theorem puts_iff_of_sweeps {config : Config} {ledger : σ} {clock : Clock} {start e : Engine σ}
    {past : List (Moment σ)} (started : Engine.start config ledger clock = .ok start)
    {m : Moment σ} (run : Run start (m :: past) e) (sweeps : m.Sweeps) (hash : Hash) :
    m.Puts hash ↔ m.before.isQuarantined hash = false ∧
      ∃ id, m.Leaves id ∧ m.before.ReservedOn id hash ∧
        ∃ other, other ≠ id ∧ m.before.Advertised other hash ∧
          (m.Leaves other → compare id other = .lt) := by
  obtain ⟨before, leaving, swept, sorted⟩ := exists_leaving_of_sweeps run sweeps
  have renewal := renewal_disconnectAll leaving m.before hash sorted
  rw [Moment.Puts, swept, renewal.ne_iff (before.numbered started), GivesBack]
  refine and_congr_right fun _ => exists_congr fun id => ?_
  constructor
  · rintro ⟨mem, holds, other, ne, announced, order⟩
    refine ⟨(leaves_iff swept holds.isRegistered).2 mem, holds, other, ne, announced,
      fun left => ?_⟩
    exact order ((leaves_iff swept announced.isRegistered).1 left)
  · rintro ⟨left, holds, other, ne, announced, order⟩
    refine ⟨(leaves_iff swept left.1).1 left, holds, other, ne, announced, fun mem => ?_⟩
    exact order ((leaves_iff swept announced.isRegistered).2 mem)

/-- A peer that stays is remembered for what it announced. -/
theorem advertised_after_sweep {m : Moment σ} {start e : Engine σ} {past : List (Moment σ)}
    (run : Run start (m :: past) e) (sweeps : m.Sweeps) {id : PeerId} {hash : Hash} :
    m.after.Advertised id hash ↔ m.before.Advertised id hash ∧ ¬ m.Leaves id := by
  obtain ⟨-, leaving, swept, -⟩ := exists_leaving_of_sweeps run sweeps
  constructor
  · rintro h
    refine ⟨?_, fun left => Bool.false_ne_true (left.2.symm.trans h.isRegistered)⟩
    rw [swept, Advertised, peers_disconnectAll] at h
    split at h
    · obtain ⟨p, hp, -⟩ := h
      cases hp
    · exact h
  · rintro ⟨h, stays⟩
    rw [leaves_iff swept h.isRegistered] at stays
    rw [swept, Advertised, peers_disconnectAll, if_neg stays]
    exact h

/-- **Sweeps give back what somebody can serve, unless they forsake it.**  In every run, what sweeps
put among the candidates was always announced by a peer that stays exactly if no sweep forsakes an
object.  A sweep puts among the candidates what is not quarantined and is reserved on a peer that is
left, if another peer announced it that stays or is left later. -/
theorem sweeps_serve_iff {config : Config} {ledger : σ} {clock : Clock} {start e : Engine σ}
    {past : List (Moment σ)} (started : Engine.start config ledger clock = .ok start)
    (run : Run start past e) :
    ((∀ m ∈ past, m.Sweeps → ∀ hash, m.Puts hash → ∃ id, m.after.Advertised id hash) ↔
        ∀ m ∈ past, ∀ hash, ¬ m.Forsakes hash) ∧
      ∀ m ∈ past, m.Sweeps → ∀ hash, m.Puts hash ↔ m.before.isQuarantined hash = false ∧
        ∃ id, m.Leaves id ∧ m.before.ReservedOn id hash ∧
          ∃ other, other ≠ id ∧ m.before.Advertised other hash ∧
            (m.Leaves other → compare id other = .lt) := by
  refine ⟨forall₂_congr fun m mem => ⟨?_, ?_⟩, fun m mem sweeps => ?_⟩ <;>
    obtain ⟨older, -, newest⟩ := run.reached mem
  · rintro serves hash ⟨sweeps, clean, all, id, other, left, holds, announced, lt⟩
    have ne : other ≠ id := by
      rintro rfl
      exact Std.OrientedCmp.not_lt_of_lt lt lt
    have puts := (puts_iff_of_sweeps started newest sweeps hash).2
      ⟨clean, id, left, holds, other, ne, announced, fun _ => lt⟩
    obtain ⟨server, known⟩ := serves sweeps hash puts
    obtain ⟨before, stays⟩ := (advertised_after_sweep newest sweeps).1 known
    exact stays (all server before)
  · intro never sweeps hash puts
    obtain ⟨clean, id, left, holds, other, -, announced, order⟩ :=
      (puts_iff_of_sweeps started newest sweeps hash).1 puts
    by_contra nobody
    have all (server : PeerId) (known : m.before.Advertised server hash) : m.Leaves server :=
      not_not.1 fun stays =>
        nobody ⟨server, (advertised_after_sweep newest sweeps).2 ⟨known, stays⟩⟩
    exact never hash ⟨sweeps, clean, all, id, other, left, holds, announced,
      order (all other announced)⟩
  · exact puts_iff_of_sweeps started newest sweeps

/-- Everybody is left while one of two peers that announced a block is asked for it. -/
def leftWhileAsked : List Operation := announcedTwice ++ [.close]

/-- When everybody is left, a block becomes a candidate. -/
theorem exists_forsaken :
    ∃ (start e : Engine ChainLedger) (past : List (Moment ChainLedger)),
      Engine.start {} (.ofGenesis (.genesis 0) 0 10) {} = .ok start ∧ Run start past e ∧
        ∃ m ∈ past, m.operation = some .close ∧ m.Puts ⟨1, 0, 0, 7⟩ ∧
          m.after.peers.isEmpty = true := by
  obtain ⟨start, past, e, started, run, checked⟩ := exists_run {}
    (ChainLedger.ofGenesis (.genesis 0) 0 10) {} leftWhileAsked
    (fun (past, _) => past.any fun m => m.operation = some .close &&
      m.after.candidates.get? ⟨1, 0, 0, 7⟩ ≠ m.before.candidates.get? ⟨1, 0, 0, 7⟩ &&
        m.after.peers.isEmpty)
    (by decide +kernel)
  simp only [List.any_eq_true, Bool.and_eq_true, decide_eq_true_eq] at checked
  obtain ⟨m, mem, ⟨operation, puts⟩, empty⟩ := checked
  exact ⟨start, e, past, started, run, m, mem, operation, puts, empty⟩

/-- Nobody is left to serve the block, so it is forsaken. -/
theorem forsaken_when_all_left :
    ∃ (start e : Engine ChainLedger) (past : List (Moment ChainLedger)),
      Engine.start {} (.ofGenesis (.genesis 0) 0 10) {} = .ok start ∧ Run start past e ∧
        ∃ m ∈ past, ∃ hash, m.Forsakes hash := by
  obtain ⟨start, e, past, started, run, m, mem, operation, puts, empty⟩ := exists_forsaken
  refine ⟨start, e, past, started, run, ?_⟩
  by_contra none
  have serves := (sweeps_serve_iff started run).1.2 fun m mem hash forsakes =>
    none ⟨m, mem, hash, forsakes⟩
  obtain ⟨id, p, hp, -⟩ := serves m mem (.inr operation) _ puts
  rw [Std.TreeMap.isEmpty_iff_forall_not_mem] at empty
  exact empty id (Std.TreeMap.mem_iff_isSome_getElem?.2 (by rw [hp]; rfl))

/-- A sweep may put an object among the candidates that no registered peer has announced. -/
theorem candidate_without_server :
    ¬ ∀ (config : Config) (ledger : ChainLedger) (clock : Clock) (start e : Engine ChainLedger)
      (past : List (Moment ChainLedger)),
      Engine.start config ledger clock = .ok start → Run start past e →
        ∀ m ∈ past, m.operation = some .leaveSilent ∨ m.operation = some .close →
          ∀ hash, m.after.candidates.get? hash ≠ m.before.candidates.get? hash →
            ∃ (id : PeerId) (p : Peer), m.after.peers[id]? = some p ∧
              p.advertised.contains hash = true := by
  intro always
  obtain ⟨start, e, past, started, run, m, mem, operation, puts, empty⟩ := exists_forsaken
  obtain ⟨id, p, hp, -⟩ := always _ _ _ start e past started run m mem (.inr operation) _ puts
  rw [Std.TreeMap.isEmpty_iff_forall_not_mem] at empty
  exact empty id (Std.TreeMap.mem_iff_isSome_getElem?.2 (by rw [hp]; rfl))

end Engine

end BlockRelay

/-
# Decisions about candidates

Candidates are reserved one after the other, in the order of fetching, each on the best of the peers
that can serve it at that point.  A `Decision` says what becomes of one candidate, and `Engine.Best`
which decision is right after the reservations before it: the choice of a server is the best
decision (`Engine.best_chooseServer`).

The load of a peer is what was reserved on it before and what the decisions so far reserve on it.
Nothing counts twice, because no candidate is reserved anywhere (`Engine.Exclusive`); so the loads
that the decisions are judged by are those that the engine sees (`Engine.Assigning.load_eq`).
-/
import Mathlib.Data.List.Induction
import BlockRelay.Proofs.Exclusion

namespace BlockRelay

namespace Peer

/-- Reserve several announced objects on the peer. -/
def reserveAll (p : Peer) (items : List Item) (now : Nat) : Peer :=
  items.foldl (fun p i => p.reserve i now) p

/-- Reserving objects changes nothing but the record of what is reserved. -/
theorem reserveAll_eq (p : Peer) (items : List Item) (now : Nat) :
    p.reserveAll items now = { p with reserved := (p.reserveAll items now).reserved } := by
  induction items generalizing p with
  | nil => rfl
  | cons i rest ih =>
    rw [reserveAll, List.foldl_cons]
    exact ih (p.reserve i now)

/-- One more object is reserved. -/
theorem reserveAll_concat (p : Peer) (items : List Item) (i : Item) (now : Nat) :
    p.reserveAll (items ++ [i]) now = (p.reserveAll items now).reserve i now := by
  rw [reserveAll, List.foldl_append]
  rfl

/-- Different objects that were not reserved before count one each. -/
theorem size_reserved_reserveAll {p : Peer} {items : List Item} (now : Nat)
    (new : ∀ i ∈ items, p.reserved.contains i = false) (distinct : items.Nodup) :
    (p.reserveAll items now).reserved.size = p.reserved.size + items.length := by
  induction items generalizing p with
  | nil => rfl
  | cons i rest ih =>
    obtain ⟨other, distinct⟩ := List.nodup_cons.1 distinct
    obtain ⟨here, later⟩ := List.forall_mem_cons.1 new
    have still (j : Item) (mem : j ∈ rest) : (p.reserve i now).reserved.contains j = false := by
      have ne : i ≠ j := fun eq => other (eq ▸ mem)
      simp [reserve, Std.TreeMap.contains_insert, ne, later j mem]
    have one : (p.reserve i now).reserved.size = p.reserved.size + 1 := by
      simp [reserve, Std.TreeMap.size_insert, here]
    rw [reserveAll, List.foldl_cons, ← reserveAll, ih still distinct, one, List.length_cons]
    omega

end Peer

/-! ## Decisions -/

/-- What becomes of a candidate: it is reserved on a peer, or it stays a candidate. -/
structure Decision where
  candidate : Candidate
  server : Option PeerId
  deriving DecidableEq

/-- The reservations that decisions make, in the order of the decisions. -/
def reservations (decisions : List Decision) : List (PeerId × Item) :=
  decisions.filterMap fun d => d.server.map (·, d.candidate.item)

/-- What is reserved on a peer, in the order in which it was reserved. -/
def reservedOn (made : List (PeerId × Item)) (id : PeerId) : List Item :=
  (made.filter (·.1 = id)).map (·.2)

/-- One more reservation. -/
theorem reservedOn_concat (made : List (PeerId × Item)) (id : PeerId) (i : Item) (other : PeerId) :
    reservedOn (made ++ [(id, i)]) other =
      if other = id then reservedOn made other ++ [i] else reservedOn made other := by
  by_cases same : other = id
  · simp [reservedOn, same]
  · simp [reservedOn, same, Ne.symm same]

/-- Each reservation comes from a decision. -/
theorem mem_reservations {decisions : List Decision} {id : PeerId} {i : Item} :
    (id, i) ∈ reservations decisions ↔
      ∃ d ∈ decisions, d.server = some id ∧ d.candidate.item = i := by
  simp [reservations]

/-- An object is reserved on a peer by a decision. -/
theorem mem_reservedOn {decisions : List Decision} {id : PeerId} {i : Item} :
    i ∈ reservedOn (reservations decisions) id ↔
      ∃ d ∈ decisions, d.server = some id ∧ d.candidate.item = i := by
  simp [reservedOn, mem_reservations]

/-- What is reserved are some of the candidates, in the order of the decisions. -/
theorem map_reservations_sublist (decisions : List Decision) :
    ((reservations decisions).map (·.2)).Sublist (decisions.map (·.candidate.item)) := by
  induction decisions with
  | nil => exact .refl _
  | cons d rest ih =>
    obtain ⟨c, server⟩ := d
    cases server with
    | none => exact ih.cons _
    | some id => exact ih.cons_cons _

/-- What is reserved on one peer are some of the candidates, in the order of the decisions. -/
theorem reservedOn_sublist (decisions : List Decision) (id : PeerId) :
    (reservedOn (reservations decisions) id).Sublist (decisions.map (·.candidate.item)) :=
  (List.filter_sublist.map _).trans (map_reservations_sublist decisions)

/-- Later decisions take nothing away. -/
theorem reservedOn_sublist_append (decisions more : List Decision) (id : PeerId) :
    (reservedOn (reservations decisions) id).Sublist
      (reservedOn (reservations (decisions ++ more)) id) := by
  simp [reservedOn, reservations]

namespace Engine

variable {σ : Type}

/-! ## The best server -/

/-- How many objects are reserved on a registered peer, those in `made` included. -/
def loadAfter (e : Engine σ) (made : List (PeerId × Item)) (id : PeerId) : Nat :=
  (e.peers[id]?).elim 0 (·.reserved.size) + (reservedOn made id).length

/-- Whether an announced object may be reserved on a peer after the reservations `made`: the peer is
registered, is not busy and announced the hash, and fewer objects are reserved on it than it may
hold. -/
def EligibleAfter (e : Engine σ) (made : List (PeerId × Item)) (hash : Hash) (id : PeerId) : Prop :=
  (∃ p, e.peers[id]? = some p ∧ p.isBusy = false ∧ p.advertised.contains hash = true) ∧
    e.loadAfter made id < e.config.net.maxReserved

/-- Whether one of two peers is preferred as a server: less is reserved on it, or as much and its
number is smaller. -/
def Preferred (id : PeerId) (load : Nat) (other : PeerId) (otherLoad : Nat) : Prop :=
  load < otherLoad ∨ load = otherLoad ∧ id.value < other.value

/-- Whether a decision is right after the reservations `made`: the candidate stays one if no peer is
eligible, and it is reserved on the eligible peer that is preferred to all others. -/
def Best (e : Engine σ) (made : List (PeerId × Item)) (d : Decision) : Prop :=
  match d.server with
  | none => ∀ id, ¬ e.EligibleAfter made d.candidate.item.hash id
  | some id => e.EligibleAfter made d.candidate.item.hash id ∧
    ∀ other, e.EligibleAfter made d.candidate.item.hash other → other ≠ id →
      Preferred id (e.loadAfter made id) other (e.loadAfter made other)

/-- Whether each decision is right after the reservations of those before it. -/
def Greedy (e : Engine σ) (decisions : List Decision) : Prop :=
  ∀ decided d rest, decisions = decided ++ d :: rest → e.Best (reservations decided) d

/-- What is reserved on a registered peer. -/
theorem loadAfter_of_peer {e : Engine σ} {id : PeerId} {p : Peer} (hp : e.peers[id]? = some p)
    (made : List (PeerId × Item)) :
    e.loadAfter made id = p.reserved.size + (reservedOn made id).length := by
  rw [loadAfter, hp, Option.elim_some]

/-- Without reservations in between, exactly those peers are eligible that can serve. -/
theorem eligibleAfter_nil_iff {e : Engine σ} {hash : Hash} {id : PeerId} :
    e.EligibleAfter [] hash id ↔
      ∃ p, e.peers[id]? = some p ∧ canServe e.config.net.maxReserved hash p = true := by
  unfold EligibleAfter canServe
  constructor
  · rintro ⟨⟨p, hp, free, advertised⟩, room⟩
    rw [loadAfter_of_peer hp] at room
    exact ⟨p, hp, by simpa [free, advertised, reservedOn] using room⟩
  · rintro ⟨p, hp, serves⟩
    rw [loadAfter_of_peer hp]
    simp only [Bool.and_eq_true, Bool.not_eq_true', decide_eq_true_eq] at serves
    exact ⟨⟨p, hp, serves.1.1, serves.1.2⟩, by simpa [reservedOn] using serves.2⟩

/-- A peer that is eligible after several decisions was eligible before the last of them. -/
theorem EligibleAfter.of_append {e : Engine σ} {decisions more : List Decision} {hash : Hash}
    {id : PeerId} (h : e.EligibleAfter (reservations (decisions ++ more)) hash id) :
    e.EligibleAfter (reservations decisions) hash id := by
  refine ⟨h.1, Nat.lt_of_le_of_lt ?_ h.2⟩
  exact Nat.add_le_add_left (reservedOn_sublist_append decisions more id).length_le _

/-- A decision stays right where the same peers are eligible and bear the same loads. -/
theorem Best.congr {e e₁ : Engine σ} {made made₁ : List (PeerId × Item)} {d : Decision}
    (h : e₁.Best made₁ d)
    (eligible : ∀ id, e₁.EligibleAfter made₁ d.candidate.item.hash id ↔
      e.EligibleAfter made d.candidate.item.hash id)
    (load : ∀ id, e.EligibleAfter made d.candidate.item.hash id →
      e₁.loadAfter made₁ id = e.loadAfter made id) : e.Best made d := by
  obtain ⟨c, server⟩ := d
  cases server with
  | none => exact fun id now => h id ((eligible id).2 now)
  | some id =>
    obtain ⟨chosen, preferred⟩ := h
    refine ⟨(eligible id).1 chosen, fun other now ne => ?_⟩
    rw [← load id ((eligible id).1 chosen), ← load other now]
    exact preferred other ((eligible other).2 now) ne

namespace Greedy

variable {e : Engine σ} {decisions : List Decision}

/-- One more decision that is right. -/
theorem concat (h : e.Greedy decisions) {d : Decision} (right : e.Best (reservations decisions) d) :
    e.Greedy (decisions ++ [d]) := by
  intro decided d' rest eq
  rcases List.eq_nil_or_concat rest with rfl | ⟨rest, last, rfl⟩
  · obtain ⟨rfl, same⟩ := List.append_inj' eq rfl
    cases same
    exact right
  · rw [List.concat_eq_append, ← List.cons_append, ← List.append_assoc] at eq
    exact h decided d' rest (List.append_inj' eq rfl).1

/-- A peer on which something is reserved is registered. -/
theorem registered (h : e.Greedy decisions) {id : PeerId} {i : Item}
    (reserved : i ∈ reservedOn (reservations decisions) id) : ∃ p, e.peers[id]? = some p := by
  obtain ⟨⟨c, server⟩, mem, rfl, rfl⟩ := mem_reservedOn.1 reserved
  obtain ⟨decided, rest, eq⟩ := List.append_of_mem mem
  obtain ⟨⟨⟨p, hp, -⟩, -⟩, -⟩ := h decided _ rest eq
  exact ⟨p, hp⟩

/-- No peer is eligible in the end for a candidate that stays. -/
theorem exhausted (h : e.Greedy decisions) {c : Candidate} (stays : ⟨c, none⟩ ∈ decisions)
    (id : PeerId) : ¬ e.EligibleAfter (reservations decisions) c.item.hash id := by
  obtain ⟨decided, rest, rfl⟩ := List.append_of_mem stays
  exact fun eligible => h decided _ rest rfl id eligible.of_append

end Greedy

/-- Whether the answer is the best of the visited peers that can serve, with its load; there is none
if no visited peer can. -/
def Foremost (serves : Peer → Bool) (visits : List (PeerId × Peer)) :
    Option (PeerId × Nat) → Prop
  | none => ∀ v ∈ visits, serves v.2 = false
  | some (id, load) => ∃ p, (id, p) ∈ visits ∧ serves p = true ∧ p.reserved.size = load ∧
    ∀ v ∈ visits, serves v.2 = true → v = (id, p) ∨ Preferred id load v.1 v.2.reserved.size

namespace Foremost

variable {serves : Peer → Bool} {visits : List (PeerId × Peer)} {best : Option (PeerId × Nat)}
  {v : PeerId × Peer}

/-- A peer is visited that cannot serve. -/
theorem skip (h : Foremost serves visits best) (idle : serves v.2 = false) :
    Foremost serves (visits ++ [v]) best := by
  cases best with
  | none =>
    intro u mem
    rcases List.mem_append.1 mem with old | last
    · exact h u old
    · rw [List.mem_singleton.1 last]
      exact idle
  | some leader =>
    obtain ⟨p, mem, serving, size, ahead⟩ := h
    refine ⟨p, List.mem_append_left _ mem, serving, size, fun u mem servingU => ?_⟩
    rcases List.mem_append.1 mem with old | last
    · exact ahead u old servingU
    · rw [List.mem_singleton.1 last, idle] at servingU
      cases servingU

/-- A peer is visited that can serve, and whose number is larger than those before. -/
theorem visit (h : Foremost serves visits best) (serving : serves v.2 = true)
    (later : ∀ u ∈ visits, u.1.value < v.1.value) :
    Foremost serves (visits ++ [v]) (lessLoaded best v.1 v.2.reserved.size) := by
  have mem_last : v ∈ visits ++ [v] := List.mem_append_right _ (List.mem_singleton_self v)
  cases best with
  | none =>
    refine ⟨v.2, mem_last, serving, rfl, fun u mem servingU => ?_⟩
    rcases List.mem_append.1 mem with old | last
    · rw [h u old] at servingU
      cases servingU
    · exact .inl (List.mem_singleton.1 last)
  | some leader =>
    obtain ⟨id, load⟩ := leader
    obtain ⟨p, mem, servingP, size, ahead⟩ := h
    unfold lessLoaded
    dsimp only
    split
    next less =>
      -- the new peer is the best one, because the others are as loaded as the old one at least
      refine ⟨v.2, mem_last, serving, rfl, fun u mem servingU => ?_⟩
      rcases List.mem_append.1 mem with old | last
      · right
        rcases ahead u old servingU with rfl | more | ⟨same, -⟩
        · exact .inl (size.symm ▸ less)
        · exact .inl (less.trans more)
        · exact .inl (same ▸ less)
      · exact .inl (List.mem_singleton.1 last)
    next notLess =>
      refine ⟨p, List.mem_append_left _ mem, servingP, size, fun u memU servingU => ?_⟩
      rcases List.mem_append.1 memU with old | last
      · exact ahead u old servingU
      · right
        rw [List.mem_singleton.1 last]
        rcases Nat.lt_or_eq_of_le (Nat.le_of_not_lt notLess) with more | same
        · exact .inl more
        · exact .inr ⟨same, later (id, p) mem⟩

end Foremost

/-- The best of several peers is found by visiting them in ascending order. -/
theorem foremost_foldl (serves : Peer → Bool) {visits : List (PeerId × Peer)}
    (ascending : visits.Pairwise fun u v => compare u.1 v.1 = .lt) :
    Foremost serves visits (visits.foldl (fun best v =>
      if serves v.2 then lessLoaded best v.1 v.2.reserved.size else best) none) := by
  induction visits using List.reverseRecOn with
  | nil => exact fun _ mem => absurd mem List.not_mem_nil
  | append_singleton visits v ih =>
    obtain ⟨ascending, -, later⟩ := List.pairwise_append.1 ascending
    rw [List.foldl_append, List.foldl_cons, List.foldl_nil]
    split
    next serving =>
      refine (ih ascending).visit serving fun u mem => ?_
      have lt : compare u.1.value v.1.value = .lt := later u mem v (List.mem_singleton_self v)
      exact Std.compare_eq_lt.1 lt
    next idle => exact (ih ascending).skip (Bool.eq_false_iff.2 idle)

/-- The peer that is chosen is the best of the registered ones that can serve. -/
theorem foremost_chooseServer (e : Engine σ) (hash : Hash) :
    ∃ best, e.chooseServer hash = best.map (·.1) ∧
      Foremost (canServe e.config.net.maxReserved hash) e.peers.toList best :=
  ⟨_, rfl, foremost_foldl _ Std.TreeMap.ordered_keys_toList⟩

/-- **The choice of a server is the best decision.** -/
theorem best_chooseServer (e : Engine σ) (c : Candidate) :
    e.Best [] ⟨c, e.chooseServer c.item.hash⟩ := by
  obtain ⟨best, chosen, foremost⟩ := e.foremost_chooseServer c.item.hash
  rw [chosen]
  cases best with
  | none =>
    intro id eligible
    obtain ⟨p, hp, serves⟩ := eligibleAfter_nil_iff.1 eligible
    have idle := foremost (id, p) (Std.TreeMap.mem_toList_iff_getElem?_eq_some.2 hp)
    rw [serves] at idle
    cases idle
  | some leader =>
    obtain ⟨id, load⟩ := leader
    obtain ⟨p, mem, serves, size, ahead⟩ := foremost
    have hp := Std.TreeMap.mem_toList_iff_getElem?_eq_some.1 mem
    refine ⟨eligibleAfter_nil_iff.2 ⟨p, hp, serves⟩, fun other eligible ne => ?_⟩
    obtain ⟨q, hq, servesQ⟩ := eligibleAfter_nil_iff.1 eligible
    have visited := Std.TreeMap.mem_toList_iff_getElem?_eq_some.2 hq
    rw [loadAfter_of_peer hp, loadAfter_of_peer hq]
    rcases ahead (other, q) visited servesQ with same | preferred
    · exact absurd (congrArg Prod.fst same) ne
    · simpa [reservedOn, size] using preferred

/-- No server is chosen if no peer is eligible. -/
theorem chooseServer_eq_none {e : Engine σ} {c : Candidate}
    (exhausted : ∀ id, ¬ e.EligibleAfter [] c.item.hash id) :
    e.chooseServer c.item.hash = none := by
  have best := e.best_chooseServer c
  cases chosen : e.chooseServer c.item.hash with
  | none => rfl
  | some id =>
    rw [chosen] at best
    exact absurd best.1 (exhausted id)

/-- Candidates without a server stay where they are. -/
theorem foldl_reserveOne_of_unserved {e : Engine σ} {order : List Candidate}
    (unserved : ∀ c ∈ order, e.chooseServer c.item.hash = none) (made : List (PeerId × Item)) :
    order.foldl reserveOne (made, e) = (made, e) := by
  induction order with
  | nil => rfl
  | cons c rest ih =>
    obtain ⟨here, later⟩ := List.forall_mem_cons.1 unserved
    rw [List.foldl_cons, reserveOne, here]
    exact ih later

/-! ## Deciding one candidate after the other -/

/-- What is known after decisions: they concern the first candidates in the order of fetching, each
was right after the reservations before it, and the records and the candidates are those at the
start apart from the reservations. -/
structure Assigning (e : Engine σ) (decisions : List Decision)
    (acc : List (PeerId × Item) × Engine σ) : Prop where
  listed : decisions.map (·.candidate) <+: e.candidates.inFetchOrder
  greedy : e.Greedy decisions
  made : acc.1 = reservations decisions
  peers : ∀ id : PeerId, acc.2.peers[id]? = (e.peers[id]?).map fun p =>
    p.reserveAll (reservedOn (reservations decisions) id) e.now
  candidates : acc.2.candidates =
    { e.candidates with
      entries := e.candidates.entries.filter fun c =>
        c.item.hash ∉ (reservations decisions).map (·.2.hash) }
  rest : acc.2 = { e with peers := acc.2.peers, candidates := acc.2.candidates }

namespace Assigning

variable {e : Engine σ} {decisions : List Decision} {acc : List (PeerId × Item) × Engine σ}

/-- Nothing is known before the first decision. -/
theorem start (e : Engine σ) : Assigning e [] ([], e) where
  listed := List.nil_prefix
  greedy _ _ _ eq := absurd eq (by simp)
  made := rfl
  peers id := by
    have same (p : Peer) : p.reserveAll (reservedOn (reservations []) id) e.now = p := rfl
    simp [same]
  candidates := by simp [reservations]
  rest := rfl

/-- The time does not change. -/
theorem now (h : Assigning e decisions acc) : acc.2.now = e.now := by
  rw [h.rest]
  rfl

/-- The configuration does not change. -/
theorem config (h : Assigning e decisions acc) : acc.2.config = e.config := by
  rw [h.rest]

/-- A registered peer holds what was reserved on it before and what the decisions reserve on it. -/
theorem size_reserved (h : Assigning e decisions acc) (exclusive : e.Exclusive) {id : PeerId}
    {p : Peer} (hp : e.peers[id]? = some p) :
    (p.reserveAll (reservedOn (reservations decisions) id) e.now).reserved.size =
      e.loadAfter (reservations decisions) id := by
  have candidates : (reservedOn (reservations decisions) id).Sublist
      (e.candidates.inFetchOrder.map (·.item)) := by
    have listed := h.listed.sublist.map (·.item)
    rw [List.map_map] at listed
    exact (reservedOn_sublist decisions id).trans listed
  rw [loadAfter_of_peer hp]
  refine Peer.size_reserved_reserveAll e.now (fun i mem => ?_) ?_
  · obtain ⟨c, queued, rfl⟩ := List.mem_map.1 (candidates.subset mem)
    rw [← Bool.not_eq_true]
    intro held
    have reserved : e.hasReserved id c.item = true := by
      rw [hasReserved, hp]
      exact held
    exact exclusive.apart reserved (mem_items_of_mem_inFetchOrder queued)
  · have distinct : (e.candidates.inFetchOrder.map (·.item)).Nodup := by
      refine List.Nodup.of_map Item.hash ?_
      rw [List.map_map]
      exact nodup_inFetchOrder exclusive.distinct
    exact distinct.sublist candidates

/-- A registered peer bears the load that it had after the decisions. -/
theorem load_eq (h : Assigning e decisions acc) (exclusive : e.Exclusive) {id : PeerId} {p : Peer}
    (hp : e.peers[id]? = some p) :
    acc.2.loadAfter [] id = e.loadAfter (reservations decisions) id := by
  have hp' := h.peers id
  rw [hp, Option.map_some] at hp'
  rw [loadAfter_of_peer hp', h.size_reserved exclusive hp]
  rfl

/-- The peers that can serve now are those that are eligible after the decisions. -/
theorem eligible_iff (h : Assigning e decisions acc) (exclusive : e.Exclusive) {hash : Hash}
    {id : PeerId} :
    acc.2.EligibleAfter [] hash id ↔ e.EligibleAfter (reservations decisions) hash id := by
  constructor
  · rintro ⟨⟨p', hp', free, advertised⟩, room⟩
    rw [h.peers] at hp'
    obtain ⟨p, hp, rfl⟩ := Option.map_eq_some_iff.1 hp'
    rw [Peer.reserveAll_eq] at free advertised
    rw [h.load_eq exclusive hp, h.config] at room
    exact ⟨⟨p, hp, free, advertised⟩, room⟩
  · rintro ⟨⟨p, hp, free, advertised⟩, room⟩
    have hp' := h.peers id
    rw [hp, Option.map_some, Peer.reserveAll_eq] at hp'
    rw [← h.load_eq exclusive hp, ← h.config] at room
    exact ⟨⟨_, hp', free, advertised⟩, room⟩

/-- The next candidate stays one. -/
theorem stay (h : Assigning e decisions acc) {c : Candidate}
    (next : decisions.map (·.candidate) ++ [c] <+: e.candidates.inFetchOrder)
    (right : e.Best (reservations decisions) ⟨c, none⟩) :
    Assigning e (decisions ++ [⟨c, none⟩]) acc := by
  have same : reservations (decisions ++ [⟨c, none⟩]) = reservations decisions := by
    simp [reservations]
  refine ⟨?_, h.greedy.concat right, ?_, ?_, ?_, h.rest⟩
  · rw [List.map_append]
    exact next
  · rw [same]
    exact h.made
  · rw [same]
    exact h.peers
  · rw [same]
    exact h.candidates

/-- The next candidate is reserved on a peer. -/
theorem move (h : Assigning e decisions acc) {c : Candidate} {id : PeerId}
    (next : decisions.map (·.candidate) ++ [c] <+: e.candidates.inFetchOrder)
    (right : e.Best (reservations decisions) ⟨c, some id⟩) :
    Assigning e (decisions ++ [⟨c, some id⟩]) (acc.1 ++ [(id, c.item)],
      { acc.2 with candidates := acc.2.candidates.erase c.item.hash }.modifyPeer id fun p =>
        p.reserve c.item acc.2.now) := by
  have more : reservations (decisions ++ [⟨c, some id⟩]) =
      reservations decisions ++ [(id, c.item)] := by
    simp [reservations]
  refine ⟨?_, h.greedy.concat right, ?_, fun other => ?_, ?_, ?_⟩
  · rw [List.map_append]
    exact next
  · rw [more, ← h.made]
  · rw [more, peers_modifyPeer, reservedOn_concat, h.now]
    show (if other = id then (acc.2.peers[other]?).map _ else acc.2.peers[other]?) = _
    rw [h.peers other]
    split
    · rw [Option.map_map]
      simp only [Function.comp_def, Peer.reserveAll_concat]
    · rfl
  · show acc.2.candidates.erase c.item.hash = _
    rw [h.candidates, more, CandidateQueue.erase, List.filter_filter]
    congr 2
    funext d
    simp only [List.map_append, List.map_singleton, List.mem_append, List.mem_singleton, not_or,
      ne_eq, ← Bool.decide_and, and_comm]
  · show { acc.2 with
      peers := acc.2.peers.modify id fun p => p.reserve c.item acc.2.now
      candidates := acc.2.candidates.erase c.item.hash } = _
    rw [h.rest]
    rfl

/-- The next candidate is decided about, as the best server is chosen for it. -/
theorem reserveOne (h : Assigning e decisions acc) (exclusive : e.Exclusive) {c : Candidate}
    (next : decisions.map (·.candidate) ++ [c] <+: e.candidates.inFetchOrder) :
    Assigning e (decisions ++ [⟨c, acc.2.chooseServer c.item.hash⟩]) (Engine.reserveOne acc c) := by
  have right : e.Best (reservations decisions) ⟨c, acc.2.chooseServer c.item.hash⟩ := by
    refine (acc.2.best_chooseServer c).congr (fun id => h.eligible_iff exclusive) fun id now => ?_
    obtain ⟨⟨p, hp, -⟩, -⟩ := now
    exact h.load_eq exclusive hp
  obtain ⟨made, e₁⟩ := acc
  dsimp only at right ⊢
  cases chosen : e₁.chooseServer c.item.hash with
  | none =>
    rw [chosen] at right
    have stays : Engine.reserveOne (made, e₁) c = (made, e₁) := by
      simp only [Engine.reserveOne, chosen]
    rw [stays]
    exact h.stay next right
  | some id =>
    rw [chosen] at right
    have moves : Engine.reserveOne (made, e₁) c = (made ++ [(id, c.item)],
        { e₁ with candidates := e₁.candidates.erase c.item.hash }.modifyPeer id fun p =>
          p.reserve c.item e₁.now) := by
      simp only [Engine.reserveOne, chosen]
      rfl
    rw [moves]
    exact h.move next right

/-- Exactly the candidates that stay have a hash that is not among the reservations. -/
theorem reserved_iff (h : Assigning e decisions acc) (exclusive : e.Exclusive) {d : Decision}
    (mem : d ∈ decisions) :
    d.candidate.item.hash ∈ (reservations decisions).map (·.2.hash) ↔ d.server.isSome = true := by
  have distinct : (decisions.map (·.candidate.item.hash)).Nodup := by
    have listed := h.listed.sublist.map (·.item.hash)
    rw [List.map_map] at listed
    exact (nodup_inFetchOrder exclusive.distinct).sublist listed
  constructor
  · intro reserved
    obtain ⟨⟨id, i⟩, made, same⟩ := List.mem_map.1 reserved
    obtain ⟨d', mem', server, rfl⟩ := mem_reservations.1 made
    rw [← List.inj_on_of_nodup_map distinct mem' mem same, server]
    rfl
  · intro moves
    obtain ⟨id, server⟩ := Option.isSome_iff_exists.1 moves
    have made : (id, d.candidate.item) ∈ reservations decisions :=
      mem_reservations.2 ⟨d, mem, server, rfl⟩
    exact List.mem_map_of_mem made

/-- When all candidates are decided about, those are left that were to stay. -/
theorem left_perm (h : Assigning e decisions acc) (exclusive : e.Exclusive)
    (all : (decisions.map (·.candidate)).Perm e.candidates.entries) :
    acc.2.candidates.entries.Perm
      ((decisions.filter (!·.server.isSome)).map (·.candidate)) := by
  have stay : decisions.filter (!·.server.isSome) =
      decisions.filter fun d =>
        d.candidate.item.hash ∉ (reservations decisions).map (·.2.hash) := by
    refine List.filter_congr fun d mem => ?_
    rw [Bool.eq_iff_iff, Bool.not_eq_true', decide_eq_true_eq, h.reserved_iff exclusive mem,
      Bool.not_eq_true]
  have mapped : (decisions.map (·.candidate)).filter (fun c =>
        c.item.hash ∉ (reservations decisions).map (·.2.hash)) =
      (decisions.filter fun d =>
        d.candidate.item.hash ∉ (reservations decisions).map (·.2.hash)).map (·.candidate) :=
    List.filter_map
  rw [h.candidates, stay, ← mapped]
  exact (all.filter _).symm

/-- When all candidates are decided about, they are those that are reserved and those that are
left. -/
theorem split (h : Assigning e decisions acc) (exclusive : e.Exclusive)
    (all : (decisions.map (·.candidate)).Perm e.candidates.entries) :
    e.candidates.entries.Perm
      ((decisions.filter (·.server.isSome)).map (·.candidate) ++ acc.2.candidates.entries) := by
  refine all.symm.trans (List.Perm.trans ?_ ((h.left_perm exclusive all).symm.append_left _))
  rw [← List.map_append]
  exact (List.filter_append_perm _ decisions).symm.map _

/-- When all candidates are decided about, a candidate is left exactly if it was to stay. -/
theorem mem_left_iff (h : Assigning e decisions acc) (exclusive : e.Exclusive)
    (all : (decisions.map (·.candidate)).Perm e.candidates.entries) {c : Candidate} :
    c ∈ acc.2.candidates.entries ↔ ⟨c, none⟩ ∈ decisions := by
  rw [(h.left_perm exclusive all).mem_iff, List.mem_map]
  constructor
  · rintro ⟨⟨_, server⟩, mem, rfl⟩
    obtain ⟨mem, stays⟩ := List.mem_filter.1 mem
    cases server with
    | none => exact mem
    | some => cases stays
  · exact fun mem => ⟨_, List.mem_filter.2 ⟨mem, rfl⟩, rfl⟩

end Assigning

/-- Candidates are decided about one after the other. -/
theorem assigning_foldl {e : Engine σ} (exclusive : e.Exclusive) {order : List Candidate}
    (first : order <+: e.candidates.inFetchOrder) :
    ∃ decisions, decisions.map (·.candidate) = order ∧
      Assigning e decisions (order.foldl reserveOne ([], e)) := by
  induction order using List.reverseRecOn with
  | nil => exact ⟨[], rfl, .start e⟩
  | append_singleton order c ih =>
    obtain ⟨decisions, rfl, assigning⟩ := ih ((List.prefix_append _ _).trans first)
    have decided := assigning.reserveOne exclusive first
    rw [List.foldl_append]
    exact ⟨_, List.map_append, decided⟩

end Engine

end BlockRelay

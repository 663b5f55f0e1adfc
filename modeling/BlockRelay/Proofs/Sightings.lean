/-
# The order of fetching and the record of sightings

The number of a candidate is its own (`Numbered.eq_of_sequence`), although the order of fetching
reads nothing but kind and number.  So there is one way only to list the entries of a queue in this
order, from whatever order they are taken (`Numbered.eq_inFetchOrder`), and it is strict.

All that a queue holds can be told from the record of its calls (`QueueCall.firstSighting`,
`QueueCall.lastSighting`): under a hash stand the item and the number of its first sighting since it
was put in last, and the time of its last sighting.  Each call keeps this (`Recorded.after`), so it
holds after any calls (`CandidateQueue.fetch_order_determined`).
-/
import BlockRelay.Proofs.Numbering
import Mathlib.Data.List.Induction
import Mathlib.Data.List.Nodup

namespace BlockRelay

/-! ## The order of fetching -/

namespace Candidate

instance : Std.TransCmp order :=
  inferInstanceAs (Std.TransCmp (compareLex (compareOn fun c : Candidate => c.item.kind)
    (compareOn Candidate.sequence)))

/-- Whether a candidate is to be fetched before another one: blocks come before transactions, and
within a kind the lower number comes first. -/
def Precedes (a b : Candidate) : Prop :=
  (a.item.kind = .block ∧ b.item.kind = .transaction) ∨
    (a.item.kind = b.item.kind ∧ a.sequence < b.sequence)

/-- The order of fetching is strict exactly where one candidate precedes the other. -/
theorem order_eq_lt_iff {a b : Candidate} : a.order b = .lt ↔ a.Precedes b := by
  have kinds : compare a.item.kind b.item.kind = compare a.item.kind.rank b.item.kind.rank := rfl
  rw [order, kinds, Precedes]
  cases a.item.kind <;> cases b.item.kind <;>
    simp [ItemKind.rank, Nat.compare_eq_lt, Ordering.then]

/-- Candidates that compare as equal have one number. -/
theorem sequence_eq_of_order {a b : Candidate} (h : a.order b = .eq) :
    a.sequence = b.sequence := by
  rw [order, Ordering.then_eq_eq] at h
  exact Std.LawfulEqCmp.eq_of_compare h.2

/-- One of two candidates is not fetched after the other. -/
theorem order_total (a b : Candidate) : (a.order b).isLE || (b.order a).isLE := by
  have swap : b.order a = (a.order b).swap := Std.OrientedCmp.eq_swap
  rw [swap]
  cases a.order b <;> rfl

end Candidate

namespace CandidateQueue

variable {q : CandidateQueue}

namespace Numbered

/-- Entries with one number are one entry. -/
theorem eq_of_sequence (h : q.Numbered) {a b : Candidate} (ha : a ∈ q.entries)
    (hb : b ∈ q.entries) (same : a.sequence = b.sequence) : a = b := by
  have distinct : (q.entries.map (·.sequence)).Nodup :=
    List.pairwise_map.2 (h.ascending.imp Nat.ne_of_lt)
  exact List.inj_on_of_nodup_map distinct ha hb same

/-- **The entries can be listed in the order of fetching in one way only.** -/
theorem eq_inFetchOrder (h : q.Numbered) {listed : List Candidate} (perm : listed.Perm q.entries)
    (ascending : listed.Pairwise fun a b => (a.order b).isLE) : listed = q.inFetchOrder := by
  have strict : q.inFetchOrder.Pairwise fun a b => (a.order b).isLE :=
    h.ascending_inFetchOrder.imp fun lt => by rw [lt]; rfl
  refine List.Perm.eq_of_pairwise (fun a b ha hb ab ba => ?_) ascending strict
    (perm.trans q.inFetchOrder_perm.symm)
  have entryA : a ∈ q.entries := perm.mem_iff.1 ha
  have entryB : b ∈ q.entries := q.inFetchOrder_perm.mem_iff.1 hb
  have eq : a.order b = .eq := Std.OrientedCmp.isLE_antisymm ab ba
  exact h.eq_of_sequence entryA entryB (Candidate.sequence_eq_of_order eq)

/-- Sorting the entries gives the order of fetching, in whatever order they are taken. -/
theorem mergeSort_eq_inFetchOrder (h : q.Numbered) {taken : List Candidate}
    (perm : taken.Perm q.entries) :
    taken.mergeSort (fun a b => (a.order b).isLE) = q.inFetchOrder := by
  refine h.eq_inFetchOrder ((List.mergeSort_perm ..).trans perm) ?_
  exact List.pairwise_mergeSort (fun a b c => Std.TransCmp.isLE_trans) Candidate.order_total taken

end Numbered

/-! ## What is found under a hash -/

/-- What is found under a hash is an entry with this hash. -/
theorem mem_of_get? {h : Hash} {c : Candidate} (found : q.get? h = some c) :
    c ∈ q.entries ∧ c.item.hash = h :=
  ⟨List.mem_of_find?_eq_some found, of_decide_eq_true
    (List.find?_some (p := fun c : Candidate => decide (c.item.hash = h)) found)⟩

/-- Among distinct candidates every entry is found under its hash. -/
theorem Distinct.get?_eq_some_iff (d : q.Distinct) {h : Hash} {c : Candidate} :
    q.get? h = some c ↔ c ∈ q.entries ∧ c.item.hash = h := by
  refine ⟨mem_of_get?, ?_⟩
  rintro ⟨entry, same⟩
  obtain ⟨b, found⟩ : ∃ b, q.get? h = some b :=
    Option.isSome_iff_exists.1 (contains_iff.2 ⟨c, entry, same⟩)
  obtain ⟨entry', same'⟩ := mem_of_get? found
  have hashes : (q.entries.map (·.item.hash)).Nodup := by
    simpa [Distinct, items, Function.comp_def] using d
  rw [found, List.inj_on_of_nodup_map hashes entry' entry (same'.trans same.symm)]

/-- A repeated announcement renews the candidate with its hash. -/
theorem get?_refresh (q : CandidateQueue) (h : Hash) (now : Nat) (other : Hash) :
    (q.refresh h now).get? other =
      if other = h then (q.get? h).map ({ · with lastSeen := now }) else q.get? other := by
  have kept (c : Candidate) :
      (if c.item.hash = h then { c with lastSeen := now } else c).item.hash = c.item.hash := by
    split <;> rfl
  have mapped : (q.refresh h now).get? other = (q.get? other).map fun c =>
      if c.item.hash = h then { c with lastSeen := now } else c := by
    unfold get? refresh
    rw [List.find?_map]
    simp only [Function.comp_def, kept]
  rw [mapped]
  cases found : q.get? other with
  | none =>
    split
    next same =>
      rw [← same, found]
      rfl
    next => rfl
  | some c =>
    obtain ⟨-, rfl⟩ := mem_of_get? found
    split
    next same => rw [← same, found, Option.map_some, Option.map_some, if_pos rfl]
    next ne => rw [Option.map_some, if_neg ne]

/-- What is a candidate already is not new, and is renewed. -/
theorem offer_of_get?_eq_some {i : Item} {c : Candidate} (known : q.get? i.hash = some c)
    (now : Nat) : q.offer i now = (false, q.refresh i.hash now) := by
  rw [offer, contains, known]
  rfl

/-- What is no candidate is new, and is put in. -/
theorem offer_of_get?_eq_none {i : Item} (unknown : q.get? i.hash = none) (now : Nat) :
    q.offer i now = (true, q.requeue i now) := by
  rw [offer, contains, unknown]
  rfl

/-- What is found after stale candidates were dropped is what was found and is not stale. -/
theorem Distinct.get?_dropStale (d : q.Distinct) (now maxAge : Nat) (h : Hash) :
    (q.dropStale now maxAge).2.get? h = (q.get? h).filter fun c => !c.isStale now maxAge := by
  have rest : (q.dropStale now maxAge).2.Distinct :=
    d.of_sublist (q.items_dropStale_sublist now maxAge)
  ext c
  rw [rest.get?_eq_some_iff, Option.filter_eq_some_iff, d.get?_eq_some_iff]
  simp only [dropStale, List.mem_filter]
  tauto

end CandidateQueue

/-! ## The record of calls -/

/-- A call on the candidates, with its time. -/
inductive QueueCall
  | offer (item : Item) (now : Nat)
  | requeue (item : Item) (now : Nat)
  | remove (hash : Hash)
  | dropStale (now maxAge : Nat)
  deriving Repr, DecidableEq

namespace QueueCall

/-- When a hash was sighted last, in a record of calls with the latest call first. -/
def lastSighting : List QueueCall → Hash → Nat
  | [], _ => 0
  | .offer i now :: older, h => if i.hash = h then now else lastSighting older h
  | .requeue i now :: older, h => if i.hash = h then now else lastSighting older h
  | .remove _ :: older, h => lastSighting older h
  | .dropStale _ _ :: older, h => lastSighting older h

mutual

/-- The item under which a hash was sighted first, with its number, unless the hash was removed
since or not sighted for too long.  To put an item in again makes that sighting the first one. -/
def firstSighting : List QueueCall → Hash → Option (Item × Nat)
  | [], _ => none
  | .offer i _ :: older, h =>
    if i.hash = h then (firstSighting older h).or (some (i, numbersGiven older + 1))
    else firstSighting older h
  | .requeue i _ :: older, h =>
    if i.hash = h then some (i, numbersGiven older + 1) else firstSighting older h
  | .remove g :: older, h => if g = h then none else firstSighting older h
  | .dropStale now maxAge :: older, h =>
    if maxAge < now - lastSighting older h then none else firstSighting older h

/-- How many numbers were given out: one for each first sighting. -/
def numbersGiven : List QueueCall → Nat
  | [] => 0
  | .offer i _ :: older =>
    if (firstSighting older i.hash).isSome then numbersGiven older else numbersGiven older + 1
  | .requeue _ _ :: older => numbersGiven older + 1
  | .remove _ :: older => numbersGiven older
  | .dropStale _ _ :: older => numbersGiven older

end

/-- What a record says about a hash: its first sighting, and when it was sighted last. -/
def sighted (past : List QueueCall) (h : Hash) : Option Candidate :=
  (firstSighting past h).map fun (item, number) => ⟨item, number, lastSighting past h⟩

/-- No more numbers are given out than calls are made. -/
theorem numbersGiven_le (past : List QueueCall) : numbersGiven past ≤ past.length := by
  induction past with
  | nil => exact Nat.le_refl _
  | cons call older ih =>
    rw [List.length_cons]
    cases call with
    | offer i now =>
      rw [numbersGiven]
      split <;> omega
    | requeue i now => exact Nat.succ_le_succ ih
    | remove g => exact Nat.le_succ_of_le ih
    | dropStale now maxAge => exact Nat.le_succ_of_le ih

end QueueCall

open QueueCall

namespace CandidateQueue

/-- What a call does to the candidates. -/
def after (q : CandidateQueue) : QueueCall → CandidateQueue
  | .offer item now => (q.offer item now).2
  | .requeue item now => q.requeue item now
  | .remove hash => (q.remove hash).2
  | .dropStale now maxAge => (q.dropStale now maxAge).2

/-- The calls on a queue without candidates, one after the other. -/
def replay (calls : List QueueCall) : CandidateQueue := calls.foldl after .empty

/-- Whether the candidates agree with the record of the calls. -/
structure Recorded (q : CandidateQueue) (past : List QueueCall) : Prop where
  distinct : q.Distinct
  numbered : q.Numbered
  counted : q.lastSequence = numbersGiven past
  found : ∀ h, q.get? h = sighted past h

variable {q : CandidateQueue} {past : List QueueCall}

namespace Recorded

/-- An item is put in with the next number. -/
theorem requeue (r : q.Recorded past) (i : Item) (now : Nat) :
    (q.requeue i now).Recorded (.requeue i now :: past) where
  distinct := r.distinct.requeue i now
  numbered := r.numbered.requeue i now
  counted := congrArg (· + 1) r.counted
  found h := by
    rw [get?_requeue, sighted, firstSighting, lastSighting, r.counted]
    by_cases same : i.hash = h
    · rw [if_pos same.symm, if_pos same, if_pos same, Option.map_some]
    · rw [if_neg (Ne.symm same), if_neg same, if_neg same]
      exact r.found h

/-- What is offered for the first time is put in with the next number; otherwise the first sighting
stands and the last one is renewed. -/
theorem offer (r : q.Recorded past) (i : Item) (now : Nat) :
    (q.offer i now).2.Recorded (.offer i now :: past) := by
  have known := r.found i.hash
  cases first : firstSighting past i.hash with
  | none =>
    rw [sighted, first, Option.map_none] at known
    have put := r.requeue i now
    rw [offer_of_get?_eq_none known]
    refine ⟨put.distinct, put.numbered, put.counted.trans ?_, fun h => (put.found h).trans ?_⟩
    · simp [numbersGiven, first]
    · by_cases same : i.hash = h
      · subst same
        simp [sighted, firstSighting, lastSighting, first]
      · simp [sighted, firstSighting, lastSighting, same]
  | some f =>
    rw [sighted, first, Option.map_some] at known
    rw [offer_of_get?_eq_some known]
    refine ⟨?_, r.numbered.refresh i.hash now, ?_, fun h => ?_⟩
    · rw [Distinct, items_refresh]
      exact r.distinct
    · show q.lastSequence = _
      rw [r.counted, numbersGiven, first]
      rfl
    · rw [get?_refresh]
      by_cases same : i.hash = h
      · subst same
        simp [sighted, firstSighting, lastSighting, first, known]
      · rw [if_neg (Ne.symm same), r.found h]
        simp [sighted, firstSighting, lastSighting, same]

/-- A hash that is forgotten has not been sighted. -/
theorem erase (r : q.Recorded past) (g : Hash) : (q.erase g).Recorded (.remove g :: past) where
  distinct := r.distinct.erase g
  numbered := r.numbered.erase g
  counted := r.counted
  found h := by
    rw [get?_erase, sighted, firstSighting, lastSighting]
    by_cases same : g = h
    · rw [if_pos same.symm, if_pos same, Option.map_none]
    · rw [if_neg (Ne.symm same), if_neg same]
      exact r.found h

/-- What was not sighted for too long is no candidate any more. -/
theorem dropStale (r : q.Recorded past) (now maxAge : Nat) :
    (q.dropStale now maxAge).2.Recorded (.dropStale now maxAge :: past) where
  distinct := r.distinct.of_sublist (q.items_dropStale_sublist now maxAge)
  numbered := r.numbered.of_sublist List.filter_sublist
  counted := r.counted
  found h := by
    rw [r.distinct.get?_dropStale, r.found h, sighted, sighted, firstSighting, lastSighting]
    cases firstSighting past h with
    | none => simp
    | some f =>
      rw [Option.map_some, Option.filter_some, Candidate.isStale]
      by_cases stale : maxAge < now - lastSighting past h <;> simp [stale]

/-- **Every call keeps the candidates in agreement with the record.** -/
theorem after (r : q.Recorded past) (call : QueueCall) :
    (q.after call).Recorded (call :: past) := by
  cases call with
  | offer i now => exact r.offer i now
  | requeue i now => exact r.requeue i now
  | remove g => exact r.erase g
  | dropStale now maxAge => exact r.dropStale now maxAge

/-- Without calls there are no candidates. -/
theorem empty : Recorded .empty [] where
  distinct := distinct_empty
  numbered := .empty
  counted := rfl
  found _ := rfl

/-- After any calls the candidates agree with the record. -/
theorem replay (calls : List QueueCall) : (replay calls).Recorded calls.reverse := by
  induction calls using List.reverseRecOn with
  | nil => exact .empty
  | append_singleton calls call ih =>
    rw [CandidateQueue.replay, List.foldl_concat, List.reverse_concat]
    exact ih.after call

end Recorded

/-! ## What is known after any calls -/

/-- Every entry of a queue is found under its own hash and has a number of its own, not beyond the
last one that was given out; and there is one order of fetching, which is strict. -/
structure Orderly (q : CandidateQueue) : Prop where
  keyed : ∀ h c, q.get? h = some c ↔ c ∈ q.entries ∧ c.item.hash = h
  numbers : q.entries.Pairwise fun a b => a.sequence ≠ b.sequence
  bounded : ∀ c ∈ q.entries, c.sequence ≤ q.lastSequence
  lists : q.inFetchOrder.Perm q.entries
  strict : q.inFetchOrder.Pairwise Candidate.Precedes
  sorted : ∀ taken : List Candidate, taken.Perm q.entries →
    taken.mergeSort (fun a b => (a.order b).isLE) = q.inFetchOrder

/-- A candidate is renewed when it was announced again, and nothing else changes. -/
structure Renews (q q' : CandidateQueue) (c : Candidate) (now : Nat) : Prop where
  renewed : q'.get? c.item.hash = some { c with lastSeen := now }
  others : ∀ h, h ≠ c.item.hash → q'.get? h = q.get? h
  numbers : q'.lastSequence = q.lastSequence

/-- Entries are dropped if they were not announced within `maxAge`, and all others stay as they
are. -/
structure Drops (q q' : CandidateQueue) (now maxAge : Nat) (dropped : List Candidate) : Prop where
  dropped_iff : ∀ c, c ∈ dropped ↔ c ∈ q.entries ∧ maxAge < now - c.lastSeen
  once : dropped.Nodup
  stays_iff : ∀ c, c ∈ q'.entries ↔ c ∈ q.entries ∧ now - c.lastSeen ≤ maxAge
  numbers : q'.lastSequence = q.lastSequence

namespace Recorded

/-- What agrees with a record is in order. -/
theorem orderly (r : q.Recorded past) : q.Orderly where
  keyed _ _ := r.distinct.get?_eq_some_iff
  numbers := r.numbered.ascending.imp Nat.ne_of_lt
  bounded := r.numbered.bounded
  lists := q.inFetchOrder_perm
  strict := r.numbered.ascending_inFetchOrder.imp Candidate.order_eq_lt_iff.1
  sorted _ := r.numbered.mergeSort_eq_inFetchOrder

end Recorded

/-- A repeated announcement is not new, and renews the candidate that was announced first. -/
theorem offer_renews {item : Item} {now : Nat} {c : Candidate}
    (known : q.get? item.hash = some c) :
    ∃ q', q.offer item now = (false, q') ∧ q.Renews q' c now := by
  obtain ⟨-, same⟩ := mem_of_get? known
  refine ⟨q.refresh item.hash now, offer_of_get?_eq_some known now, ?_, fun h other => ?_, rfl⟩
  · rw [same, get?_refresh, if_pos rfl, known, Option.map_some]
  · rw [get?_refresh, if_neg (same ▸ other)]

/-- What is dropped was not announced for too long, and the rest stays. -/
theorem Distinct.drops (d : q.Distinct) (now maxAge : Nat) :
    q.Drops (q.dropStale now maxAge).2 now maxAge (q.dropStale now maxAge).1 where
  dropped_iff c := by simp [CandidateQueue.dropStale, Candidate.isStale]
  once := by
    have entries : q.entries.Nodup := List.Nodup.of_map _ (List.Nodup.of_map _ d)
    exact entries.filter _
  stays_iff c := by simp [CandidateQueue.dropStale, Candidate.isStale]
  numbers := rfl

/-- **The order of fetching is determined.**  After any calls on a queue every entry is found under
its own hash and has a number of its own, and sorting the entries gives the same strict order from
whatever order they are taken.  No more numbers are given out than calls are made, so that they fit
into a word if the count of the calls does.  Under a hash stand the item and the number of its first
sighting and the time of its last one; a repeated announcement changes nothing but this time; and
what is dropped as stale are the entries that were not announced within the given time. -/
theorem fetch_order_determined (calls : List QueueCall) :
    let q := replay calls
    q.Orderly ∧ q.lastSequence ≤ calls.length ∧
    (∀ h, q.get? h = sighted calls.reverse h) ∧
    (∀ item now c, q.get? item.hash = some c →
      ∃ q', q.offer item now = (false, q') ∧ q.Renews q' c now) ∧
    ∀ now maxAge, ∃ dropped q', q.dropStale now maxAge = (dropped, q') ∧
      q.Drops q' now maxAge dropped := by
  intro q
  have recorded : q.Recorded calls.reverse := .replay calls
  refine ⟨recorded.orderly, ?_, recorded.found, fun item now c known => offer_renews known,
    fun now maxAge => ⟨_, _, rfl, recorded.distinct.drops now maxAge⟩⟩
  calc q.lastSequence = numbersGiven calls.reverse := recorded.counted
    _ ≤ calls.reverse.length := numbersGiven_le calls.reverse
    _ = calls.length := List.length_reverse

/-- A transaction that is announced again as a block stays the transaction that it was first. -/
theorem renewed_under_another_kind :
    let q := replay [.offer (.transaction ⟨0, 0, 0, 1⟩) 0, .offer (.block ⟨0, 0, 0, 2⟩) 4,
      .requeue (.block ⟨0, 0, 0, 3⟩) 5, .remove ⟨0, 0, 0, 2⟩,
      .offer (.transaction ⟨0, 0, 0, 1⟩) 6, .dropStale 9 4]
    q.get? ⟨0, 0, 0, 1⟩ = some ⟨.transaction ⟨0, 0, 0, 1⟩, 1, 6⟩ ∧
      ∃ q', q.offer (.block ⟨0, 0, 0, 1⟩) 8 = (false, q') ∧
        q.Renews q' ⟨.transaction ⟨0, 0, 0, 1⟩, 1, 6⟩ 8 := by
  intro q
  have facts := fetch_order_determined [.offer (.transaction ⟨0, 0, 0, 1⟩) 0,
    .offer (.block ⟨0, 0, 0, 2⟩) 4, .requeue (.block ⟨0, 0, 0, 3⟩) 5, .remove ⟨0, 0, 0, 2⟩,
    .offer (.transaction ⟨0, 0, 0, 1⟩) 6, .dropStale 9 4]
  have known : q.get? ⟨0, 0, 0, 1⟩ = some ⟨.transaction ⟨0, 0, 0, 1⟩, 1, 6⟩ := by decide
  exact ⟨known, facts.2.2.2.1 (.block ⟨0, 0, 0, 1⟩) 8 _ known⟩

end CandidateQueue

end BlockRelay

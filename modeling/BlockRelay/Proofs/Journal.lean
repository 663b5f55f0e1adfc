/-
# What becomes visible

A step only appends to the journal, and what it appends depends on its deed
(`Step.appends`).  Requests are visible in no other steps than those that make them, and
calls that change the ledger in no other steps than deliveries and the application of
waiting blocks.
-/
import BlockRelay.Proofs.Step

namespace BlockRelay

/-- Whether an event may become visible in a step with a given deed. -/
def Deed.Shows (d : Deed) : Event → Prop
  | .opened id => d = .opened id
  | .closed id | .sent id (.disconnect _) => d = .left id ∨ d = .refused
  | .sent id (.fetch _) => d = .reserved ∨ d = .requested id
  | .sent id (.summaryRequest _) => d = .summarized id
  | .sent _ _ => d = .internal
  | .appliedBlock _ true => d = .settled ∨ d = .refused
  | .appliedBlock id false => ∃ peer b, d = .tookBlock peer b ∧ b.id = id
  | .appliedTransaction hash => ∃ peer t, d = .tookTransaction peer t ∧ t.hash = hash
  | .notified _ => ∃ peer, d = .finished peer ∨ ∃ ids, d = .joined peer ids

namespace Engine

variable {σ : Type}

/-- The journal of `e'` is that of `e` with events that satisfy `P` after it. -/
def Appends (P : Event → Prop) (e e' : Engine σ) : Prop :=
  ∃ events, e'.journal = e.journal ++ events ∧ ∀ ev ∈ events, P ev

namespace Appends

variable {P Q : Event → Prop} {e e₁ e₂ : Engine σ}

/-- With the same journal nothing is appended. -/
theorem same (h : e₁.journal = e.journal) : Appends P e e₁ :=
  ⟨[], by rw [h, List.append_nil], nofun⟩

/-- One event is appended. -/
theorem one {ev : Event} (h : e₁.journal = e.journal ++ [ev]) (shows : P ev) : Appends P e e₁ :=
  ⟨[ev], h, fun _ h => List.mem_singleton.1 h ▸ shows⟩

/-- An event for each element of a list is appended. -/
theorem map {α : Type} {list : List α} {f : α → Event}
    (h : e₁.journal = e.journal ++ list.map f) (shows : ∀ a ∈ list, P (f a)) :
    Appends P e e₁ := by
  refine ⟨_, h, fun ev mem => ?_⟩
  obtain ⟨a, ha, rfl⟩ := List.mem_map.1 mem
  exact shows a ha

/-- What is appended first comes first. -/
theorem trans (h : Appends P e e₁) (h' : Appends P e₁ e₂) : Appends P e e₂ := by
  obtain ⟨events, eq, all⟩ := h
  obtain ⟨events', eq', all'⟩ := h'
  refine ⟨events ++ events', by rw [eq', eq, List.append_assoc], fun ev mem => ?_⟩
  exact (List.mem_append.1 mem).elim (all ev) (all' ev)

/-- The condition on the events may be weakened. -/
theorem mono (weaker : ∀ ev, P ev → Q ev) (h : Appends P e e₁) : Appends Q e e₁ := by
  obtain ⟨events, eq, all⟩ := h
  exact ⟨events, eq, fun ev mem => weaker ev (all ev mem)⟩

/-- A removal appends a farewell. -/
theorem remove (e : Engine σ) (id : PeerId) (r : Option Reason)
    (goodbye : ∀ r, P (.sent id (.disconnect r))) (closed : P (.closed id)) :
    Appends P e (e.remove id r) := by
  cases hp : e.peers[id]? with
  | none =>
    rw [remove_of_unknown hp]
    exact same rfl
  | some p =>
    obtain ⟨_, _, _, eq⟩ := remove_eq hp r
    refine ⟨farewell id r, by rw [eq], fun ev mem => ?_⟩
    cases r with
    | none => exact List.mem_singleton.1 mem ▸ closed
    | some r =>
      rcases List.mem_cons.1 mem with rfl | mem
      · exact goodbye r
      · exact List.mem_singleton.1 mem ▸ closed

/-- Leaving several peers appends farewells. -/
theorem disconnectAll (e : Engine σ) (leaving : List (PeerId × Reason))
    (goodbye : ∀ id r, P (.sent id (.disconnect r))) (closed : ∀ id, P (.closed id)) :
    Appends P e (e.disconnectAll leaving) := by
  unfold Engine.disconnectAll
  induction leaving generalizing e with
  | nil => exact same rfl
  | cons l rest ih =>
    exact (Appends.remove e l.1 (some l.2) (goodbye l.1) (closed l.1)).trans (ih _)

/-- Events that do not tell a peer why it is left are no farewell. -/
theorem ne_farewell {id : PeerId} {r : Reason}
    (blameless : Appends (· ≠ .sent id (.disconnect r)) e e₁) :
    e₁.journal ≠ e.journal ++ farewell id (some r) := by
  obtain ⟨events, eq, blameless⟩ := blameless
  intro left
  have events_eq : events = farewell id (some r) := List.append_cancel_left (eq.symm.trans left)
  exact blameless _ (events_eq ▸ List.mem_cons_self ..) rfl

end Appends

variable [Ledger σ]

/-- Taking up the block that is next in line may apply it. -/
theorem Appends.submitFetched {P : Event → Prop} {e e' : Engine σ} {hash : Hash} {b : Block}
    {r : Option Refusal} (done : (e.takeNext hash).submitFetched b = .ok (r, e'))
    (applied : P (.appliedBlock b.id true)) : Appends P e e' := by
  rcases submitFetched_cases done with ⟨-, -, rfl⟩ | ⟨result, ledger, -, result_eq⟩
  · exact .same rfl
  · cases result with
    | ok =>
      obtain ⟨-, rfl⟩ := result_eq
      exact .one rfl applied
    | error =>
      obtain ⟨-, quarantine, rfl⟩ := result_eq
      exact .one rfl applied

/-- Taking a delivered block applies it once, or not at all. -/
theorem Step.journal_tookBlock {e e' : Engine σ} {id : PeerId} {b : Block}
    (h : Step (.tookBlock id b) e e') :
    e'.journal = e.journal ∨ e'.journal = e.journal ++ [.appliedBlock b.id false] := by
  cases h with
  | arrive => exact .inl rfl
  | submitAnnounced _ _ _ done =>
    rcases submitAnnounced_cases done with ⟨-, -, rfl⟩ | ⟨result, ledger, -, result_eq⟩
    · exact .inl rfl
    · cases result with
      | ok transactions =>
        obtain ⟨-, rfl⟩ := result_eq
        exact .inr rfl
      | error error =>
        obtain ⟨-, quarantine, rfl⟩ := result_eq
        exact .inr rfl

/-- Taking a delivered transaction applies it once, or not at all. -/
theorem Step.journal_tookTransaction {e e' : Engine σ} {id : PeerId} {t : Transaction}
    (h : Step (.tookTransaction id t) e e') :
    e'.journal = e.journal ∨ e'.journal = e.journal ++ [.appliedTransaction t.hash] := by
  cases h with
  | submitTransaction =>
    rcases submitTransaction_cases (e.modifyPeer id fun p =>
        { p with reserved := p.reserved.erase t.item }) t with eq | ⟨_, _, _, _, eq⟩
    · exact .inl (by rw [eq]; rfl)
    · exact .inr (by rw [eq]; rfl)

/-- **What a step shows.**  A step appends to the journal what its deed shows. -/
theorem Step.appends {d : Deed} {e e' : Engine σ} (h : Step d e e') : Appends d.Shows e e' := by
  cases h with
  | openSession => exact .one rfl rfl
  | remove => exact .remove _ _ _ (fun _ => .inl rfl) (.inl rfl)
  | sendSummary => exact .one rfl rfl
  | sendAnswer => exact .one rfl rfl
  | @finishCatchUp _ _ id _ _ _ _ _ _ _ _ done =>
    obtain ⟨_, rfl | ⟨n, rfl⟩⟩ := finishCatchUp_cases done
    · exact .same rfl
    · have shows : (Deed.finished id).Shows (.notified n) := ⟨id, .inl rfl⟩
      exact .one rfl shows
  | @takeUp _ _ id _ _ ids _ _ _ _ _ _ done =>
    obtain ⟨_, _, rfl | ⟨n, rfl⟩⟩ := takeUp_cases done
    · exact .same rfl
    · have shows : (Deed.joined id ids).Shows (.notified n) := ⟨id, .inr ⟨ids, rfl⟩⟩
      exact .one rfl shows
  | @takeIn _ id _ i =>
    rcases takeIn_cases e id i with eq | ⟨_, _, eq, -⟩
    · exact .same (by rw [eq])
    · exact .same (by rw [eq]; rfl)
  | announceSpread =>
    obtain ⟨news, eq⟩ := announceSpread_eq e
    refine ⟨_, by rw [eq], fun ev mem => ?_⟩
    obtain ⟨n, -, rfl⟩ := List.mem_map.1 mem
    rfl
  | reserve =>
    obtain ⟨peers, candidates, eq⟩ := reserveAll_eq e
    refine ⟨_, by rw [requestReserved_eq, eq], fun ev mem => ?_⟩
    obtain ⟨id, -, mem⟩ := List.mem_flatMap.1 mem
    unfold requestFor at mem
    split at mem
    · cases mem
    · exact List.mem_singleton.1 mem ▸ .inl rfl
  | @serve _ id p items =>
    obtain ⟨_, _, _, messages, plain, eq | eq⟩ := serve_eq e id items
    · exact .same (by rw [eq])
    · refine .map (by rw [eq]) fun m hm => ?_
      have content := plain m hm
      cases m <;> first | rfl | exact content.elim
  | arrive => exact .same rfl
  | submitAnnounced hp notAsked reserved done =>
    rcases (Step.submitAnnounced hp notAsked reserved done).journal_tookBlock with eq | eq
    · exact .same eq
    · exact .one eq ⟨_, _, rfl, rfl⟩
  | submitTransaction hp reserved =>
    rcases (Step.submitTransaction hp reserved).journal_tookTransaction with eq | eq
    · exact .same eq
    · exact .one eq ⟨_, _, rfl, rfl⟩
  | @requestBlocks _ id p batch =>
    obtain ⟨_, _, eq⟩ := requestBlocks_eq e id batch
    refine .one (by rw [eq]) ?_
    exact Or.inr rfl
  | settle _ _ done => exact .submitFetched done (.inl rfl)
  | refuse _ _ done =>
    exact (Appends.submitFetched done (.inr rfl)).trans
      (.disconnectAll _ _ (fun _ _ => .inr rfl) fun _ => .inr rfl)
  | forgetOutdated done =>
    obtain ⟨_, _, _, _, _, rfl⟩ := forgetOutdated_eq done
    exact .same rfl
  | broadcast e m => cases m <;> exact .same rfl
  | welcome | restart | measure | dropStale | due | rest | absorb | suspend | dropOrphan
  | advanceFlood | advanceClock => exact .same rfl

/-- **What a course shows.**  A course appends to the journal what its deeds show. -/
theorem Course.appends {allowed : Deed → Prop} {e e' : Engine σ} (c : Course allowed e e') :
    Appends (fun ev => ∃ d, allowed d ∧ d.Shows ev) e e' := by
  induction c with
  | refl => exact .same rfl
  | tail _ last ih =>
    obtain ⟨d, allows, last⟩ := last
    exact ih.trans (last.appends.mono fun ev shows => ⟨d, allows, shows⟩)

omit [Ledger σ] in
/-- The events of a moment are what was appended in it. -/
theorem Appends.events {P : Event → Prop} {m : Moment σ} (h : Appends P m.before m.after) :
    m.after.journal = m.before.journal ++ m.events ∧ ∀ ev ∈ m.events, P ev := by
  obtain ⟨events, eq, all⟩ := h
  have same : m.events = events := by rw [Moment.events, eq, List.drop_left]
  rw [same]
  exact ⟨eq, all⟩

end Engine

end BlockRelay

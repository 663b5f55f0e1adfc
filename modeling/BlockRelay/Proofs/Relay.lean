/-
# Blocks that are relayed

An engine makes no blocks.  Those that it caches, that wait to be applied, that it sends, and
that it gives to its ledger were delivered, were queued for announcement, or were in the ledger.

So if all blocks that come in have a property, and the ledger holds none without it, then an
engine is confined to blocks with this property (`Engine.Confined`), and stays so
(`Confined.step`, `Confined.perform`).
-/
import BlockRelay.Proofs.Arrivals
import BlockRelay.Proofs.Journal
import BlockRelay.Proofs.Supplies

namespace BlockRelay

/-! ## What carries blocks -/

/-- The blocks that a message carries. -/
def Message.blocks : Message → List Block
  | .block b => [b]
  | _ => []

/-- The blocks that are sent in an event. -/
def Event.blocks : Event → List Block
  | .sent _ m => m.blocks
  | _ => []

/-- The blocks that a step brings in. -/
def Deed.blocks : Deed → List Block
  | .tookBlock _ b => [b]
  | .queued m => m.blocks
  | _ => []

/-- The blocks that an operation brings in. -/
def Operation.blocks : Operation → List Block
  | .receive _ m | .broadcast m => m.blocks
  | _ => []

/-- A step brings in no blocks but those of its operation. -/
theorem Operation.mem_blocks_of_allows {op : Operation} {d : Deed} (allows : op.Allows d)
    {b : Block} (brought : b ∈ d.blocks) : b ∈ op.blocks := by
  cases d with
  | tookBlock id b' =>
    cases allows
    exact brought
  | queued m =>
    cases allows
    exact brought
  | _ => cases brought

namespace Engine

variable {σ : Type} [Ledger σ] {P : Block → Prop} {I : σ → Prop}

/-! ## Confinement -/

/-- Ledgers that satisfy `I` hold no blocks but those that satisfy `P`, and satisfy `I` after every
call, if no other blocks are applied. -/
structure Closed (P : Block → Prop) (I : σ → Prop) : Prop where
  applyBlock : ∀ {l l' : σ} {b : Block} {sync : Bool} {r : Except Refusal (List Hash)},
    I l → P b → Ledger.applyBlock l b sync = .ok (r, l') → I l'
  applyTransaction : ∀ {l : σ} (t : Transaction), I l → I (Ledger.applyTransaction l t).2
  noteProgress : ∀ {l : σ} (n : Nat), I l → I (Ledger.noteProgress l n)
  held : ∀ {l : σ} {hash : Hash} {b : Block}, I l → Ledger.block? l hash = some b → P b

omit [Ledger σ] in
/-- An engine is confined if its ledger satisfies `I`, and the blocks that it caches, that have
arrived, that wait to be applied, and that it sent satisfy `P`. -/
structure Confined (P : Block → Prop) (I : σ → Prop) (e : Engine σ) : Prop where
  ledger : I e.ledger
  cached : ∀ entry ∈ e.blockCache.entries, P entry.value
  arrived : ∀ w ∈ e.arrived, P w.block
  waiting : ∀ (hash : Hash) (w : WaitingBlock), e.waiting[hash]? = some w → P w.block
  sent : ∀ ev ∈ e.journal, ∀ b ∈ ev.blocks, P b

omit [Ledger σ] in
/-- The conditions may be weakened. -/
theorem Confined.mono {P' : Block → Prop} {I' : σ → Prop} {e : Engine σ} (h : e.Confined P I)
    (block : ∀ b, P b → P' b) (ledger : I e.ledger → I' e.ledger) : e.Confined P' I' :=
  ⟨ledger h.ledger, fun entry mem => block _ (h.cached entry mem),
    fun w mem => block _ (h.arrived w mem), fun hash w hw => block _ (h.waiting hash w hw),
    fun ev mem b carried => block b (h.sent ev mem b carried)⟩

omit [Ledger σ] in
/-- A confined engine stays confined when its ledger is replaced. -/
theorem Confined.setLedger {e : Engine σ} (h : e.Confined P I) {ledger : σ} (here : I ledger) :
    { e with ledger }.Confined P I := ⟨here, h.cached, h.arrived, h.waiting, h.sent⟩

omit [Ledger σ] in
/-- A confined engine caches blocks that satisfy `P` when a block that does becomes recent. -/
theorem Confined.restocked {e e' : Engine σ} (h : e.Confined P I) {b : Block} (here : P b)
    (stock : Restocked b e e') : ∀ entry ∈ e'.blockCache.entries, P entry.value := by
  intro entry mem
  rcases stock.cached entry mem with old | ⟨-, rfl⟩
  · exact h.cached entry old
  · exact here

omit [Ledger σ] in
/-- A confined engine stays confined when a block that satisfies `P` is queued. -/
theorem Confined.broadcastBlock {e : Engine σ} (h : e.Confined P I) {b : Block} (here : P b) :
    (e.broadcastBlock b).Confined P I :=
  ⟨h.ledger, h.restocked here (.broadcastBlock e b), h.arrived, h.waiting, h.sent⟩

/-- An engine that starts is confined. -/
theorem Confined.start {config : Config} {ledger : σ} {clock : Clock} {e : Engine σ}
    (started : Engine.start config ledger clock = .ok e) (here : I ledger) : e.Confined P I := by
  obtain ⟨_, -, eq⟩ := Checked.bind_eq_ok_iff.1 started
  cases eq
  exact ⟨here, nofun, nofun, fun hash w hw => by simp at hw, nofun⟩

/-! ## Serving -/

/-- A confined engine hands out blocks that satisfy `P`. -/
theorem Confined.of_hands {e : Engine σ} (closed : Closed P I) (h : e.Confined P I) {b : Block}
    (hands : e.Hands b) : P b := by
  rcases hands with ⟨entry, mem, rfl⟩ | ⟨hash, held⟩
  · exact h.cached entry mem
  · exact closed.held h.ledger held

/-- A confined engine serves requests with blocks that satisfy `P`. -/
theorem Confined.serve {e : Engine σ} (closed : Closed P I) (h : e.Confined P I) (id : PeerId)
    (items : List Item) : (e.serve id items).Confined P I := by
  obtain ⟨cached, served⟩ := serve_hands e id items
  obtain ⟨ledger, arrived, waiting⟩ : (e.serve id items).ledger = e.ledger ∧
      (e.serve id items).arrived = e.arrived ∧ (e.serve id items).waiting = e.waiting := by
    obtain ⟨_, _, _, _, -, eq | eq⟩ := serve_eq e id items <;> rw [eq] <;> exact ⟨rfl, rfl, rfl⟩
  refine ⟨ledger ▸ h.ledger, fun entry mem => h.cached entry (cached mem), arrived ▸ h.arrived,
    waiting ▸ h.waiting, fun ev shown b carried => ?_⟩
  rcases served with ⟨-, journal⟩ | ⟨last, messages, made, -, journal⟩ <;> rw [journal] at shown
  · exact h.sent ev shown b carried
  · rcases List.mem_append.1 shown with old | new
    · exact h.sent ev old b carried
    · obtain ⟨m, mem, rfl⟩ := List.mem_map.1 new
      cases m with
      | block b' =>
        cases List.mem_singleton.1 carried
        exact h.of_hands closed (made.sent b mem)
      | _ => cases carried

/-! ## One step -/

/-- A step sends no blocks unless it serves a request. -/
theorem Step.appends_no_blocks {d : Deed} {e e' : Engine σ} (s : Step d e e')
    (other : ∀ id items, e' ≠ e.serve id items) : Appends (fun ev => ev.blocks = []) e e' := by
  by_cases quiet : d = .internal
  · cases s with
    | serve items => exact absurd rfl (other _ items)
    | sendAnswer => exact .one rfl rfl
    | announceSpread =>
      obtain ⟨news, eq⟩ := announceSpread_eq e
      refine ⟨_, by rw [eq], fun ev mem => ?_⟩
      obtain ⟨n, -, rfl⟩ := List.mem_map.1 mem
      rfl
    | forgetOutdated done =>
      obtain ⟨_, _, _, _, _, rfl⟩ := forgetOutdated_eq done
      exact .same rfl
    | welcome | measure | due | rest | absorb | suspend | dropOrphan | advanceFlood
    | advanceClock => exact .same rfl
    | _ => cases quiet
  · refine s.appends.mono fun ev shows => ?_
    cases ev with
    | sent id m =>
      cases m with
      | block => exact absurd shows quiet
      | _ => rfl
    | _ => rfl

omit [Ledger σ] in
/-- A confined engine submits only blocks that satisfy `P`, if the step brings in no others. -/
theorem Confined.of_submits {d : Deed} {e : Engine σ} (h : e.Confined P I)
    (brought : ∀ b ∈ d.blocks, P b) {b : Block} (submits : Submits d e b) : P b := by
  rcases submits with ⟨id, rfl⟩ | ⟨hash, w, hw, rfl⟩
  · exact brought b (List.mem_singleton.2 rfl)
  · exact h.waiting hash w hw

/-- A ledger that is told of progress or of a transaction stays in `I`. -/
theorem Closed.told {l l' : σ} (closed : Closed P I) (h : I l) (told : Told l l') : I l' := by
  cases told with
  | nothing => exact h
  | progress n => exact closed.noteProgress n h
  | transaction t => exact closed.applyTransaction t h

/-- A step that brings in only blocks that satisfy `P` leaves the ledger of a confined engine in
`I`, and its cache in `P`. -/
theorem Step.stocks {d : Deed} {e e' : Engine σ} (s : Step d e e') (closed : Closed P I)
    (h : e.Confined P I) (brought : ∀ b ∈ d.blocks, P b) :
    I e'.ledger ∧ ∀ entry ∈ e'.blockCache.entries, P entry.value := by
  cases s.supply with
  | quiet told stock =>
    exact ⟨closed.told h.ledger told, fun entry mem => h.cached entry (stock.cached mem)⟩
  | refused submits applied stock =>
    exact ⟨closed.applyBlock h.ledger (h.of_submits brought submits) applied,
      fun entry mem => h.cached entry (stock.cached mem)⟩
  | accepted submits applied stock =>
    have here := h.of_submits brought submits
    exact ⟨closed.applyBlock h.ledger here applied, h.restocked here stock⟩
  | @queued _ _ b ledger stock =>
    exact ⟨ledger ▸ h.ledger, h.restocked (brought b (List.mem_singleton.2 rfl)) stock⟩

/-- **A confined engine stays confined** in every step that brings in only blocks that satisfy
`P`. -/
theorem Confined.step {d : Deed} {e e' : Engine σ} (closed : Closed P I) (s : Step d e e')
    (brought : ∀ b ∈ d.blocks, P b) (h : e.Confined P I) : e'.Confined P I := by
  by_cases serves : ∃ id items, e' = e.serve id items
  · obtain ⟨id, items, rfl⟩ := serves
    exact h.serve closed id items
  obtain ⟨ledger, cached⟩ := s.stocks closed h brought
  refine ⟨ledger, cached, fun w mem => ?_, fun hash w hw => ?_, fun ev mem => ?_⟩
  · rcases s.hands.arrived w mem with old | ⟨rfl, -⟩
    · exact h.arrived w old
    · exact brought w.block (List.mem_singleton.2 rfl)
  · rcases s.hands.waiting hash w hw with old | ⟨mem, -⟩
    · exact h.waiting hash w old
    · exact h.arrived w mem
  · obtain ⟨events, eq, none⟩ :=
      s.appends_no_blocks fun id items eq => serves ⟨id, items, eq⟩
    rw [eq] at mem
    rcases List.mem_append.1 mem with old | new
    · exact h.sent ev old
    · rw [none ev new]
      exact nofun

/-- **A confined engine stays confined** in every operation that brings in only blocks that satisfy
`P`. -/
theorem Confined.perform {e e' : Engine σ} {op : Operation} {answer : Outcome}
    (closed : Closed P I) (h : e.Confined P I) (brought : ∀ b ∈ op.blocks, P b)
    (done : e.perform op = .ok (answer, e')) : e'.Confined P I :=
  (course_perform done).preserves (fun allows s here =>
    here.step closed s fun b mem => brought b (Operation.mem_blocks_of_allows allows mem)) h

end Engine

end BlockRelay

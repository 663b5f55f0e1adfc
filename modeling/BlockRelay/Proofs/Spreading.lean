/-
# What is announced

Announcing the spread set empties it.  Every registered peer that does not fetch our chain gets
one announcement: of the objects that it has not announced itself and that have not been announced
to it, blocks in ascending order of height before all transactions (`Engine.Spreading`).  This
holds in whichever order the set is listed (`spreading_announceListed`); the order decides only
which of two transactions, or of two blocks of one height, comes first.

What is announced to a peer is remembered in its record, and forgotten only with what is out of
date.  So no hash is announced twice in a session in which nothing is forgotten
(`spread_announced_once`).
-/
import BlockRelay.Ledger.Chain
import BlockRelay.Proofs.Records

namespace BlockRelay

variable {σ : Type}

/-- The hashes that are announced to a peer in an event. -/
def Event.told (id : PeerId) : Event → List Hash
  | .sent other (.announce items) => if other = id then items.map (·.hash) else []
  | _ => []

/-- The hashes that are announced to a peer in a moment. -/
def Moment.told (m : Moment σ) (id : PeerId) : List Hash := m.events.flatMap (Event.told id)

/-- Announcing items notes the time under their hashes, and leaves the other hashes alone. -/
theorem Peer.announced_announceAll (p : Peer) (items : List Item) (now : Nat) (h : Hash) :
    (p.announceAll items now).announced[h]? =
      if h ∈ items.map (·.hash) then some now else p.announced[h]? := by
  unfold announceAll
  induction items generalizing p with
  | nil => simp
  | cons i rest ih =>
    rw [List.foldl_cons, ih, announce, Std.TreeMap.getElem?_insert, List.map_cons]
    simp only [Std.LawfulEqCmp.compare_eq_iff_eq, List.mem_cons, eq_comm (a := h)]
    by_cases later : h ∈ rest.map (·.hash) <;> by_cases here : i.hash = h <;> simp [later, here]

namespace Engine

/-! ## News -/

/-- Whether an object of the spread set is unknown to a peer: the peer did not announce its hash,
and the hash was not announced to the peer. -/
def IsNews (spread : Std.TreeMap Hash ItemKind) (p : Peer) (i : Item) : Prop :=
  spread[i.hash]? = some i.kind ∧
    p.advertised.contains i.hash = false ∧ p.announced.contains i.hash = false

/-- The announcement that a peer should get: all that is unknown to it, each object once, and
blocks in ascending order of height before all transactions. -/
structure News (spread : Std.TreeMap Hash ItemKind) (p : Peer) (items : List Item) : Prop where
  exact : ∀ i : Item, i ∈ items ↔ IsNews spread p i
  once : (items.map (·.hash)).Nodup
  ordered : items.Pairwise Item.MayPrecede

/-- **What is news.**  In whichever order the spread set is listed, a peer that does not fetch our
chain is told what is unknown to it. -/
theorem news_newsFor {spread : Std.TreeMap Hash ItemKind} {list : List (Hash × ItemKind)}
    (listed : list.Perm spread.toList) {p : Peer} (free : p.needFromUs = false) :
    News spread p (newsFor list p) := by
  let unknown := list.filter fun entry =>
    !p.advertised.contains entry.1 && !p.announced.contains entry.1
  have news_perm : (newsFor list p).Perm (unknown.map fun entry => ⟨entry.1, entry.2⟩) := by
    unfold newsFor
    rw [free, if_neg Bool.false_ne_true]
    exact Item.inDeliveryOrder_perm _
  constructor
  · intro i
    rw [news_perm.mem_iff]
    unfold IsNews
    rw [← Std.TreeMap.mem_toList_iff_getElem?_eq_some, ← listed.mem_iff]
    constructor
    · intro mem
      obtain ⟨entry, mem, rfl⟩ := List.mem_map.1 mem
      simpa [unknown] using mem
    · rintro ⟨mem, unheard, untold⟩
      refine List.mem_map.2 ⟨(i.hash, i.kind), List.mem_filter.2 ⟨mem, ?_⟩, rfl⟩
      simp [unheard, untold]
  · have hashes : list.map (·.1) |>.Nodup := by
      rw [(listed.map _).nodup_iff, Std.TreeMap.map_fst_toList_eq_keys]
      exact Std.TreeMap.nodup_keys
    rw [(news_perm.map _).nodup_iff, List.map_map]
    exact hashes.sublist (List.filter_sublist.map _)
  · unfold newsFor
    rw [free, if_neg Bool.false_ne_true]
    exact Item.mayPrecede_inDeliveryOrder _

/-- A peer that fetches our chain is told nothing. -/
theorem newsFor_of_needFromUs {list : List (Hash × ItemKind)} {p : Peer}
    (fetching : p.needFromUs = true) : newsFor list p = [] := if_pos fetching

/-- A peer is told nothing but news. -/
theorem isNews_of_mem_newsFor {spread : Std.TreeMap Hash ItemKind} {list : List (Hash × ItemKind)}
    (listed : list.Perm spread.toList) {p : Peer} {i : Item} (mem : i ∈ newsFor list p) :
    IsNews spread p i := by
  cases free : p.needFromUs with
  | false => exact ((news_newsFor listed free).exact i).1 mem
  | true =>
    rw [newsFor_of_needFromUs free] at mem
    cases mem

/-- A peer is told each hash once. -/
theorem nodup_newsFor {spread : Std.TreeMap Hash ItemKind} {list : List (Hash × ItemKind)}
    (listed : list.Perm spread.toList) (p : Peer) : ((newsFor list p).map (·.hash)).Nodup := by
  cases free : p.needFromUs with
  | false => exact (news_newsFor listed free).once
  | true =>
    rw [newsFor_of_needFromUs free]
    exact List.nodup_nil

/-! ## Announcing the spread set -/

/-- The announcements that the listed objects give rise to, with the peers that get them. -/
def announcements (e : Engine σ) (listed : List (Hash × ItemKind)) : List (PeerId × List Item) :=
  e.peers.toList.filterMap fun (id, p) =>
    match newsFor listed p with
    | [] => none
    | items => some (id, items)

section Listed

variable {e : Engine σ} {listed : List (Hash × ItemKind)} {id : PeerId} {p : Peer}

/-- A peer gets an announcement exactly if it is registered and something is news to it. -/
theorem mem_announcements {items : List Item} : (id, items) ∈ e.announcements listed ↔
    items ≠ [] ∧ ∃ p, e.peers[id]? = some p ∧ newsFor listed p = items := by
  unfold announcements
  rw [List.mem_filterMap]
  constructor
  · rintro ⟨⟨other, p⟩, mem, eq⟩
    rw [Std.TreeMap.mem_toList_iff_getElem?_eq_some] at mem
    dsimp only at eq
    split at eq
    · cases eq
    next nonempty =>
      cases eq
      exact ⟨nonempty, p, mem, rfl⟩
  · rintro ⟨nonempty, p, hp, rfl⟩
    refine ⟨(id, p), Std.TreeMap.mem_toList_iff_getElem?_eq_some.2 hp, ?_⟩
    dsimp only
    split
    next none => exact absurd none nonempty
    next => rfl

/-- No peer gets two announcements at a time. -/
theorem nodup_announcements (e : Engine σ) (listed : List (Hash × ItemKind)) :
    ((e.announcements listed).map (·.1)).Nodup := by
  refine e.nodup_peers.sublist ?_
  unfold announcements
  generalize e.peers.toList = entries
  induction entries with
  | nil => exact .refl _
  | cons entry rest ih =>
    rw [List.filterMap_cons, List.map_cons]
    split
    next => exact ih.cons _
    next eq =>
      dsimp only at eq
      split at eq
      · cases eq
      · cases eq
        exact ih.cons_cons _

/-- Whoever gets no announcement has no news. -/
theorem newsFor_of_not_mem (silent : id ∉ (e.announcements listed).map (·.1))
    (hp : e.peers[id]? = some p) : newsFor listed p = [] := by
  by_contra nonempty
  exact silent (List.mem_map_of_mem (mem_announcements.2 ⟨nonempty, p, hp, rfl⟩))

/-- Announcing objects sends the announcements, and notes them with the peers. -/
theorem announceListed_eq_announcements (e : Engine σ) (listed : List (Hash × ItemKind)) :
    e.announceListed listed = (((e.announcements listed).map (·.2.length)).sum,
      { { e with spread := ∅ }.mapPeers fun _ p => p.announceAll (newsFor listed p) e.now with
        journal := e.journal ++
          (e.announcements listed).map fun a => .sent a.1 (.announce a.2) }) := by
  refine Prod.ext ?_ ?_
  · show (e.announcements listed).foldl (fun n a => n + a.2.length) 0 = _
    rw [List.sum_eq_foldl, List.foldl_map]
  · exact foldl_send Prod.fst (fun a : PeerId × List Item => .announce a.2)
      (e.announcements listed) _

end Listed

/-- The effect of announcing the spread set, which answers with `n`.  The set is empty.  The peers
in `news` are told one thing each: a peer that is registered and does not fetch our chain is told
what is news to it, if there is any.  What it is told is noted in its record with the time; nothing
else in the record changes, and no other record does.  The answer is the number of objects that
were announced. -/
structure Spreading (e : Engine σ) (news : List (PeerId × List Item)) (n : Nat) (e' : Engine σ) :
    Prop where
  emptied : e'.spread = ∅
  journal : e'.journal = e.journal ++ news.map fun a => .sent a.1 (.announce a.2)
  once : (news.map (·.1)).Nodup
  told : ∀ (id : PeerId) (items : List Item), (id, items) ∈ news → items ≠ [] ∧
    ∃ p, e.peers[id]? = some p ∧ p.needFromUs = false ∧ News e.spread p items
  all : ∀ (id : PeerId) (p : Peer) (i : Item), e.peers[id]? = some p → p.needFromUs = false →
    IsNews e.spread p i → id ∈ news.map (·.1)
  noted : ∀ (id : PeerId) (items : List Item), (id, items) ∈ news →
    ∃ p p', e.peers[id]? = some p ∧ e'.peers[id]? = some p' ∧
      p' = { p with announced := p'.announced } ∧
      ∀ h : Hash, p'.announced[h]? =
        if h ∈ items.map (·.hash) then some e.now else p.announced[h]?
  others : ∀ id : PeerId, id ∉ news.map (·.1) → e'.peers[id]? = e.peers[id]?
  count : n = (news.map (·.2.length)).sum
  rest : e' = { e with spread := ∅, peers := e'.peers, journal := e'.journal }

/-- **Announcing the spread set.**  It has its effect in every state, in whichever order the set is
listed. -/
theorem spreading_announceListed {e : Engine σ} {list : List (Hash × ItemKind)}
    (listed : list.Perm e.spread.toList) :
    Spreading e (e.announcements list) (e.announceListed list).1 (e.announceListed list).2 := by
  rw [announceListed_eq_announcements]
  constructor
  · rfl
  · rfl
  · exact nodup_announcements e list
  · intro id items mem
    obtain ⟨nonempty, p, hp, rfl⟩ := mem_announcements.1 mem
    have free : p.needFromUs = false := by
      rw [← Bool.not_eq_true]
      exact fun fetching => nonempty (newsFor_of_needFromUs fetching)
    exact ⟨nonempty, p, hp, free, news_newsFor listed free⟩
  · intro id p i hp free news
    have mem := ((news_newsFor listed free).exact i).2 news
    have nonempty := List.ne_nil_of_mem mem
    exact List.mem_map_of_mem (mem_announcements.2 ⟨nonempty, p, hp, rfl⟩)
  · intro id items mem
    obtain ⟨-, p, hp, rfl⟩ := mem_announcements.1 mem
    refine ⟨p, p.announceAll (newsFor list p) e.now, hp, ?_, ?_, ?_⟩
    · show (mapPeers _ _).peers[id]? = _
      rw [peers_mapPeers, hp, Option.map_some]
    · exact Peer.announceAll_eq ..
    · exact Peer.announced_announceAll p _ e.now
  · intro id silent
    show (mapPeers _ _).peers[id]? = _
    rw [peers_mapPeers]
    cases hp : e.peers[id]? with
    | none => rfl
    | some p =>
      rw [Option.map_some, newsFor_of_not_mem silent hp]
      rfl
  · rfl
  · rfl

/-! ## What a session is told -/

/-- The events that become visible on the way from `e` to `e'` announce to a peer what was not
announced to it before, and each hash once.  Whatever was or is announced to the peer is remembered
in its record, as long as it is registered. -/
structure Tells (id : PeerId) (events : List Event) (e e' : Engine σ) : Prop where
  journal : e'.journal = e.journal ++ events
  once : (events.flatMap (Event.told id)).Nodup
  new : ∀ h ∈ events.flatMap (Event.told id),
    ∃ p, e.peers[id]? = some p ∧ p.announced.contains h = false
  noted : ∀ p', e'.peers[id]? = some p' → ∃ p, e.peers[id]? = some p ∧
    ∀ h : Hash, p.announced.contains h = true ∨ h ∈ events.flatMap (Event.told id) →
      p'.announced.contains h = true

namespace Tells

variable {id : PeerId} {events events' : List Event} {e e₁ e₂ : Engine σ}

/-- Nothing is announced to the peer, and nothing is forgotten. -/
theorem of_silent (journal : e₁.journal = e.journal ++ events)
    (silent : ∀ ev ∈ events, ev.told id = [])
    (noted : ∀ p', e₁.peers[id]? = some p' → ∃ p, e.peers[id]? = some p ∧
      ∀ h : Hash, p.announced.contains h = true → p'.announced.contains h = true) :
    Tells id events e e₁ := by
  have nothing : events.flatMap (Event.told id) = [] := List.flatMap_eq_nil_iff.2 silent
  refine ⟨journal, ?_, ?_, ?_⟩ <;> rw [nothing]
  · exact List.nodup_nil
  · exact nofun
  · intro p' hp'
    obtain ⟨p, hp, kept⟩ := noted p' hp'
    exact ⟨p, hp, fun h known => kept h (known.resolve_right List.not_mem_nil)⟩

/-- What is announced later is new, because what was announced earlier is remembered. -/
theorem trans (t : Tells id events e e₁) (t' : Tells id events' e₁ e₂) :
    Tells id (events ++ events') e e₂ := by
  refine ⟨?_, ?_, ?_, ?_⟩
  · rw [t'.journal, t.journal, List.append_assoc]
  · rw [List.flatMap_append, List.nodup_append]
    refine ⟨t.once, t'.once, ?_⟩
    rintro h earlier _ later rfl
    obtain ⟨p₁, hp₁, untold⟩ := t'.new h later
    obtain ⟨p, -, remembered⟩ := t.noted p₁ hp₁
    rw [remembered h (.inr earlier)] at untold
    cases untold
  · intro h mem
    rw [List.flatMap_append, List.mem_append] at mem
    rcases mem with earlier | later
    · exact t.new h earlier
    · obtain ⟨p₁, hp₁, untold⟩ := t'.new h later
      obtain ⟨p, hp, remembered⟩ := t.noted p₁ hp₁
      refine ⟨p, hp, ?_⟩
      rw [← Bool.not_eq_true]
      intro known
      rw [remembered h (.inl known)] at untold
      cases untold
  · intro p₂ hp₂
    obtain ⟨p₁, hp₁, remembered'⟩ := t'.noted p₂ hp₂
    obtain ⟨p, hp, remembered⟩ := t.noted p₁ hp₁
    refine ⟨p, hp, fun h known => remembered' h ?_⟩
    rw [List.flatMap_append, List.mem_append] at known
    rcases known with before | earlier | later
    · exact .inl (remembered h (.inl before))
    · exact .inl (remembered h (.inr earlier))
    · exact .inr later

end Tells

/-- A list of entries without two of one key, in which each entry of a key stands for a list and
the others for nothing. -/
theorem flatMap_of_key {α β : Type} {entries : List (PeerId × α)} {id : PeerId} {a : α}
    (distinct : (entries.map (·.1)).Nodup) (mem : (id, a) ∈ entries) (f : α → List β) :
    (entries.flatMap fun entry => if entry.1 = id then f entry.2 else []) = f a := by
  induction entries with
  | nil => cases mem
  | cons entry rest ih =>
    rw [List.map_cons, List.nodup_cons] at distinct
    rw [List.flatMap_cons]
    rcases List.mem_cons.1 mem with rfl | later
    · have others : (rest.flatMap fun entry => if entry.1 = id then f entry.2 else []) = [] := by
        rw [List.flatMap_eq_nil_iff]
        intro other ho
        refine if_neg ?_
        rintro rfl
        exact distinct.1 (List.mem_map.2 ⟨other, ho, rfl⟩)
      rw [others, List.append_nil]
      exact if_pos rfl
    · have ne : entry.1 ≠ id := fun same => distinct.1 (same ▸ List.mem_map_of_mem later)
      rw [if_neg ne, List.nil_append]
      exact ih distinct.2 later

section Listed

variable {e : Engine σ} {listed list : List (Hash × ItemKind)} {id : PeerId} {p : Peer}

/-- A peer is told what is news to it, and nothing else. -/
theorem told_announcements (hp : e.peers[id]? = some p) :
    ((e.announcements listed).map fun a => Event.sent a.1 (.announce a.2)).flatMap
      (Event.told id) = (newsFor listed p).map (·.hash) := by
  rw [List.flatMap_map]
  by_cases silent : newsFor listed p = []
  · rw [silent, List.map_nil, List.flatMap_eq_nil_iff]
    rintro ⟨other, items⟩ mem
    obtain ⟨nonempty, q, hq, rfl⟩ := mem_announcements.1 mem
    refine if_neg ?_
    rintro rfl
    obtain rfl : q = p := Option.some_inj.1 (hq.symm.trans hp)
    exact nonempty silent
  · exact flatMap_of_key (nodup_announcements e listed) (mem_announcements.2 ⟨silent, p, hp, rfl⟩)
      fun items => items.map (·.hash)

/-- Only a registered peer is told something. -/
theorem registered_of_told {h : Hash}
    (mem : h ∈ ((e.announcements listed).map fun a => Event.sent a.1 (.announce a.2)).flatMap
      (Event.told id)) : ∃ p, e.peers[id]? = some p := by
  rw [List.flatMap_map, List.mem_flatMap] at mem
  obtain ⟨⟨other, items⟩, mem, hh⟩ := mem
  obtain ⟨-, p, hp, -⟩ := mem_announcements.1 mem
  by_cases same : other = id
  · exact ⟨p, same ▸ hp⟩
  · exact absurd hh (by simp [Event.told, same])

/-- Announcing the spread set tells every peer something new, in whichever order the set is
listed. -/
theorem tells_announceListed (listed : list.Perm e.spread.toList) (id : PeerId) :
    Tells id ((e.announcements list).map fun a => .sent a.1 (.announce a.2)) e
      (e.announceListed list).2 := by
  rw [announceListed_eq_announcements]
  refine ⟨rfl, ?_, ?_, ?_⟩
  · cases hp : e.peers[id]? with
    | none =>
      have nobody : ((e.announcements list).map fun a => Event.sent a.1 (.announce a.2)).flatMap
          (Event.told id) = [] := by
        refine List.eq_nil_iff_forall_not_mem.2 fun h mem => ?_
        obtain ⟨p, hp'⟩ := registered_of_told mem
        rw [hp] at hp'
        cases hp'
      rw [nobody]
      exact List.nodup_nil
    | some p =>
      rw [told_announcements hp]
      exact nodup_newsFor listed p
  · intro h mem
    obtain ⟨p, hp⟩ := registered_of_told mem
    rw [told_announcements hp] at mem
    obtain ⟨i, hi, rfl⟩ := List.mem_map.1 mem
    exact ⟨p, hp, (isNews_of_mem_newsFor listed hi).2.2⟩
  · intro p' hp'
    rw [peers_mapPeers] at hp'
    obtain ⟨p, hp, rfl⟩ := Option.map_eq_some_iff.1 hp'
    refine ⟨p, hp, fun h known => ?_⟩
    have hp : e.peers[id]? = some p := hp
    rw [told_announcements hp] at known
    rw [Std.TreeMap.contains_eq_isSome_getElem?, Peer.announced_announceAll]
    split
    next => rfl
    next untold =>
      rw [← Std.TreeMap.contains_eq_isSome_getElem?]
      exact known.resolve_right untold

end Listed

variable [Ledger σ]

/-- What was announced to a peer is forgotten only with what is out of date. -/
theorem Revision.announced_kept {e : Engine σ} {id : PeerId} {d : Deed} {p p' : Peer}
    (r : Revision e id d p p') (unforgotten : d ≠ .forgot) {h : Hash}
    (known : p.announced.contains h = true) : p'.announced.contains h = true := by
  cases r with
  | announced p items =>
    rw [Std.TreeMap.contains_eq_isSome_getElem?] at known ⊢
    rw [Peer.announced_announceAll]
    split
    · rfl
    · exact known
  | requested p batch =>
    rw [Peer.requestBlocks_eq]
    exact known
  | joined _ stored remaining elsewhere =>
    obtain ⟨_, _, _, _, eq⟩ := Peer.continueCatchUp_eq { p with summary := none } _ remaining
      elsewhere e.recent
    rw [eq]
    exact known
  | settled p hash b =>
    obtain ⟨_, _, settled⟩ := settlePeer_eq b (takeFront hash p)
    obtain ⟨_, _, -, taken⟩ := takeFront_eq hash p
    rw [settled, taken]
    exact known
  | refused p hash =>
    obtain ⟨_, _, -, taken⟩ := takeFront_eq hash p
    rw [taken]
    exact known
  | forgot => exact absurd rfl unforgotten
  | same | welcomed | restarted | summarized | answered | finished | noted | reserved | served
  | accepted | tookBlock | tookTransaction => exact known

/-- **What a step tells a peer.**  A step that begins no session of a peer and forgets nothing
announces to it what is new to it. -/
theorem Step.tells {d : Deed} {e e' : Engine σ} (s : Step d e e') {id : PeerId}
    (continues : d ≠ .opened id) (unforgotten : d ≠ .forgot) :
    ∃ events, Tells id events e e' := by
  have noted (p' : Peer) (hp' : e'.peers[id]? = some p') : ∃ p, e.peers[id]? = some p ∧
      ∀ h : Hash, p.announced.contains h = true → p'.announced.contains h = true := by
    rcases s.revised id p' hp' with ⟨opened, -⟩ | ⟨p, hp, r⟩
    · exact absurd opened continues
    · exact ⟨p, hp, fun h => r.announced_kept unforgotten⟩
  by_cases loud : d = .internal
  · subst loud
    cases s with
    | announceSpread => exact ⟨_, tells_announceListed (.refl _) id⟩
    | sendAnswer => exact ⟨[_], .of_silent rfl (fun ev mem => List.mem_singleton.1 mem ▸ rfl) noted⟩
    | @serve _ other p items =>
      obtain ⟨_, _, _, messages, plain, eq | eq⟩ := serve_eq e other items
      · exact ⟨[], .of_silent (by rw [eq, List.append_nil]) nofun noted⟩
      · refine ⟨messages.map fun m => .sent other m, .of_silent (by rw [eq]) ?_ noted⟩
        intro ev mem
        obtain ⟨m, hm, rfl⟩ := List.mem_map.1 mem
        have content := plain m hm
        cases m <;> first | rfl | exact content.elim
    | welcome | measure | due | absorb | suspend | dropOrphan | advanceFlood | advanceClock =>
      exact ⟨[], .of_silent (List.append_nil _).symm nofun noted⟩
  · obtain ⟨events, eq, shows⟩ := s.appends
    refine ⟨events, .of_silent eq (fun ev mem => ?_) noted⟩
    -- announcements are shown by internal steps only
    have shown := shows ev mem
    unfold Event.told
    split
    · exact absurd shown loud
    · rfl

/-- A course that begins no session of a peer and forgets nothing announces to it what is new
to it. -/
theorem Course.tells {allowed : Deed → Prop} {e e' : Engine σ} (c : Course allowed e e')
    {id : PeerId} (continues : ¬ allowed (.opened id)) (unforgotten : ¬ allowed .forgot) :
    ∃ events, Tells id events e e' := by
  induction c with
  | refl =>
    exact ⟨[], .of_silent (List.append_nil _).symm nofun fun p' hp' => ⟨p', hp', fun _ h => h⟩⟩
  | tail _ last ih =>
    obtain ⟨d, allows, last⟩ := last
    obtain ⟨events, before⟩ := ih
    have opens : d ≠ .opened id := fun eq => continues (eq ▸ allows)
    have forgets : d ≠ .forgot := fun eq => unforgotten (eq ▸ allows)
    obtain ⟨events', after⟩ := last.tells opens forgets
    exact ⟨events ++ events', before.trans after⟩

/-- What a moment announces is new, if it begins no session of the peer and forgets nothing. -/
theorem tells_events {e e' : Engine σ} {op : Operation} {answer : Outcome}
    (done : e.perform op = .ok (answer, e')) {id : PeerId}
    (continues : ¬ (Moment.mk e (some op) e').opens id = true)
    (unforgotten : op ≠ .forgetOutdated) :
    Tells id (Moment.mk e (some op) e').events e e' := by
  have opens : ¬ op.Allows (.opened id) := fun ⟨height, eq⟩ =>
    Moment.ne_register_of_not_opens continues height eq
  obtain ⟨events, tells⟩ := (course_perform done).tells opens unforgotten
  have same : (Moment.mk e (some op) e').events = events := by
    rw [Moment.events, tells.journal, List.drop_left]
  rw [same]
  exact tells

/-- **What a session was told.**  Whatever was announced to a peer in its session, in which nothing
was forgotten, was announced once, and is remembered as long as the peer is registered. -/
theorem Run.told {start e : Engine σ} {past : List (Moment σ)} (run : Run start past e)
    {id : PeerId} (unforgotten : ∀ m ∈ session id past, m.operation ≠ some .forgetOutdated) :
    ((session id past).flatMap (·.told id)).Nodup ∧
      ∀ p, e.peers[id]? = some p → ∀ h ∈ (session id past).flatMap (·.told id),
        p.announced.contains h = true := by
  induction run with
  | start => exact ⟨List.nodup_nil, fun _ _ _ mem => absurd mem List.not_mem_nil⟩
  | @perform past e e' op answer before done ih =>
    rw [session_cons] at unforgotten ⊢
    split at unforgotten
    next opens =>
      rw [if_pos opens]
      exact ⟨List.nodup_nil, fun _ _ _ mem => absurd mem List.not_mem_nil⟩
    next continues =>
      rw [if_neg continues]
      obtain ⟨here, earlier⟩ := List.forall_mem_cons.1 unforgotten
      obtain ⟨once, remembered⟩ := ih earlier
      have tells := tells_events done continues fun eq => here (congrArg some eq)
      rw [List.flatMap_cons]
      constructor
      · rw [List.nodup_append]
        refine ⟨tells.once, once, ?_⟩
        rintro h now _ old rfl
        obtain ⟨p, hp, untold⟩ := tells.new h now
        rw [remembered p hp h old] at untold
        cases untold
      · intro p' hp' h mem
        obtain ⟨p, hp, noted⟩ := tells.noted p' hp'
        refine noted h ?_
        rcases List.mem_append.1 mem with now | old
        · exact .inr now
        · exact .inl (remembered p hp h old)
  | @meddle past e ledger before ih =>
    rw [session_meddle] at unforgotten ⊢
    have silent : (Moment.mk e none { e with ledger }).told id = [] := by
      simp [Moment.told, Moment.events]
    rw [List.flatMap_cons, silent, List.nil_append]
    exact ih (List.forall_mem_cons.1 unforgotten).2

/-- **Everything is announced exactly where it is unknown.**  In every state that is reached,
announcing the spread set empties it and tells every registered peer that does not fetch our chain,
in one announcement, what is news to it, each object once and blocks in ascending order of height
before all transactions; what is told is noted, and nothing else changes.  And in a session in
which nothing is forgotten no hash is announced to the peer twice. -/
theorem spread_announced_once {start e : Engine σ} {past : List (Moment σ)}
    (run : Run start past e) :
    (∃ news, Spreading e news e.announceSpread.1 e.announceSpread.2) ∧
      ∀ id : PeerId, (∀ m ∈ session id past, m.operation ≠ some .forgetOutdated) →
        ((session id past).flatMap (·.told id)).Nodup :=
  ⟨⟨_, spreading_announceListed (.refl _)⟩, fun _ unforgotten => (run.told unforgotten).1⟩

/-- A transaction that is queued twice is announced to both peers that do not know it, and to each
of them once. -/
theorem announced_once_of_queued_twice :
    ∃ (start e : Engine ChainLedger) (past : List (Moment ChainLedger)),
      Engine.start {} (.ofGenesis (.genesis 0) 0 10) {} = .ok start ∧ Run start past e ∧
        (∃ news, Spreading e news e.announceSpread.1 e.announceSpread.2) ∧
        ∀ id ∈ [PeerId.mk 1, PeerId.mk 2],
          ((session id past).flatMap (·.told id)).length = 1 ∧
            ((session id past).flatMap (·.told id)).Nodup := by
  obtain ⟨start, past, e, started, run, checked⟩ := exists_run {}
    (ChainLedger.ofGenesis (.genesis 0) 0 10) {}
    [.register ⟨1⟩ 0, .register ⟨2⟩ 0, .broadcast (.transaction (.mk [] 1)), .announceSpread,
      .broadcast (.transaction (.mk [] 1)), .announceSpread]
    (fun (past, _) => [PeerId.mk 1, PeerId.mk 2].all fun id =>
      ((session id past).flatMap (·.told id)).length = 1 ∧
        (session id past).all fun m => m.operation ≠ some .forgetOutdated) (by decide +kernel)
  obtain ⟨spreading, once⟩ := spread_announced_once run
  refine ⟨start, e, past, started, run, spreading, fun id mem => ?_⟩
  have here := List.all_eq_true.1 checked id mem
  simp only [decide_eq_true_eq, List.all_eq_true] at here
  exact ⟨here.1, once id here.2⟩

end Engine

end BlockRelay

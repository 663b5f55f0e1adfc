/-
# A ledger with faults

Any ledger can be made to fail in chosen places: to refuse chosen objects, to fail
at summaries, to deny timestamps, or to answer summaries with chosen blocks.
-/
import BlockRelay.Ledger

namespace BlockRelay

/-- A ledger and the faults that lie over it. -/
structure FaultyLedger (σ : Type) where
  inner : σ
  /-- Objects that are refused. -/
  refused : Std.TreeMap Hash Refusal := ∅
  summaryFault : Option Refusal := none
  missingFault : Option Refusal := none
  /-- Whether timestamps are denied. -/
  timeless : Bool := false
  /-- The blocks that every summary is answered with. -/
  answer : Option (List BlockId) := none

/-- Where a fault can lie. -/
inductive FaultPoint where
  | object (hash : Hash)
  | summary
  | missing
  | timestamp
  deriving DecidableEq, Repr

namespace FaultyLedger

variable {σ : Type}

/-- Lay a fault at a point, or with `none` take it away. -/
def setFault (l : FaultyLedger σ) : FaultPoint → Option Refusal → FaultyLedger σ
  | .object hash, some e => { l with refused := l.refused.insert hash e }
  | .object hash, none => { l with refused := l.refused.erase hash }
  | .summary, fault => { l with summaryFault := fault }
  | .missing, fault => { l with missingFault := fault }
  | .timestamp, fault => { l with timeless := fault.isSome }

/-- Answer every summary with the given blocks from now on. -/
def setAnswer (l : FaultyLedger σ) (ids : List BlockId) : FaultyLedger σ :=
  { l with answer := some ids }

instance [Ledger σ] : Ledger (FaultyLedger σ) where
  applyBlock l b sync :=
    match l.refused[b.id.hash]? with
    | some e => .ok (.error e, l)
    | none => (Ledger.applyBlock l.inner b sync).map fun (r, inner) => (r, { l with inner })
  applyTransaction l t :=
    match l.refused[t.hash]? with
    | some e => (.error e, l)
    | none =>
      let (r, inner) := Ledger.applyTransaction l.inner t
      (r, { l with inner })
  containsBlock l := Ledger.containsBlock l.inner
  block? l := Ledger.block? l.inner
  transaction? l := Ledger.transaction? l.inner
  head l := Ledger.head l.inner
  genesis l := Ledger.genesis l.inner
  solidified l := Ledger.solidified l.inner
  timestamp? l id := if l.timeless then none else Ledger.timestamp? l.inner id
  sampleChain l shared pending :=
    match l.summaryFault with
    | some e => .error e
    | none => Ledger.sampleChain l.inner shared pending
  idsBeyond l summary :=
    match l.missingFault, l.answer with
    | some e, _ => .ok (.error e)
    | none, some ids => .ok (.ok ids)
    | none, none => Ledger.idsBeyond l.inner summary
  canRewindTo l := Ledger.canRewindTo l.inner
  noteProgress l n := { l with inner := Ledger.noteProgress l.inner n }

end FaultyLedger

end BlockRelay

/-
# Refusals

Why a ledger refuses an object, or a peer breaks the rules of the exchange.  No
refusal is fatal: each one drops one object, disconnects one peer, or starts a
catch-up.  `Refusal.reason` says for what reason a peer that delivered the
object is left, and `Refusal.blamesObject` whether the object is quarantined.
-/
import BlockRelay.Message

namespace BlockRelay

/-- Why an object or a reply is refused; the text gives the details. -/
inductive Refusal where
  | badBlock (detail : String)
  | badTransaction (detail : String)
  | unlinkedBlock (detail : String)
  | nonCommonAncestor (detail : String)
  | resourceInsufficient (detail : String)
  | transactionExpired (detail : String)
  | duplicateTransaction (detail : String)
  | tooBig (detail : String)
  | badSignature (detail : String)
  | traitor (detail : String)
  | peerNotFound (peer : UInt64)
  | store (detail : String)
  deriving DecidableEq, Repr, Inhabited

namespace Refusal

/-- The full text of a refusal. -/
def message : Refusal → String
  | .badBlock d => "bad block: " ++ d
  | .badTransaction d => "bad transaction: " ++ d
  | .unlinkedBlock d => "unlinked block: " ++ d
  | .nonCommonAncestor d => "no common ancestor: " ++ d
  | .resourceInsufficient d => "insufficient resources: " ++ d
  | .transactionExpired d => "transaction expired: " ++ d
  | .duplicateTransaction d => "duplicate transaction: " ++ d
  | .tooBig d => "object too big: " ++ d
  | .badSignature d => "invalid signature: " ++ d
  | .traitor d => "traitor peer: " ++ d
  | .peerNotFound p => "peer " ++ toString p.toNat ++ " not registered"
  | .store d => "store error: " ++ d

/-- The reason for leaving a peer whose block was refused. -/
def reason : Refusal → Reason
  | .unlinkedBlock _ => .unlinkable
  | .nonCommonAncestor _ | .store _ => .forked
  | .badTransaction _ => .badTransaction
  | .traitor _ => .badProtocol
  | .peerNotFound _ => .userReason
  | .badBlock _ | .resourceInsufficient _ | .transactionExpired _ | .duplicateTransaction _
  | .tooBig _ | .badSignature _ => .badBlock

/-- Whether the refusal is a fault of the object itself, which is then quarantined. -/
def blamesObject : Refusal → Bool
  | .unlinkedBlock _ | .traitor _ | .peerNotFound _ | .store _ => false
  | _ => true

end Refusal

end BlockRelay

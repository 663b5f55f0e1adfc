/-
# Messages

What two peers say to each other, and the reasons for which one leaves the other.
-/
import BlockRelay.Block

namespace BlockRelay

/-- Why a connection is dropped. -/
inductive Reason where
  | requested
  | badProtocol
  | badBlock
  | badTransaction
  | forked
  | unlinkable
  | timeOut
  | fetchFail
  | syncFail
  | userReason
  deriving DecidableEq, Repr, Inhabited

namespace Reason

/-- The name of a reason. -/
def label : Reason → String
  | .requested => "requested"
  | .badProtocol => "bad_protocol"
  | .badBlock => "bad_block"
  | .badTransaction => "bad_tx"
  | .forked => "forked"
  | .unlinkable => "unlinkable"
  | .timeOut => "time_out"
  | .fetchFail => "fetch_fail"
  | .syncFail => "sync_fail"
  | .userReason => "user_reason"

/-- Every reason, in the alphabetical order of the names. -/
def all : List Reason :=
  [.badBlock, .badProtocol, .badTransaction, .fetchFail, .forked, .requested, .syncFail,
    .timeOut, .unlinkable, .userReason]

/-- The list of all reasons is complete. -/
theorem mem_all (r : Reason) : r ∈ all := by cases r <;> decide

/-- Different reasons have different names. -/
theorem label_inj {r s : Reason} : r.label = s.label ↔ r = s := by
  cases r <;> cases s <;> simp [label]

end Reason

/-- A message between two peers. -/
inductive Message where
  /-- The sender has these objects. -/
  | announce (items : List Item)
  /-- The sender asks for these objects. -/
  | fetch (items : List Item)
  /-- An object that was asked for is not there. -/
  | notFound
  /-- A block that was asked for. -/
  | block (block : Block)
  /-- A transaction that was asked for. -/
  | transaction (transaction : Transaction)
  /-- Several transactions that were asked for. -/
  | transactions (transactions : List Transaction)
  /-- The sender asks what follows the chain that these identities sample. -/
  | summaryRequest (known : List BlockId)
  /-- What follows, and how many more blocks the sender has beyond the last of them. -/
  | summaryReply (ids : List BlockId) (remaining : UInt64)
  /-- The sender leaves. -/
  | disconnect (reason : Reason)
  deriving DecidableEq, Repr, Inhabited

namespace Message

/-- The name of the kind of a message. -/
def name : Message → String
  | .announce _ => "inventory"
  | .fetch _ => "fetch_request"
  | .notFound => "item_not_found"
  | .block _ => "block"
  | .transaction _ => "transaction"
  | .transactions _ => "transaction_batch"
  | .summaryRequest _ => "sync_summary_request"
  | .summaryReply .. => "sync_summary_reply"
  | .disconnect _ => "disconnect"

/-- Whether a message is part of the answer to a request. -/
def IsContent : Message → Prop
  | .notFound | .block _ | .transaction _ | .transactions _ => True
  | _ => False

/-- Whether a message is the last one of its sender. -/
def isDisconnect : Message → Bool
  | .disconnect _ => true
  | _ => false

/-- Exactly the disconnect messages are last messages. -/
theorem isDisconnect_iff {m : Message} : m.isDisconnect = true ↔ ∃ r, m = .disconnect r := by
  cases m <;> simp [isDisconnect]

end Message

end BlockRelay

/-
# Outbound delivery

The engine queues messages for a peer without ever waiting.  A dispatcher takes them
from the queue and puts them on a wire with room for a bounded number of messages,
so that a slow wire holds up one peer and nobody else.

A dispatcher drops what is queued for a peer that is no longer registered, with one
exception: a disconnect message is always delivered, and is the last one.
-/
import BlockRelay.Engine.Basic

namespace BlockRelay

/-- A queue of messages for a peer; once it is closed, nothing is added any more. -/
structure Outbox where
  messages : List Message := []
  closed : Bool := false
  deriving DecidableEq, Repr, Inhabited

/-- Add a message at the end of a queue. -/
def Outbox.add (q : Outbox) (m : Message) : Outbox := { q with messages := q.messages ++ [m] }

/-- A bounded wire; once its far end is closed, nothing can be put on it. -/
structure Wire where
  capacity : Nat
  messages : List Message := []
  closed : Bool := false
  deriving DecidableEq, Repr, Inhabited

namespace Wire

/-- An empty wire with room for at least one message. -/
def ofCapacity (capacity : Nat) : Wire := { capacity := max capacity 1 }

/-- Whether there is no room on a wire. -/
def isFull (w : Wire) : Bool := w.capacity ≤ w.messages.length

/-- Put a message on a wire. -/
def add (w : Wire) (m : Message) : Wire := { w with messages := w.messages ++ [m] }

/-- Take messages from the far end, at most `limit` of them if there is a limit. -/
def take (w : Wire) (limit : Option Nat) : List Message × Wire :=
  let n := limit.getD w.messages.length
  (w.messages.take n, { w with messages := w.messages.drop n })

/-- Close the far end; what is on the wire is lost. -/
def close (w : Wire) : Wire := { w with messages := [], closed := true }

/-- A wire keeps its order: what is taken and what is left is what was on it. -/
theorem take_append (w : Wire) (limit : Option Nat) :
    (w.take limit).1 ++ (w.take limit).2.messages = w.messages :=
  List.take_append_drop ..

end Wire

/-- A dispatcher between a queue and a wire. -/
structure Dispatcher where
  queue : Outbox
  wire : Wire
  /-- A message that was taken from the queue and waits for room on the wire. -/
  held : Option Message := none
  stopped : Bool := false
  deriving DecidableEq, Repr, Inhabited

namespace Dispatcher

/-- Stop for good; what is queued is lost. -/
def stop (d : Dispatcher) : Dispatcher :=
  { d with queue := {}, held := none, stopped := true }

/-- Go on as long as there is a message to take and room for it.  The answer to `live` is
whether the peer is registered. -/
def drain (live : Bool) : List Message → Dispatcher → Dispatcher
  | [], d => if d.queue.closed then d.stop else { d with queue := { d.queue with messages := [] } }
  | m :: rest, d =>
    if !live && !m.isDisconnect then drain live rest d
    else if d.wire.closed then d.stop
    else if d.wire.isFull then
      { d with queue := { d.queue with messages := rest }, held := some m }
    else
      let d := { d with wire := d.wire.add m }
      if m.isDisconnect then d.stop else drain live rest d

/-- Run until there is nothing to do.  A held message goes first, whether or not the peer is
still registered. -/
def run (live : Bool) (d : Dispatcher) : Dispatcher :=
  if d.stopped then d
  else
    match d.held with
    | none => drain live d.queue.messages d
    | some m =>
      if d.wire.closed then d.stop
      else if d.wire.isFull then d
      else
        let d := { d with wire := d.wire.add m, held := none }
        if m.isDisconnect then d.stop else drain live d.queue.messages d

/-- A dispatcher that has stopped does nothing. -/
theorem run_of_stopped {d : Dispatcher} (h : d.stopped = true) (live : Bool) :
    d.run live = d := by
  simp [run, h]

end Dispatcher

/-- Where the messages for one peer go: to a queue that somebody reads, to a dispatcher, or
nowhere. -/
structure Line where
  /-- The queue of the current session, while it is read directly. -/
  queue : Option Outbox := none
  /-- The dispatcher that was attached last. -/
  dispatcher : Option Dispatcher := none
  /-- Whether the dispatcher has the queue of the current session. -/
  attached : Bool := false
  deriving Repr, Inhabited

namespace Line

/-- Change the queue of the current session, wherever it is. -/
def modifyQueue (l : Line) (f : Outbox → Outbox) : Line :=
  if l.attached then
    { l with dispatcher := l.dispatcher.map fun d =>
        if d.stopped then d else { d with queue := f d.queue } }
  else { l with queue := l.queue.map f }

/-- Begin a session: its queue is new, and an earlier one that nobody has read is gone. -/
def begin (l : Line) : Line := { l with queue := some {}, attached := false }

/-- End the session: its queue is closed. -/
def close (l : Line) : Line := l.modifyQueue fun q => { q with closed := true }

/-- Queue a message. -/
def post (l : Line) (m : Message) : Line := l.modifyQueue (·.add m)

/-- Whether somebody would receive a message. -/
def isHeard (l : Line) : Bool :=
  if l.attached then l.dispatcher.any (!·.stopped) else l.queue.isSome

/-- Read everything that is queued. -/
def read (l : Line) : List Message × Line :=
  match l.queue with
  | none => ([], l)
  | some q => (q.messages, { l with queue := some { q with messages := [] } })

/-- Read the next message. -/
def readOne (l : Line) : Option Message × Line :=
  match l.queue with
  | none => (none, l)
  | some q => (q.messages.head?, { l with queue := some { q with messages := q.messages.tail } })

/-- Stop reading; the queue is dropped.  The answer says whether there was one. -/
def hangUp (l : Line) : Bool × Line := (l.queue.isSome, { l with queue := none })

/-- Hand the queue to a new dispatcher with a wire of a given capacity. -/
def attach (l : Line) (capacity : Nat) : Line :=
  match l.queue with
  | none => l
  | some q => ⟨none, some { queue := q, wire := .ofCapacity capacity }, true⟩

/-- Run the dispatcher, and say whether it waits for more. -/
def poll (l : Line) (live : Bool) : Bool × Line :=
  match l.dispatcher with
  | none => (false, l)
  | some d =>
    let d := d.run live
    (!d.stopped, { l with dispatcher := some d })

/-- Take messages from the wire of the dispatcher. -/
def receive (l : Line) (limit : Option Nat) : List Message × Line :=
  match l.dispatcher with
  | none => ([], l)
  | some d =>
    let (ms, wire) := d.wire.take limit
    (ms, { l with dispatcher := some { d with wire := wire } })

/-- Close the wire of the dispatcher.  The answer says whether it was open. -/
def closeWire (l : Line) : Bool × Line :=
  match l.dispatcher with
  | none => (false, l)
  | some d => (!d.wire.closed, { l with dispatcher := some { d with wire := d.wire.close } })

end Line

/-- The lines to all peers that ever had a session. -/
abbrev Switchboard := Std.TreeMap PeerId Line

namespace Switchboard

/-- The line to a peer. -/
def line (s : Switchboard) (peer : PeerId) : Line := s.getD peer {}

/-- Change the line to a peer. -/
def update (s : Switchboard) (peer : PeerId) (f : Line → Line) : Switchboard :=
  s.insert peer (f (s.line peer))

/-- Follow one event of an engine. -/
def follow (s : Switchboard) : Event → Switchboard
  | .opened peer => s.update peer Line.begin
  | .closed peer => s.update peer Line.close
  | .sent peer m => s.update peer (·.post m)
  | _ => s

/-- Follow several events of an engine. -/
def followAll (s : Switchboard) (events : List Event) : Switchboard := events.foldl follow s

/-- Read every queue.  Peers for which nothing was queued are left out. -/
def readAll (s : Switchboard) : List (PeerId × List Message) × Switchboard :=
  ((s.toList.map fun (peer, l) => (peer, l.read.1)).filter fun (_, ms) => !ms.isEmpty,
    s.map fun _ l => l.read.2)

/-- Close every session. -/
def closeAll (s : Switchboard) : Switchboard := s.map fun _ l => l.close

end Switchboard

end BlockRelay

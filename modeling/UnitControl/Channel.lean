import UnitControl.Error

/-!
# Bounded channels

A send always enqueues its message and is then parked while more messages are queued than the
capacity, until one is taken or the receiving end is dropped. Closing a channel turns later sends
away, leaves the queued messages readable, and does not of itself wake a send that is parked. A
sender that goes away leaves its send parked behind.
-/

namespace UnitControl

structure Channel (α : Type) where
  capacity : Nat
  queue : List α
  closed : Bool
  listening : Bool
  parked : Bool

namespace Channel

variable {α : Type} (c : Channel α)

def ofCapacity (n : Nat) : Channel α := ⟨n, [], false, true, false⟩

def accepts : Bool := !c.closed && c.listening

def send (a : α) : Channel α :=
  if c.accepts then
    { c with queue := c.queue ++ [a], parked := decide (c.capacity < c.queue.length + 1) }
  else c

def take? : Option (α × Channel α) :=
  match c.queue with
  | [] => none
  | a :: rest => some (a, { c with queue := rest, parked := false })

def close : Channel α := { c with closed := true }

/-- Without a receiving end the queued messages are lost and nobody waits. -/
def hangUp : Channel α := { c with queue := [], listening := false, parked := false }

def ended : Bool := c.closed && c.queue.isEmpty

/-- What a reader gets who takes at most `n` messages, and whether the end was reached. -/
def receive : Channel α → Nat → List α × Bool × Channel α
  | c, 0 => ([], false, c)
  | c, n + 1 =>
    match c.take? with
    | none => ([], c.ended, c)
    | some (a, c) =>
      let r := receive c n
      (a :: r.1, r.2)

/-- All that is queued, and whether the end was reached. -/
def drain : List α × Bool × Channel α := c.receive (c.queue.length + 1)

@[simp] theorem accepts_ofCapacity (n : Nat) : (ofCapacity n : Channel α).accepts = true := rfl

@[simp] theorem accepts_close : c.close.accepts = false := by simp [accepts, close]

@[simp] theorem accepts_hangUp : c.hangUp.accepts = false := by simp [accepts, hangUp]

theorem queue_send (a : α) :
    (c.send a).queue = if c.accepts then c.queue ++ [a] else c.queue := by
  unfold send
  split <;> rfl

@[simp] theorem capacity_send (a : α) : (c.send a).capacity = c.capacity := by
  unfold send
  split <;> rfl

@[simp] theorem closed_send (a : α) : (c.send a).closed = c.closed := by
  unfold send
  split <;> rfl

end Channel

/-- The two channels on which a subscription delivers. -/
structure Feed (α : Type) where
  values : Channel α
  faults : Channel Error

inductive Lane
  | values
  | faults
  deriving DecidableEq, Repr

inductive Parcel (α : Type)
  | value (a : α)
  | fault (e : Error)

def Parcel.lane {α : Type} : Parcel α → Lane
  | value _ => .values
  | fault _ => .faults

namespace Feed

variable {α : Type} (f : Feed α)

def ofCapacities (values faults : Nat) : Feed α := ⟨.ofCapacity values, .ofCapacity faults⟩

def accepts : Lane → Bool
  | .values => f.values.accepts
  | .faults => f.faults.accepts

def parked : Lane → Bool
  | .values => f.values.parked
  | .faults => f.faults.parked

def listening : Lane → Bool
  | .values => f.values.listening
  | .faults => f.faults.listening

def send : Parcel α → Feed α
  | .value a => { f with values := f.values.send a }
  | .fault e => { f with faults := f.faults.send e }

/-- The feed after a consumer took one message from a channel. -/
def take? : Lane → Option (Feed α)
  | .values => f.values.take?.map fun r => { f with values := r.2 }
  | .faults => f.faults.take?.map fun r => { f with faults := r.2 }

def close : Feed α := ⟨f.values.close, f.faults.close⟩

def hangUp : Lane → Feed α
  | .values => { f with values := f.values.hangUp }
  | .faults => { f with faults := f.faults.hangUp }

/-- Nobody is left to listen on either channel. -/
def deserted : Bool := !f.values.listening && !f.faults.listening

end Feed

end UnitControl

import UnitControl.Duration

/-!
# Time

All times are in nanoseconds. Tasks wait by a timer, which says when a wait is over, and read the
time off a clock of their own.
-/

namespace UnitControl

/-- When a wait is over, by the time at which it begins and its length. -/
abbrev Timer := Nat → Duration → Nat

namespace Timer

/-- No wait is over before its time. -/
def NeverEarly (timer : Timer) : Prop := ∀ now d, now + d.nanos ≤ timer now d

def exact : Timer := fun now d => now + d.nanos

theorem neverEarly_exact : exact.NeverEarly := fun _ _ => Nat.le_refl _

end Timer

structure Clock where
  timer : Timer
  /-- The time by which the timer goes. -/
  now : Nat
  /-- What a task reads. -/
  shown : Nat

namespace Clock

def start (timer : Timer) : Clock := ⟨timer, 0, 0⟩

variable (c : Clock)

/-- When a wait is over that begins now. -/
def due (d : Duration) : Nat := c.timer c.now d

/-- The same for a wait that began some time ago. -/
def dueSince (ago : Nat) (d : Duration) : Nat := c.timer (c.now - ago) d

def isOver (ago : Nat) (d : Duration) : Bool := decide (c.dueSince ago d ≤ c.now)

def pass (passed shown : Nat) : Clock :=
  { c with now := c.now + passed, shown := c.shown + shown }

end Clock

end UnitControl

/-!
# Log levels

Six levels, numbered from 0 for silence to 5 for everything.  A channel with a level shows the events whose own level
does not exceed it.
-/

namespace GradleBuild.Log

inductive Level where
  | off
  | error
  | warn
  | info
  | debug
  | trace
  deriving DecidableEq, Repr, Inhabited

namespace Level

def toNat : Level → Nat
  | off => 0
  | error => 1
  | warn => 2
  | info => 3
  | debug => 4
  | trace => 5

def highest : Nat := 5

def ofNat? : Nat → Option Level
  | 0 => some off
  | 1 => some error
  | 2 => some warn
  | 3 => some info
  | 4 => some debug
  | 5 => some trace
  | _ => none

/-- The name by which a channel is told its level. -/
def filterName : Level → String
  | off => "off"
  | error => "error"
  | warn => "warn"
  | info => "info"
  | debug => "debug"
  | trace => "trace"

/-- The name by which an event shows its level. -/
def eventName : Level → String
  | off => "OFF"
  | error => "ERROR"
  | warn => "WARN"
  | info => "INFO"
  | debug => "DEBUG"
  | trace => "TRACE"

/-- Whether a channel with this level shows an event of level `event`. -/
def shows (channel event : Level) : Bool := event.toNat ≤ channel.toNat

theorem ofNat?_eq_some_iff {n : Nat} {l : Level} : ofNat? n = some l ↔ l.toNat = n := by
  constructor
  · unfold ofNat?
    split <;> intro h <;> simp_all <;> subst h <;> rfl
  · rintro rfl
    cases l <;> rfl

theorem toNat_le_highest (l : Level) : l.toNat ≤ highest := by cases l <;> decide

/-- The levels are exactly the numbers up to `highest`. -/
theorem isSome_ofNat?_iff {n : Nat} : (ofNat? n).isSome ↔ n ≤ highest := by
  constructor
  · intro h
    obtain ⟨l, hl⟩ := Option.isSome_iff_exists.1 h
    rw [ofNat?_eq_some_iff] at hl
    subst hl
    exact toNat_le_highest l
  · intro h
    have : n = 0 ∨ n = 1 ∨ n = 2 ∨ n = 3 ∨ n = 4 ∨ n = 5 := by unfold highest at h; omega
    rcases this with rfl | rfl | rfl | rfl | rfl | rfl <;> rfl

end Level

end GradleBuild.Log

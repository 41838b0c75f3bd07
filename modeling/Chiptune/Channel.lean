/-! The five channels of the chip, and values kept for each of them. -/

namespace Chiptune

/-- A channel of the chip. -/
inductive Channel where
  | pulse1
  | pulse2
  | triangle
  | noise
  | dmc
  deriving DecidableEq, Repr, Inhabited

namespace Channel

/-- The channels in the order of their registers. -/
def all : List Channel := [pulse1, pulse2, triangle, noise, dmc]

/-- The number of channels. -/
def count : Nat := all.length

/-- The position of a channel in `all`. -/
def index : Channel → Nat
  | pulse1 => 0
  | pulse2 => 1
  | triangle => 2
  | noise => 3
  | dmc => 4

/-- The channel at a position. -/
def ofIndex? (n : Nat) : Option Channel := all[n]?

/-- The name of a channel. -/
def label : Channel → String
  | pulse1 => "pulse1"
  | pulse2 => "pulse2"
  | triangle => "triangle"
  | noise => "noise"
  | dmc => "dmc"

theorem ofIndex?_index (c : Channel) : ofIndex? c.index = some c := by
  cases c <;> rfl

end Channel

/-- One value for each channel. -/
structure ByChannel (α : Type) where
  pulse1 : α
  pulse2 : α
  triangle : α
  noise : α
  dmc : α
  deriving DecidableEq, Repr

namespace ByChannel

variable {α : Type}

/-- The same value for every channel. -/
def fill (a : α) : ByChannel α := ⟨a, a, a, a, a⟩

/-- The value of each channel as `f` gives it. -/
def ofFn (f : Channel → α) : ByChannel α := ⟨f .pulse1, f .pulse2, f .triangle, f .noise, f .dmc⟩

/-- The value of a channel. -/
def get (values : ByChannel α) : Channel → α
  | .pulse1 => values.pulse1
  | .pulse2 => values.pulse2
  | .triangle => values.triangle
  | .noise => values.noise
  | .dmc => values.dmc

/-- Replaces the value of a channel. -/
def set (values : ByChannel α) (channel : Channel) (a : α) : ByChannel α :=
  match channel with
  | .pulse1 => { values with pulse1 := a }
  | .pulse2 => { values with pulse2 := a }
  | .triangle => { values with triangle := a }
  | .noise => { values with noise := a }
  | .dmc => { values with dmc := a }

/-- The values in the order of the channels. -/
def toList (values : ByChannel α) : List α := Channel.all.map values.get

@[simp] theorem get_set_same (values : ByChannel α) (c : Channel) (a : α) :
    (values.set c a).get c = a := by
  cases c <;> rfl

theorem get_set_ne (values : ByChannel α) {c c' : Channel} (a : α) (h : c ≠ c') :
    (values.set c a).get c' = values.get c' := by
  cases c <;> cases c' <;> first | rfl | exact absurd rfl h

@[simp] theorem get_ofFn (f : Channel → α) (c : Channel) : (ofFn f).get c = f c := by
  cases c <;> rfl

end ByChannel

end Chiptune

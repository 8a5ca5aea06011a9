/-!
# Encoding channels

The order of declaration is the order in which the channels of an encoding are gone through, and
so the order of the steps made from them.
-/

namespace ChartPipeline

/-- A visual channel that a field is mapped to. -/
inductive Channel where
  | x | y | x2 | y2 | row | column | color | opacity | size | shape | text | tooltip | detail
  | order
deriving DecidableEq, Repr, Inhabited

namespace Channel

/-- Every channel, in order. -/
def all : List Channel :=
  [x, y, x2, y2, row, column, color, opacity, size, shape, text, tooltip, detail, order]

/-- The name of a channel. -/
def name : Channel → String
  | x => "x"
  | y => "y"
  | x2 => "x2"
  | y2 => "y2"
  | row => "row"
  | column => "column"
  | color => "color"
  | opacity => "opacity"
  | size => "size"
  | shape => "shape"
  | text => "text"
  | tooltip => "tooltip"
  | detail => "detail"
  | order => "order"

/-- The place of a channel in the order. -/
def rank : Channel → Nat
  | x => 0
  | y => 1
  | x2 => 2
  | y2 => 3
  | row => 4
  | column => 5
  | color => 6
  | opacity => 7
  | size => 8
  | shape => 9
  | text => 10
  | tooltip => 11
  | detail => 12
  | order => 13

instance : LT Channel := ⟨fun a b => a.rank < b.rank⟩

instance : DecidableLT Channel := fun a b => inferInstanceAs (Decidable (a.rank < b.rank))

/-- Channels of one rank are the same. -/
theorem rank_injective {a b : Channel} (h : a.rank = b.rank) : a = b := by
  revert h; cases a <;> cases b <;> simp [rank]

instance : Trans (α := Channel) (· < ·) (· < ·) (· < ·) := ⟨fun h₁ h₂ => Nat.lt_trans h₁ h₂⟩

instance : Std.Irrefl (α := Channel) (· < ·) := ⟨fun a => Nat.lt_irrefl a.rank⟩

instance : Std.Trichotomous (α := Channel) (· < ·) :=
  ⟨fun _ _ h₁ h₂ => rank_injective (Nat.le_antisymm (Nat.not_lt.1 h₂) (Nat.not_lt.1 h₁))⟩

end Channel

end ChartPipeline

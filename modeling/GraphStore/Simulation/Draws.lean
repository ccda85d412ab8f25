/-!
# Random draws

* `Draws` : the answers of a source of chance, coin tosses and places in a list, by number of the
  draw;
* `Draws.ofSeed` : pseudo-random answers;
* `Dice` : draws with the number of those already used.
-/

namespace GraphStore

/-- The answers of a source of chance. The draw of a given number is a coin that shows heads with
a given probability, or a place below a given bound. -/
structure Draws where
  coin : Nat → Float → Bool
  place : Nat → Nat → Nat

namespace Draws

/-- A word in which every bit depends on every bit of the given one. -/
def scramble (word : UInt64) : UInt64 :=
  let word := (word ^^^ (word >>> 30)) * 0xbf58476d1ce4e5b9
  let word := (word ^^^ (word >>> 27)) * 0x94d049bb133111eb
  word ^^^ (word >>> 31)

def word (seed : UInt64) (draw : Nat) : UInt64 :=
  scramble (seed + .ofNat (draw + 1) * 0x9e3779b97f4a7c15)

def ofSeed (seed : UInt64) : Draws where
  coin draw probability :=
    ((word seed draw >>> 11).toFloat / 9007199254740992.0) < probability
  place draw bound := (word seed draw).toNat % bound

end Draws

structure Dice where
  draws : Draws
  used : Nat := 0

namespace Dice

def toss (dice : Dice) (probability : Float) : Bool × Dice :=
  (dice.draws.coin dice.used probability, { dice with used := dice.used + 1 })

def pick? {α : Type} (dice : Dice) (items : List α) : Option α × Dice :=
  (items[dice.draws.place dice.used items.length % items.length]?,
    { dice with used := dice.used + 1 })

def pick (dice : Dice) (items : List String) : String × Dice :=
  let (item, dice) := dice.pick? items
  (item.getD "", dice)

end Dice

end GraphStore

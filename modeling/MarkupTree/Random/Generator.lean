/-!
# A generator of test data

Random trees for tests come from a linear congruential generator on 64-bit words, so that a seed
fixes all of them.

## Main definitions

* `Generator`, `Generator.ofSeed` : the generator and its start.
* `Generator.next` : the next word.
* `Generator.below`, `Generator.chance` : a number below a bound, and a choice with given odds.
-/

namespace MarkupTree

/-- The state of a generator, which is also the last word that it gave. -/
structure Generator where
  state : UInt64
deriving DecidableEq

namespace Generator

/-- The factor from one word to the next. -/
def factor : UInt64 := 6364136223846793005

/-- A generator for a seed. The seed zero stands for a word with well-mixed digits. -/
def ofSeed (seed : UInt64) : Generator := ⟨if seed = 0 then 0x9e3779b97f4a7c15 else seed⟩

/-- The word after a given one. -/
def step (word : UInt64) : UInt64 := word * factor + 1

/-- The next word. -/
def next (g : Generator) : UInt64 × Generator := (step g.state, ⟨step g.state⟩)

/-- A number below a bound, from the upper half of the next word. Below zero there is none: the
answer is then zero, and no word is used up. -/
def below (bound : Nat) (g : Generator) : Nat × Generator :=
  if bound = 0 then (0, g) else ((g.next.1 >>> 32).toNat % bound, g.next.2)

/-- A choice that is true in `percent` of a hundred cases. -/
def chance (percent : Nat) (g : Generator) : Bool × Generator :=
  (decide ((g.below 100).1 < percent), (g.below 100).2)

end Generator

end MarkupTree

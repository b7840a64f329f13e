import JavaMinus.BitSet

/-!
# Indices below zero

The word of an index is the quotient by 64, cut toward zero, and its bit is the
remainder. For an index from -63 to -1 the word is word 0 and the bit number is
negative, which no word has; for an index of -64 or less the word itself does
not exist. Each operation fails when it gets as far as the missing bit or word.
Adding an element makes room for its word first, and a set without word 0 has
nothing to look at, so the two kinds of failure can be told apart.
-/

namespace JavaMinus.BitSet

/-- The words asked for when room for `n` elements is set aside. -/
def roomFor (n : Int) : Int := (Int.bmod (n + 63) 0x10000000000000000).tdiv 64

/-- An empty set with room for `n` elements. It fails when the number of words
is negative or beyond the address space. -/
def withRoomFor? (n : Int) : Option BitSet :=
  if 0 ≤ roomFor n ∧ roomFor n ≤ 0x200000000000 then some withRoom else none

/-- Add an element. The set is returned also on failure: the room that was made
for the word of an index from -63 to -1 stays. -/
def insertAt (s : BitSet) (i : Int) : BitSet × Bool :=
  if 0 ≤ i then (s.insert i.toNat, true)
  else if -64 < i then ({ s with words := grow 0 s.words }, false)
  else (s, false)

/-- An operation that looks at word 0 and finds no bit to look at. -/
def missesBit (s : BitSet) (i : Int) : Bool := i ≤ -64 || !s.words.isEmpty

/-- Take an element out. -/
def eraseAt? (s : BitSet) (i : Int) : Option BitSet :=
  if 0 ≤ i then some (s.erase i.toNat)
  else if s.missesBit i then none
  else some s

/-- An element is in the set. -/
def containsAt? (s : BitSet) (i : Int) : Option Bool :=
  if 0 ≤ i then some (s.contains i.toNat)
  else if s.missesBit i then none
  else some false

end JavaMinus.BitSet

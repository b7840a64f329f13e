/-!
# Sets of small numbers

A dense set of natural numbers, kept as 64-bit words: the number `i` is in the
set when bit `i % 64` of word `i / 64` is on. Words beyond the last one count as
zero, so two sets with the same elements may hold different numbers of words.

A set also remembers whether storage was ever set aside for it. Only the binary
form of a set shows this: a set without storage is written as the null value.

The elements are numbers, and every index here is one. Indices below zero, which
a caller may hand over by mistake, are the matter of `BitSet.Signed`.
-/

namespace JavaMinus

/-- A finite set of natural numbers, as a list of 64-bit words. -/
structure BitSet where
  words : List UInt64 := []
  reserved : Bool := false
  deriving DecidableEq, Repr, Inhabited

namespace BitSet

/-- The empty set, without storage. -/
def empty : BitSet := {}

/-- The empty set, with storage set aside. -/
def withRoom : BitSet := { reserved := true }

/-- Some storage belongs to the set. -/
def hasStorage (s : BitSet) : Bool := s.reserved || !s.words.isEmpty

/-- The word at a position; there are only zeros beyond the last one. -/
def word (s : BitSet) (w : Nat) : UInt64 := s.words.getD w 0

/-- The word in which only bit `j` is on. -/
def bit (j : Nat) : UInt64 := 1 <<< j.toUInt64

/-- Bit `j` of a word is on. -/
def testBit (w : UInt64) (j : Nat) : Bool := w &&& bit j != 0

/-- The words, followed by as many zeros as are needed to hold word `w`. -/
def grow (w : Nat) (words : List UInt64) : List UInt64 :=
  words ++ List.replicate (w + 1 - words.length) 0

/-- Add a number. -/
def insert (s : BitSet) (i : Nat) : BitSet :=
  { s with words := (grow (i / 64) s.words).modify (i / 64) (· ||| bit (i % 64)) }

/-- Take a number out. -/
def erase (s : BitSet) (i : Nat) : BitSet :=
  { s with words := s.words.modify (i / 64) (· &&& ~~~ bit (i % 64)) }

/-- A number is in the set. -/
def contains (s : BitSet) (i : Nat) : Bool := testBit (s.word (i / 64)) (i % 64)

/-- The words of a union: as many as the longer list has. -/
def orWords : List UInt64 → List UInt64 → List UInt64
  | [], ys => ys
  | xs, [] => xs
  | x :: xs, y :: ys => (x ||| y) :: orWords xs ys

/-- Add all elements of another set. -/
def union (s t : BitSet) : BitSet := { s with words := orWords s.words t.words }

/-- Adding the elements of another set brings new ones. -/
def growsBy (s t : BitSet) : Bool :=
  (List.range t.words.length).any fun w => s.word w ||| t.word w != s.word w

/-- The words of a difference: as many as the first list has. -/
def andNotWords : List UInt64 → List UInt64 → List UInt64
  | [], _ => []
  | xs, [] => xs
  | x :: xs, y :: ys => (x &&& ~~~ y) :: andNotWords xs ys

/-- Take out all elements of another set. -/
def diff (s t : BitSet) : BitSet := { s with words := andNotWords s.words t.words }

/-- A set with the same elements and storage of its own. -/
def copy (s : BitSet) : BitSet := { s with reserved := true }

/-- The same elements, whatever zeros stand at the end. -/
def sameWords : List UInt64 → List UInt64 → Bool
  | [], ys => ys.all (· == 0)
  | xs, [] => xs.all (· == 0)
  | x :: xs, y :: ys => x == y && sameWords xs ys

/-- Two sets have the same elements. -/
def equal (s t : BitSet) : Bool := sameWords s.words t.words

/-- The bits of a word that are on, in increasing order. -/
def bitsOf (w : UInt64) : List Nat :=
  if w = 0 then [] else (List.range 64).filter (testBit w)

/-- The elements that words hold, of which the first starts at `start`. -/
def elements (start : Nat) : List UInt64 → List Nat
  | [] => []
  | w :: ws => (bitsOf w).map (start + ·) ++ elements (start + 64) ws

/-- The elements in increasing order. -/
def toList (s : BitSet) : List Nat := elements 0 s.words

/-- The number of elements. -/
def size (s : BitSet) : Nat := s.toList.length

/-- Visit elements in order until a visit says to stop. The element at which it
stops has been visited. -/
def visitFrom {σ : Type} (visit : σ → Nat → σ × Bool) (acc : σ) : List Nat → σ
  | [] => acc
  | i :: rest =>
    match visit acc i with
    | (acc', true) => visitFrom visit acc' rest
    | (acc', false) => acc'

/-- Visit the elements of a set in increasing order until a visit says to stop. -/
def visit {σ : Type} (s : BitSet) (init : σ) (f : σ → Nat → σ × Bool) : σ :=
  visitFrom f init s.toList

/-- The elements visited when each visit goes on while fewer than `n` elements
have been seen. -/
def first (s : BitSet) (n : Int) : List Nat :=
  s.visit [] fun seen i => (seen ++ [i], decide ((seen.length : Int) + 1 < n))

end BitSet

end JavaMinus

namespace CoilHub

-- A double: its sign and its rank. The doubles that are not negative are numbered 0, 1, 2, … in rising
-- order, and the rank is that number. Magnitudes are natural numbers of the smallest unit,
-- `2 ^ -1074`, so that they can be compared and added exactly.
structure Binary64 where
  negative : Bool
  rank : Nat
  rank_lt : rank < 1 <<< 63
deriving DecidableEq

namespace Binary64

-- The finite ranks are those below this one, and those above it are not numbers.
def infRank : Nat := 2047 <<< 52

-- Up to rank `2 ^ 52` neighbours are one unit apart. From there on the distance doubles
-- every `2 ^ 52` ranks.
def magnitude (rank : Nat) : Nat :=
  if rank < 1 <<< 52 then rank
  else ((1 <<< 52) + rank % (1 <<< 52)) <<< (rank / (1 <<< 52) - 1)

def unitsPerOne : Nat := 1 <<< 1074

def isNaN (x : Binary64) : Bool := infRank < x.rank

def isInfinite (x : Binary64) : Bool := x.rank = infRank

def isFinite (x : Binary64) : Bool := x.rank < infRank

def nan : Binary64 := ⟨false, infRank + 1 <<< 51, by decide⟩

def infinity (negative : Bool) : Binary64 := ⟨negative, infRank, by decide⟩

def zero (negative : Bool) : Binary64 := ⟨negative, 0, by decide⟩

def neg (x : Binary64) : Binary64 := { x with negative := !x.negative }

-- The double of a sign and a rank, an infinity if the rank lies beyond the finite ones.
def ofRank (negative : Bool) (rank : Nat) : Binary64 :=
  ⟨negative, min rank infRank, Nat.lt_of_le_of_lt (Nat.min_le_right ..) (by decide)⟩

-- The double of a 64 bit word: the highest bit is the sign, the others are the rank.
def ofBits (word : Nat) : Binary64 :=
  ⟨word / (1 <<< 63) % 2 = 1, word % (1 <<< 63), Nat.mod_lt _ (by decide)⟩

def toBits (x : Binary64) : Nat := (if x.negative then 1 <<< 63 else 0) + x.rank

def units (x : Binary64) : Int :=
  if x.negative then -(magnitude x.rank : Int) else magnitude x.rank

theorem toBits_lt (x : Binary64) : x.toBits < 1 <<< 64 := by
  have := x.rank_lt
  simp only [toBits]
  split <;> omega

theorem ofBits_toBits (x : Binary64) : ofBits x.toBits = x := by
  obtain ⟨negative, rank, rank_lt⟩ := x
  cases negative <;> simp [ofBits, toBits] <;> omega

theorem toBits_ofBits (word : Nat) (h : word < 1 <<< 64) : (ofBits word).toBits = word := by
  simp only [ofBits, toBits, decide_eq_true_eq, Nat.shiftLeft_eq]
  split <;> omega

end Binary64

end CoilHub

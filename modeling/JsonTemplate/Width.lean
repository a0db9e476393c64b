/-!
# Widths

The bounds of the integers of 32 and of 64 bits, with and without a sign.
-/

namespace JsonTemplate.Width

def leastInt32 : Int := -0x80000000
def greatestInt32 : Int := 0x7FFFFFFF
def leastInt64 : Int := -0x8000000000000000
def greatestInt64 : Int := 0x7FFFFFFFFFFFFFFF
def greatestNat64 : Nat := 0xFFFFFFFFFFFFFFFF

/-- The number of words of 64 bits. -/
def wordCount : Nat := 0x10000000000000000

end JsonTemplate.Width

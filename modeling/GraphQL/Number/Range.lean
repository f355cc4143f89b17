/-
GraphQL.Number.Range — the ranges of machine integers.
-/

namespace GraphQL

/-- Fits a signed word of 32 bits. -/
def fitsInt32 (n : Int) : Bool := -2147483648 ≤ n && n ≤ 2147483647

/-- Fits a signed word of 64 bits. -/
def fitsInt64 (n : Int) : Bool := -9223372036854775808 ≤ n && n ≤ 9223372036854775807

/-- Fits an unsigned word of 64 bits. -/
def fitsUInt64 (n : Int) : Bool := 0 ≤ n && n ≤ 18446744073709551615

end GraphQL

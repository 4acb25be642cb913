/-!
Powers and sums of numbers. A library of algebra offers instances of its own for both; wherever a
power or a sum stands in this development it is that of the core language, whether or not such a
library is imported.
-/

attribute [instance (high + 1)] instPowNat Zero.ofOfNat0
attribute [default_instance (high + 1)] instPowNat

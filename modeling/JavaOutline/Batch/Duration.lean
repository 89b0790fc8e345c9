/-!
# JavaOutline.Batch.Duration

Lengths of time.  They are measured in nanoseconds and written in whole
microseconds, the rest being cut off.
-/

namespace JavaOutline

/-- A length of time. -/
structure Duration where
  nanoseconds : Nat
  deriving DecidableEq, Repr, Inhabited

namespace Duration

/-- No time. -/
def zero : Duration := ⟨0⟩

/-- Two lengths of time together. -/
def add (a b : Duration) : Duration := ⟨a.nanoseconds + b.nanoseconds⟩

/-- An equal share of a length of time, rounded down to nanoseconds; one
of no shares is no time. -/
def share (d : Duration) (n : Nat) : Duration := ⟨d.nanoseconds / n⟩

/-- The whole microseconds of a length of time. -/
def microseconds (d : Duration) : Nat := d.nanoseconds / 1000

/-- The length of time of some microseconds. -/
def ofMicroseconds (n : Nat) : Duration := ⟨n * 1000⟩

@[simp] theorem microseconds_ofMicroseconds (n : Nat) : (ofMicroseconds n).microseconds = n :=
  Nat.mul_div_cancel n (by decide)

end Duration

end JavaOutline

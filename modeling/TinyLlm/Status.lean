/-
# `TinyLlm.Status` — the status codes of `tq.h`

Every fallible call of the core returns a `TqStatus` as an `int`.  A call that
returns a value or a negative status is an `Except TqStatus` here, and its
`error` is never `ok`.
-/
namespace TinyLlm

inductive TqStatus where
  | ok
  | errMagic
  | errVersion
  | errTruncated
  | errUnsupported
  | errMissing
  | errShape
  | errNomem
  | errIo
  | errRange
deriving DecidableEq, Repr

/-- The `int` the C returns. -/
def TqStatus.code : TqStatus → Int
  | ok => 0
  | errMagic => -1
  | errVersion => -2
  | errTruncated => -3
  | errUnsupported => -4
  | errMissing => -5
  | errShape => -6
  | errNomem => -7
  | errIo => -8
  | errRange => -9

/-- A negative status is an error, and only such a one. -/
theorem TqStatus.code_neg_iff (s : TqStatus) : s.code < 0 ↔ s ≠ ok := by
  cases s <;> decide

end TinyLlm

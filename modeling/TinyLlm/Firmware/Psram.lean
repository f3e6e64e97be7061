/-
# `TinyLlm.Firmware.Psram` — the PSRAM driver, `psram_flexspi2.c`

What the driver finds on the bus, the memory test, the write benchmark and the
sweep over the clocks.  The hardware answers through `SweepHw`: which chips
identify themselves at a clock, and how many words fail there.  The registers,
the bus commands and the timing of the benchmarks are left out.

Beside the state of the driver stands a log of what was done to the array, the
last operation first.  The test and the write benchmark destroy what they run
over; a sweep runs the test at every clock at which a chip answers, so one that
finds no clock has destroyed something exactly if a chip answered at all
(`psramClockSweep_fails`).
-/
import Mathlib.Data.List.Sort
import TinyLlm.Status

namespace TinyLlm

/-! ## The log -/

/-- What was done to the PSRAM: a piece of an image copied, an image complete,
a test, a benchmark, the engine at work in its own regions. -/
inductive PsramOp where
  | memcpy (off bytes : Nat)
  | copied (image : List UInt8)
  | memtest (off bytes : Nat)
  | benchWrite (off bytes : Nat)
  | engine
deriving DecidableEq, Repr

/-- "DESTROYS the region under test." -/
def PsramOp.Destructive : PsramOp → Prop
  | memtest _ _ => True
  | benchWrite _ _ => True
  | _ => False

/-! ## Detection -/

/-- `PSRAM_CLK_COUNT`. -/
def psramClkCount : Nat := 10

/-- `g_info`. -/
structure PsramInfo where
  chips : Nat := 0
  mbytes : UInt32 := 0
  chipMbytes : UInt32 × UInt32 := (0, 0)
  chipId : UInt32 × UInt32 := (0, 0)
  clockHz : Nat := 0
  clockIndex : Nat := 0

/-- The capacity that an ID word stands for, 0 if nothing known answered. -/
def fs2Probe (id : UInt32) : UInt32 :=
  if id &&& 0xFFFF = 0x5D0D then 8
  else if id &&& 0xFFFF = 0x5D9D then
    if (id >>> 21) &&& 7 = 3 then 8
    else if (id >>> 21) &&& 7 = 4 then 16
    else 0
  else 0

/-- The driver, and the log. -/
structure Psram where
  info : PsramInfo := {}
  log : List PsramOp := []

namespace Psram

def memtest (ram : Psram) (off bytes : Nat) : Psram :=
  { ram with log := .memtest off bytes :: ram.log }

def benchWrite (ram : Psram) (off bytes : Nat) : Psram :=
  { ram with log := .benchWrite off bytes :: ram.log }

end Psram

/-- What the hardware has: the rate of each clock, the ID words read at it, the
number of words that fail there, and the ID words read when the sweep settles. -/
structure SweepHw where
  hz : Nat → Nat
  ids : Nat → UInt32 × UInt32
  bad : Nat → UInt32
  settled : UInt32 × UInt32

/-- `psram_init` at a clock of the table: the total capacity. -/
def psramInit (hz : Nat → Nat) (clockIndex : Nat) (ids : UInt32 × UInt32) (ram : Psram) :
    Psram × UInt32 :=
  let size1 := fs2Probe ids.1
  if size1 = 0 then
    ({ ram with info := { clockIndex := clockIndex, clockHz := hz clockIndex } }, 0)
  else
    let size2 := fs2Probe ids.2
    ({ ram with info :=
        { chips := 1 + if size2 > 0 then 1 else 0
          mbytes := size1 + size2
          chipMbytes := (size1, size2)
          chipId := ids
          clockHz := hz clockIndex
          clockIndex := clockIndex } }, size1 + size2)

/-! ## The sweep -/

/-- The clocks up to an index, in ascending real frequency. -/
def sweepOrder (hz : Nat → Nat) (maxIndex : Int) : List Nat :=
  let maxIndex := if maxIndex < 0 ∨
    maxIndex ≥ psramClkCount then psramClkCount - 1 else maxIndex.toNat
  (List.range (maxIndex + 1)).insertionSort fun i j => hz i ≤ hz j

/-- The test window of a sweep. -/
def sweepTestBytes : Nat := 1024 * 1024

/-- The loop: the best clock so far, and the capacity found with it. -/
def sweepLoop (hw : SweepHw) : List Nat → Psram → Option Nat → UInt32 → Psram × Option Nat
  | [], ram, best, _ => (ram, best)
  | idx :: order, ram, best, bestMb =>
      let (ram, mb) := psramInit hw.hz idx (hw.ids idx) ram
      if mb = 0 ∨ mb < bestMb then
        if best.isSome then (ram, best) else sweepLoop hw order ram best bestMb
      else
        let ram := ram.memtest ((mb <<< 20).toNat - sweepTestBytes) sweepTestBytes
        if hw.bad idx = 0 then sweepLoop hw order ram (some idx) mb
        else if best.isSome then (ram, best)
        else sweepLoop hw order ram best bestMb

/-- The clock that is settled on; without one the array stays at the last clock
that was tried. -/
def psramClockSweep (hw : SweepHw) (maxIndex : Int) (ram : Psram) : Psram × Option Nat :=
  match sweepLoop hw (sweepOrder hw.hz maxIndex) ram none 0 with
  | (ram, none) => (ram, none)
  | (ram, some best) => ((psramInit hw.hz best hw.settled ram).1, some best)

/-! ## Sweeps that find no clock -/

/-- A chip answers at a clock. -/
def SweepHw.Answers (hw : SweepHw) (idx : Nat) : Prop := (psramInit hw.hz idx (hw.ids idx) {}).2 ≠ 0

/-- A sweep tests the array somewhere, and nowhere with success. -/
structure SweepHw.Scribbles (hw : SweepHw) (maxIndex : Int) : Prop where
  tests : ∃ idx ∈ sweepOrder hw.hz maxIndex, hw.Answers idx
  fails : ∀ idx ∈ sweepOrder hw.hz maxIndex, hw.Answers idx → hw.bad idx ≠ 0

theorem psramInit_log (hz : Nat → Nat) (idx : Nat) (ids : UInt32 × UInt32) (ram : Psram) :
    (psramInit hz idx ids ram).1.log = ram.log := by
  unfold psramInit
  dsimp only
  split <;> rfl

/-- What answers does not depend on what was found before. -/
theorem psramInit_mb (hz : Nat → Nat) (idx : Nat) (ids : UInt32 × UInt32) (ram : Psram) :
    (psramInit hz idx ids ram).2 = (psramInit hz idx ids {}).2 := by
  unfold psramInit
  dsimp only
  split <;> rfl

/-- A loop that has a clock keeps one. -/
theorem sweepLoop_some (hw : SweepHw) :
    ∀ (order : List Nat) (ram : Psram) (best : Nat) (bestMb : UInt32),
    (sweepLoop hw order ram (some best) bestMb).2.isSome
  | [], _, _, _ => rfl
  | idx :: order, ram, best, bestMb => by
      unfold sweepLoop
      dsimp only
      split
      · rfl
      · split
        · exact sweepLoop_some hw order _ _ _
        · rfl

/-- **A loop that finds no clock** fails at every clock at which a chip answers,
and where none answers it leaves the log as it was. -/
theorem sweepLoop_none {hw : SweepHw} : ∀ {order : List Nat} {ram ram' : Psram},
    sweepLoop hw order ram none 0 = (ram', none) →
      (∀ idx ∈ order, hw.Answers idx → hw.bad idx ≠ 0) ∧
      ((∀ idx ∈ order, ¬ hw.Answers idx) → ram'.log = ram.log)
  | [], ram, ram', h => by
      cases h
      exact ⟨nofun, fun _ => rfl⟩
  | idx :: order, ram, ram', h => by
      unfold sweepLoop at h
      dsimp only at h
      by_cases hmb : (psramInit hw.hz idx (hw.ids idx) ram).2 = 0
      · have hno : ¬ hw.Answers idx := by
          unfold SweepHw.Answers
          rw [← psramInit_mb hw.hz idx (hw.ids idx) ram]
          exact not_not.mpr hmb
        rw [if_pos (Or.inl hmb), if_neg nofun] at h
        obtain ⟨hbad, hlog⟩ := sweepLoop_none h
        refine ⟨fun i hi hans => ?_, fun hnone => ?_⟩
        · rcases List.mem_cons.mp hi with rfl | hi
          · exact absurd hans hno
          · exact hbad i hi hans
        · exact (hlog fun i hi => hnone i (List.mem_cons_of_mem _ hi)).trans (psramInit_log _ _ _ _)
      · have hans : hw.Answers idx := by
          unfold SweepHw.Answers
          rw [← psramInit_mb hw.hz idx (hw.ids idx) ram]
          exact hmb
        have hless : ¬ (psramInit hw.hz idx (hw.ids idx) ram).2 < 0 :=
          fun hlt => Nat.not_lt_zero _ (UInt32.lt_iff_toNat_lt.mp hlt)
        rw [if_neg (not_or.mpr ⟨hmb, hless⟩)] at h
        by_cases hbad : hw.bad idx = 0
        · rw [if_pos hbad] at h
          have hsome := sweepLoop_some hw order
            ((psramInit hw.hz idx (hw.ids idx) ram).1.memtest
              (((psramInit hw.hz idx (hw.ids idx) ram).2 <<< 20).toNat - sweepTestBytes)
              sweepTestBytes)
            idx (psramInit hw.hz idx (hw.ids idx) ram).2
          rw [h] at hsome
          cases hsome
        · rw [if_neg hbad, if_neg nofun] at h
          obtain ⟨hrest, _⟩ := sweepLoop_none h
          refine ⟨fun i hi hi' => ?_, fun hnone => absurd hans (hnone idx List.mem_cons_self)⟩
          rcases List.mem_cons.mp hi with rfl | hi
          · exact hbad
          · exact hrest i hi hi'

/-- **A sweep that finds no clock** and does not scribble leaves the log alone. -/
theorem psramClockSweep_fails {hw : SweepHw} {maxIndex : Int} {ram ram' : Psram}
    (h : psramClockSweep hw maxIndex ram = (ram', none)) (hno : ¬ hw.Scribbles maxIndex) :
    ram'.log = ram.log := by
  unfold psramClockSweep at h
  rcases hloop : sweepLoop hw (sweepOrder hw.hz maxIndex) ram none 0 with ⟨r, _ | best⟩
  · rw [hloop] at h
    cases h
    obtain ⟨hbad, hlog⟩ := sweepLoop_none hloop
    exact hlog fun idx hidx hans => hno ⟨⟨idx, hidx, hans⟩, hbad⟩
  · rw [hloop] at h
    cases h

end TinyLlm

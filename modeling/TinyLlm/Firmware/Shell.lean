/-
# `TinyLlm.Firmware.Shell` — the shell commands of the board, `main.c`

The commands share a few globals: whether a model is loaded, the store it is
read from, and what `finish_open` set up.  A command is run with everything the
hardware will answer while it runs: what the sweep finds, how many words a test
fails, what the card does.  `load` copies an image to the start of the PSRAM and
maps it; `stream` leaves it on the card.

"Loaded" is meant to say that the image is as it was copied.  Every command that
destroys PSRAM takes the flag back, but for one path: a sweep that finds no
clock returns before it does, although it ran the memory test wherever a chip
answered.  In runs without such a sweep over a loaded image, an image that is
loaded is intact (`Reachable.intact`).

What the engine does once it runs, `atoi` and what is printed are left out: a
context and a cache type are given as `parse_common` leaves them.
-/
import TinyLlm.Ac.Table
import TinyLlm.Firmware.Layout
import TinyLlm.Firmware.Psram
import TinyLlm.Model.Streaming

namespace TinyLlm

open Relational

/-! ## The card -/

/-- What the card does during one command: initialising the disk, mounting it,
looking up and opening the file, each read in turn, and what a streaming store
is answered later.  A read that returns no bytes is at the end of the file. -/
structure SdHw where
  diskInit : Int
  fsMount : Int
  fsStat : Except Int UInt64
  fsOpen : Int
  fsRead : Nat → Except Int (List UInt8)
  serve : Nat → Nat → Option (List UInt8)

/-- The sizes of the build. -/
structure BuildConfig where
  modelArena : TqArena
  fastArena : TqArena
  tokScratch : Nat
  streamTile : UInt32
  psramMaxClockIndex : Int

/-- The globals of `main.c`, `model_store.c` and the driver.  Nothing is opened
where `finish_open` failed. -/
structure Shell where
  loaded : Bool := false
  store : Option TqStore := none
  modelBytes : UInt64 := 0
  opened : Option Opened := none
  mounted : Bool := false
  streamOpen : Bool := false
  ram : Psram := {}
  tile : TqTile := ⟨0, []⟩

/-- What a command returns: 0, one of its own codes, or a code from below. -/
inductive ShellRc where
  | ok
  | eio
  | enodev
  | einval
  | enomem
  | enospc
  | enotsup
  | rc (code : Int)
deriving DecidableEq, Repr

def OpenFault.rc : OpenFault → ShellRc
  | model _ => .einval
  | _ => .enomem

namespace Shell

def modelSdMount (sh : Shell) (sd : SdHw) : Shell × Int :=
  if sh.mounted then (sh, 0)
  else if sd.diskInit ≠ 0 then (sh, sd.diskInit)
  else if sd.fsMount ≠ 0 then (sh, sd.fsMount)
  else ({ sh with mounted := true }, 0)

/-- The size of the file, once it is open. -/
def openSized (sd : SdHw) : Except Int UInt64 :=
  match sd.fsStat with
  | .error rc => .error rc
  | .ok size => if sd.fsOpen ≠ 0 then .error sd.fsOpen else .ok size

/-- `STAGE_BYTES`. -/
def stageBytes : Nat := 32 * 1024

/-- The copy loop: every round copies a byte or fails, so `size` rounds are
enough.  `image` is what has been copied, `k` counts the reads. -/
def copyLoop (sd : SdHw) (size : Nat) :
    Nat → Nat → List UInt8 → Psram → Psram × Except ShellRc (List UInt8)
  | 0, _, image, ram => (ram, .ok image)
  | fuel + 1, k, image, ram =>
      if image.length < size then
        match sd.fsRead k with
        | .error rc => (ram, .error (.rc rc))
        | .ok got =>
            let got := got.take (min stageBytes (size - image.length))
            if got = [] then (ram, .error .eio)
            else
              copyLoop sd size fuel (k + 1) (image ++ got)
                { ram with log := .memcpy image.length got.length :: ram.log }
      else (ram, .ok image)

/-- Copy a file to the start of the PSRAM and map it. -/
def modelLoadToPsram (sh : Shell) (sd : SdHw) : Shell × ShellRc :=
  match sh.modelSdMount sd with
  | (sh, rc) =>
      if rc ≠ 0 then (sh, .rc rc)
      else
        match openSized sd with
        | .error rc => (sh, .rc rc)
        | .ok size =>
            if sh.ram.info.mbytes = 0 then (sh, .enodev)
            else if size.toNat > sh.ram.info.mbytes.toNat * 2 ^ 20 then (sh, .enospc)
            else
              match copyLoop sd size.toNat size.toNat 0 [] sh.ram with
              | (ram, .error rc) => ({ sh with ram := ram }, rc)
              | (ram, .ok image) =>
                  ({ sh with
                      ram := { ram with log := .copied image :: ram.log }
                      store := some (tqStoreInitMapped image size)
                      modelBytes := size }, .ok)

def modelCloseStreaming (sh : Shell) : Shell := { sh with streamOpen := false }

def modelOpenStreaming (sh : Shell) (cfg : BuildConfig) (sd : SdHw) : Shell × ShellRc :=
  match sh.modelSdMount sd with
  | (sh, rc) =>
      if rc ≠ 0 then (sh, .rc rc)
      else
        let sh := sh.modelCloseStreaming
        match openSized sd with
        | .error rc => (sh, .rc rc)
        | .ok size =>
            ({ sh with
                streamOpen := true
                store := some (tqStoreInitStream size sd.serve cfg.streamTile)
                modelBytes := size }, .ok)

/-! ## Commands -/

/-- `finish_open` on the store that was just set up. -/
def finish (sh : Shell) (cfg : BuildConfig) (st : TqStore) (maxSeq : Int) (kv8 : Bool) :
    Shell × ShellRc :=
  match (finishOpen ⟨cfg.modelArena, cfg.fastArena, cfg.tokScratch, sh.ram.info.mbytes⟩
    st sh.modelBytes
      maxSeq kv8).exec sh.tile with
  | (.error f, tile) => ({ sh with tile := tile, opened := none }, f.rc)
  | (.ok o, tile) => ({ sh with tile := tile, opened := some o, loaded := true }, .ok)

def cmdLoad (sh : Shell) (cfg : BuildConfig) (sd : SdHw) (argc : Nat) (maxSeq : Int) (kv8 : Bool) :
    Shell × ShellRc :=
  if argc < 2 then (sh, .einval)
  else if sh.ram.info.mbytes = 0 then (sh, .enodev)
  else
    match ({ sh with loaded := false }.modelCloseStreaming).modelLoadToPsram sd with
    | (sh, .ok) =>
        match sh.store with
        | some st => sh.finish cfg st maxSeq kv8
        | none => (sh, .einval)
    | (sh, rc) => (sh, rc)

def cmdStream (sh : Shell) (cfg : BuildConfig) (sd : SdHw) (argc : Nat) (maxSeq : Int)
    (kv8 : Bool) :
    Shell × ShellRc :=
  if argc < 2 then (sh, .einval)
  else
    match { sh with loaded := false }.modelOpenStreaming cfg sd with
    | (sh, .ok) =>
        match sh.store with
        | some st => sh.finish cfg st maxSeq kv8
        | none => (sh, .einval)
    | (sh, rc) => (sh, rc)

/-- The benchmark's window. -/
def benchBytes : Nat := 1024 * 1024

/-- `sub` is the argument, or `info`; `testBad` is what the full test finds. -/
def cmdPsram (sh : Shell) (cfg : BuildConfig) (sub : String) (sweep : SweepHw) (testBad : UInt32) :
    Shell × ShellRc :=
  if sub = "sweep" then
    match psramClockSweep sweep cfg.psramMaxClockIndex sh.ram with
    | (ram, none) => ({ sh with ram := ram }, .eio)
    | (ram, some _) => ({ sh with ram := ram, loaded := false }, .ok)
  else if sub = "test" then
    let mb := sh.ram.info.mbytes
    if mb = 0 then (sh, .enodev)
    else
      ({ sh with ram := sh.ram.memtest 0 (mb.toNat * 2 ^ 20), loaded := false },
        if testBad ≠ 0 then .eio else .ok)
  else if sub = "bench" then
    ({ sh with loaded := false, ram := sh.ram.benchWrite 0 benchBytes }, .ok)
  else (sh, .ok)

/-- `gen`, which may fail later for reasons of the engine. -/
def cmdGen (sh : Shell) (rc : ShellRc) : Shell × ShellRc :=
  if sh.loaded then ({ sh with ram := { sh.ram with log := .engine :: sh.ram.log } }, rc)
  else (sh, .enodev)

/-- `sem encode` and `sem decode`, behind `sem_ready`; `sem hash` asks for no
tokenizer. -/
def cmdSem (sh : Shell) (hash : Bool) (rc : ShellRc) : Shell × ShellRc :=
  if !sh.loaded then (sh, .enodev)
  else if !hash && !sh.opened.any Opened.haveTok then (sh, .enotsup)
  else if !hash && !(sh.opened.any fun o => (tqAcModelInit o.model.vocabSize).toBool)
    then (sh, .einval)
  else ({ sh with ram := { sh.ram with log := .engine :: sh.ram.log } }, rc)

end Shell

/-- A command line, with what the hardware answers while it runs. -/
inductive ShellCmd where
  | psram (sub : String) (sweep : SweepHw) (testBad : UInt32)
  | load (sd : SdHw) (argc : Nat) (maxSeq : Int) (kv8 : Bool)
  | stream (sd : SdHw) (argc : Nat) (maxSeq : Int) (kv8 : Bool)
  | gen (rc : ShellRc)
  | sem (hash : Bool) (rc : ShellRc)
  | info

def Shell.step (sh : Shell) (cfg : BuildConfig) : ShellCmd → Shell × ShellRc
  | .psram sub sweep testBad => sh.cmdPsram cfg sub sweep testBad
  | .load sd argc maxSeq kv8 => sh.cmdLoad cfg sd argc maxSeq kv8
  | .stream sd argc maxSeq kv8 => sh.cmdStream cfg sd argc maxSeq kv8
  | .gen rc => sh.cmdGen rc
  | .sem hash rc => sh.cmdSem hash rc
  | .info => (sh, .ok)

/-- `main`: the PSRAM at the boot clock, and the card. -/
def Shell.boot (hz : Nat → Nat) (bootClockIndex : Nat) (ids : UInt32 × UInt32)
    (sd : SdHw) : Shell :=
  (Shell.modelSdMount { ram := (psramInit hz bootClockIndex ids {}).1 } sd).1

/-- The states that commands lead to, each command allowed where it is run. -/
inductive Reachable (cfg : BuildConfig) (allowed : Shell → ShellCmd → Prop) : Shell → Prop
  | boot (hz : Nat → Nat) (bootClockIndex : Nat) (ids : UInt32 × UInt32) (sd : SdHw) :
      Reachable cfg allowed (Shell.boot hz bootClockIndex ids sd)
  | step {sh : Shell} {cmd : ShellCmd} : Reachable cfg allowed sh → allowed sh cmd →
      Reachable cfg allowed (sh.step cfg cmd).1

/-! ## Intact images -/

/-- The image was copied, and nothing destructive was done since. -/
def CopiedIntact (log : List PsramOp) (image : List UInt8) : Prop :=
  ∃ recent before, log = recent ++ .copied image :: before ∧ ∀ op ∈ recent, ¬ op.Destructive

/-- **A loaded image is intact.** -/
def Shell.Intact (sh : Shell) : Prop :=
  ∀ bytes image, sh.loaded = true → sh.store = some (tqStoreInitMapped image bytes) →
    CopiedIntact sh.ram.log image

/-- A sweep that runs the memory test and finds no clock, over a loaded image. -/
structure SweepsImage (cfg : BuildConfig) (sh : Shell) (sweep : SweepHw) : Prop where
  loaded : sh.loaded = true
  resident : sh.store.any TqStore.resident = true
  scribbles : sweep.Scribbles cfg.psramMaxClockIndex

/-- Every command but such a sweep. -/
def SparesImage (cfg : BuildConfig) (sh : Shell) : ShellCmd → Prop
  | .psram sub sweep _ => sub = "sweep" → ¬ SweepsImage cfg sh sweep
  | _ => True

theorem CopiedIntact.cons {log : List PsramOp} {image : List UInt8} (h : CopiedIntact log image)
    {op : PsramOp} (hop : ¬ op.Destructive) : CopiedIntact (op :: log) image := by
  obtain ⟨recent, before, rfl, hrecent⟩ := h
  refine ⟨op :: recent, before, rfl, fun o ho => ?_⟩
  rcases List.mem_cons.mp ho with rfl | ho
  · exact hop
  · exact hrecent o ho

namespace Shell

variable {sh : Shell} {cfg : BuildConfig}

theorem intact_of_not_loaded (h : sh.loaded = false) : sh.Intact := by
  intro bytes image hloaded
  rw [h] at hloaded
  cases hloaded

/-- Mounting touches neither the flag nor the store nor the PSRAM. -/
theorem modelSdMount_frame (sd : SdHw) :
    (sh.modelSdMount sd).1.loaded = sh.loaded ∧ (sh.modelSdMount sd).1.store = sh.store ∧
      (sh.modelSdMount sd).1.ram = sh.ram := by
  unfold modelSdMount
  split
  · exact ⟨rfl, rfl, rfl⟩
  · split
    · exact ⟨rfl, rfl, rfl⟩
    · split
      · exact ⟨rfl, rfl, rfl⟩
      · exact ⟨rfl, rfl, rfl⟩

/-- A copy that fails does so with a code. -/
theorem copyLoop_error {sd : SdHw} {size : Nat} :
    ∀ {fuel k : Nat} {image : List UInt8} {ram ram' : Psram}
    {rc : ShellRc}, copyLoop sd size fuel k image ram = (ram', .error rc) → rc ≠ .ok
  | 0, _, _, _, _, _, h => by cases h
  | fuel + 1, k, image, ram, ram', rc, h => by
      unfold copyLoop at h
      dsimp only at h
      split at h
      · split at h
        · cases h
          exact nofun
        · split at h
          · cases h
            exact nofun
          · exact copyLoop_error h
      · cases h

/-- A copy that succeeds has copied the whole file. -/
theorem copyLoop_length {sd : SdHw} {size : Nat} : ∀ {fuel k : Nat} {image image' : List UInt8}
    {ram ram' : Psram}, size ≤ image.length + fuel → image.length ≤ size →
      copyLoop sd size fuel k image ram = (ram', .ok image') → image'.length = size
  | 0, _, _, _, _, _, hfuel, hle, h => by
      cases h
      omega
  | fuel + 1, k, image, image', ram, ram', hfuel, hle, h => by
      unfold copyLoop at h
      dsimp only at h
      split at h
      · split at h
        · cases h
        · next got _ =>
            split at h
            · cases h
            · next hne =>
                have hpos := List.length_pos_iff.mpr hne
                have htake : (got.take (min stageBytes (size - image.length))).length ≤
                    size - image.length := by
                  rw [List.length_take]
                  omega
                refine copyLoop_length ?_ ?_ h
                · rw [List.length_append]
                  omega
                · rw [List.length_append]
                  omega
      · cases h
        omega

/-- What a load leaves: it never sets the flag, and where it succeeds it maps an
image of the size of the file, which is the last thing in the log. -/
theorem modelLoadToPsram_spec (sd : SdHw) :
    (sh.modelLoadToPsram sd).1.loaded = sh.loaded ∧
      ((sh.modelLoadToPsram sd).2 = .ok → ∃ (image : List UInt8) (size : UInt64),
        image.length = size.toNat ∧
        (sh.modelLoadToPsram sd).1.store = some (tqStoreInitMapped image size) ∧
          CopiedIntact (sh.modelLoadToPsram sd).1.ram.log image) := by
  have hloaded := (sh.modelSdMount_frame sd).1
  unfold modelLoadToPsram
  generalize sh.modelSdMount sd = mounted at hloaded ⊢
  obtain ⟨sh₁, rc⟩ := mounted
  dsimp only at hloaded ⊢
  split
  · exact ⟨hloaded, nofun⟩
  · split
    · exact ⟨hloaded, nofun⟩
    · split
      · exact ⟨hloaded, nofun⟩
      · split
        · exact ⟨hloaded, nofun⟩
        · split
          · next hcopy => exact ⟨hloaded, fun hok => absurd hok (copyLoop_error hcopy)⟩
          · next hcopy =>
              refine ⟨hloaded, fun _ => ⟨_, _, ?_, rfl, [], _, rfl, nofun⟩⟩
              exact copyLoop_length (Nat.le_add_left _ _) (Nat.zero_le _) hcopy

/-- What a stream leaves: it never sets the flag, and the store is on the card. -/
theorem modelOpenStreaming_spec (sd : SdHw) :
    (sh.modelOpenStreaming cfg sd).1.loaded = sh.loaded ∧
      ((sh.modelOpenStreaming cfg sd).2 = .ok → ∃ size, (sh.modelOpenStreaming cfg sd).1.store =
        some (tqStoreInitStream size sd.serve cfg.streamTile)) := by
  have hloaded := (sh.modelSdMount_frame sd).1
  unfold modelOpenStreaming
  generalize sh.modelSdMount sd = mounted at hloaded ⊢
  obtain ⟨sh₁, rc⟩ := mounted
  dsimp only at hloaded ⊢
  split
  · exact ⟨hloaded, nofun⟩
  · split
    · exact ⟨hloaded, nofun⟩
    · exact ⟨hloaded, fun _ => ⟨_, rfl⟩⟩

/-- `finish_open` leaves the store and the PSRAM as they are. -/
theorem finish_frame (st : TqStore) (maxSeq : Int) (kv8 : Bool) :
    (sh.finish cfg st maxSeq kv8).1.store = sh.store ∧
      (sh.finish cfg st maxSeq kv8).1.ram = sh.ram := by
  unfold finish
  split
  · exact ⟨rfl, rfl⟩
  · exact ⟨rfl, rfl⟩

theorem finish_intact {st : TqStore} {maxSeq : Int} {kv8 : Bool}
    (h : ∀ bytes image, sh.store = some (tqStoreInitMapped image bytes) →
      CopiedIntact sh.ram.log image) :
    (sh.finish cfg st maxSeq kv8).1.Intact := by
  obtain ⟨hstore, hram⟩ := @finish_frame sh cfg st maxSeq kv8
  intro bytes image _ hmapped
  rw [hram]
  rw [hstore] at hmapped
  exact h bytes image hmapped

/-! ## One command -/

theorem cmdLoad_intact (h : sh.Intact) (sd : SdHw) (argc : Nat) (maxSeq : Int) (kv8 : Bool) :
    (sh.cmdLoad cfg sd argc maxSeq kv8).1.Intact := by
  unfold cmdLoad
  split
  · exact h
  · split
    · exact h
    · obtain ⟨hloaded, hok⟩ :=
        @modelLoadToPsram_spec ({ sh with loaded := false }.modelCloseStreaming) sd
      generalize ({ sh with loaded := false }.modelCloseStreaming).modelLoadToPsram sd =
        result at hloaded hok ⊢
      obtain ⟨sh₁, rc⟩ := result
      dsimp only at hloaded hok ⊢
      split
      · next heq =>
          obtain ⟨rfl, rfl⟩ := Prod.mk.inj heq
          obtain ⟨image, size, -, hstore, hcopied⟩ := hok rfl
          rw [hstore]
          refine finish_intact fun bytes image' hmapped => ?_
          rw [hstore] at hmapped
          cases hmapped
          exact hcopied
      · next heq =>
          obtain ⟨rfl, rfl⟩ := Prod.mk.inj heq
          exact intact_of_not_loaded hloaded

theorem cmdStream_intact (h : sh.Intact) (sd : SdHw) (argc : Nat) (maxSeq : Int) (kv8 : Bool) :
    (sh.cmdStream cfg sd argc maxSeq kv8).1.Intact := by
  unfold cmdStream
  split
  · exact h
  · obtain ⟨hloaded, hok⟩ := @modelOpenStreaming_spec { sh with loaded := false } cfg sd
    generalize { sh with loaded := false }.modelOpenStreaming cfg sd = result at hloaded hok ⊢
    obtain ⟨sh₁, rc⟩ := result
    dsimp only at hloaded hok ⊢
    split
    · next heq =>
        obtain ⟨rfl, rfl⟩ := Prod.mk.inj heq
        obtain ⟨size, hstore⟩ := hok rfl
        rw [hstore]
        refine finish_intact fun bytes image hmapped => ?_
        rw [hstore] at hmapped
        cases hmapped
    · next heq =>
        obtain ⟨rfl, rfl⟩ := Prod.mk.inj heq
        exact intact_of_not_loaded hloaded

/-- The engine adds nothing destructive to the log. -/
theorem engine_intact (h : sh.Intact) :
    { sh with ram := { sh.ram with log := .engine :: sh.ram.log } }.Intact := by
  intro bytes image hloaded hstore
  exact (h bytes image hloaded hstore).cons id

/-- **The PSRAM commands** spare a loaded image, or take the flag back. -/
theorem cmdPsram_intact (h : sh.Intact) {sub : String} {sweep : SweepHw} {testBad : UInt32}
    (hspare : sub = "sweep" → ¬ SweepsImage cfg sh sweep) :
    (sh.cmdPsram cfg sub sweep testBad).1.Intact := by
  unfold cmdPsram
  by_cases hsweep : sub = "sweep"
  · rw [if_pos hsweep]
    split
    · next ram hfails =>
        intro bytes image hloaded hstore
        have hno : ¬ sweep.Scribbles cfg.psramMaxClockIndex := by
          intro hscribbles
          refine hspare hsweep ⟨hloaded, ?_, hscribbles⟩
          rw [show sh.store = some (tqStoreInitMapped image bytes) from hstore]
          rfl
        show CopiedIntact ram.log image
        rw [psramClockSweep_fails hfails hno]
        exact h bytes image hloaded hstore
    · exact intact_of_not_loaded rfl
  · rw [if_neg hsweep]
    split
    · dsimp only
      split
      · exact h
      · exact intact_of_not_loaded rfl
    · split
      · exact intact_of_not_loaded rfl
      · exact h

/-- **One command** that spares a loaded image keeps it intact. -/
theorem step_intact (h : sh.Intact) {cmd : ShellCmd} (hspare : SparesImage cfg sh cmd) :
    (sh.step cfg cmd).1.Intact := by
  cases cmd with
  | psram sub sweep testBad => exact cmdPsram_intact h hspare
  | load sd argc maxSeq kv8 => exact cmdLoad_intact h sd argc maxSeq kv8
  | stream sd argc maxSeq kv8 => exact cmdStream_intact h sd argc maxSeq kv8
  | gen rc =>
      unfold step cmdGen
      dsimp only
      split
      · exact engine_intact h
      · exact h
  | sem hash rc =>
      unfold step cmdSem
      dsimp only
      split
      · exact h
      · split
        · exact h
        · split
          · exact h
          · exact engine_intact h
  | info => exact h

end Shell

/-- **Loaded images are intact** in every run without a sweep that fails over a
loaded image. -/
theorem Reachable.intact {cfg : BuildConfig} {sh : Shell} (h : Reachable cfg (SparesImage cfg) sh) :
    sh.Intact := by
  induction h with
  | boot hz bootClockIndex ids sd =>
      refine Shell.intact_of_not_loaded ?_
      exact (Shell.modelSdMount_frame sd).1
  | step _ hspare ih => exact Shell.step_intact ih hspare

/-! ## A sweep that fails -/

/-- The default build. -/
def defaultBuild : BuildConfig := ⟨⟨0, 4096, 2 ^ 32⟩, ⟨0, 262144, 2 ^ 32⟩, 64, 32768, 8⟩

/-- A card with one file. -/
def oneFile (image : List UInt8) : SdHw where
  diskInit := 0
  fsMount := 0
  fsStat := .ok (UInt64.ofNat image.length)
  fsOpen := 0
  fsRead k := .ok (if k = 0 then image else [])
  serve := serve image

/-- A chip of 8 MB that answers at every clock, with `bad` failing words. -/
def oneChip (bad : UInt32) : SweepHw where
  hz _ := 88000000
  ids _ := (0x5D0D, 0)
  bad _ := bad
  settled := (0x5D0D, 0)

/-- The board with a small model loaded. -/
def loadedShell : Shell :=
  ((Shell.boot (oneChip 0).hz 3 (0x5D0D, 0) (oneFile (sampleImage 60 4 1080 1080))).step
    defaultBuild (.load (oneFile (sampleImage 60 4 1080 1080)) 2 0 false)).1

theorem loadedShell_loaded :
    loadedShell.loaded = true ∧ loadedShell.store.any TqStore.resident = true := by
  have hfacts : (loadedShell.loaded && loadedShell.store.any TqStore.resident) = true := by
    decide +kernel
  exact Bool.and_eq_true_iff.mp hfacts

theorem loadedShell_reachable {allowed : Shell → ShellCmd → Prop}
    (h : ∀ sh sd, allowed sh (.load sd 2 0 false)) :
    Reachable defaultBuild allowed loadedShell := by
  have hboot := @Reachable.boot defaultBuild allowed (oneChip 0).hz 3 (0x5D0D, 0)
    (oneFile (sampleImage 60 4 1080 1080))
  have hstep := hboot.step (h _ (oneFile (sampleImage 60 4 1080 1080)))
  rw [loadedShell]
  exact hstep

theorem Shell.gen_loaded {cfg : BuildConfig} {sh : Shell} {rc : ShellRc} (h : sh.loaded = true) :
    (sh.step cfg (.gen rc)).1.loaded = true := by
  unfold step cmdGen
  dsimp only
  rw [if_pos h]
  exact h

/-- It is intact after a load and a session of `gen`. -/
theorem Reachable.intact_gen : ((loadedShell.step defaultBuild (.gen .ok)).1).Intact ∧
    (loadedShell.step defaultBuild (.gen .ok)).1.loaded = true :=
  ⟨Reachable.intact (.step (loadedShell_reachable fun _ _ => trivial) trivial),
    Shell.gen_loaded loadedShell_loaded.1⟩

/-- The sweep over a failing chip finds no clock, and overwrites the last megabyte. -/
theorem sweep_oneChip (ram : Psram) :
    ∃ ram', psramClockSweep (oneChip 1) defaultBuild.psramMaxClockIndex ram = (ram', none) ∧
      ram'.log.head? = some (.memtest (7 * 2 ^ 20) (2 ^ 20)) :=
  ⟨_, rfl, rfl⟩

/-- No image is intact behind it. -/
theorem Shell.sweep_not_intact {sh : Shell} (hloaded : sh.loaded = true)
    (hresident : sh.store.any TqStore.resident = true) :
    ¬ (sh.step defaultBuild (.psram "sweep" (oneChip 1) 0)).1.Intact := by
  intro hintact
  obtain ⟨ram, hsweep, hhead⟩ := sweep_oneChip sh.ram
  have hstep : (sh.step defaultBuild (.psram "sweep" (oneChip 1) 0)).1 =
      { sh with ram := ram } := by
    unfold step cmdPsram
    dsimp only
    rw [if_pos rfl, hsweep]
  rw [hstep] at hintact
  rcases hstore : sh.store with _ | ⟨bytes, image | ⟨read, tileBytes⟩⟩
  · rw [hstore] at hresident
    cases hresident
  · obtain ⟨recent, before, hlog, hrecent⟩ := hintact bytes image hloaded hstore
    have hlog : ram.log = recent ++ .copied image :: before := hlog
    rw [hlog] at hhead
    cases recent with
    | nil => cases hhead
    | cons op recent =>
        obtain rfl := Option.some.inj hhead
        exact hrecent _ List.mem_cons_self trivial
  · rw [hstore] at hresident
    cases hresident

/-- A sweep that finds no clock leaves it loaded, with its last megabyte overwritten. -/
theorem sweep_leaves_loaded :
    ¬ ∀ (cfg : BuildConfig) (sh : Shell), Reachable cfg (fun _ _ => True) sh → sh.Intact := by
  intro hall
  have hintact := hall defaultBuild (loadedShell.step defaultBuild (.psram "sweep" (oneChip 1) 0)).1
    (.step (loadedShell_reachable fun _ _ => trivial) trivial)
  exact Shell.sweep_not_intact loadedShell_loaded.1 loadedShell_loaded.2 hintact

end TinyLlm

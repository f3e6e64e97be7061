/-
# `TinyLlm.Chat.Backend` — `LocalBackend` and `SerialBackend`

Both backends read bytes in pieces and decode each piece for itself.  Of
`LocalBackend` only the loop over the child's output is here.

`SerialBackend` is a machine that takes one step at a time, since `_run` is a
generator: it stops at every text it yields, and whoever asked for the text may
drop it there and `cancel()`.  What the board sends is in the state too, as the
bytes still to be read; how many of them a read returns, and whether a deadline
has passed, is the step's.

The text that comes out depends on where the reads cut it: it is the decoding
of the whole stream just when no read ends inside a character's encoding
(`decoded_iff`).
-/
import TinyLlm.Chat.Command
import TinyLlm.Lib.Utf8

namespace TinyLlm

/-- `chunk.decode("utf-8", "replace")` -/
def decodeReplace (chunk : List UInt8) : Text := Utf8.decode chunk

/-! ## `LocalBackend` -/

namespace LocalBackend

/-- The pieces of the child's output: reading stops at an empty one. -/
def received (reads : List (List UInt8)) : List (List UInt8) := reads.takeWhile (· != [])

/-- The texts that `generate` yields. -/
def generate : List (List UInt8) → List Text
  | [] => []
  | chunk :: reads => if chunk = [] then [] else decodeReplace chunk :: generate reads

theorem generate_eq (reads : List (List UInt8)) :
    generate reads = (received reads).map decodeReplace := by
  induction reads with
  | nil => rfl
  | cons chunk reads ih =>
      unfold generate received
      by_cases h : chunk = []
      · rw [if_pos h, List.takeWhile_cons_of_neg (by simp [h])]
        rfl
      · rw [if_neg h, List.takeWhile_cons_of_pos (by simp [h]), ih]
        rfl

end LocalBackend

/-! ## `SerialBackend` -/

def Event.isDone {F : Type*} : Event F → Bool
  | .done => true
  | _ => false

/-- `PROMPT`, as the board sends it. -/
def promptBytes : List UInt8 := prompt.flatMap String.utf8EncodeChar

/-- What the board sends for a command: everything up to the prompt, and what
comes behind the prompt before the next command. -/
structure Reply where
  body : List UInt8
  rest : List UInt8

/-- A call of `_run`, and what the board will answer. -/
structure Job where
  cmdline : Text
  expectFooter : Bool
  reply : Reply
  /-- The texts go to whoever called `generate`, one at a time. -/
  generates : Bool

/-- Where a call stands. -/
inductive Phase (F : Type*) where
  /-- No call is active. -/
  | idle
  /-- In the loop of `_resync`. -/
  | resync (job : Job) (fr : ShellFramer)
  /-- In the loop of `_drain`. -/
  | drain (job : Job)
  /-- In the loop of `_run`, about to read. -/
  | reading (job : Job) (fr : ShellFramer) (error : Option Text)
  /-- In the loop of `_run`, with events of a piece still to be handled. -/
  | events (job : Job) (fr : ShellFramer) (error : Option Text) (evs : List (Event F))
  /-- Stopped at a `yield`. -/
  | yielded (job : Job) (fr : ShellFramer) (evs : List (Event F))

/-- `class SerialBackend`, and the line it reads from. -/
structure SerialBackend (F : Type*) where
  dirty : Bool
  stats : Option (GenStats F)
  phase : Phase F
  /-- The bytes still to be read, up to the end of the prompt that ends the
  command issued last. -/
  owed : List UInt8
  /-- The bytes behind that prompt. -/
  extra : List UInt8

/-- What happens next. -/
inductive Act (F : Type*) where
  | generate (line : Text) (opts : GenOpts F) (seed : Int) (reply : Reply)
  | load (path : Text) (reply : Reply)
  | info (reply : Reply)
  | cancel
  /-- A read returns so many bytes; has the deadline passed? -/
  | read (n : Nat) (late : Bool)
  /-- A read returns nothing. -/
  | quiet (late : Bool)
  /-- `_resync` finds its deadline passed. -/
  | expire
  /-- The loop over the events goes on. -/
  | next
  /-- The next text is asked for. -/
  | resume
  /-- The generator is dropped, and `cancel()` called. -/
  | abandon

/-- What can be seen of a step. -/
inductive Out where
  /-- `_run` decodes a piece and gives the text to its framer. -/
  | fed (chunk : List UInt8) (text : Text)
  | yielded (text : Text)
  | raised (message : Text)
  /-- What `feed` raised. -/
  | escaped (e : PyError)
  | returned
deriving DecidableEq

namespace SerialBackend

variable {F : Type*}

/-- `SerialBackend(transport)`, with the board at its prompt. -/
def new : SerialBackend F := ⟨false, none, .idle, [], []⟩

/-- `self.ser.read(4096)` -/
def receive (be : SerialBackend F) (n : Nat) : Option (List UInt8 × SerialBackend F) :=
  if 0 < n ∧ n ≤ 4096 ∧ n ≤ (be.owed ++ be.extra).length then
    some ((be.owed ++ be.extra).take n,
      { be with owed := be.owed.drop n, extra := be.extra.drop (n - be.owed.length) })
  else none

/-- The framer of `_resync`: no echo is coming. -/
def resyncFramer : ShellFramer := { ShellFramer.new false [] with state := .stream }

/-- `_run` up to its first read. -/
def start (be : SerialBackend F) (job : Job) : SerialBackend F :=
  { be with phase := if be.dirty then .resync job resyncFramer else .drain job }

/-- `self.ser.write(...)`, and what the board will send for it. -/
def write (be : SerialBackend F) (job : Job) : SerialBackend F :=
  { be with
    owed := be.owed ++ be.extra ++ job.reply.body ++ promptBytes
    extra := job.reply.rest
    phase := .reading job (ShellFramer.new job.expectFooter job.cmdline) none }

section steps

variable (U : PyUnicode) (P : PyFloat F) (Y : PyText F)

/-- `generate`, `load`, `info` and `cancel`. -/
def call (be : SerialBackend F) : Act F → Option (SerialBackend F × List Out)
  | .generate line opts seed reply =>
      let be := { be with stats := none }
      match buildGenCommand Y line opts seed with
      | .error e => some (be, [.raised e])
      | .ok cmd => some (be.start ⟨cmd, true, reply, true⟩, [])
  | .load path reply =>
      some (be.start ⟨"tinyllm load ".toList ++ path, false, reply, false⟩, [])
  | .info reply => some (be.start ⟨"tinyllm info".toList, false, reply, false⟩, [])
  | .cancel => some ({ be with dirty := true }, [])
  | _ => none

/-- `_resync` -/
def resync (be : SerialBackend F) (job : Job) (fr : ShellFramer) :
    Act F → Option (SerialBackend F × List Out)
  | .read n _ =>
      match be.receive n with
      | none => none
      | some (chunk, be) =>
          match (fr.feed U P (decodeReplace chunk) :
              ShellFramer × Except PyError (List (Event F))) with
          | (_, .error e) => some ({ be with phase := .idle }, [.escaped e])
          | (fr', .ok evs) =>
              if evs.any Event.isDone then
                some ({ be with dirty := false, phase := .drain job }, [])
              else some ({ be with phase := .resync job fr' }, [])
  | .quiet _ => some (be, [])
  | .expire =>
      some ({ be with phase := .idle },
        [.raised "device never returned to its prompt; power-cycle it?".toList])
  | _ => none

/-- `_drain`, and the command behind it. -/
def drain (be : SerialBackend F) (job : Job) : Act F → Option (SerialBackend F × List Out)
  | .read n late =>
      match be.receive n with
      | none => none
      | some (_, be) =>
          if late then
            some ({ be with phase := .idle },
              [.raised "device is flooding the line; power-cycle it?".toList])
          else some (be, [])
  | .quiet _ => some (be.write job, [])
  | _ => none

/-- `_run`, where it reads. -/
def runRead (be : SerialBackend F) (job : Job) (fr : ShellFramer) (error : Option Text) :
    Act F → Option (SerialBackend F × List Out)
  | .read n _ =>
      match be.receive n with
      | none => none
      | some (chunk, be) =>
          match (fr.feed U P (decodeReplace chunk) :
              ShellFramer × Except PyError (List (Event F))) with
          | (_, .error e) =>
              -- neither `_run` nor its callers catch it
              some ({ be with phase := .idle },
                [.fed chunk (decodeReplace chunk), .escaped e])
          | (fr', .ok evs) =>
              some ({ be with phase := .events job fr' error evs },
                [.fed chunk (decodeReplace chunk)])
  | .quiet late =>
      if late then
        let timedOut := "timed out waiting for the device after `".toList ++ job.cmdline ++ ['`']
        some ({ be with dirty := true, phase := .idle }, [.raised (error.getD timedOut)])
      else some (be, [])
  | _ => none

/-- `_run`, over the events of a piece.  No error text is empty. -/
def runEvents (be : SerialBackend F) (job : Job) (fr : ShellFramer) (error : Option Text) :
    List (Event F) → SerialBackend F × List Out
  | [] => ({ be with phase := .reading job fr error }, [])
  | .text v :: evs =>
      if error = none then ({ be with phase := .yielded job fr evs }, [.yielded v])
      else ({ be with phase := .events job fr error evs }, [])
  | .stats v :: evs => ({ be with stats := some v, phase := .events job fr error evs }, [])
  | .error v :: evs => ({ be with phase := .events job fr (error.or (some v)) evs }, [])
  | .done :: _ =>
      ({ be with phase := .idle },
        match error with
        | some e => [.raised e]
        | none => [.returned])

/-- One step, if it can be taken. -/
def step (be : SerialBackend F) (a : Act F) : Option (SerialBackend F × List Out) :=
  match be.phase with
  | .idle => be.call Y a
  | .resync job fr => be.resync U P job fr a
  | .drain job => be.drain job a
  | .reading job fr error => be.runRead U P job fr error a
  | .events job fr error evs =>
      match a with
      | .next => some (be.runEvents job fr error evs)
      | _ => none
  | .yielded job fr evs =>
      match a with
      | .resume => some ({ be with phase := .events job fr none evs }, [])
      | .abandon =>
        if job.generates then some ({ be with dirty := true, phase := .idle }, []) else none
      | _ => none

/-- A run, with what can be seen of it. -/
def run : SerialBackend F → List (Act F) → Option (SerialBackend F × List Out)
  | be, [] => some (be, [])
  | be, a :: acts =>
      match be.step U P Y a with
      | none => none
      | some (be', outs) =>
          match run be' acts with
          | none => none
          | some (be'', outs') => some (be'', outs ++ outs')

/-! ## Decoding piece by piece -/

/-- The pieces that `_run` read. -/
def fedChunks (outs : List Out) : List (List UInt8) :=
  outs.filterMap fun
    | .fed chunk _ => some chunk
    | _ => none

/-- The texts that `_run` gave to its framer. -/
def fedTexts (outs : List Out) : List Text :=
  outs.filterMap fun
    | .fed _ text => some text
    | _ => none

/-- Every text given to a framer is a piece, decoded. -/
def Faithful (outs : List Out) : Prop := fedTexts outs = (fedChunks outs).map decodeReplace

theorem Faithful.append {outs outs' : List Out} (h : Faithful outs) (h' : Faithful outs') :
    Faithful (outs ++ outs') := by
  unfold Faithful fedTexts fedChunks at *
  rw [List.filterMap_append, List.filterMap_append, List.map_append, h, h']

variable {U P Y}

theorem faithful_call {be be' : SerialBackend F} {a : Act F} {outs : List Out}
    (h : be.call Y a = some (be', outs)) : Faithful outs := by
  unfold call at h
  split at h
  · split at h
    · cases h; rfl
    · cases h; rfl
  · cases h; rfl
  · cases h; rfl
  · cases h; rfl
  · cases h

theorem faithful_resync {be be' : SerialBackend F} {job : Job} {fr : ShellFramer} {a : Act F}
    {outs : List Out} (h : be.resync U P job fr a = some (be', outs)) : Faithful outs := by
  unfold resync at h
  split at h
  · split at h
    · cases h
    · split at h
      · cases h; rfl
      · split at h
        · cases h; rfl
        · cases h; rfl
  · cases h; rfl
  · cases h; rfl
  · cases h

theorem faithful_drain {be be' : SerialBackend F} {job : Job} {a : Act F} {outs : List Out}
    (h : be.drain job a = some (be', outs)) : Faithful outs := by
  unfold drain at h
  split at h
  · split at h
    · cases h
    · split at h
      · cases h; rfl
      · cases h; rfl
  · cases h; rfl
  · cases h

theorem faithful_runRead {be be' : SerialBackend F} {job : Job} {fr : ShellFramer}
    {error : Option Text} {a : Act F} {outs : List Out}
    (h : be.runRead U P job fr error a = some (be', outs)) : Faithful outs := by
  unfold runRead at h
  split at h
  · split at h
    · cases h
    · split at h
      · cases h; rfl
      · cases h; rfl
  · split at h
    · cases h; rfl
    · cases h; rfl
  · cases h

theorem faithful_runEvents (be : SerialBackend F) (job : Job) (fr : ShellFramer)
    (error : Option Text) (evs : List (Event F)) :
    Faithful (be.runEvents job fr error evs).2 := by
  unfold runEvents
  split
  · rfl
  · split
    · rfl
    · rfl
  · rfl
  · rfl
  · dsimp only
    split
    · rfl
    · rfl

theorem faithful_step {be be' : SerialBackend F} {a : Act F} {outs : List Out}
    (h : be.step U P Y a = some (be', outs)) : Faithful outs := by
  unfold step at h
  split at h
  · exact faithful_call h
  · exact faithful_resync h
  · exact faithful_drain h
  · exact faithful_runRead h
  · next job fr error evs _ =>
      split at h
      · have hev := faithful_runEvents be job fr error evs
        rw [Option.some.inj h] at hev
        exact hev
      · cases h
  · split at h
    · cases h; rfl
    · split at h
      · cases h; rfl
      · cases h
    · cases h

theorem faithful_run {acts : List (Act F)} : ∀ {be be' : SerialBackend F} {outs : List Out},
    be.run U P Y acts = some (be', outs) → Faithful outs := by
  induction acts with
  | nil => intro be be' outs h; cases h; rfl
  | cons a acts ih =>
      intro be be' outs h
      unfold run at h
      split at h
      · cases h
      · next hstep =>
          split at h
          · cases h
          · next hrun =>
              cases h
              exact (faithful_step hstep).append (ih hrun)

end steps

end SerialBackend

/-! ## The text does not depend on the pieces -/

/-- No piece ends with the beginning of a character's encoding that the next
byte carries on. -/
def CutsNoCharacter (chunks : List (List UInt8)) : Prop :=
  ∀ before chunk after, chunks = before ++ chunk :: after → ¬ Utf8.Divides chunk after.flatten

theorem decode_pieces_iff (chunks : List (List UInt8)) :
    (chunks.map decodeReplace).flatten = decodeReplace chunks.flatten ↔ CutsNoCharacter chunks := by
  rw [← List.flatMap_def]
  exact Utf8.decodeAll_eq_iff chunks

/-- The calls of the backend. -/
def Act.isCall {F : Type*} : Act F → Bool
  | .generate .. => true
  | .load .. => true
  | .info _ => true
  | .cancel => true
  | _ => false

/-- The command of `job` was just written. -/
def SerialBackend.Written {F : Type*} (be : SerialBackend F) (job : Job) : Prop :=
  be.phase = .reading job (ShellFramer.new job.expectFooter job.cmdline) none

/-- **Pieces and stream.**  What `LocalBackend.generate` yields is the decoding
of the child's whole output, and what `SerialBackend._run` gives to its framer
that of the whole reply, just when no read ends inside a character. -/
theorem decoded_iff {F : Type*} (U : PyUnicode) (P : PyFloat F) (Y : PyText F) :
    (∀ reads : List (List UInt8),
      (LocalBackend.generate reads).flatten =
          decodeReplace (LocalBackend.received reads).flatten ↔
        CutsNoCharacter (LocalBackend.received reads)) ∧
    (∀ (be be' : SerialBackend F) (job : Job) (acts : List (Act F)) (outs : List Out),
      be.Written job → (∀ a ∈ acts, a.isCall = false) → be.run U P Y acts = some (be', outs) →
      ((SerialBackend.fedTexts outs).flatten =
          decodeReplace (SerialBackend.fedChunks outs).flatten ↔
        CutsNoCharacter (SerialBackend.fedChunks outs))) := by
  refine ⟨fun reads => ?_, fun be be' job acts outs _ _ hrun => ?_⟩
  · rw [LocalBackend.generate_eq]
    exact decode_pieces_iff _
  · have hfaithful : SerialBackend.fedTexts outs =
        (SerialBackend.fedChunks outs).map decodeReplace :=
      SerialBackend.faithful_run hrun
    rw [hfaithful]
    exact decode_pieces_iff _

/-! ## A letter with an accent, in two reads -/

/-- Blanks are spaces and line ends; floats are not asked for. -/
def plainText : PyText Rat := ⟨fun c => c == ' ' || c == '\n', fun _ => []⟩

def accentJob : Job := ⟨"tinyllm info".toList, false, ⟨[], []⟩, false⟩

/-- The board answers with the echo and an `é`. -/
def accentBackend : SerialBackend Rat where
  dirty := false
  stats := none
  phase := .reading accentJob (ShellFramer.new false accentJob.cmdline) none
  owed := accentJob.cmdline.flatMap String.utf8EncodeChar ++ [0x0A, 0xC3, 0xA9, 0x0A] ++ promptBytes
  extra := []

/-- The read that brings the first byte of the letter, and the next. -/
def accentActs : List (Act Rat) := [.read 14 false, .next, .resume, .next, .read 1 false]

def accentOuts : List Out :=
  [.fed (accentJob.cmdline.flatMap String.utf8EncodeChar ++ [0x0A, 0xC3])
      ("tinyllm info".toList ++ ['\n', Utf8.replacement]),
    .yielded [Utf8.replacement], .fed [0xA9] [Utf8.replacement]]

set_option maxRecDepth 10000 in
theorem accent_run : ∃ be',
    accentBackend.run asciiOnly exactFloat plainText accentActs = some (be', accentOuts) := by
  have houts : (accentBackend.run asciiOnly exactFloat plainText accentActs).map Prod.snd =
      some accentOuts := by decide
  obtain ⟨⟨be', outs⟩, hrun, rfl⟩ := Option.map_eq_some_iff.mp houts
  exact ⟨be', hrun⟩

theorem decoded_iff_accent : ∃ be',
    accentBackend.run asciiOnly exactFloat plainText accentActs = some (be', accentOuts) ∧
      ((SerialBackend.fedTexts accentOuts).flatten =
          decodeReplace (SerialBackend.fedChunks accentOuts).flatten ↔
        CutsNoCharacter (SerialBackend.fedChunks accentOuts)) := by
  obtain ⟨be', hrun⟩ := accent_run
  exact ⟨be', hrun, (decoded_iff asciiOnly exactFloat plainText).2 accentBackend be' accentJob
    accentActs accentOuts rfl (by decide) hrun⟩

/-- Both backends give two replacement characters for the letter. -/
theorem decoded_accent :
    (¬ ∀ reads : List (List UInt8), (LocalBackend.generate reads).flatten =
      decodeReplace (LocalBackend.received reads).flatten) ∧
    ¬ ∀ (be be' : SerialBackend Rat) (job : Job) (acts : List (Act Rat)) (outs : List Out),
      be.Written job → (∀ a ∈ acts, a.isCall = false) →
      be.run asciiOnly exactFloat plainText acts = some (be', outs) →
      (SerialBackend.fedTexts outs).flatten =
        decodeReplace (SerialBackend.fedChunks outs).flatten := by
  constructor
  · intro h
    exact absurd (h [[0xC3], [0xA9]]) (by decide +kernel)
  · intro h
    obtain ⟨be', hrun⟩ := accent_run
    exact absurd (h accentBackend be' accentJob accentActs accentOuts rfl (by decide) hrun)
      (by decide +kernel)

end TinyLlm
